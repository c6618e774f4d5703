import GramsTof.Lib.Traced
import Mathlib.Data.Nat.Bitwise

/-! Big-endian 16- and 32-bit fields of a wire buffer. `TOF_BIG_ENDIAN` is the
order the build selects, so only that branch of the four helpers is modelled. -/

namespace GramsTof.Codec

open Lib

/-- `(ptr[0] << 8) | ptr[1]`. -/
def pack16 (b0 b1 : UInt8) : UInt16 := (b0.toUInt16 <<< 8) ||| b1.toUInt16

/-- `(ptr[0] << 24) | (ptr[1] << 16) | (ptr[2] << 8) | ptr[3]`. -/
def pack32 (b0 b1 b2 b3 : UInt8) : UInt32 :=
  (b0.toUInt32 <<< 24) ||| (b1.toUInt32 <<< 16) ||| (b2.toUInt32 <<< 8) ||| b3.toUInt32

/-- `read16(ptr + i)`. -/
def read16 (buf : List UInt8) (i : ℕ) : Traced UInt16 := do
  let b0 ← Traced.read buf i
  let b1 ← Traced.read buf (i + 1)
  pure (pack16 b0 b1)

/-- `read32(ptr + i)`. -/
def read32 (buf : List UInt8) (i : ℕ) : Traced UInt32 := do
  let b0 ← Traced.read buf i
  let b1 ← Traced.read buf (i + 1)
  let b2 ← Traced.read buf (i + 2)
  let b3 ← Traced.read buf (i + 3)
  pure (pack32 b0 b1 b2 b3)

/-- The two bytes `write16` pushes. -/
def bytes16 (val : UInt16) : List UInt8 :=
  [((val >>> 8) &&& 0xFF).toUInt8, (val &&& 0xFF).toUInt8]

/-- The four bytes `write32` pushes. -/
def bytes32 (val : UInt32) : List UInt8 :=
  [((val >>> 24) &&& 0xFF).toUInt8, ((val >>> 16) &&& 0xFF).toUInt8,
    ((val >>> 8) &&& 0xFF).toUInt8, (val &&& 0xFF).toUInt8]

def write16 (buf : List UInt8) (val : UInt16) : List UInt8 := buf ++ bytes16 val

def write32 (buf : List UInt8) (val : UInt32) : List UInt8 := buf ++ bytes32 val

@[simp] theorem length_bytes16 (val : UInt16) : (bytes16 val).length = 2 := rfl

@[simp] theorem length_bytes32 (val : UInt32) : (bytes32 val).length = 4 := rfl

/-! ### Fields as base-256 numerals -/

theorem shiftLeft_or (a b i : ℕ) (h : b < 2 ^ i) : a <<< i ||| b = a * 2 ^ i + b := by
  rw [← Nat.shiftLeft_add_eq_or_of_lt h, Nat.shiftLeft_eq]

theorem pack16_toNat (b0 b1 : UInt8) :
    (pack16 b0 b1).toNat = b0.toNat * 256 + b1.toNat := by
  have h0 := b0.toNat_lt
  have h1 := b1.toNat_lt
  have hs : b0.toNat <<< 8 < 2 ^ 16 := by rw [Nat.shiftLeft_eq]; omega
  simp only [pack16, UInt16.toNat_or, UInt16.toNat_shiftLeft, UInt8.toNat_toUInt16,
    UInt16.reduceToNat, Nat.reduceMod, Nat.mod_eq_of_lt hs]
  exact shiftLeft_or _ _ 8 (by omega)

theorem pack32_toNat (b0 b1 b2 b3 : UInt8) :
    (pack32 b0 b1 b2 b3).toNat =
      ((b0.toNat * 256 + b1.toNat) * 256 + b2.toNat) * 256 + b3.toNat := by
  have h0 := b0.toNat_lt
  have h1 := b1.toNat_lt
  have h2 := b2.toNat_lt
  have h3 := b3.toNat_lt
  have hs0 : b0.toNat <<< 24 < 2 ^ 32 := by rw [Nat.shiftLeft_eq]; omega
  have hs1 : b1.toNat <<< 16 < 2 ^ 32 := by rw [Nat.shiftLeft_eq]; omega
  have hs2 : b2.toNat <<< 8 < 2 ^ 32 := by rw [Nat.shiftLeft_eq]; omega
  simp only [pack32, UInt32.toNat_or, UInt32.toNat_shiftLeft, UInt8.toNat_toUInt32,
    UInt32.reduceToNat, Nat.reduceMod, Nat.mod_eq_of_lt hs0, Nat.mod_eq_of_lt hs1,
    Nat.mod_eq_of_lt hs2]
  rw [Nat.or_assoc, Nat.or_assoc, shiftLeft_or _ _ 8 (by omega), shiftLeft_or _ _ 16 (by omega),
    shiftLeft_or _ _ 24 (by omega)]
  omega

theorem byte_of_shift16 (val : UInt16) (i : UInt16) (hi : i.toNat < 16) :
    ((val >>> i) &&& 0xFF).toUInt8.toNat = val.toNat / 2 ^ i.toNat % 256 := by
  simp only [UInt16.toNat_toUInt8, UInt16.toNat_and, UInt16.toNat_shiftRight, UInt16.reduceToNat,
    Nat.mod_eq_of_lt hi, Nat.shiftRight_eq_div_pow]
  rw [show (255 : ℕ) = 2 ^ 8 - 1 from rfl, Nat.and_two_pow_sub_one_eq_mod]
  omega

theorem byte_of_shift32 (val : UInt32) (i : UInt32) (hi : i.toNat < 32) :
    ((val >>> i) &&& 0xFF).toUInt8.toNat = val.toNat / 2 ^ i.toNat % 256 := by
  simp only [UInt32.toNat_toUInt8, UInt32.toNat_and, UInt32.toNat_shiftRight, UInt32.reduceToNat,
    Nat.mod_eq_of_lt hi, Nat.shiftRight_eq_div_pow]
  rw [show (255 : ℕ) = 2 ^ 8 - 1 from rfl, Nat.and_two_pow_sub_one_eq_mod]
  omega

/-- Reading back a written 16-bit field. -/
theorem pack16_bytes16 (val : UInt16) :
    pack16 ((val >>> 8) &&& 0xFF).toUInt8 (val &&& 0xFF).toUInt8 = val := by
  have hv := val.toNat_lt
  have h1 := byte_of_shift16 val 8 (by decide)
  have h0 := byte_of_shift16 val 0 (by decide)
  simp only [UInt16.shiftRight_zero] at h0
  apply UInt16.toNat_inj.mp
  rw [pack16_toNat, h1, h0]
  simp only [UInt16.reduceToNat]
  omega

/-- Reading back a written 32-bit field. -/
theorem pack32_bytes32 (val : UInt32) :
    pack32 ((val >>> 24) &&& 0xFF).toUInt8 ((val >>> 16) &&& 0xFF).toUInt8
      ((val >>> 8) &&& 0xFF).toUInt8 (val &&& 0xFF).toUInt8 = val := by
  have hv := val.toNat_lt
  have h3 := byte_of_shift32 val 24 (by decide)
  have h2 := byte_of_shift32 val 16 (by decide)
  have h1 := byte_of_shift32 val 8 (by decide)
  have h0 := byte_of_shift32 val 0 (by decide)
  simp only [UInt32.shiftRight_zero] at h0
  apply UInt32.toNat_inj.mp
  rw [pack32_toNat, h3, h2, h1, h0]
  simp only [UInt32.reduceToNat]
  omega

/-- Two bytes are the encoding of the field they pack to. -/
theorem bytes16_pack16 (b0 b1 : UInt8) : bytes16 (pack16 b0 b1) = [b0, b1] := by
  have hb0 := b0.toNat_lt
  have hb1 := b1.toNat_lt
  have h1 := byte_of_shift16 (pack16 b0 b1) 8 (by decide)
  have h0 := byte_of_shift16 (pack16 b0 b1) 0 (by decide)
  simp only [UInt16.shiftRight_zero] at h0
  rw [pack16_toNat] at h1 h0
  simp only [UInt16.reduceToNat] at h1 h0
  simp only [bytes16, List.cons.injEq, and_true]
  constructor <;> apply UInt8.toNat_inj.mp <;> omega

theorem bytes32_pack32 (b0 b1 b2 b3 : UInt8) :
    bytes32 (pack32 b0 b1 b2 b3) = [b0, b1, b2, b3] := by
  have hb0 := b0.toNat_lt
  have hb1 := b1.toNat_lt
  have hb2 := b2.toNat_lt
  have hb3 := b3.toNat_lt
  have h3 := byte_of_shift32 (pack32 b0 b1 b2 b3) 24 (by decide)
  have h2 := byte_of_shift32 (pack32 b0 b1 b2 b3) 16 (by decide)
  have h1 := byte_of_shift32 (pack32 b0 b1 b2 b3) 8 (by decide)
  have h0 := byte_of_shift32 (pack32 b0 b1 b2 b3) 0 (by decide)
  simp only [UInt32.shiftRight_zero] at h0
  rw [pack32_toNat] at h3 h2 h1 h0
  simp only [UInt32.reduceToNat] at h3 h2 h1 h0
  simp only [bytes32, List.cons.injEq, and_true]
  refine ⟨?_, ?_, ?_, ?_⟩ <;> apply UInt8.toNat_inj.mp
  -- each byte from its own shift: with all four in the context the arithmetic gets slow
  · clear h2 h1 h0
    omega
  · clear h3 h1 h0
    omega
  · clear h3 h2 h0
    omega
  · clear h3 h2 h1
    omega

/-! ### Fields as prefixes of the remaining buffer -/

theorem append_prefix_iff {s r d : List UInt8} :
    s ++ r <+: d ↔ s <+: d ∧ r <+: d.drop s.length := by
  constructor
  · rintro ⟨t, rfl⟩
    exact ⟨⟨r ++ t, by simp⟩, ⟨t, by simp [List.append_assoc]⟩⟩
  · rintro ⟨⟨t, rfl⟩, hr⟩
    rw [List.drop_left] at hr
    exact (List.prefix_append_right_inj s).mpr hr

theorem drop_eq_pair {d : List UInt8} {i : ℕ} (h : i + 2 ≤ d.length) :
    d.drop i = d.getD i default :: d.getD (i + 1) default :: d.drop (i + 2) := by
  rw [List.drop_eq_getElem_cons (by omega), List.drop_eq_getElem_cons (i := i + 1) (by omega)]
  simp [List.getD_eq_getElem?_getD, List.getElem?_eq_getElem (show i < d.length by omega),
    List.getElem?_eq_getElem (show i + 1 < d.length by omega)]

/-- A 16-bit field at `i` is there and reads as `v` exactly when its two bytes stand there. -/
theorem bytes16_prefix_iff {d : List UInt8} {i : ℕ} {v : UInt16} :
    bytes16 v <+: d.drop i ↔ i + 2 ≤ d.length ∧ (read16 d i).val = v := by
  constructor
  · intro h
    have hlen := h.length_le
    rw [length_bytes16, List.length_drop] at hlen
    refine ⟨by omega, ?_⟩
    rw [drop_eq_pair (by omega), bytes16, List.cons_prefix_cons, List.cons_prefix_cons] at h
    simp only [read16, Traced.bind_val, Traced.read_val, Traced.pure_val, ← h.1, ← h.2.1]
    exact pack16_bytes16 v
  · rintro ⟨hlen, rfl⟩
    simp only [read16, Traced.bind_val, Traced.read_val, Traced.pure_val, bytes16_pack16]
    rw [drop_eq_pair hlen]
    exact List.prefix_append [_, _] _

theorem bytes32_prefix_iff {d : List UInt8} {i : ℕ} {v : UInt32} :
    bytes32 v <+: d.drop i ↔ i + 4 ≤ d.length ∧ (read32 d i).val = v := by
  constructor
  · intro h
    have hlen := h.length_le
    rw [length_bytes32, List.length_drop] at hlen
    refine ⟨by omega, ?_⟩
    rw [drop_eq_pair (by omega), drop_eq_pair (i := i + 2) (by omega), bytes32] at h
    simp only [List.cons_prefix_cons] at h
    simp only [read32, Traced.bind_val, Traced.read_val, Traced.pure_val, ← h.1, ← h.2.1,
      ← h.2.2.1, ← h.2.2.2.1]
    exact pack32_bytes32 v
  · rintro ⟨hlen, rfl⟩
    simp only [read32, Traced.bind_val, Traced.read_val, Traced.pure_val, bytes32_pack32]
    rw [drop_eq_pair (by omega), drop_eq_pair (i := i + 2) (by omega)]
    exact List.prefix_append [_, _, _, _] _

@[simp] theorem read16_reads (d : List UInt8) (i : ℕ) : (read16 d i).reads = [i, i + 1] := rfl

end GramsTof.Codec
