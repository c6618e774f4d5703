import GramsTof.Codec.Canonical
import GramsTof.Lib.Widening
import GramsTof.Telemetry.Host
import Mathlib.Data.List.DropRight

/-! The parts of Python's standard library that the ground bridge reads a payload
with: slices, `struct`, and UTF-8 text. Reading fails where Python raises. -/

namespace GramsTof.Ground

open Codec Lib Telemetry

/-- `payload[start:stop]`. -/
def slice (payload : List UInt8) (start stop : ℕ) : List UInt8 :=
  (payload.drop start).take (stop - start)

/-- `struct.unpack('>I', bs)`. -/
def unpackI : List UInt8 → Option UInt32
  | [b0, b1, b2, b3] => some (pack32 b0 b1 b2 b3)
  | _ => none

/-- `struct.unpack('>f', bs)`; the float is converted, as all of Python's are doubles. -/
def unpackF (bs : List UInt8) : Option UInt64 := (unpackI bs).map Widening.convert

/-- `struct.unpack(f'>nI', bs)`. -/
def unpackIs (n : ℕ) (bs : List UInt8) : Option (List UInt32) :=
  if bs.length = 4 * n then some (words bs 0 n) else none

/-- `struct.unpack('>HHH', bs)`. -/
def unpackHHH : List UInt8 → Option (UInt16 × UInt16 × UInt16)
  | [b0, b1, b2, b3, b4, b5] => some (pack16 b0 b1, pack16 b2 b3, pack16 b4 b5)
  | _ => none

/-- A `str`. -/
abbrev Text := List Char

/-- The text of a byte string from the first byte after `skip` ones that belong to a character
already read. -/
def decodeFrom : ℕ → List UInt8 → Text
  | _, [] => []
  | skip + 1, _ :: bs => decodeFrom skip bs
  | 0, b :: bs =>
    match ByteArray.utf8DecodeChar? (b :: bs).toByteArray 0 with
    | some c => c :: decodeFrom (c.utf8Size - 1) bs
    | none => decodeFrom 0 bs

/-- `bs.decode('utf-8', errors='ignore')`: bytes that begin no character are left out. -/
def decodeUtf8 (bs : List UInt8) : Text := decodeFrom 0 bs

/-- `text.strip('\x00')`. -/
def stripNul (text : Text) : Text :=
  (text.dropWhile fun c => c.toNat = 0).rdropWhile fun c => c.toNat = 0

/-! ### Slices of a packet -/

/-- The bytes of `n` arguments of a packet, from the `i`-th on. -/
theorem slice_wire {p : Packet} {i n : ℕ} (h : i + n ≤ p.argv.length) :
    slice (wire p) (8 + 4 * i) (8 + 4 * (i + n)) = ((p.argv.drop i).take n).flatMap bytes32 := by
  have hhead : (bytes16 0xEB90 ++ bytes16 0x5B6A ++ bytes16 p.code ++ bytes16 p.argc).length = 8 :=
    rfl
  have hrest : (4 * n) ≤ ((p.argv.drop i).flatMap bytes32).length := by
    rw [length_flatMap_bytes32, List.length_drop]
    omega
  have hdrop : (p.argv.flatMap bytes32).drop (4 * i) = (p.argv.drop i).flatMap bytes32 := by
    rw [mul_comm]
    exact Host.big.rep.drop_memory i p.argv
  have htake : ((p.argv.drop i).flatMap bytes32).take (4 * n) =
      ((p.argv.drop i).take n).flatMap bytes32 := by
    rw [mul_comm]
    exact Host.big.rep.take_memory n (p.argv.drop i)
  have hin : 4 * i ≤ (p.argv.flatMap bytes32).length := by
    rw [length_flatMap_bytes32]
    omega
  rw [slice, wire, payload, show 8 + 4 * (i + n) - (8 + 4 * i) = 4 * n by omega, ← List.drop_drop]
  simp only [List.append_assoc]
  rw [← List.append_assoc, ← List.append_assoc, ← List.append_assoc, List.drop_left' hhead,
    List.drop_append_of_le_length hin, hdrop, List.take_append_of_le_length hrest, htake]

theorem unpackI_bytes32 (w : UInt32) : unpackI (bytes32 w) = some w := by
  rw [bytes32, unpackI, pack32_bytes32]

theorem unpackIs_flatMap (ws : List UInt32) :
    unpackIs ws.length (ws.flatMap bytes32) = some ws := by
  have hlen := length_flatMap_bytes32 ws
  have hpre : ws.flatMap bytes32 <+: (ws.flatMap bytes32).drop 0 := List.prefix_rfl
  have h := (flatMap_bytes32_prefix_iff ws (Nat.zero_le _)).mp hpre
  rw [unpackIs, if_pos hlen, h.2]

/-- The `i`-th argument of a packet, read at its offset. -/
theorem unpackI_wire {p : Packet} {i : ℕ} {w : UInt32} {rest : List UInt32}
    (h : p.argv.drop i = w :: rest) :
    unpackI (slice (wire p) (8 + 4 * i) (8 + 4 * (i + 1))) = some w := by
  have hlen : (p.argv.drop i).length = rest.length + 1 := by rw [h, List.length_cons]
  rw [List.length_drop] at hlen
  rw [slice_wire (n := 1) (by omega), h, List.take_succ_cons, List.take_zero,
    List.flatMap_singleton, unpackI_bytes32]

theorem unpackIs_wire {p : Packet} {i n : ℕ} (h : i + n ≤ p.argv.length) :
    unpackIs n (slice (wire p) (8 + 4 * i) (8 + 4 * (i + n))) =
      some ((p.argv.drop i).take n) := by
  have hlen : ((p.argv.drop i).take n).length = n := by
    rw [List.length_take, List.length_drop]
    omega
  have hread := unpackIs_flatMap ((p.argv.drop i).take n)
  rw [slice_wire h]
  rwa [hlen] at hread

theorem unpackHHH_wire (p : Packet) :
    unpackHHH (slice (wire p) 0 6) = some (0xEB90, 0x5B6A, p.code) := by
  have h1 := pack16_bytes16 0xEB90
  have h2 := pack16_bytes16 0x5B6A
  have h3 := pack16_bytes16 p.code
  simp only [slice, wire, payload, bytes16, List.cons_append, List.drop_zero, Nat.sub_zero,
    List.nil_append, List.take_succ_cons, List.take_zero, unpackHHH, h1, h2, h3]

/-! ### ASCII text -/

/-- The characters of an ASCII byte string. -/
def asciiText (bs : List UInt8) : Text := bs.map fun b => Char.ofNat b.toNat

theorem utf8DecodeChar?_ascii {b : UInt8} (hb : b.toNat < 128) (bs : List UInt8) :
    ByteArray.utf8DecodeChar? (b :: bs).toByteArray 0 = some (Char.ofNat b.toNat) ∧
      (Char.ofNat b.toNat).utf8Size = 1 := by
  have hval : (Char.ofNat b.toNat).val.toNat = b.toNat := by
    have hvalid : b.toNat.isValidChar := Or.inl (by omega)
    rw [Char.ofNat, dif_pos hvalid]
    rfl
  have hsize : (Char.ofNat b.toNat).utf8Size = 1 := by
    rw [Char.utf8Size_eq_one_iff, UInt32.le_iff_toNat_le, hval]
    exact Nat.le_of_lt_succ hb
  have hbyte : (Char.ofNat b.toNat).val.toUInt8 = b := by
    apply UInt8.toNat_inj.mp
    rw [UInt32.toNat_toUInt8, hval]
    omega
  have henc : String.utf8EncodeChar (Char.ofNat b.toNat) = [b] := by
    rw [String.utf8EncodeChar_eq_singleton hsize, hbyte]
  have happ : (b :: bs).toByteArray =
      (String.utf8EncodeChar (Char.ofNat b.toNat)).toByteArray ++ bs.toByteArray := by
    rw [henc, ← List.toByteArray_append]
    rfl
  rw [happ]
  exact ⟨ByteArray.utf8DecodeChar?_utf8EncodeChar_append, hsize⟩

theorem decodeUtf8_ascii {bs : List UInt8} (h : ∀ b ∈ bs, b.toNat < 128) :
    decodeUtf8 bs = asciiText bs := by
  rw [decodeUtf8]
  induction bs with
  | nil => rfl
  | cons b bs ih =>
    obtain ⟨hchar, hsize⟩ := utf8DecodeChar?_ascii (h b List.mem_cons_self) bs
    rw [decodeFrom, hchar]
    simp only [hsize, Nat.sub_self, asciiText, List.map_cons, List.cons.injEq, true_and]
    exact ih fun c hc => h c (List.mem_cons_of_mem _ hc)

end GramsTof.Ground
