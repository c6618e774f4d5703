import Mathlib.Algebra.Group.Nat.Defs
import Mathlib.Data.List.Basic
import Mathlib.Data.List.GetD

/-! Bits in a row, the most significant first: the number they make, and the bytes
they fill. A last byte that is not full is filled up with zeros. -/

namespace GramsTof.Lib.Bits

/-- The number that the bits make. -/
def toNat : List Bool → ℕ
  | [] => 0
  | b :: bs => 2 ^ bs.length * b.toNat + toNat bs

/-- The last `n` bits of a number. -/
def ofNat (n v : ℕ) : List Bool := (List.range n).map fun i => v.testBit (n - 1 - i)

@[simp] theorem length_ofNat (n v : ℕ) : (ofNat n v).length = n := by simp [ofNat]

theorem getElem_ofNat {n v i : ℕ} (h : i < (ofNat n v).length) : (ofNat n v)[i] = v.testBit (n - 1 - i) := by
  simp [ofNat]

theorem toNat_lt (bs : List Bool) : toNat bs < 2 ^ bs.length := by
  induction bs with
  | nil => exact Nat.one_pos
  | cons b bs ih =>
    have hb : b.toNat ≤ 1 := b.toNat_le
    rw [toNat, List.length_cons, pow_succ]
    have := Nat.mul_le_mul_left (2 ^ bs.length) hb
    omega

theorem testBit_toNat {bs : List Bool} {i : ℕ} (hi : i < bs.length) :
    (toNat bs).testBit i = bs[bs.length - 1 - i] := by
  induction bs with
  | nil => cases hi
  | cons b bs ih =>
    rw [toNat, Nat.testBit_two_pow_mul_add _ (toNat_lt bs)]
    rw [List.length_cons] at hi
    split_ifs with hlt
    · rw [ih hlt]
      simp only [List.length_cons, show bs.length + 1 - 1 - i = bs.length - 1 - i + 1 by omega,
        List.getElem_cons_succ]
    · obtain rfl : i = bs.length := by omega
      cases b <;> simp

theorem ofNat_toNat (bs : List Bool) : ofNat bs.length (toNat bs) = bs := by
  refine List.ext_getElem (length_ofNat _ _) fun i hi hi' => ?_
  rw [getElem_ofNat, testBit_toNat (by omega)]
  congr 1
  omega

theorem toNat_ofNat {n v : ℕ} (h : v < 2 ^ n) : toNat (ofNat n v) = v := by
  refine Nat.eq_of_testBit_eq fun i => ?_
  by_cases hi : i < n
  · rw [testBit_toNat (by rwa [length_ofNat]), getElem_ofNat, length_ofNat]
    congr 1
    omega
  · have hpow : 2 ^ n ≤ 2 ^ i := Nat.pow_le_pow_right (by omega) (by omega)
    have hlt := toNat_lt (ofNat n v)
    rw [length_ofNat] at hlt
    rw [Nat.testBit_lt_two_pow (Nat.lt_of_lt_of_le hlt hpow), Nat.testBit_lt_two_pow (Nat.lt_of_lt_of_le h hpow)]

/-! ### Bytes -/

/-- The bits of some bytes. -/
def ofBytes (bytes : List UInt8) : List Bool :=
  (List.range (8 * bytes.length)).map fun i => (bytes.getD (i / 8) 0).toNat.testBit (7 - i % 8)

/-- The bytes that bits fill. -/
def toBytes (bs : List Bool) : List UInt8 :=
  (List.range ((bs.length + 7) / 8)).map fun j =>
    UInt8.ofNat (toNat ((List.range 8).map fun k => bs.getD (8 * j + k) false))

@[simp] theorem length_ofBytes (bytes : List UInt8) : (ofBytes bytes).length = 8 * bytes.length := by
  simp [ofBytes]

@[simp] theorem length_toBytes (bs : List Bool) : (toBytes bs).length = (bs.length + 7) / 8 := by
  simp [toBytes]

/-- What bytes are filled with is got back from them. -/
theorem take_ofBytes_toBytes (bs : List Bool) : (ofBytes (toBytes bs)).take bs.length = bs := by
  refine List.ext_getElem (by simp; omega) fun i hi hi' => ?_
  have hj : i / 8 < (toBytes bs).length := by rw [length_toBytes]; omega
  simp only [List.getElem_take, ofBytes, List.getElem_map, List.getElem_range]
  rw [List.getD_eq_getElem _ _ hj]
  simp only [toBytes, List.getElem_map, List.getElem_range]
  have hlt : toNat ((List.range 8).map fun k => bs.getD (8 * (i / 8) + k) false) < 2 ^ 8 := by
    simpa using toNat_lt ((List.range 8).map fun k => bs.getD (8 * (i / 8) + k) false)
  rw [UInt8.toNat_ofNat_of_lt' hlt, testBit_toNat (by simp; omega)]
  simp only [List.length_map, List.length_range, List.getElem_map, List.getElem_range]
  rw [show 8 * (i / 8) + (8 - 1 - (7 - i % 8)) = i by omega, List.getD_eq_getElem _ _ hi']

end GramsTof.Lib.Bits
