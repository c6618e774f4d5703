import Mathlib.Algebra.Order.Ring.Nat
import Mathlib.Tactic.Common

/-! Floats as doubles. A float is a sign, an exponent of 8 bits and a fraction of 23; a double has an
exponent of 11 bits and a fraction of 52. Each float is a double; a conversion makes a NaN quiet. -/

namespace GramsTof.Lib.Widening

/-- The exponent and the fraction of the double that a float without its sign is. A small fraction
without an exponent is brought to one. -/
def magnitude (exponent fraction : ℕ) : ℕ :=
  if exponent = 255 then 2047 * 2 ^ 52 + fraction * 2 ^ 29
  else if exponent = 0 then
    if fraction = 0 then 0
    else (fraction.log2 + 874) * 2 ^ 52 + (fraction - 2 ^ fraction.log2) * 2 ^ (52 - fraction.log2)
  else (exponent + 896) * 2 ^ 52 + fraction * 2 ^ 29

/-- The double that a float is, of a NaN with all its bits. -/
def widen (w : UInt32) : UInt64 :=
  UInt64.ofNat (w.toNat / 2 ^ 31 * 2 ^ 63 + magnitude (w.toNat / 2 ^ 23 % 2 ^ 8) (w.toNat % 2 ^ 23))

/-- A NaN without the first bit of its fraction. -/
def Signalling (w : UInt32) : Prop :=
  w.toNat / 2 ^ 23 % 2 ^ 8 = 255 ∧ 0 < w.toNat % 2 ^ 23 ∧ w.toNat % 2 ^ 23 < 2 ^ 22

instance (w : UInt32) : Decidable (Signalling w) := inferInstanceAs (Decidable (_ ∧ _ ∧ _))

/-- The first bit of the fraction of a NaN is set. -/
def quiet (d : UInt64) : UInt64 :=
  if d.toNat / 2 ^ 52 % 2 ^ 11 = 2047 ∧ 0 < d.toNat % 2 ^ 52 ∧ d.toNat % 2 ^ 52 < 2 ^ 51 then d + 0x8000000000000
  else d

/-- A float converted to a double. -/
def convert (w : UInt32) : UInt64 := quiet (widen w)

section

variable {e f : ℕ}

/-- A fraction without an exponent, brought to one. -/
theorem normalized_lt (hf : f ≠ 0) (hlt : f < 2 ^ 23) :
    f.log2 ≤ 22 ∧ (f - 2 ^ f.log2) * 2 ^ (52 - f.log2) < 2 ^ 52 := by
  have hlog : f.log2 < 23 := (Nat.log2_lt hf).mpr hlt
  have hhigh : f < 2 ^ (f.log2 + 1) := Nat.lt_log2_self
  rw [Nat.pow_succ] at hhigh
  refine ⟨by omega, ?_⟩
  calc (f - 2 ^ f.log2) * 2 ^ (52 - f.log2)
      < 2 ^ f.log2 * 2 ^ (52 - f.log2) :=
        Nat.mul_lt_mul_of_pos_right (by omega) (Nat.two_pow_pos _)
    _ = 2 ^ 52 := by rw [← Nat.pow_add, Nat.add_sub_cancel' (by omega)]

/-- A double from a float is a NaN, with the same fraction, or has an exponent below that of one. -/
theorem magnitude_cases (he : e < 2 ^ 8) (hf : f < 2 ^ 23) :
    e = 255 ∧ magnitude e f = 2047 * 2 ^ 52 + f * 2 ^ 29 ∨ e ≠ 255 ∧ magnitude e f < 2047 * 2 ^ 52 := by
  rw [magnitude]
  split_ifs with h255 h0 hf0
  · exact .inl ⟨h255, rfl⟩
  · exact .inr ⟨h255, by omega⟩
  · obtain ⟨hlog, hfraction⟩ := normalized_lt hf0 hf
    exact .inr ⟨h255, by omega⟩
  · exact .inr ⟨h255, by omega⟩

/-- No two floats without a sign are one double. -/
theorem magnitude_injective {e' f' : ℕ} (he : e < 2 ^ 8) (hf : f < 2 ^ 23) (he' : e' < 2 ^ 8) (hf' : f' < 2 ^ 23)
    (heq : magnitude e f = magnitude e' f') : e = e' ∧ f = f' := by
  rw [magnitude, magnitude] at heq
  by_cases hsmall : e = 0 ∧ f ≠ 0
  · obtain ⟨rfl, hf0⟩ := hsmall
    obtain ⟨hlog, hlt⟩ := normalized_lt hf0 hf
    rw [if_neg (by decide), if_pos rfl, if_neg hf0] at heq
    by_cases hsmall' : e' = 0 ∧ f' ≠ 0
    · obtain ⟨rfl, hf0'⟩ := hsmall'
      obtain ⟨hlog', hlt'⟩ := normalized_lt hf0' hf'
      rw [if_neg (by decide), if_pos rfl, if_neg hf0'] at heq
      have hk : f.log2 = f'.log2 := by omega
      rw [hk] at heq
      have hsame := Nat.eq_of_mul_eq_mul_right (Nat.two_pow_pos _) (Nat.add_left_cancel heq)
      have hlow := Nat.log2_self_le hf0
      have hlow' := Nat.log2_self_le hf0'
      rw [hk] at hlow
      exact ⟨rfl, by omega⟩
    · split_ifs at heq <;> omega
  · by_cases hsmall' : e' = 0 ∧ f' ≠ 0
    · obtain ⟨rfl, hf0'⟩ := hsmall'
      obtain ⟨hlog', hlt'⟩ := normalized_lt hf0' hf'
      rw [if_neg (show ¬ 0 = 255 by decide), if_pos (show 0 = 0 from rfl), if_neg hf0'] at heq
      split_ifs at heq <;> omega
    · split_ifs at heq <;> omega

theorem toNat_widen (w : UInt32) : (widen w).toNat =
    w.toNat / 2 ^ 31 * 2 ^ 63 + magnitude (w.toNat / 2 ^ 23 % 2 ^ 8) (w.toNat % 2 ^ 23) := by
  have hw := w.toNat_lt
  have hmag := @magnitude_cases (w.toNat / 2 ^ 23 % 2 ^ 8) (w.toNat % 2 ^ 23) (by omega) (by omega)
  rw [widen, UInt64.toNat_ofNat', Nat.mod_eq_of_lt (by omega)]

/-- A double is at most one float. -/
theorem widen_injective : Function.Injective widen := by
  intro v w heq
  have hv := v.toNat_lt
  have hw := w.toNat_lt
  have hmagv := @magnitude_cases (v.toNat / 2 ^ 23 % 2 ^ 8) (v.toNat % 2 ^ 23) (by omega) (by omega)
  have hmagw := @magnitude_cases (w.toNat / 2 ^ 23 % 2 ^ 8) (w.toNat % 2 ^ 23) (by omega) (by omega)
  have hnat := congrArg UInt64.toNat heq
  rw [toNat_widen, toNat_widen] at hnat
  obtain ⟨hexponent, hfraction⟩ := @magnitude_injective (v.toNat / 2 ^ 23 % 2 ^ 8) (v.toNat % 2 ^ 23)
    (w.toNat / 2 ^ 23 % 2 ^ 8) (w.toNat % 2 ^ 23) (by omega) (by omega) (by omega) (by omega) (by omega)
  refine UInt32.toNat_inj.mp ?_
  omega

/-- The conversion keeps all bits but those of a signalling NaN. -/
theorem convert_eq_widen_iff (w : UInt32) : convert w = widen w ↔ ¬ Signalling w := by
  have hw := w.toNat_lt
  have hmag := @magnitude_cases (w.toNat / 2 ^ 23 % 2 ^ 8) (w.toNat % 2 ^ 23) (by omega) (by omega)
  have hsignals : ((widen w).toNat / 2 ^ 52 % 2 ^ 11 = 2047 ∧ 0 < (widen w).toNat % 2 ^ 52 ∧
      (widen w).toNat % 2 ^ 52 < 2 ^ 51) ↔ Signalling w := by
    rw [Signalling, toNat_widen]
    omega
  rw [convert, quiet, ← hsignals]
  split_ifs with h
  · refine iff_of_false (fun heq => ?_) (not_not.mpr h)
    have hlt := (widen w).toNat_lt
    have hnat := congrArg UInt64.toNat heq
    rw [UInt64.toNat_add] at hnat
    have hbit : (0x8000000000000 : UInt64).toNat = 2 ^ 51 := rfl
    omega
  · exact iff_of_true rfl h

end

end GramsTof.Lib.Widening
