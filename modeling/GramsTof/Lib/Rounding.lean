import Mathlib.Algebra.Order.Ring.Nat
import Mathlib.Data.Nat.Log
import Mathlib.Tactic.Ring

/-! Natural numbers rounded to so many significant bits: to the nearest multiple of a power of
two, and half way between two of them to the even one. -/

namespace GramsTof.Lib.Rounding

/-- The nearest multiple of `u`, or of two that are equally near the even one. -/
def nearest (u n : ℕ) : ℕ :=
  u * (n / u + if u < 2 * (n % u) ∨ u = 2 * (n % u) ∧ n / u % 2 = 1 then 1 else 0)

/-- The unit in the last of `p` places. -/
def ulp (p n : ℕ) : ℕ := 2 ^ (n.log2 + 1 - p)

def significant (p n : ℕ) : ℕ := nearest (ulp p n) n

/-- The number has no more than `p` significant bits. -/
def Fits (p n : ℕ) : Prop := ulp p n ∣ n

instance (p n : ℕ) : Decidable (Fits p n) := inferInstanceAs (Decidable (_ ∣ _))

section

variable {u n m p : ℕ}

/-- A multiple that is nearer than half a unit, or an even one half a unit away. -/
theorem nearest_eq_iff (hu : 0 < u) : nearest u n = m ↔
    u ∣ m ∧ (2 * n < 2 * m + u ∧ 2 * m < 2 * n + u ∨
      (2 * n = 2 * m + u ∨ 2 * m = 2 * n + u) ∧ 2 * u ∣ m) := by
  have hn := Nat.div_add_mod n u
  have hr := Nat.mod_lt n hu
  have heven (k : ℕ) : 2 * u ∣ u * k ↔ k % 2 = 0 := by
    rw [Nat.mul_comm 2 u, Nat.mul_dvd_mul_iff_left hu, Nat.dvd_iff_mod_eq_zero]
  rw [nearest]
  generalize n / u = q at hn ⊢
  generalize n % u = r at hn hr ⊢
  constructor
  · rintro rfl
    refine ⟨dvd_mul_right _ _, ?_⟩
    rw [heven, Nat.mul_add]
    split_ifs with hup
    · rw [Nat.mul_one]
      omega
    · rw [Nat.mul_zero]
      omega
  · rintro ⟨⟨k, rfl⟩, hnear⟩
    rw [heven] at hnear
    congr 1
    -- only the multiples on both sides of `n` are near enough
    have hlow : q ≤ k := by
      by_contra h
      have := Nat.mul_le_mul_left u (show k + 1 ≤ q by omega)
      rw [Nat.mul_add] at this
      omega
    have hhigh : k ≤ q + 1 := by
      by_contra h
      have := Nat.mul_le_mul_left u (show q + 2 ≤ k by omega)
      rw [Nat.mul_add] at this
      omega
    obtain rfl | rfl : k = q ∨ k = q + 1 := by omega
    · rw [if_neg (by omega), Nat.add_zero]
    · rw [Nat.mul_add] at hnear
      rw [if_pos (by omega)]

theorem ulp_pos : 0 < ulp p n := Nat.two_pow_pos _

theorem ulp_of_lt (hp : 0 < p) (h : n < 2 ^ p) : ulp p n = 1 := by
  rcases Nat.eq_zero_or_pos n with rfl | hn
  · have hlog : 0 + 1 - p = 0 := by omega
    rw [ulp, Nat.log2_zero, hlog, Nat.pow_zero]
  · have hlog := (Nat.log2_lt (Nat.ne_of_gt hn)).mpr h
    rw [ulp, Nat.sub_eq_zero_of_le (by omega), Nat.pow_zero]

theorem fits_of_lt (hp : 0 < p) (h : n < 2 ^ p) : Fits p n := by
  rw [Fits, ulp_of_lt hp h]
  exact one_dvd n

/-- Below a power of two the unit is no greater than it is just below that power. -/
theorem ulp_dvd {w : ℕ} (hw : 0 < w) (h : n < 2 ^ w) : ulp p n ∣ 2 ^ (w - p) := by
  rw [ulp]
  refine Nat.pow_dvd_pow 2 (Nat.sub_le_sub_right ?_ p)
  rcases Nat.eq_zero_or_pos n with rfl | hn
  · rw [Nat.log2_zero]
    omega
  · exact (Nat.log2_lt (Nat.ne_of_gt hn)).mpr h

theorem ulp_of_bounds {k : ℕ} (hlow : 2 ^ k ≤ n) (hhigh : n < 2 ^ (k + 1)) :
    ulp p n = 2 ^ (k + 1 - p) := by
  have hn : n ≠ 0 := by
    rintro rfl
    exact absurd hlow (Nat.not_le.mpr (Nat.two_pow_pos k))
  have hlog : n.log2 = k := (Nat.log2_eq_iff hn).mpr ⟨hlow, hhigh⟩
  rw [ulp, hlog]

end

end GramsTof.Lib.Rounding
