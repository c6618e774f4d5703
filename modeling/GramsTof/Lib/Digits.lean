import Mathlib.Data.Nat.Notation
import Mathlib.Tactic.Common
import Mathlib.Tactic.IntervalCases

/-! Decimal numbers of a fixed width, and how they compare as texts. -/

namespace GramsTof.Lib

/-- The last `w` decimal digits of `n`. -/
def padded : ℕ → ℕ → List Char
  | 0, _ => []
  | w + 1, n => padded w (n / 10) ++ [Nat.digitChar (n % 10)]

section Order

variable {α : Type*} [LT α]

/-- Texts compare by their first parts, if these have the same length. -/
theorem append_lt_append_iff {u v x y : List α} (h : u.length = v.length) :
    u ++ x < v ++ y ↔ u < v ∨ u = v ∧ x < y := by
  induction u generalizing v with
  | nil =>
    cases v with
    | nil => simp
    | cons b v => cases h
  | cons a u ih =>
    cases v with
    | nil => cases h
    | cons b v =>
      have huv := ih (v := v) (by simpa using h)
      simp only [List.cons_append, List.cons_lt_cons_iff, huv, List.cons.injEq]
      constructor
      · rintro (hab | ⟨rfl, huv | ⟨rfl, hxy⟩⟩)
        · exact .inl (.inl hab)
        · exact .inl (.inr ⟨rfl, huv⟩)
        · exact .inr ⟨⟨rfl, rfl⟩, hxy⟩
      · rintro ((hab | ⟨rfl, huv⟩) | ⟨⟨rfl, rfl⟩, hxy⟩)
        · exact .inl hab
        · exact .inr ⟨rfl, .inl huv⟩
        · exact .inr ⟨rfl, .inr ⟨rfl, hxy⟩⟩

end Order

@[simp] theorem length_padded (w n : ℕ) : (padded w n).length = w := by
  induction w generalizing n with
  | zero => rfl
  | succ w ih => simp [padded, ih]

theorem digitChar_lt_iff {a b : ℕ} (ha : a < 10) (hb : b < 10) :
    Nat.digitChar a < Nat.digitChar b ↔ a < b := by
  interval_cases a <;> interval_cases b <;> decide

theorem digitChar_inj {a b : ℕ} (ha : a < 10) (hb : b < 10) :
    Nat.digitChar a = Nat.digitChar b ↔ a = b := by
  interval_cases a <;> interval_cases b <;> decide

theorem isDigit_padded {w n : ℕ} {c : Char} (h : c ∈ padded w n) : c.isDigit := by
  induction w generalizing n with
  | zero => cases h
  | succ w ih =>
    rcases List.mem_append.mp h with h | h
    · exact ih h
    · rw [List.mem_singleton.mp h]
      have hlt : n % 10 < 10 := Nat.mod_lt _ (by decide)
      generalize n % 10 = d at hlt
      interval_cases d <;> decide

theorem padded_inj {w n m : ℕ} (hn : n < 10 ^ w) (hm : m < 10 ^ w) :
    padded w n = padded w m ↔ n = m := by
  induction w generalizing n m with
  | zero => simp [Nat.lt_one_iff.mp hn, Nat.lt_one_iff.mp hm]
  | succ w ih =>
    rw [Nat.pow_succ] at hn hm
    rw [padded, padded, List.append_singleton_inj, ih (by omega) (by omega),
      digitChar_inj (Nat.mod_lt _ (by decide)) (Nat.mod_lt _ (by decide))]
    omega

/-- Numbers of one width compare as their texts. -/
theorem padded_lt_padded_iff {w n m : ℕ} (hn : n < 10 ^ w) (hm : m < 10 ^ w) :
    padded w n < padded w m ↔ n < m := by
  induction w generalizing n m with
  | zero => simp [padded, Nat.lt_one_iff.mp hn, Nat.lt_one_iff.mp hm]
  | succ w ih =>
    rw [Nat.pow_succ] at hn hm
    have hdigit : [Nat.digitChar (n % 10)] < [Nat.digitChar (m % 10)] ↔ n % 10 < m % 10 := by
      rw [List.cons_lt_cons_iff, digitChar_lt_iff (Nat.mod_lt _ (by decide))
        (Nat.mod_lt _ (by decide))]
      simp
    rw [padded, padded, append_lt_append_iff (by simp), ih (by omega) (by omega),
      padded_inj (by omega) (by omega), hdigit]
    omega

theorem padded_append_lt_iff {w n m : ℕ} {x y : List Char} (hn : n < 10 ^ w) (hm : m < 10 ^ w) :
    padded w n ++ x < padded w m ++ y ↔ n < m ∨ n = m ∧ x < y := by
  rw [append_lt_append_iff (by simp), padded_lt_padded_iff hn hm, padded_inj hn hm]

theorem ofDigitChars_padded {w n : ℕ} (hn : n < 10 ^ w) :
    Nat.ofDigitChars 10 (padded w n) 0 = n := by
  induction w generalizing n with
  | zero => simp [padded, Nat.lt_one_iff.mp hn]
  | succ w ih =>
    rw [Nat.pow_succ] at hn
    rw [padded, Nat.ofDigitChars_append, ih (by omega),
      Nat.ofDigitChars_cons_digitChar_of_lt_ten (Nat.mod_lt _ (by decide)), Nat.ofDigitChars_nil]
    omega

/-! ### Numbers without leading zeros -/

theorem isDigit_toDigits {n : ℕ} {c : Char} (h : c ∈ Nat.toDigits 10 n) : c.isDigit :=
  Nat.isDigit_of_mem_toDigits (by decide) (by decide) h

theorem toDigits_eq_padded (n : ℕ) :
    Nat.toDigits 10 n = padded (Nat.toDigits 10 n).length n := by
  induction n using Nat.strong_induction_on with
  | _ n ih =>
    rw [Nat.toDigits_eq_if (by decide)]
    split_ifs with hlt
    · rw [List.length_singleton, padded, padded, Nat.mod_eq_of_lt hlt, List.nil_append]
    · rw [List.length_append, List.length_singleton, padded, ← ih (n / 10) (by omega)]

theorem lt_pow_length_toDigits (n : ℕ) : n < 10 ^ (Nat.toDigits 10 n).length :=
  (Nat.length_toDigits_le_iff (by decide) Nat.length_toDigits_pos).mp (Nat.le_refl _)

theorem length_toDigits {w n : ℕ} (hlow : 10 ^ w ≤ n) (hn : n < 10 ^ (w + 1)) :
    (Nat.toDigits 10 n).length = w + 1 := by
  refine Nat.le_antisymm ((Nat.length_toDigits_le_iff (by decide) (Nat.succ_pos w)).mpr hn) ?_
  have hpow := Nat.lt_of_le_of_lt hlow (lt_pow_length_toDigits n)
  exact (Nat.pow_lt_pow_iff_right (by decide)).mp hpow

theorem length_toDigits_mono {n m : ℕ} (h : n ≤ m) :
    (Nat.toDigits 10 n).length ≤ (Nat.toDigits 10 m).length :=
  (Nat.length_toDigits_le_iff (by decide) Nat.length_toDigits_pos).mpr
    (Nat.lt_of_le_of_lt h (lt_pow_length_toDigits m))

/-- The leading digits are those of a quotient. -/
theorem toDigits_split {n j : ℕ} (h : j < (Nat.toDigits 10 n).length) :
    ∃ rest, Nat.toDigits 10 n = Nat.toDigits 10 (n / 10 ^ j) ++ rest ∧ rest.length = j := by
  induction j with
  | zero => exact ⟨[], by simp⟩
  | succ j ih =>
    obtain ⟨rest, hrest, hlen⟩ := ih (by omega)
    have hbase : 10 ≤ n / 10 ^ j := by
      by_contra hlt
      have hone := (Nat.length_toDigits_le_iff (k := 1) (b := 10) (by decide) (by decide)).mpr
        (Nat.lt_of_not_le hlt)
      rw [hrest, List.length_append] at h
      omega
    rw [Nat.toDigits_of_base_le (by decide) hbase, Nat.div_div_eq_div_mul, ← Nat.pow_succ,
      List.append_assoc] at hrest
    exact ⟨_, hrest, by simp [hlen]⟩

theorem toDigits_lt_iff {n m : ℕ} (h : (Nat.toDigits 10 n).length = (Nat.toDigits 10 m).length) :
    (Nat.toDigits 10 n < Nat.toDigits 10 m ↔ n < m) ∧
      (Nat.toDigits 10 n = Nat.toDigits 10 m ↔ n = m) := by
  have hn := lt_pow_length_toDigits n
  have hm := lt_pow_length_toDigits m
  rw [toDigits_eq_padded n, toDigits_eq_padded m, h]
  rw [h] at hn
  exact ⟨padded_lt_padded_iff hn hm, padded_inj hn hm⟩

/-- A number before a larger one, both followed by a character above the digits: as texts they
compare right only if the leading digits do. -/
theorem toDigits_append_lt_iff {n m : ℕ} {z : Char} {x y : List Char} (h : n < m)
    (hz : ∀ c : Char, c.isDigit → c < z) :
    Nat.toDigits 10 n ++ z :: x < Nat.toDigits 10 m ++ z :: y ↔
      n < m / 10 ^ ((Nat.toDigits 10 m).length - (Nat.toDigits 10 n).length) := by
  have hle := length_toDigits_mono (Nat.le_of_lt h)
  have hpos : 0 < (Nat.toDigits 10 n).length := Nat.length_toDigits_pos
  obtain ⟨rest, hrest, hlen⟩ := toDigits_split (n := m)
    (j := (Nat.toDigits 10 m).length - (Nat.toDigits 10 n).length) (by omega)
  generalize hj : (Nat.toDigits 10 m).length - (Nat.toDigits 10 n).length = j at hrest hlen
  have hlength : (Nat.toDigits 10 n).length = (Nat.toDigits 10 (m / 10 ^ j)).length := by
    have hsum := congrArg List.length hrest
    rw [List.length_append] at hsum
    omega
  obtain ⟨hlt, heq⟩ := toDigits_lt_iff hlength
  have hdigits : ∀ c ∈ rest, c < z := fun c hc =>
    hz c (isDigit_toDigits (n := m) (hrest ▸ List.mem_append_right _ hc))
  rw [hrest, List.append_assoc, append_lt_append_iff hlength, hlt, heq]
  refine ⟨fun hor => hor.resolve_right ?_, .inl⟩
  rintro ⟨hsame, hz'⟩
  cases rest with
  | nil =>
    have hzero : j = 0 := hlen.symm
    rw [hzero, Nat.pow_zero, Nat.div_one] at hsame
    omega
  | cons c rest =>
    have hc := hdigits c List.mem_cons_self
    rw [List.cons_append, List.cons_lt_cons_iff] at hz'
    rcases hz' with hlt | ⟨heq, -⟩
    · exact Char.lt_irrefl c (Char.lt_trans hc hlt)
    · exact Char.lt_irrefl c (heq ▸ hc)

/-! ### Reading -/

theorem takeWhile_digits {digits rest : List Char} (hd : ∀ c ∈ digits, c.isDigit)
    (hr : ∀ c ∈ rest.head?, c.isDigit = false) :
    (digits ++ rest).takeWhile Char.isDigit = digits := by
  rw [List.takeWhile_append_of_pos hd]
  cases rest with
  | nil => exact List.append_nil digits
  | cons c rest =>
    have hc := hr c rfl
    rw [List.takeWhile_cons_of_neg (by simp [hc]), List.append_nil]

/-- A blank of the C locale. -/
def isspace (c : Char) : Bool := c = ' ' ∨ 9 ≤ c.toNat ∧ c.toNat ≤ 13

end GramsTof.Lib
