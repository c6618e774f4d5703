import GramsTof.Lib.Machine
import Mathlib.Algebra.BigOperators.Group.Finset.Basic
import Mathlib.Algebra.Order.BigOperators.Group.Finset
import Mathlib.Data.Fintype.BigOperators

/-! Threads that each work on a part of the state of their own. Whatever the interleaving, every thread
goes through the states it would go through alone, so that all runs end in one state. -/

namespace GramsTof.Lib

variable {ι σ : Type*}

/-! ### A thread alone -/

/-- The state after so many steps of a thread. -/
def iterate (f : σ → Option σ) : ℕ → σ → Option σ
  | 0, x => some x
  | n + 1, x => (f x).bind (iterate f n)

section

variable {f : σ → Option σ} {x y z : σ} {m n : ℕ}

theorem iterate_add : iterate f (m + n) x = (iterate f m x).bind (iterate f n) := by
  induction m generalizing x with
  | zero => rw [Nat.zero_add]; rfl
  | succ m ih =>
    rw [Nat.succ_add, iterate, iterate, Option.bind_assoc]
    exact Option.bind_congr fun x' _ => ih

theorem iterate_succ (h : iterate f n x = some y) : iterate f (n + 1) x = f y := by
  rw [iterate_add, h]
  exact Option.bind_fun_some _

/-- The thread takes `n` steps from `x`, and stands still at `y`. -/
structure Ends (f : σ → Option σ) (x : σ) (n : ℕ) (y : σ) : Prop where
  reaches : iterate f n x = some y
  still : f y = none

theorem Ends.refl (h : f x = none) : Ends f x 0 x := ⟨rfl, h⟩

theorem Ends.step (hx : f x = some y) (h : Ends f y n z) : Ends f x (n + 1) z where
  reaches := by rw [iterate, hx]; exact h.reaches
  still := h.still

/-- Any number of steps of a thread that ends leaves it with the rest of them. -/
theorem Ends.split (h : Ends f x n y) (hm : iterate f m x = some z) : m ≤ n ∧ Ends f z (n - m) y := by
  induction m generalizing x n with
  | zero =>
    cases hm
    exact ⟨Nat.zero_le _, h⟩
  | succ m ih =>
    obtain ⟨x', hx', hm'⟩ := Option.bind_eq_some_iff.mp hm
    cases n with
    | zero =>
      cases h.reaches
      rw [h.still] at hx'
      cases hx'
    | succ n =>
      obtain ⟨x'', hx'', hn⟩ := Option.bind_eq_some_iff.mp h.reaches
      obtain rfl : x' = x'' := Option.some.inj (hx'.symm.trans hx'')
      obtain ⟨hle, hrest⟩ := ih ⟨hn, h.still⟩ hm'
      rw [Nat.succ_sub_succ]
      exact ⟨Nat.succ_le_succ hle, hrest⟩

theorem Ends.still_iff (h : Ends f x n y) : f x = none ↔ n = 0 := by
  constructor
  · intro hx
    cases n with
    | zero => rfl
    | succ n =>
      have hn := h.reaches
      rw [iterate, hx] at hn
      cases hn
  · rintro rfl
    cases h.reaches
    exact h.still

end

/-! ### The threads together -/

variable [DecidableEq ι]

/-- The machine whose labels are the threads. -/
def separate (init : ι → σ → Prop) (step : ι → σ → Option σ) : Machine (ι → σ) ι where
  init s := ∀ i, init i (s i)
  step s i := (step i (s i)).map (Function.update s i)

variable {init : ι → σ → Prop} {step : ι → σ → Option σ} {C : (ι → σ) → ι → Prop} {s t e : ι → σ}
  {as : List ι} {k : ι → ℕ}

/-- Each thread has taken its own steps. -/
theorem iterate_of_steps (h : (separate init step).Steps C s as t) (i : ι) :
    iterate (step i) (as.count i) (s i) = some (t i) := by
  induction h with
  | nil => rfl
  | @snoc as j t u _ _ hu ih =>
    obtain ⟨x, hx, rfl⟩ := Option.map_eq_some_iff.mp hu
    rw [List.count_append, List.count_singleton]
    by_cases hij : j = i
    · subst hij
      rw [Function.update_self, beq_self_eq_true, if_pos rfl, iterate_succ ih, hx]
    · rw [Function.update_of_ne (Ne.symm hij), beq_false_of_ne hij]
      exact ih

variable [Fintype ι]

/-- The steps of threads that end are bounded. -/
theorem length_le_of_ends (he : ∀ i, Ends (step i) (s i) (k i) (e i))
    (h : (separate init step).Steps C s as t) : as.length ≤ ∑ i, k i := by
  have hsum : as.length = ∑ i, as.count i := by
    simpa using (Multiset.sum_count_eq_card (s := Finset.univ) (m := (as : Multiset ι)) (by simp)).symm
  rw [hsum]
  refine Finset.sum_le_sum fun i _ => ?_
  exact ((he i).split (iterate_of_steps h i)).1

omit [Fintype ι] in
/-- All runs of threads that end come to the same state. -/
theorem eq_of_still (he : ∀ i, Ends (step i) (s i) (k i) (e i))
    (h : (separate init step).Steps C s as t) (hstill : ∀ i, step i (t i) = none) : t = e := by
  funext i
  obtain ⟨-, hrest⟩ := (he i).split (iterate_of_steps h i)
  have h0 := hrest.still_iff.mp (hstill i)
  rw [h0] at hrest
  exact Option.some.inj hrest.reaches

/-- Every run of threads that end can be brought to that state. -/
theorem exists_steps_of_ends (he : ∀ i, Ends (step i) (s i) (k i) (e i))
    (h : (separate init step).Steps (fun _ _ => True) s as t) :
    ∃ bs, (separate init step).Steps (fun _ _ => True) s (as ++ bs) e := by
  generalize hn : (∑ i, k i) - as.length = n
  induction n using Nat.strong_induction_on generalizing as t with
  | _ n ih =>
    by_cases hstill : ∀ i, step i (t i) = none
    · obtain rfl := eq_of_still he h hstill
      exact ⟨[], by rwa [List.append_nil]⟩
    · obtain ⟨i, hi⟩ := not_forall.mp hstill
      obtain ⟨x, hx⟩ := Option.ne_none_iff_exists'.mp hi
      have hnext : (separate init step).Steps (fun _ _ => True) s (as ++ [i]) (Function.update t i x) :=
        .snoc h trivial (Option.map_eq_some_iff.mpr ⟨x, hx, rfl⟩)
      have hle := length_le_of_ends he hnext
      rw [List.length_append, List.length_singleton] at hle
      obtain ⟨bs, hbs⟩ := ih (n - 1) (by omega) hnext
        (by rw [List.length_append, List.length_singleton]; omega)
      exact ⟨i :: bs, by simpa using hbs⟩

end GramsTof.Lib
