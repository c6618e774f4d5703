import Mathlib.Data.List.Basic
import Mathlib.Data.List.Perm.Basic

/-! A two-ended queue in which urgent elements enter at the front and ordinary
ones at the back. The urgent elements always form a prefix, so the element taken
from the front is urgent whenever one is waiting, and the ordinary elements keep
their order of arrival. -/

namespace GramsTof.Lib.Overtaking

variable {α : Type*} (urgent : α → Bool)

/-- Insert at the end the element is entitled to. -/
def enqueue (q : List α) (x : α) : List α := if urgent x then x :: q else q ++ [x]

/-- No ordinary element stands before an urgent one. -/
def UrgentFirst (q : List α) : Prop := q.Pairwise fun x y => urgent y = true → urgent x = true

variable {urgent} {q : List α} {x : α}

theorem urgentFirst_nil : UrgentFirst urgent ([] : List α) := List.Pairwise.nil

theorem UrgentFirst.enqueue (h : UrgentFirst urgent q) (x : α) :
    UrgentFirst urgent (enqueue urgent q x) := by
  rw [Overtaking.enqueue]
  split_ifs with hx
  · exact List.pairwise_cons.mpr ⟨fun _ _ _ => hx, h⟩
  · refine List.pairwise_append.mpr ⟨h, List.pairwise_singleton _ _, fun a _ b hb hub => ?_⟩
    rw [List.mem_singleton.mp hb] at hub
    exact absurd hub hx

theorem UrgentFirst.tail (h : UrgentFirst urgent (x :: q)) : UrgentFirst urgent q :=
  (List.pairwise_cons.mp h).2

/-- The front element is urgent when any element is. -/
theorem UrgentFirst.front (h : UrgentFirst urgent (x :: q)) {y : α} (hy : y ∈ x :: q)
    (hu : urgent y = true) : urgent x = true := by
  rcases List.mem_cons.mp hy with rfl | hy
  · exact hu
  · exact (List.pairwise_cons.mp h).1 y hy hu

theorem enqueue_perm (urgent : α → Bool) (q : List α) (x : α) : (enqueue urgent q x).Perm (x :: q) := by
  rw [enqueue]
  split_ifs
  · exact List.Perm.refl _
  · exact List.perm_append_singleton x q

/-- The ordinary elements stand in order of arrival. -/
theorem filter_enqueue (urgent : α → Bool) (q : List α) (x : α) :
    (enqueue urgent q x).filter (fun y => !urgent y) =
      q.filter (fun y => !urgent y) ++ [x].filter (fun y => !urgent y) := by
  rw [enqueue]
  split_ifs with hx <;> simp [hx]

/-! ### Positions -/

section Positions

variable [BEq α] [LawfulBEq α] {p : List α} {y e : α}

theorem idxOf_insert (p q : List α) (hx : x ≠ e) :
    (p ++ e :: q).idxOf x = (p ++ q).idxOf x + if x ∈ p then 0 else 1 := by
  by_cases hxp : x ∈ p
  · rw [List.idxOf_append_of_mem hxp, List.idxOf_append_of_mem hxp, if_pos hxp, Nat.add_zero]
  · rw [List.idxOf_append_of_notMem hxp, List.idxOf_append_of_notMem hxp, if_neg hxp,
      List.idxOf_cons_ne _ hx.symm]
    omega

theorem idxOf_lt_of_mem_of_notMem (p q : List α) (hx : x ∈ p) (hy : y ∉ p) :
    (p ++ q).idxOf x < (p ++ q).idxOf y := by
  rw [List.idxOf_append_of_mem hx, List.idxOf_append_of_notMem hy]
  exact Nat.lt_add_right _ (List.idxOf_lt_length_of_mem hx)

/-- Insertion keeps the order of the other elements. -/
theorem idxOf_insert_lt (p q : List α) (hx : x ≠ e) (hy : y ≠ e) :
    (p ++ e :: q).idxOf x < (p ++ e :: q).idxOf y ↔ (p ++ q).idxOf x < (p ++ q).idxOf y := by
  rw [idxOf_insert p q hx, idxOf_insert p q hy]
  by_cases hxp : x ∈ p <;> by_cases hyp : y ∈ p
  · rw [if_pos hxp, if_pos hyp]; rfl
  · have := idxOf_lt_of_mem_of_notMem p q hxp hyp
    rw [if_pos hxp, if_neg hyp]; omega
  · have := idxOf_lt_of_mem_of_notMem p q hyp hxp
    rw [if_neg hxp, if_pos hyp]; omega
  · rw [if_neg hxp, if_neg hyp]; omega

/-- The inserted element follows what stands before its place. -/
theorem idxOf_lt_inserted (p q : List α) (he : e ∉ p) :
    (p ++ e :: q).idxOf x < (p ++ e :: q).idxOf e ↔ x ∈ p := by
  rw [List.idxOf_append_of_notMem he, List.idxOf_cons_self, Nat.add_zero]
  constructor
  · intro h
    by_contra hxp
    rw [List.idxOf_append_of_notMem hxp] at h
    omega
  · intro hxp
    rw [List.idxOf_append_of_mem hxp]
    exact List.idxOf_lt_length_of_mem hxp

end Positions

end GramsTof.Lib.Overtaking
