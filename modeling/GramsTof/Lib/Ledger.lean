import Mathlib.Data.List.Basic

/-! What has been created and what has been released. A resource is named by the
number of those created before it, so that names are never reused. -/

namespace GramsTof.Lib

variable {α : Type*}

structure Ledger (α : Type*) where
  created : List α
  released : List ℕ
  deriving DecidableEq, Repr

namespace Ledger

def empty : Ledger α := ⟨[], []⟩

/-- The name of the next resource. -/
def next (l : Ledger α) : ℕ := l.created.length

def create (l : Ledger α) (x : α) : Ledger α := { l with created := l.created ++ [x] }

def release (l : Ledger α) (n : ℕ) : Ledger α := { l with released := l.released ++ [n] }

/-- `n` names `x`, which is not released. -/
def Live (l : Ledger α) (n : ℕ) (x : α) : Prop := l.created[n]? = some x ∧ n ∉ l.released

/-- Nothing is released from `l` to `l'`. -/
structure Grows (l l' : Ledger α) : Prop where
  released : l'.released = l.released
  created : l.created <+: l'.created

variable {l l' l'' : Ledger α} {n : ℕ} {x : α}

@[simp] theorem next_create (l : Ledger α) (x : α) : (l.create x).next = l.next + 1 := by
  simp [next, create]

@[simp] theorem released_create (l : Ledger α) (x : α) : (l.create x).released = l.released := rfl

theorem foldl_release (l : Ledger α) (ns : List ℕ) :
    ns.foldl release l = { l with released := l.released ++ ns } := by
  induction ns generalizing l with
  | nil => simp
  | cons n ns ih => rw [List.foldl_cons, ih, release, List.append_assoc, List.singleton_append]

theorem Grows.refl (l : Ledger α) : l.Grows l := ⟨rfl, List.prefix_refl _⟩

theorem Grows.trans (h : l.Grows l') (h' : l'.Grows l'') : l.Grows l'' :=
  ⟨h'.released.trans h.released, h.created.trans h'.created⟩

theorem grows_create (l : Ledger α) (x : α) : l.Grows (l.create x) :=
  ⟨rfl, List.prefix_append _ _⟩

theorem Grows.next_le (h : l.Grows l') : l.next ≤ l'.next := h.created.length_le

theorem Live.lt (h : l.Live n x) : n < l.next := (List.getElem?_eq_some_iff.mp h.1).1

theorem Live.grows (hx : l.Live n x) (h : l.Grows l') : l'.Live n x := by
  obtain ⟨rest, hrest⟩ := h.created
  refine ⟨?_, by rw [h.released]; exact hx.2⟩
  rw [← hrest, List.getElem?_append_left hx.lt]
  exact hx.1

theorem live_create (h : l.next ∉ l.released) : (l.create x).Live l.next x := by
  refine ⟨?_, h⟩
  rw [Ledger.create, next, List.getElem?_append_right (Nat.le_refl _), Nat.sub_self]
  rfl

end Ledger

end GramsTof.Lib
