import Mathlib.Data.List.Basic
import Mathlib.Data.Set.Basic

/-! Computations over an indexed buffer that record every index they read, in
order. The value component is the plain result; the record turns "reads only
inside the buffer" and "reads exactly these cells" into statements about the
computation itself. -/

namespace GramsTof.Lib

universe u

variable {α β : Type u}

/-- A value and the buffer indices read to obtain it. -/
structure Traced (α : Type u) where
  val : α
  reads : List ℕ

namespace Traced

instance : Monad Traced where
  pure a := ⟨a, []⟩
  bind x f := ⟨(f x.val).val, x.reads ++ (f x.val).reads⟩

@[simp] theorem pure_val (a : α) : (pure a : Traced α).val = a := rfl

@[simp] theorem pure_reads (a : α) : (pure a : Traced α).reads = [] := rfl

@[simp] theorem bind_val (x : Traced α) (f : α → Traced β) :
    (x >>= f).val = (f x.val).val := rfl

@[simp] theorem bind_reads (x : Traced α) (f : α → Traced β) :
    (x >>= f).reads = x.reads ++ (f x.val).reads := rfl

/-- Read one cell. Past the end the value is arbitrary, the record is not. -/
def read [Inhabited α] (buf : List α) (i : ℕ) : Traced α := ⟨buf.getD i default, [i]⟩

@[simp] theorem read_reads [Inhabited α] (buf : List α) (i : ℕ) : (read buf i).reads = [i] := rfl

theorem read_val [Inhabited α] (buf : List α) (i : ℕ) :
    (read buf i).val = buf.getD i default := rfl

/-- Only cells below `n` are read. -/
def Within (n : ℕ) (x : Traced α) : Prop := ∀ i ∈ x.reads, i < n

theorem within_pure (n : ℕ) (a : α) : Within n (pure a) := by
  intro i hi
  simp at hi

theorem within_read [Inhabited α] {n i : ℕ} (buf : List α) (h : i < n) :
    Within n (read buf i) := by
  intro j hj
  rw [read_reads, List.mem_singleton] at hj
  omega

theorem within_bind {n : ℕ} {x : Traced α} {f : α → Traced β} (hx : Within n x)
    (hf : Within n (f x.val)) : Within n (x >>= f) := by
  intro i hi
  rcases List.mem_append.mp hi with hi | hi
  · exact hx i hi
  · exact hf i hi

theorem within_ite {n : ℕ} {c : Prop} [Decidable c] {x y : Traced α} (hx : c → Within n x)
    (hy : ¬ c → Within n y) : Within n (if c then x else y) := by
  split_ifs with h
  · exact hx h
  · exact hy h

/-- The value of a loop is the fold of its body's values. -/
theorem foldlM_val (f : β → α → Traced β) (b : β) (xs : List α) :
    (xs.foldlM f b).val = xs.foldl (fun b a => (f b a).val) b := by
  induction xs generalizing b with
  | nil => rfl
  | cons a xs ih => rw [List.foldlM_cons, bind_val, ih, List.foldl_cons]

/-- The record of a loop whose body reads `g a` at `a`, whatever the accumulator. -/
theorem foldlM_reads {f : β → α → Traced β} {g : α → List ℕ} (h : ∀ b a, (f b a).reads = g a)
    (b : β) (xs : List α) : (xs.foldlM f b).reads = xs.flatMap g := by
  induction xs generalizing b with
  | nil => rfl
  | cons a xs ih => rw [List.foldlM_cons, bind_reads, ih, h, List.flatMap_cons]

end Traced

end GramsTof.Lib
