import Mathlib.Algebra.Order.Group.Nat
import Mathlib.Data.List.Basic
import Mathlib.Tactic.Ring

/-! Words of a fixed width and the strings of cells that represent them in
memory. A string is loaded into an array of blank words cell by cell, the last
word only as far as the string goes, and is read back from their memory. -/

namespace GramsTof.Lib

variable {β W : Type*}

/-- Words as strings of `width` cells, one word for each such string, and the cell that an
unwritten word is full of. -/
structure WordRep (β W : Type*) where
  width : ℕ
  blank : β
  bytes : W → List β
  word : List β → W
  length_bytes : ∀ w, (bytes w).length = width
  word_bytes : ∀ w, word (bytes w) = w
  bytes_word : ∀ bs, bs.length = width → bytes (word bs) = bs

namespace WordRep

variable (R : WordRep β W)

/-- The cells of an array of words. -/
def memory (ws : List W) : List β := ws.flatMap R.bytes

@[simp] theorem memory_nil : R.memory [] = [] := rfl

@[simp] theorem memory_cons (w : W) (ws : List W) :
    R.memory (w :: ws) = R.bytes w ++ R.memory ws := List.flatMap_cons

theorem length_memory (ws : List W) : (R.memory ws).length = ws.length * R.width := by
  induction ws with
  | nil => simp
  | cons w ws ih =>
    rw [memory_cons, List.length_append, R.length_bytes, ih, List.length_cons]
    ring

theorem drop_memory (n : ℕ) (ws : List W) :
    (R.memory ws).drop (n * R.width) = R.memory (ws.drop n) := by
  induction ws generalizing n with
  | nil => simp
  | cons w ws ih =>
    cases n with
    | zero => simp
    | succ n =>
      have hw := R.length_bytes w
      rw [memory_cons, show (n + 1) * R.width = R.width + n * R.width by ring, ← List.drop_drop,
        List.drop_left' hw, ih, List.drop_succ_cons]

theorem take_memory (n : ℕ) (ws : List W) :
    (R.memory ws).take (n * R.width) = R.memory (ws.take n) := by
  induction ws generalizing n with
  | nil => simp
  | cons w ws ih =>
    cases n with
    | zero => simp
    | succ n =>
      have hw := R.length_bytes w
      rw [memory_cons, show (n + 1) * R.width = (R.bytes w).length + n * R.width by rw [hw]; ring,
        List.take_length_add_append, ih, List.take_succ_cons, memory_cons]

/-- Cells copied to the front of a blank word. -/
def pad (bs : List β) : List β := bs ++ List.replicate (R.width - bs.length) R.blank

theorem length_pad {bs : List β} (h : bs.length ≤ R.width) : (R.pad bs).length = R.width := by
  rw [pad, List.length_append, List.length_replicate]
  omega

theorem pad_of_length {bs : List β} (h : bs.length = R.width) : R.pad bs = bs := by
  rw [pad, h, Nat.sub_self, List.replicate_zero, List.append_nil]

/-- The string loaded into an array of `n` words. -/
def load (n : ℕ) (bs : List β) : List W :=
  (List.range n).map fun i => R.word (R.pad ((bs.drop (i * R.width)).take R.width))

@[simp] theorem load_zero (bs : List β) : R.load 0 bs = [] := rfl

@[simp] theorem length_load (n : ℕ) (bs : List β) : (R.load n bs).length = n := by simp [load]

theorem load_succ (n : ℕ) (bs : List β) :
    R.load (n + 1) bs = R.word (R.pad (bs.take R.width)) :: R.load n (bs.drop R.width) := by
  simp only [load, List.range_succ_eq_map, List.map_cons, List.map_map, zero_mul, List.drop_zero,
    List.cons.injEq, true_and]
  apply List.map_congr_left
  intro i _
  rw [Function.comp_apply, List.drop_drop,
    show i.succ * R.width = R.width + i * R.width by rw [Nat.succ_eq_add_one]; ring]

/-- Enough words hold the whole string, and blanks after it. -/
theorem memory_load {n : ℕ} {bs : List β} (h : bs.length ≤ n * R.width) :
    R.memory (R.load n bs) = bs ++ List.replicate (n * R.width - bs.length) R.blank := by
  induction n generalizing bs with
  | zero =>
    have hnil : bs = [] := List.length_eq_zero_iff.mp (by omega)
    simp [hnil]
  | succ n ih =>
    have hmul : (n + 1) * R.width = n * R.width + R.width := by ring
    have htake : (bs.take R.width).length ≤ R.width := List.length_take_le _ _
    have hdrop : (bs.drop R.width).length ≤ n * R.width := by
      rw [List.length_drop]
      omega
    rw [load_succ, memory_cons, R.bytes_word _ (R.length_pad htake), ih hdrop]
    by_cases hlen : bs.length ≤ R.width
    · rw [List.take_of_length_le hlen, List.drop_eq_nil_of_le hlen, pad, List.nil_append,
        List.append_assoc, ← List.replicate_add, List.length_nil]
      congr 2
      omega
    · have hfull : (bs.take R.width).length = R.width := List.length_take_of_le (by omega)
      rw [R.pad_of_length hfull, ← List.append_assoc, List.take_append_drop, List.length_drop]
      congr 2
      omega

theorem take_memory_load {n : ℕ} {bs : List β} (h : bs.length ≤ n * R.width) :
    (R.memory (R.load n bs)).take bs.length = bs := by
  rw [R.memory_load h, List.take_left]

end WordRep

end GramsTof.Lib
