import Mathlib.Data.List.Basic
import Mathlib.Data.Nat.ModEq

/-! Rings of `n` slots behind a write and a read pointer that run modulo `2 * n`,
so that a full ring and an empty one have different pointers. A ring holds the
elements of a list from some index on, each in the slot of its index. -/

namespace GramsTof.Lib

namespace Ring

variable {α : Type*} {n : ℕ}

/-- The pointers differ and stand on one slot. -/
def isFull (n wr rd : ℕ) : Bool := wr != rd && wr % n == rd % n

/-- How far the write pointer is ahead. -/
def level (n wr rd : ℕ) : ℕ := (wr + 2 * n - rd) % (2 * n)

/-- The elements from the read pointer on. -/
def window (n : ℕ) (slots : ℕ → α) (rd count : ℕ) : List α :=
  (List.range count).map fun i => slots ((rd + i) % n)

theorem mod_two_mul_mod (n i : ℕ) : i % (2 * n) % n = i % n :=
  Nat.mod_mod_of_dvd i (Nat.dvd_mul_left n 2)

theorem succ_mod (n i : ℕ) : (i % (2 * n) + 1) % (2 * n) = (i + 1) % (2 * n) := Nat.mod_add_mod ..

/-- Indices less than a ring apart stand on different slots. -/
theorem slot_ne {i j : ℕ} (hij : i < j) (hj : j < i + n) : i % n ≠ j % n := by
  intro h
  have hd : n ∣ j - i := (Nat.modEq_iff_dvd' hij.le).mp h
  have := Nat.le_of_dvd (by omega) hd
  omega

/-- Indices less than two rings apart have different pointers. -/
theorem pointer_ne {i j : ℕ} (hij : i < j) (hj : j < i + 2 * n) : i % (2 * n) ≠ j % (2 * n) :=
  slot_ne hij hj

/-- A write pointer is its level ahead. -/
theorem add_level {wr rd : ℕ} (hwr : wr < 2 * n) (hrd : rd < 2 * n) : (rd + level n wr rd) % (2 * n) = wr := by
  rw [level, Nat.add_mod_mod, Nat.add_sub_cancel' (by omega), Nat.add_mod_right, Nat.mod_eq_of_lt hwr]

theorem window_succ (slots : ℕ → α) (rd count : ℕ) :
    window n slots rd (count + 1) = slots (rd % n) :: window n slots ((rd + 1) % (2 * n)) count := by
  rw [window, List.range_succ_eq_map, List.map_cons, List.map_map, Nat.add_zero, window]
  refine congrArg (_ :: ·) (List.map_congr_left fun i _ => ?_)
  have hslot : ((rd + 1) % (2 * n) + i) % n = (rd + (i + 1)) % n := by
    rw [Nat.add_mod, mod_two_mul_mod, ← Nat.add_mod, Nat.add_right_comm, Nat.add_assoc]
  rw [hslot]
  rfl

/-- The ring holds the elements of `xs` from the index `r` on. -/
structure Holds (n : ℕ) (slots : ℕ → α) (wr rd : ℕ) (xs : List α) (r : ℕ) : Prop where
  write : wr = xs.length % (2 * n)
  read : rd = r % (2 * n)
  released : r ≤ xs.length
  room : xs.length ≤ r + n
  slot : ∀ i x, r ≤ i → xs[i]? = some x → slots (i % n) = x

namespace Holds

variable {slots slots' : ℕ → α} {wr rd : ℕ} {xs : List α} {r : ℕ} {x : α}

theorem empty (n : ℕ) (slots : ℕ → α) : Holds n slots 0 0 [] 0 where
  write := (Nat.zero_mod _).symm
  read := (Nat.zero_mod _).symm
  released := le_rfl
  room := Nat.zero_le _
  slot _ _ _ h := by cases h

theorem eq_iff (h : Holds n slots wr rd xs r) : wr = rd ↔ xs.length = r := by
  rw [h.write, h.read]
  constructor
  · intro he
    by_contra hne
    have hlt : r < xs.length := lt_of_le_of_ne h.released (Ne.symm hne)
    have := h.room
    exact pointer_ne hlt (by omega) he.symm
  · rintro rfl
    rfl

theorem isFull_iff (hn : 0 < n) (h : Holds n slots wr rd xs r) :
    isFull n wr rd = true ↔ xs.length = r + n := by
  have hslots : wr % n = rd % n ↔ xs.length % n = r % n := by
    rw [h.write, h.read, mod_two_mul_mod, mod_two_mul_mod]
  rw [isFull, Bool.and_eq_true, bne_iff_ne, beq_iff_eq, hslots, Ne, h.eq_iff]
  constructor
  · rintro ⟨hne, he⟩
    by_contra hfull
    have := h.released
    have := h.room
    exact slot_ne (by omega) (by omega) he.symm
  · intro hl
    rw [hl, Nat.add_mod_right]
    exact ⟨by omega, rfl⟩

theorem level_eq (hn : 0 < n) (h : Holds n slots wr rd xs r) : level n wr rd = xs.length - r := by
  obtain ⟨m, hm⟩ : ∃ m, xs.length = r + m := ⟨xs.length - r, by have := h.released; omega⟩
  have hroom := h.room
  rw [level, h.write, h.read, hm, Nat.add_sub_cancel_left]
  have hr : r % (2 * n) < 2 * n := Nat.mod_lt _ (by omega)
  have hmod : (r + m) % (2 * n) = (r % (2 * n) + m) % (2 * n) := (Nat.mod_add_mod ..).symm
  rw [hmod]
  generalize r % (2 * n) = a at hr
  rcases lt_or_ge (a + m) (2 * n) with hlt | hge
  · rw [Nat.mod_eq_of_lt hlt, show a + m + 2 * n - a = m + 2 * n by omega, Nat.add_mod_right,
      Nat.mod_eq_of_lt (by omega)]
  · rw [Nat.mod_eq_sub_mod hge, Nat.mod_eq_of_lt (show a + m - 2 * n < 2 * n by omega),
      show a + m - 2 * n + 2 * n - a = m by omega, Nat.mod_eq_of_lt (by omega)]

/-- A slot at the write pointer of a ring with room is in nobody's way. -/
theorem write_slot (h : Holds n slots wr rd xs r) (hroom : xs.length < r + n)
    (hs : ∀ k, ∀ x ∈ xs, k ≠ wr % n → slots k = x → slots' k = x) : Holds n slots' wr rd xs r where
  write := h.write
  read := h.read
  released := h.released
  room := h.room
  slot i x hi hx := by
    have hlt : i < xs.length := (List.getElem?_eq_some_iff.mp hx).1
    have hne : i % n ≠ wr % n := by
      rw [h.write, mod_two_mul_mod]
      exact slot_ne hlt (by omega)
    exact hs _ x (List.mem_of_getElem? hx) hne (h.slot i x hi hx)

theorem push (h : Holds n slots wr rd xs r) (hroom : xs.length < r + n)
    (hx : slots (wr % n) = x) : Holds n slots ((wr + 1) % (2 * n)) rd (xs ++ [x]) r where
  write := by rw [h.write, succ_mod, List.length_append, List.length_singleton]
  read := h.read
  released := by
    have := h.released
    rw [List.length_append]
    omega
  room := by rw [List.length_append, List.length_singleton]; omega
  slot i y hi hy := by
    rcases lt_trichotomy i xs.length with hlt | rfl | hgt
    · rw [List.getElem?_append_left hlt] at hy
      exact h.slot i y hi hy
    · rw [List.getElem?_append_right le_rfl, Nat.sub_self] at hy
      cases hy
      rw [← hx, h.write, mod_two_mul_mod]
    · rw [List.getElem?_eq_none (by rw [List.length_append, List.length_singleton]; omega)] at hy
      cases hy

theorem release {r' : ℕ} (h : Holds n slots wr rd xs r) (hr : r ≤ r') (hx : r' ≤ xs.length) :
    Holds n slots wr (r' % (2 * n)) xs r' where
  write := h.write
  read := rfl
  released := hx
  room := by have := h.room; omega
  slot i x hi hx := h.slot i x (by omega) hx

/-- What is read from the read pointer on, as long as the write pointer is ahead. -/
theorem window_eq {m : ℕ} (h : Holds n slots wr rd xs r) (hm : r + m ≤ xs.length) :
    window n slots rd m = (xs.drop r).take m := by
  apply List.ext_getElem?
  intro i
  rcases lt_or_ge i m with hi | hi
  · have hlt : r + i < xs.length := by omega
    rw [window, List.getElem?_map, List.getElem?_range hi, Option.map_some, List.getElem?_take_of_lt hi,
      List.getElem?_drop, List.getElem?_eq_getElem hlt, h.read]
    have hslot : (r % (2 * n) + i) % n = (r + i) % n := by
      rw [Nat.add_mod, mod_two_mul_mod, ← Nat.add_mod]
    rw [hslot, h.slot (r + i) _ (by omega) (List.getElem?_eq_getElem hlt)]
  · rw [List.getElem?_eq_none (by simpa [window] using hi),
      List.getElem?_eq_none (by rw [List.length_take]; omega)]

end Holds

end Ring

end GramsTof.Lib
