import Mathlib.Data.List.Basic
import Mathlib.Data.List.TakeWhile

/-! Streams of self-announcing frames, received in pieces. A framing tells the
size of the frame at the front of a buffer as soon as enough of it is there.
Cutting a buffer takes complete frames off its front and leaves a residue; a
session cuts what it has after each piece and hands every frame to a handler
that may stop it. How the stream is split into pieces does not matter. -/

namespace GramsTof.Lib

variable {α σ : Type*}

/-- The announced size of the first frame is positive, is not changed by later input, and is
announced within the frame. -/
structure Framing (α : Type*) where
  size : List α → Option ℕ
  size_pos : ∀ {b n}, size b = some n → 0 < n
  size_append : ∀ {b n}, size b = some n → ∀ t, size (b ++ t) = some n
  size_take : ∀ {b n}, size b = some n → n ≤ b.length → size (b.take n) = some n

namespace Framing

variable (F : Framing α)

/-- The first frame of a buffer that holds all of it. -/
def first (b : List α) : Option ℕ := (F.size b).filter (· ≤ b.length)

theorem first_eq_some {b : List α} {n : ℕ} :
    F.first b = some n ↔ F.size b = some n ∧ n ≤ b.length := by
  simp [first, Option.filter_eq_some_iff]

theorem first_append {b : List α} {n : ℕ} (h : F.first b = some n) (t : List α) :
    F.first (b ++ t) = some n := by
  rw [first_eq_some] at h ⊢
  exact ⟨F.size_append h.1 t, by rw [List.length_append]; omega⟩

theorem drop_lt {b : List α} {n : ℕ} (h : F.first b = some n) : (b.drop n).length < b.length := by
  have hpos := F.size_pos ((first_eq_some F).mp h).1
  have hle := ((first_eq_some F).mp h).2
  rw [List.length_drop]
  omega

/-- The complete frames at the front of a buffer, and what is left. -/
def cut (b : List α) : List (List α) × List α :=
  match _h : F.first b with
  | none => ([], b)
  | some n => (b.take n :: (cut (b.drop n)).1, (cut (b.drop n)).2)
termination_by b.length
decreasing_by all_goals exact F.drop_lt ‹_›

theorem cut_of_none {b : List α} (h : F.first b = none) : F.cut b = ([], b) := by
  rw [cut]
  split
  · rfl
  · rename_i hn; rw [h] at hn; cases hn

theorem cut_of_some {b : List α} {n : ℕ} (h : F.first b = some n) :
    F.cut b = (b.take n :: (F.cut (b.drop n)).1, (F.cut (b.drop n)).2) := by
  rw [cut]
  split
  · rename_i hn; rw [h] at hn; cases hn
  · rename_i m hm
    rw [h] at hm
    cases hm
    rfl

/-- Cutting loses nothing. -/
theorem flatten_cut (b : List α) : (F.cut b).1.flatten ++ (F.cut b).2 = b := by
  induction b using Framing.cut.induct F with
  | case1 b h => rw [cut_of_none F h, List.flatten_nil, List.nil_append]
  | case2 b n h ih =>
    rw [cut_of_some F h, List.flatten_cons, List.append_assoc, ih, List.take_append_drop]

/-- Every frame is as long as it announces. -/
theorem size_of_mem_cut {b f : List α} (h : f ∈ (F.cut b).1) : F.size f = some f.length := by
  induction b using Framing.cut.induct F with
  | case1 b hb => rw [cut_of_none F hb] at h; cases h
  | case2 b n hb ih =>
    rw [cut_of_some F hb, List.mem_cons] at h
    rcases h with rfl | h
    · obtain ⟨hs, hle⟩ := (first_eq_some F).mp hb
      rw [F.size_take hs hle, List.length_take, Nat.min_eq_left hle]
    · exact ih h

/-- Cutting in two rounds is cutting at once. -/
theorem cut_append (b t : List α) :
    F.cut (b ++ t) =
      ((F.cut b).1 ++ (F.cut ((F.cut b).2 ++ t)).1, (F.cut ((F.cut b).2 ++ t)).2) := by
  induction b using Framing.cut.induct F with
  | case1 b h => rw [cut_of_none F h, List.nil_append]
  | case2 b n h ih =>
    have hn := ((first_eq_some F).mp h).2
    rw [cut_of_some F h, cut_of_some F (F.first_append h t), List.take_append_of_le_length hn,
      List.drop_append_of_le_length hn, ih, List.cons_append]

/-- A concatenation of whole frames is cut into these frames and nothing else. -/
theorem cut_whole {fs : List (List α)} (h : ∀ f ∈ fs, F.size f = some f.length) :
    F.cut fs.flatten = (fs, []) := by
  induction fs with
  | nil =>
    apply cut_of_none
    rw [Option.eq_none_iff_forall_not_mem]
    intro n hn
    obtain ⟨hs, hle⟩ := (first_eq_some F).mp hn
    have := F.size_pos hs
    rw [List.flatten_nil, List.length_nil] at hle
    omega
  | cons f fs ih =>
    have hf : F.first (f ++ fs.flatten) = some f.length :=
      F.first_append ((first_eq_some F).mpr ⟨h f List.mem_cons_self, le_rfl⟩) _
    rw [List.flatten_cons, cut_of_some F hf, List.drop_left, List.take_left,
      ih fun g hg => h g (List.mem_cons_of_mem _ hg)]

end Framing

/-! ### Handling frames until told to stop -/

/-- Hand the frames over in order; the handler answers with its state and whether to stop. -/
def handleAll (f : σ → List α → σ × Bool) : σ → List (List α) → σ × Bool
  | s, [] => (s, false)
  | s, x :: xs => if (f s x).2 then ((f s x).1, true) else handleAll f (f s x).1 xs

section Handle

variable (f : σ → List α → σ × Bool)

@[simp] theorem handleAll_nil (s : σ) : handleAll f s [] = (s, false) := rfl

theorem handleAll_cons (s : σ) (x : List α) (xs : List (List α)) :
    handleAll f s (x :: xs) =
      if (f s x).2 then ((f s x).1, true) else handleAll f (f s x).1 xs := rfl

theorem handleAll_append (s : σ) (xs ys : List (List α)) :
    handleAll f s (xs ++ ys) =
      if (handleAll f s xs).2 then handleAll f s xs else handleAll f (handleAll f s xs).1 ys := by
  induction xs generalizing s with
  | nil => simp
  | cons x xs ih =>
    rw [List.cons_append, handleAll_cons, handleAll_cons, ih]
    by_cases h : (f s x).2 <;> simp [h]

end Handle

/-- The receiving end of one stream: the handler's state, the bytes not yet framed, and whether
the session is still open. -/
structure Session (α σ : Type*) where
  state : σ
  buffer : List α
  live : Bool

namespace Framing

variable (F : Framing α) (f : σ → List α → σ × Bool)

/-- Receive one piece. A session that the handler stops drops its buffer and hears no more. -/
def absorb (s : Session α σ) (c : List α) : Session α σ :=
  if s.live then
    let (fs, rest) := F.cut (s.buffer ++ c)
    let (state, stopped) := handleAll f s.state fs
    if stopped then ⟨state, [], false⟩ else ⟨state, rest, true⟩
  else s

theorem absorb_dead {s : Session α σ} (h : s.live = false) (c : List α) : F.absorb f s c = s := by
  simp [absorb, h]

theorem absorb_live {s : Session α σ} (h : s.live = true) (c : List α) :
    F.absorb f s c =
      if (handleAll f s.state (F.cut (s.buffer ++ c)).1).2 then
        ⟨(handleAll f s.state (F.cut (s.buffer ++ c)).1).1, [], false⟩
      else ⟨(handleAll f s.state (F.cut (s.buffer ++ c)).1).1, (F.cut (s.buffer ++ c)).2, true⟩ := by
  simp [absorb, h]

/-- Two pieces are as good as one. -/
theorem absorb_absorb (s : Session α σ) (c d : List α) :
    F.absorb f (F.absorb f s c) d = F.absorb f s (c ++ d) := by
  cases hs : s.live with
  | false => rw [absorb_dead F f hs, absorb_dead F f hs, absorb_dead F f hs]
  | true =>
    rw [absorb_live F f hs c, absorb_live F f hs (c ++ d), ← List.append_assoc,
      F.cut_append (s.buffer ++ c) d, handleAll_append]
    by_cases hstop : (handleAll f s.state (F.cut (s.buffer ++ c)).1).2 = true
    · rw [if_pos hstop, if_pos hstop, if_pos hstop, absorb_dead F f rfl]
    · rw [if_neg hstop, if_neg hstop, absorb_live F f rfl]

/-- However a stream is split, receiving its pieces is receiving it at once. -/
theorem foldl_absorb {s : Session α σ} (hs : F.absorb f s [] = s) (cs : List (List α)) :
    cs.foldl (F.absorb f) s = F.absorb f s cs.flatten := by
  suffices ∀ c, cs.foldl (F.absorb f) (F.absorb f s c) = F.absorb f s (c ++ cs.flatten) by
    simpa only [hs, List.nil_append] using this []
  induction cs with
  | nil => intro c; rw [List.foldl_nil, List.flatten_nil, List.append_nil]
  | cons d cs ih =>
    intro c
    rw [List.foldl_cons, absorb_absorb, ih, List.flatten_cons, List.append_assoc]

theorem absorb_nil_of_first {s : Session α σ} (h : F.first s.buffer = none) :
    F.absorb f s [] = s := by
  cases hs : s.live with
  | false => exact absorb_dead F f hs []
  | true =>
    rw [absorb_live F f hs, List.append_nil, cut_of_none F h, handleAll_nil]
    obtain ⟨state, buffer, live⟩ := s
    cases hs
    rfl

end Framing

end GramsTof.Lib
