import GramsTof.Lib.Framing
import Mathlib.Data.List.Induction
import Mathlib.Data.List.Infix

/-! A session that takes at most one frame off its buffer after each piece. Frames
that arrive together queue up, and the session works the queue off only as further
pieces come, whatever these bring. How many frames it has handled after a number of
pieces is what a server has served that serves one customer at a time. -/

namespace GramsTof.Lib

/-! ### One customer at a time -/

/-- Of the customers of whom `a n` have come by time `n`, how many are served, one at each time. -/
def served (a : ℕ → ℕ) : ℕ → ℕ
  | 0 => 0
  | n + 1 => min (a (n + 1)) (served a n + 1)

theorem served_congr {a b : ℕ → ℕ} {n : ℕ} (h : ∀ m ≤ n, a m = b m) : served a n = served b n := by
  induction n with
  | zero => rfl
  | succ n ih => rw [served, served, h (n + 1) le_rfl, ih fun m hm => h m (by omega)]

/-- Customer `k` is served by time `n` exactly when every customer `j` up to it has come `k - j`
times before. -/
theorem lt_served_iff {a : ℕ → ℕ} (h0 : a 0 = 0) {k n : ℕ} :
    k < served a n ↔ ∀ j ≤ k, j < a (n - (k - j)) := by
  induction n generalizing k with
  | zero =>
    constructor
    · intro h
      cases h
    · intro h
      have := h 0 (Nat.zero_le k)
      rw [Nat.zero_sub, h0] at this
      exact absurd this (lt_irrefl 0)
  | succ n ih =>
    rw [served, Nat.lt_min]
    cases k with
    | zero => simp
    | succ k =>
      -- those before customer `k + 1` must have come as for customer `k` at time `n`
      have hback : ∀ j ≤ k, n + 1 - (k + 1 - j) = n - (k - j) := fun j hj => by omega
      rw [Nat.succ_lt_succ_iff, ih]
      constructor
      · rintro ⟨hlast, hbefore⟩ j hj
        rcases Nat.le_succ_iff.mp hj with hj | rfl
        · rw [hback j hj]
          exact hbefore j hj
        · rw [Nat.sub_self]
          exact hlast
      · intro h
        refine ⟨by simpa using h (k + 1) le_rfl, fun j hj => ?_⟩
        rw [← hback j hj]
        exact h j (Nat.le_succ_of_le hj)

/-! ### Sessions -/

namespace Framing

variable {α σ : Type*} (F : Framing α) (f : σ → List α → σ × Bool)

/-- Receive one piece and handle at most one frame. -/
def sip (s : Session α σ) (c : List α) : Session α σ :=
  if s.live then
    match F.first (s.buffer ++ c) with
    | none => { s with buffer := s.buffer ++ c }
    | some n =>
      let (state, stopped) := f s.state ((s.buffer ++ c).take n)
      if stopped then ⟨state, [], false⟩ else ⟨state, (s.buffer ++ c).drop n, true⟩
  else s

theorem sip_dead {s : Session α σ} (h : s.live = false) (c : List α) : F.sip f s c = s := by
  simp [sip, h]

theorem sip_none {s : Session α σ} (h : s.live = true) {c : List α}
    (hfirst : F.first (s.buffer ++ c) = none) :
    F.sip f s c = { s with buffer := s.buffer ++ c } := by simp [sip, h, hfirst]

theorem sip_some {s : Session α σ} (h : s.live = true) {c : List α} {n : ℕ}
    (hfirst : F.first (s.buffer ++ c) = some n) :
    F.sip f s c =
      if (f s.state ((s.buffer ++ c).take n)).2 then
        ⟨(f s.state ((s.buffer ++ c).take n)).1, [], false⟩
      else ⟨(f s.state ((s.buffer ++ c).take n)).1, (s.buffer ++ c).drop n, true⟩ := by
  simp [sip, h, hfirst]

/-- A session that has handled `d` of the frames `fs` of its stream, unless it was stopped before. -/
structure Sipped (state₀ : σ) (s : Session α σ) (fs : List (List α)) (rest : List α) (d : ℕ) :
    Prop where
  le : d ≤ fs.length
  state : s.state = (handleAll f state₀ (fs.take d)).1
  live : s.live = !(handleAll f state₀ (fs.take d)).2
  buffer : s.live = true → F.cut s.buffer = (fs.drop d, rest)

variable {F f} {state₀ : σ} {s : Session α σ} {stream : List α} {d : ℕ}

/-- A session that was stopped stays as it is, whatever further frames come. -/
theorem Sipped.stopped {fs : List (List α)} {rest rest' : List α} {d d' : ℕ}
    (h : F.Sipped f state₀ s fs rest d) (hdead : s.live = false) (gs : List (List α))
    (hd : d ≤ d') (hd' : d' ≤ (fs ++ gs).length) : F.Sipped f state₀ s (fs ++ gs) rest' d' := by
  have hstop : (handleAll f state₀ (fs.take d)).2 = true := by
    have := h.live
    rw [hdead] at this
    simpa using this.symm
  have hsame : handleAll f state₀ ((fs ++ gs).take d') = handleAll f state₀ (fs.take d) := by
    have htake : (fs ++ gs).take d' = fs.take d ++ ((fs ++ gs).take d').drop d := by
      have hfs : fs.take d = (fs ++ gs).take d := (List.take_append_of_le_length h.le).symm
      rw [hfs, ← Nat.min_eq_left hd, ← List.take_take, Nat.min_eq_left hd, List.take_append_drop]
    rw [htake, handleAll_append, if_pos hstop]
  refine ⟨hd', ?_, ?_, fun hlive => ?_⟩
  · rw [hsame, h.state]
  · rw [hsame, h.live]
  · rw [hdead] at hlive
    cases hlive

/-- One piece: the frames of the longer stream, and one more of them handled when there is one. -/
theorem Sipped.step (h : F.Sipped f state₀ s (F.cut stream).1 (F.cut stream).2 d) (c : List α) :
    F.Sipped f state₀ (F.sip f s c) (F.cut (stream ++ c)).1 (F.cut (stream ++ c)).2
      (min (F.cut (stream ++ c)).1.length (d + 1)) := by
  rw [F.cut_append stream c]
  generalize (F.cut stream).1 = fs at h
  generalize (F.cut stream).2 = rest at h
  generalize hgs : (F.cut (rest ++ c)).1 = gs
  generalize hrest : (F.cut (rest ++ c)).2 = rest'
  change F.Sipped f state₀ (F.sip f s c) (fs ++ gs) rest' (min (fs ++ gs).length (d + 1))
  have hle := h.le
  have hlen : (fs ++ gs).length = fs.length + gs.length := List.length_append
  cases hlive : s.live with
  | false =>
    rw [sip_dead F f hlive]
    exact h.stopped hlive gs (by omega) (Nat.min_le_left _ _)
  | true =>
    have htake : (fs ++ gs).take d = fs.take d := List.take_append_of_le_length hle
    have hgo : (handleAll f state₀ (fs.take d)).2 = false := by
      have := h.live
      rw [hlive] at this
      simpa using this.symm
    have hcut : F.cut (s.buffer ++ c) = ((fs ++ gs).drop d, rest') := by
      rw [F.cut_append, h.buffer hlive, hgs, hrest, List.drop_append_of_le_length hle]
    cases hfirst : F.first (s.buffer ++ c) with
    | none =>
      -- no complete frame is left in the buffer
      rw [cut_of_none F hfirst, Prod.mk.injEq, eq_comm, List.drop_eq_nil_iff] at hcut
      rw [sip_none F f hlive hfirst, Nat.min_eq_left (by omega),
        show (fs ++ gs).length = d by omega]
      refine ⟨by omega, ?_, ?_, fun _ => ?_⟩
      · rw [htake]
        exact h.state
      · rw [htake]
        exact h.live
      · change F.cut (s.buffer ++ c) = _
        rw [cut_of_none F hfirst, List.drop_of_length_le hcut.1, hcut.2]
    | some n =>
      rw [cut_of_some F hfirst, Prod.mk.injEq, eq_comm] at hcut
      have hlt : d < (fs ++ gs).length := by
        by_contra hn
        rw [List.drop_of_length_le (Nat.not_lt.mp hn)] at hcut
        cases hcut.1
      rw [List.drop_eq_getElem_cons hlt, List.cons.injEq] at hcut
      have hnext : handleAll f state₀ ((fs ++ gs).take (d + 1)) =
          f s.state ((s.buffer ++ c).take n) := by
        rw [List.take_succ_eq_append_getElem hlt, htake, handleAll_append, hgo,
          if_neg Bool.false_ne_true, ← h.state, hcut.1.1, handleAll_cons, handleAll_nil]
        cases hstop : (f s.state ((s.buffer ++ c).take n)).2 <;> simp [← hstop]
      rw [Nat.min_eq_right (by omega), sip_some F f hlive hfirst]
      split_ifs with hstop
      · refine ⟨by omega, ?_, ?_, fun h => by cases h⟩
        · rw [hnext]
        · rw [hnext, hstop]
          rfl
      · rw [Bool.not_eq_true] at hstop
        refine ⟨by omega, ?_, ?_, fun _ => ?_⟩
        · rw [hnext]
        · rw [hnext, hstop]
          rfl
        · change F.cut ((s.buffer ++ c).drop n) = _
          rw [hcut.1.2, ← hcut.2]

variable (F) in
/-- The frames that are complete in the first `m` pieces. -/
def arrived (cs : List (List α)) (m : ℕ) : ℕ := (F.cut (cs.take m).flatten).1.length

theorem cut_nil : F.cut ([] : List α) = ([], []) :=
  F.cut_whole (show ∀ f ∈ ([] : List (List α)), F.size f = some f.length by simp)

theorem arrived_zero (cs : List (List α)) : F.arrived cs 0 = 0 := by
  rw [arrived, List.take_zero, List.flatten_nil, cut_nil]
  rfl

/-- What is cut off the front of a stream of whole frames are its first frames. -/
theorem cut_initial {fs : List (List α)} (hfs : ∀ f ∈ fs, F.size f = some f.length) {b : List α}
    (h : b <+: fs.flatten) : (F.cut b).1 <+: fs := by
  obtain ⟨t, ht⟩ := h
  have hall := congrArg Prod.fst (F.cut_whole hfs)
  rw [← ht, F.cut_append] at hall
  exact ⟨_, hall⟩

/-- Frame `j` of the stream has arrived exactly when all bytes through it have. -/
theorem lt_arrived_iff {fs cs : List (List α)} (hfs : ∀ f ∈ fs, F.size f = some f.length)
    (hcs : cs.flatten <+: fs.flatten) {j m : ℕ} (hj : j < fs.length) :
    j < F.arrived cs m ↔ (fs.take (j + 1)).flatten.length ≤ (cs.take m).flatten.length := by
  have hpre : (cs.take m).flatten <+: fs.flatten := (List.take_prefix m cs).flatten.trans hcs
  have hthrough : (fs.take (j + 1)).flatten <+: fs.flatten := (List.take_prefix _ fs).flatten
  rw [arrived]
  constructor
  · intro h
    have hle : fs.take (j + 1) <+: (F.cut (cs.take m).flatten).1 :=
      List.prefix_of_prefix_length_le (List.take_prefix _ _) (cut_initial hfs hpre)
        ((List.length_take_le _ _).trans h)
    exact (hle.flatten.trans ⟨_, F.flatten_cut _⟩).length_le
  · intro h
    obtain ⟨t, ht⟩ := List.prefix_of_prefix_length_le hthrough hpre h
    have hwhole : F.cut (fs.take (j + 1)).flatten = (fs.take (j + 1), []) :=
      F.cut_whole fun f hf => hfs f (List.mem_of_mem_take hf)
    rw [← ht, F.cut_append, hwhole, List.length_append, List.length_take]
    omega

theorem arrived_append {cs ds : List (List α)} {m : ℕ} (hm : m ≤ cs.length) :
    F.arrived (cs ++ ds) m = F.arrived cs m := by
  rw [arrived, List.take_append_of_le_length hm, arrived]

/-- After all pieces: as many frames are handled as a server has served customers. -/
theorem foldl_sip (cs : List (List α)) :
    F.Sipped f state₀ (cs.foldl (F.sip f) ⟨state₀, [], true⟩) (F.cut cs.flatten).1
      (F.cut cs.flatten).2 (served (F.arrived cs) cs.length) := by
  induction cs using List.reverseRecOn with
  | nil => exact ⟨Nat.zero_le _, rfl, rfl, fun _ => rfl⟩
  | append_singleton cs c ih =>
    have hflat : (cs ++ [c]).flatten = cs.flatten ++ c := by simp
    have hall : F.arrived (cs ++ [c]) (cs.length + 1) = (F.cut (cs.flatten ++ c)).1.length := by
      rw [arrived, List.take_of_length_le (by simp), hflat]
    have hcount : served (F.arrived (cs ++ [c])) cs.length = served (F.arrived cs) cs.length :=
      served_congr fun m hm => arrived_append hm
    rw [List.foldl_append, List.foldl_cons, List.foldl_nil, hflat, List.length_append,
      List.length_singleton, served, hall, hcount]
    exact ih.step c

end Framing

end GramsTof.Lib
