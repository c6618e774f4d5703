import Mathlib.Data.Nat.Notation
import Mathlib.Data.Option.Basic
import Mathlib.Tactic.SplitIfs

/-! Machines that take one labelled step at a time. A run is guarded by `C` when
each of its steps is taken from a state and with a label that `C` allows; the
reachable states are those of runs guarded by nothing. -/

namespace GramsTof.Lib

variable {σ α : Type*}

/-- Initial states and partial labelled steps. -/
structure Machine (σ α : Type*) where
  init : σ → Prop
  step : σ → α → Option σ

namespace Machine

/-- States of the runs all of whose steps meet `C`. -/
inductive Reach (M : Machine σ α) (C : σ → α → Prop) : σ → Prop where
  | init {s : σ} : M.init s → Reach M C s
  | step {s s' : σ} {a : α} : Reach M C s → C s a → M.step s a = some s' → Reach M C s'

/-- States of all runs. -/
abbrev Reachable (M : Machine σ α) : σ → Prop := M.Reach fun _ _ => True

variable {M : Machine σ α} {C : σ → α → Prop} {s s' : σ}

/-- The invariant rule: what holds initially and is kept by every allowed step holds in every
state of a guarded run. -/
theorem Reach.invariant {I : σ → Prop} (hinit : ∀ s, M.init s → I s)
    (hstep : ∀ s a s', I s → C s a → M.step s a = some s' → I s') (h : M.Reach C s) : I s := by
  induction h with
  | init h0 => exact hinit _ h0
  | step _ hc hs ih => exact hstep _ _ _ ih hc hs

/-- The steps with the labels `as`, all of them allowed by `C`, lead from `s` to a state. -/
inductive Steps (M : Machine σ α) (C : σ → α → Prop) (s : σ) : List α → σ → Prop where
  | nil : Steps M C s [] s
  | snoc {as : List α} {a : α} {t u : σ} :
      Steps M C s as t → C t a → M.step t a = some u → Steps M C s (as ++ [a]) u

theorem Steps.reachable {as : List α} {t : σ} (h0 : M.init s) (h : M.Steps C s as t) :
    M.Reachable t := by
  induction h with
  | nil => exact .init h0
  | snoc _ _ hs ih => exact .step ih trivial hs

/-- What every step keeps exactly when `C` allows the step holds after a run exactly when all of
its steps were allowed. -/
theorem Steps.keeps_iff {P : σ → Prop} {as : List α} {t : σ} (h0 : M.init s) (hP : P s)
    (hstep : ∀ t a u, M.Reachable t → M.step t a = some u → (P u ↔ P t ∧ C t a))
    (h : M.Steps (fun _ _ => True) s as t) : P t ↔ M.Steps C s as t := by
  constructor
  · intro ht
    induction h with
    | nil => exact .nil
    | snoc hrun _ hs ih =>
      obtain ⟨hp, hc⟩ := (hstep _ _ _ (hrun.reachable h0) hs).mp ht
      exact .snoc (ih hp) hc hs
  · intro hrun
    clear h
    induction hrun with
    | nil => exact hP
    | snoc hrun hc hs ih => exact (hstep _ _ _ (hrun.reachable h0) hs).mpr ⟨ih, hc⟩

/-- Take the steps with the given labels. -/
def run (M : Machine σ α) : σ → List α → Option σ
  | s, [] => some s
  | s, a :: as => (M.step s a).bind fun s' => run M s' as

theorem Steps.append_run {bs as : List α} {t u : σ} (h : M.Steps (fun _ _ => True) s bs t)
    (hrun : M.run t as = some u) : M.Steps (fun _ _ => True) s (bs ++ as) u := by
  induction as generalizing bs t with
  | nil =>
    cases hrun
    rwa [List.append_nil]
  | cons a as ih =>
    obtain ⟨v, hv, hrest⟩ := Option.bind_eq_some_iff.mp hrun
    have hnext := ih (.snoc h trivial hv) hrest
    rwa [List.append_assoc, List.singleton_append] at hnext

theorem Steps.of_run {as : List α} {t : σ} (h : M.run s as = some t) :
    M.Steps (fun _ _ => True) s as t := Steps.append_run .nil h

/-- Replaying labels from a reached state reaches the state it ends in. -/
theorem Reach.run {as : List α} (h : M.Reachable s) (hrun : M.run s as = some s') :
    M.Reachable s' := by
  induction as generalizing s with
  | nil => cases hrun; exact h
  | cons a as ih =>
    obtain ⟨t, ht, hrest⟩ := Option.bind_eq_some_iff.mp hrun
    exact ih (.step h trivial ht) hrest

/-- Take the steps with the given labels, as long as `C` allows them. -/
def runIn (M : Machine σ α) (C : σ → α → Prop) [∀ s a, Decidable (C s a)] : σ → List α → Option σ
  | s, [] => some s
  | s, a :: as => if C s a then (M.step s a).bind fun s' => runIn M C s' as else none

theorem Reach.runIn [∀ s a, Decidable (C s a)] {as : List α} (h : M.Reach C s)
    (hrun : M.runIn C s as = some s') : M.Reach C s' := by
  induction as generalizing s with
  | nil => cases hrun; exact h
  | cons a as ih =>
    rw [Machine.runIn] at hrun
    split_ifs at hrun with hc
    obtain ⟨t, ht, hrest⟩ := Option.bind_eq_some_iff.mp hrun
    exact ih (.step h hc ht) hrest

/-- A guarded replay that ends in a state with a property reaches such a state. -/
theorem exists_reach_of_runIn (M : Machine σ α) (C : σ → α → Prop) [∀ s a, Decidable (C s a)] (s : σ)
    (p : σ → Bool) (as : List α) (h0 : M.init s) (h : (M.runIn C s as).any p = true) :
    ∃ s', M.Reach C s' ∧ p s' = true := by
  cases hs : M.runIn C s as with
  | none => rw [hs] at h; cases h
  | some s' =>
    rw [hs] at h
    exact ⟨s', Reach.runIn (.init h0) hs, h⟩

/-- A replay that ends in a state with a property reaches such a state. -/
theorem exists_reachable_of_run (M : Machine σ α) (s : σ) (p : σ → Bool) (as : List α) (h0 : M.init s)
    (h : (M.run s as).any p = true) : ∃ s', M.Reachable s' ∧ p s' = true := by
  cases hs : M.run s as with
  | none => rw [hs] at h; cases h
  | some s' =>
    rw [hs] at h
    exact ⟨s', Reach.run (.init h0) hs, h⟩

/-- The potential rule: when every step lowers `Φ`, the ones called `extra` excepted, which raise it
by one at most, the steps of a run are bounded by `Φ` and the extra ones. -/
theorem Steps.potential (Φ : σ → ℕ) (extra : α → Bool) {as : List α} {t : σ} (h0 : M.init s)
    (hstep : ∀ t a u, M.Reachable t → M.step t a = some u → extra a = false → Φ u < Φ t)
    (hextra : ∀ t a u, M.Reachable t → M.step t a = some u → extra a = true → Φ u ≤ Φ t + 1)
    (h : M.Steps C s as t) : as.countP (fun a => !extra a) + Φ t ≤ Φ s + as.countP extra := by
  induction h with
  | nil => simp
  | @snoc as a t u hrun _ hs ih =>
    have ht := hrun.reachable h0
    rw [List.countP_append, List.countP_append, List.countP_singleton, List.countP_singleton]
    cases ha : extra a with
    | false =>
      have := hstep t a u ht hs ha
      simp only [Bool.not_false, if_true, Bool.false_eq_true, if_false]
      omega
    | true =>
      have := hextra t a u ht hs ha
      simp only [Bool.not_true, if_true, Bool.false_eq_true, if_false]
      omega

/-! ### What a run can come to -/

/-- Some run from a state, all of whose steps `C` allows, comes to a state with `P`. -/
inductive Can (M : Machine σ α) (C : σ → α → Prop) (P : σ → Prop) : σ → Prop where
  | now {s : σ} : P s → Can M C P s
  | step {s t : σ} {a : α} : C s a → M.step s a = some t → Can M C P t → Can M C P s

theorem Can.andThen {P Q : σ → Prop} (h : M.Can C P s) (hnext : ∀ t, P t → M.Can C Q t) :
    M.Can C Q s := by
  induction h with
  | now hp => exact hnext _ hp
  | step hc hs _ ih => exact .step hc hs ih

theorem Can.mono {P Q : σ → Prop} (h : M.Can C P s) (hpq : ∀ t, P t → Q t) : M.Can C Q s :=
  h.andThen fun t ht => .now (hpq t ht)

/-- What every step keeps holds after a run. -/
theorem Steps.keeps {I : σ → Prop} {as : List α} {t : σ} (hi : I s)
    (hstep : ∀ s a t, I s → M.step s a = some t → I t) (h : M.Steps C s as t) : I t := by
  induction h with
  | nil => exact hi
  | snoc _ _ hs ih => exact hstep _ _ _ ih hs

/-! ### History variables -/

variable {ω : Type*} {w₀ : ω} {track : σ → α → σ → ω → ω}

/-- The machine with a component that no step reads, `w₀` at first and updated by `track`. -/
def withHistory (M : Machine σ α) (w₀ : ω) (track : σ → α → σ → ω → ω) : Machine (σ × ω) α where
  init p := M.init p.1 ∧ p.2 = w₀
  step p a := (M.step p.1 a).map fun s' => (s', track p.1 a s' p.2)

theorem step_withHistory {p p' : σ × ω} {a : α} :
    (M.withHistory w₀ track).step p a = some p' ↔
      M.step p.1 a = some p'.1 ∧ p'.2 = track p.1 a p'.1 p.2 := by
  constructor
  · intro h
    obtain ⟨s', hs, rfl⟩ := Option.map_eq_some_iff.mp h
    exact ⟨hs, rfl⟩
  · rintro ⟨hs, hw⟩
    exact Option.map_eq_some_iff.mpr ⟨p'.1, hs, by rw [← hw]⟩

/-- The invariant rule with a history. -/
theorem Reach.invariant_history {I : σ × ω → Prop} {E : σ × ω → α → Prop} {p : σ × ω}
    (hinit : ∀ s, M.init s → I (s, w₀))
    (hstep : ∀ s w a s', I (s, w) → E (s, w) a → M.step s a = some s' → I (s', track s a s' w))
    (h : (M.withHistory w₀ track).Reach E p) : I p := by
  refine h.invariant (fun q hq => ?_) fun q a q' hi hg hs => ?_
  · obtain ⟨s, w⟩ := q
    obtain ⟨h0, rfl⟩ := hq
    exact hinit s h0
  · obtain ⟨s', rfl⟩ : ∃ s', q' = (s', track q.1 a s' q.2) :=
      ⟨q'.1, Prod.ext rfl (step_withHistory.mp hs).2⟩
    exact hstep q.1 q.2 a s' hi hg (step_withHistory.mp hs).1

theorem Reach.of_history {E : σ × ω → α → Prop} {p : σ × ω}
    (h : (M.withHistory w₀ track).Reach E p) : M.Reachable p.1 :=
  h.invariant_history (I := fun p => M.Reachable p.1) (fun _ h0 => .init h0)
    fun _ _ _ _ hi _ hs => .step hi trivial hs

/-- The history does not restrict the runs. -/
theorem Reach.exists_history (w₀ : ω) (track : σ → α → σ → ω → ω) (h : M.Reachable s) :
    ∃ w, (M.withHistory w₀ track).Reachable (s, w) := by
  induction h with
  | init h0 => exact ⟨w₀, .init ⟨h0, rfl⟩⟩
  | step _ _ hs ih =>
    obtain ⟨w, hw⟩ := ih
    exact ⟨track _ _ _ w, .step hw trivial (step_withHistory.mpr ⟨hs, rfl⟩)⟩

end Machine

end GramsTof.Lib
