import GramsTof.Dispatch.Effects

/-! `STOP_DAQ` executed by the worker, and the macro that was running when it
started. -/

namespace GramsTof.Dispatch

open Lib TOFCommandCode

/-- How far the worker's `STOP_DAQ` is that found the present macro thread running. -/
inductive Halt where
  | none
  | started
  /-- It has cleared `macroLoopRunning_`. -/
  | cancelled
  | returned
  deriving DecidableEq, Repr

/-- When the worker takes a step of `call`. -/
def Halt.after (w : Halt) : Call → Halt
  | .stopDaq (.body .cancel) => if w = started then cancelled else w
  | .stopDaq (.report _) => if w = none then none else returned
  | .macroCommand _ _ .spawn => none
  | _ => w

def Halt.track (s : State) (a : Action) (_ : State) (w : Halt) : Halt :=
  match a with
  | .receive .stopDaq _ => if w = none ∧ s.macroPc.isSome then started else w
  | .worker _ => s.workerCall.elim w w.after
  | _ => w

/-- The next step of the macro thread starts a dispatch. -/
def MacroPc.dispatching : MacroPc → Bool
  | sequence _ (.dispatch ..) => true
  | sequence _ (.pulseDispatch _) => true
  | _ => false

def State.dispatching (s : State) : Bool := s.macroPc.any MacroPc.dispatching

variable (sequences : TOFCommandCode → MacroSequence)

def haltMachine : Machine (State × Halt) Action := (machine sequences).withHistory .none Halt.track

/-- The worker's `STOP_DAQ` returns. -/
def State.stopReturns (s : State) : Action → Bool
  | .worker _ => match s.workerCall with
    | some (.stopDaq (.report _)) => true
    | _ => false
  | _ => false

/-- No store of `true` undoes a cancellation while the macro is there, and `STOP_DAQ` does not
return between the macro's test of the flag and the dispatch that follows. -/
structure Undisturbed (p : State × Halt) (a : Action) : Prop where
  keeps : p.2 = .cancelled ∨ p.2 = .returned → p.1.macroPc.isSome → p.1.writes a ≠ some true
  settles : p.2 ≠ .none → p.1.stopReturns a → p.1.dispatching = false

instance (p : State × Halt) (a : Action) : Decidable (Undisturbed p a) :=
  decidable_of_iff (_ ∧ _) ⟨fun ⟨h, h'⟩ => ⟨h, h'⟩, fun h => ⟨h.keeps, h.settles⟩⟩

/-- What carries the argument: the flag stays down after the cancellation. -/
structure Halted (p : State × Halt) : Prop where
  started : p.2 = .started → p.1.worker = .busy (.stopDaq (.body .cancel))
  lowered : p.2 = .cancelled ∨ p.2 = .returned → p.1.live → p.1.macroLoopRunning = false
  final : p.2 = .returned → p.1.dispatching = false

section Steps

variable {sequences} {s s' : State} {w : Halt} {a : Answer}

theorem Halt.after_cases {call : Call} (h : call.touchesThread = false) :
    w.after call = w ∧ (call = .stopDaq (.body .cancel) → w ≠ .started) ∨
    (call = .stopDaq (.body .cancel) ∧ w.after call = .cancelled) ∨
    (∃ b, call = .stopDaq (.report b) ∧ w ≠ .none ∧ w.after call = .returned) := by
  unfold Halt.after
  split
  · by_cases hw : w = .started
    · exact .inr (.inl ⟨rfl, if_pos hw⟩)
    · exact .inl ⟨if_neg hw, fun _ => hw⟩
  · by_cases hw : w = .none
    · exact .inl ⟨by rw [if_pos hw, hw], nofun⟩
    · exact .inr (.inr ⟨_, rfl, hw, if_neg hw⟩)
  · cases h
  · rename_i hcancel _ _
    exact .inl ⟨rfl, fun hc => absurd hc (by simpa using hcancel)⟩

theorem Halt.track_worker {call : Call} (hw : s.worker = .busy call) :
    Halt.track s (.worker a) s' w = w.after call := by
  rw [Halt.track, State.workerCall_eq hw, Option.elim_some]

theorem Halt.track_other {b : Action} (hw : ∀ a, b ≠ .worker a)
    (hr : ∀ code argv, b = .receive code argv → code.handler argv = .none) :
    Halt.track s b s' w = w := by
  cases b with
  | receive code argv =>
    cases code <;> first | rfl | exact absurd (hr _ _ rfl) nofun
  | worker a => exact absurd rfl (hw a)
  | _ => rfl

theorem SequenceMove.dispatching {sub : String} {sequence : List TOFCommandCode}
    {pc pc' : SequencePc} {cycle : ℕ} (h : SequenceMove sequences sub sequence a s pc s' (.next pc'))
    (hd : (MacroPc.sequence cycle pc').dispatching) : s.macroLoopRunning := by
  generalize hr : Progress.next pc' = r at h
  cases h with
  | go hup | pulseGo hup => exact hup
  | @step _ _ _ _ r | @pulse _ _ _ r => cases r <;> cases hr <;> cases hd
  | _ => cases hr <;> cases hd

/-- A dispatch is due only after the flag has been read as set. -/
theorem MacroPc.step_dispatching {p : Program} {pc : MacroPc} {m : MacroThread}
    (h : pc.step sequences p a s = some (s', m)) (hd : m.pc.any MacroPc.dispatching) :
    s.macroLoopRunning := by
  cases pc with
  | loopArm | loopBreak | clear _ | notify _ => cases h; cases hd
  | loopTest cycle =>
    simp only [MacroPc.step] at h
    split_ifs at h <;> cases h <;> cases hd
  | sequence cycle pc =>
    obtain ⟨⟨t, r⟩, ht, heq⟩ := Option.map_eq_some_iff.mp h
    cases heq
    cases r with
    | next pc' => exact (SequencePc.stepIn_move ht).dispatching hd
    | ret success =>
      change (p.afterSequence cycle success).dispatching = true at hd
      obtain ⟨-, hp⟩ | ⟨-, -, hp⟩ | ⟨-, hp⟩ := p.afterSequence_cases cycle success <;>
        (rw [hp] at hd; cases hd)

/-- A store that the guard allows leaves the flag down. -/
theorem Halted.lowered_of_stores {p : State × Halt} {b : Action} {t : State} (hi : Halted p)
    (hw : p.2 = .cancelled ∨ p.2 = .returned) (hlive : p.1.live) (hg : Undisturbed p b)
    (hs : t.macroLoopRunning = (p.1.writes b).getD p.1.macroLoopRunning) :
    t.macroLoopRunning = false := by
  have htrue := hg.keeps hw (State.live_iff.mp hlive)
  have hdown := hi.lowered hw hlive
  cases hwrites : p.1.writes b with
  | none => rw [hs, hwrites, Option.getD_none, hdown]
  | some v =>
    cases v with
    | false => rw [hs, hwrites, Option.getD_some]
    | true => exact absurd hwrites htrue

theorem Halted.worker_step {call : Call} {r : Progress Call} (hi : Halted (s, w))
    (hg : Undisturbed (s, w) (.worker a)) (hw : s.worker = .busy call)
    (ht : call.touchesThread = false) (hs : Stores call.writes s s') :
    Halted ({ s' with worker := r.elim .busy fun _ => .idle }, w.after call) := by
  have hcall := State.workerCall_eq hw
  have hwrites : s.writes (.worker a) = call.writes := by rw [State.writes, hcall]; rfl
  have hstay : w = .cancelled ∨ w = .returned → s'.live → s'.macroLoopRunning = false :=
    fun hph hlive => hi.lowered_of_stores hph (hs.live.mp hlive) hg (by rw [hwrites, hs.flag])
  have hdisp : s'.dispatching = s.dispatching := by
    unfold State.dispatching
    rw [hs.macroPc]
  obtain ⟨hsame, hnot⟩ | ⟨rfl, hnow⟩ | ⟨b, rfl, hne, hnow⟩ := Halt.after_cases (w := w) ht
  · rw [hsame]
    refine ⟨fun hst => ?_, hstay, fun hre => hdisp.trans (hi.final hre)⟩
    have hat := hi.started hst
    rw [hw] at hat
    cases hat
    exact absurd hst (hnot rfl)
  · rw [hnow]
    exact ⟨nofun, fun _ _ => hs.flag, nofun⟩
  · rw [hnow]
    refine ⟨nofun, fun _ hlive => ?_, fun _ => hdisp.trans (hg.settles hne ?_)⟩
    · cases w with
      | none => exact absurd rfl hne
      | started =>
        have hat := hi.started rfl
        rw [hw] at hat
        cases hat
      | cancelled => exact hstay (.inl rfl) hlive
      | returned => exact hstay (.inr rfl) hlive
    · rw [State.stopReturns, hcall]

theorem Halted.macro_step {p : Program} {pc : MacroPc} {m : MacroThread} (hi : Halted (s, w))
    (hg : Undisturbed (s, w) (.macroThread a)) (hm : s.macroThread = .running p pc)
    (hs : Stores pc.writes s s') (h : pc.step sequences p a s = some (s', m)) :
    Halted ({ s' with macroThread := m }, w) := by
  have hlive : s.live := ⟨p, pc, hm⟩
  have hwrites : s.writes (.macroThread a) = pc.writes := by
    rw [State.writes, State.macroPc_eq hm]
    rfl
  refine ⟨fun hst => hs.worker.trans (hi.started hst), fun hph _ => ?_, fun hre => ?_⟩
  · exact hi.lowered_of_stores hph hlive hg (by rw [hwrites, hs.flag])
  · by_contra hd
    have hup := MacroPc.step_dispatching h (eq_true_of_ne_false hd)
    rw [hi.lowered (.inr hre) hlive] at hup
    cases hup

theorem Halted.step {b : Action} (hi : Halted (s, w)) (hg : Undisturbed (s, w) b)
    (h : step sequences s b = some s') : Halted (s', Halt.track s b s' w) := by
  cases step_move h with
  | @receive code argv call hidle hcall =>
    have hkeep : Halted ({ s with worker := .busy call }, w) :=
      ⟨fun hst => absurd (hi.started hst) (by rw [hidle]; nofun), hi.lowered, hi.final⟩
    by_cases hstop : code = stopDaq
    · subst hstop
      cases hcall
      simp only [Halt.track]
      split_ifs
      · exact ⟨fun _ => rfl, nofun, nofun⟩
      · exact hkeep
    · have htrack : Halt.track s (.receive code argv) { s with worker := .busy call } w = w := by
        cases code <;> first | rfl | exact absurd rfl hstop
      rw [htrack]
      exact hkeep
  | worker hw ht hs _ =>
    rw [Halt.track_worker hw]
    exact hi.worker_step hg hw ht hs
  | join hw _ _ =>
    rw [Halt.track_worker hw]
    refine ⟨fun hst => ?_, fun _ hl => absurd hl (State.not_live rfl), fun _ => rfl⟩
    have hat := hi.started hst
    rw [hw] at hat
    cases hat
  | spawn hw _ _ =>
    rw [Halt.track_worker hw]
    exact ⟨nofun, nofun, nofun⟩
  | macroThread hm hs hpc => exact hi.macro_step hg hm hs hpc
  | other hnw _ hnr hs =>
    rw [Halt.track_other hnw hnr]
    refine ⟨fun hst => hs.worker.trans (hi.started hst), fun hph hl => ?_, fun hre => ?_⟩
    · exact hs.flag.trans (hi.lowered hph (hs.live.mp hl))
    · rw [← hi.final hre, State.dispatching, State.dispatching, hs.macroPc]

end Steps

theorem initial_halted : Halted (initial, .none) := ⟨nofun, nofun, nofun⟩

/-- Once the worker's `STOP_DAQ` has returned, the macro it found running starts no dispatch, in
every run that leaves the cancellation undisturbed. -/
theorem stop_halts_macro {p : State × Halt} (h : (haltMachine sequences).Reach Undisturbed p)
    (hw : p.2 = .returned) : p.1.dispatching = false := by
  have hi : Halted p :=
    h.invariant_history (fun _ h0 => h0 ▸ initial_halted) fun _ _ _ _ hi hg hs => hi.step hg hs
  exact hi.final hw

/-- The worker starts a macro, which resets the DAQ. -/
def resetRun : List Action :=
  .receive macroStage1UnbiasedTdc [] :: (List.replicate 5 (.worker done) ++
    List.replicate 17 (.macroThread done))

/-- The worker executes `STOP_DAQ`, for which the DAQ thread ends. -/
def stopRun : List Action :=
  .receive stopDaq [] :: (List.replicate 3 (.worker done) ++ [.daq, .daq] ++
    List.replicate 3 (.worker done))

theorem stop_halts_macro_waiting :
    ∃ p, (haltMachine macroSequence).Reach Undisturbed p ∧
      p.1.macroPc = some (.sequence 0 (.test [readTemperatureSensorsSingle, acquireTdcCalibration,
        processTdcCalibration, readTemperatureSensorsSingle])) ∧
      p.2 = .returned ∧ p.1.dispatching = false := by
  have hend : ((haltMachine macroSequence).runIn Undisturbed (initial, .none)
      (resetRun ++ List.replicate 2 (.macroThread done) ++ stopRun ++ [.macroThread done])).map
      (fun p => (p.1.macroPc, p.2)) = some (some (.sequence 0 (.test
        [readTemperatureSensorsSingle, acquireTdcCalibration, processTdcCalibration,
          readTemperatureSensorsSingle])), .returned) := by decide
  obtain ⟨p, hrun, hp⟩ := Option.map_eq_some_iff.mp hend
  obtain ⟨hpc, hw⟩ := Prod.mk.inj hp
  have h : (haltMachine macroSequence).Reach Undisturbed p :=
    Machine.Reach.runIn (.init (s := (initial, .none)) ⟨rfl, rfl⟩) hrun
  exact ⟨p, h, hpc, hw, stop_halts_macro _ h hw⟩

/-- `STOP_DAQ` comes when the macro's `RESET_DAQ` has just returned: the macro sets the flag again
and goes on to its next step. -/
theorem not_stop_halts_macro :
    ¬ ∀ p, (haltMachine macroSequence).Reachable p → p.2 = .returned → p.1.dispatching = false := by
  intro h
  obtain ⟨p, hp, hlate⟩ := (haltMachine macroSequence).exists_reachable_of_run
    (initial, .none) (fun p => p.2 = .returned && p.1.dispatching)
    (resetRun ++ stopRun ++ List.replicate 5 (.macroThread done)) ⟨rfl, rfl⟩ (by decide)
  simp only [Bool.and_eq_true, decide_eq_true_eq] at hlate
  rw [h p hp hlate.1] at hlate
  cases hlate.2

end GramsTof.Dispatch
