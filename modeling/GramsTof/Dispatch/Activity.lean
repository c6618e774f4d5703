import GramsTof.Dispatch.Flag

/-! When nobody executes a handler, a raised flag means that a macro is being
executed, and a lowered one during a macro that the macro is to end or has not
yet begun. -/

namespace GramsTof.Dispatch

open Lib TOFCommandCode

/-- The worker's `RESET_DAQ` is about to restore the flag. -/
def State.restores (s : State) : Action → Bool
  | .worker _ => s.workerCall = some (.resetDaq (.body (.restore true)))
  | _ => false

/-- `RESET_DAQ` does not raise the flag on behalf of a macro that is over. -/
def RestoresActive (p : State × LastStore) (a : Action) : Prop :=
  p.1.restores a → p.1.executing

instance (p : State × LastStore) (a : Action) : Decidable (RestoresActive p a) :=
  inferInstanceAs (Decidable (_ → _))

/-- The flag is raised only for a macro that is executing, or about to be started. -/
def Reported (s : State) : Prop :=
  s.macroLoopRunning = true →
    s.executing ∨ ∃ code argv, s.worker = .busy (.macroCommand code argv .spawn)

variable {sequences : TOFCommandCode → MacroSequence} {s s' : State} {a : Answer}
  {l : LastStore}

theorem Call.writes_true {call : Call} (h : call.writes = some true) :
    (∃ code argv, call = .macroCommand code argv .arm) ∨ call = .resetDaq (.body (.restore true)) := by
  cases call with
  | macroCommand code argv pc => cases pc <;> cases h; exact .inl ⟨code, argv, rfl⟩
  | stopDaq pc =>
    cases pc with
    | body pc => cases pc <;> cases h
    | report _ => cases h
  | resetDaq pc =>
    cases pc with
    | report _ => cases h
    | body pc =>
      cases pc with
      | save | start _ _ => cases h
      | stop was pc =>
        cases pc with
        | body pc => cases pc <;> cases h
        | report _ => cases h
      | restore was => cases was <;> cases h; exact .inr rfl
  | _ => cases h

theorem Stores.executing {w : Option Bool} (h : Stores w s s') : s'.executing = s.executing := by
  unfold State.executing
  rw [h.macroPc]

theorem Reported.worker_step {call : Call} {r : Progress Call} (hi : Reported s)
    (hg : RestoresActive (s, l) (.worker a)) (hw : s.worker = .busy call)
    (ht : call.touchesThread = false) (hs : Stores call.writes s s')
    (h : call.step sequences .worker a s = some (s', r)) :
    Reported { s' with worker := r.elim .busy fun _ => .idle } := by
  intro hup
  have hflag : call.writes.getD s.macroLoopRunning = true := hs.flag ▸ hup
  cases hwr : call.writes with
  | none =>
    rw [hwr] at hflag
    rcases hi hflag with hex | ⟨code, argv, hsp⟩
    · exact .inl (hs.executing.trans hex)
    · rw [hw] at hsp
      cases hsp
      cases ht
  | some v =>
    rw [hwr] at hflag
    cases hflag
    rcases Call.writes_true hwr with ⟨code, argv, rfl⟩ | rfl
    · cases h
      exact .inr ⟨code, argv, rfl⟩
    · exact .inl (hs.executing.trans (hg (by simp [State.restores, State.workerCall, hw])))

theorem Program.afterSequence_executing (p : Program) (cycle : ℕ) (success : Bool) :
    (p.afterSequence cycle success).executing := by
  obtain ⟨-, hp⟩ | ⟨-, -, hp⟩ | ⟨-, hp⟩ := p.afterSequence_cases cycle success <;> rw [hp] <;> rfl

/-- The macro thread's last store to the flag lowers it. -/
theorem MacroPc.step_executing {p : Program} {pc : MacroPc} {m : MacroThread}
    (h : pc.step sequences p a s = some (s', m)) (hpc : pc.executing) :
    m.pc.any MacroPc.executing ∨ pc.writes = some false := by
  cases pc with
  | loopArm | loopBreak => cases h; exact .inl rfl
  | loopTest cycle =>
    simp only [MacroPc.step] at h
    split_ifs at h <;> (cases h; exact .inl rfl)
  | clear _ => exact .inr rfl
  | notify _ => cases hpc
  | sequence cycle pc =>
    obtain ⟨⟨t, r⟩, ht, heq⟩ := Option.map_eq_some_iff.mp h
    cases heq
    left
    cases r with
    | next pc => rfl
    | ret v => exact p.afterSequence_executing cycle v

theorem Reported.macro_step {p : Program} {pc : MacroPc} {m : MacroThread} (hi : Reported s)
    (ht : Tracked (s, l)) (hm : s.macroThread = .running p pc) (hs : Stores pc.writes s s')
    (h : pc.step sequences p a s = some (s', m)) : Reported { s' with macroThread := m } := by
  intro hup
  have hflag : pc.writes.getD s.macroLoopRunning = true := hs.flag ▸ hup
  have hat : s.macroPc = some pc := State.macroPc_eq hm
  cases hpc : pc.executing with
  | true =>
    rcases MacroPc.step_executing h hpc with hex | hdown
    · exact .inl hex
    · rw [hdown] at hflag
      cases hflag
  | false =>
    cases pc with
    | notify success =>
      rcases hi hflag with hex | ⟨code, argv, hsp⟩
      · rw [State.executing, hat] at hex
        cases hex
      · rw [ht.vacant code argv (.inr hsp)] at hm
        cases hm
    | _ => cases hpc

theorem Reported.step {b : Action} (hi : Reported s) (ht : Tracked (s, l))
    (hg : RestoresActive (s, l) b) (h : step sequences s b = some s') : Reported s' := by
  cases step_move h with
  | receive hidle _ =>
    intro hup
    rcases hi hup with hex | ⟨code, argv, hsp⟩
    · exact .inl hex
    · cases hidle.symm.trans hsp
  | worker hw htouch hs hcall => exact hi.worker_step hg hw htouch hs hcall
  | join hw hdead _ =>
    intro hup
    rcases hi hup with hex | ⟨code, argv, hsp⟩
    · rw [State.live_iff] at hdead
      cases hm : s.macroPc with
      | none => simp [State.executing, hm] at hex
      | some pc => exact absurd (by rw [hm]; rfl) hdead
    · cases hw.symm.trans hsp
  | @spawn _ code argv p hw _ hp =>
    intro _
    left
    unfold State.executing State.macroPc MacroThread.pc Program.start
    split_ifs <;> rfl
  | macroThread hm hs hpc => exact hi.macro_step ht hm hs hpc
  | other _ _ _ hs =>
    intro hup
    rw [hs.flag] at hup
    rcases hi hup with hex | ⟨code, argv, hsp⟩
    · exact .inl (hs.executing.trans hex)
    · exact .inr ⟨code, argv, hs.worker.trans hsp⟩

/-- The flag in the states of a run. -/
structure FlagReports (sequences : TOFCommandCode → MacroSequence) (p : State × LastStore) :
    Prop where
  /-- Raised, a macro is executing. -/
  raised : p.1.quiet → p.1.macroLoopRunning = true → p.1.executing
  /-- Lowered during a macro, `STOP_DAQ` has cancelled it, or its thread has not made its first
  store, or has made its last but for the one it ends with. -/
  lowered : p.1.quiet → p.1.executing → p.1.macroLoopRunning = false →
    p.2 = .stopped ∨ p.1.macroPc = some .loopArm ∨
      ∃ pc, p.1.macroPc = some pc ∧ pc.closing = true
  /-- No macro executing, a macro command passes its test. -/
  admits : ∀ code argv a s', p.1.worker = .busy (.macroCommand code argv .test) → ¬ p.1.executing →
    step sequences p.1 (.worker a) = some s' → s'.worker = .busy (.macroCommand code argv .configure)

theorem Tracked.lowered {p : State × LastStore} (hi : Tracked p) (hlive : p.1.live)
    (hdown : p.1.macroLoopRunning = false) :
    p.2 = .stopped ∨ p.1.macroPc = some .loopArm ∨
      ∃ pc, p.1.macroPc = some pc ∧ pc.closing = true := by
  cases hl : p.2 with
  | raised =>
    rw [(hi.flag hlive).mpr hl] at hdown
    cases hdown
  | stopped => exact .inl rfl
  | unarmed => exact .inr (.inl (hi.unarmed hl hlive))
  | ended => exact .inr (.inr (hi.ended hl hlive))

theorem State.live_of_executing (h : s.executing) : s.live := by
  rw [State.live_iff]
  cases hm : s.macroPc with
  | none => simp [State.executing, hm] at h
  | some pc => rfl

theorem flag_reports {p : State × LastStore}
    (h : (flagMachine sequences).Reach RestoresActive p) : FlagReports sequences p := by
  have hi : Tracked p ∧ Reported p.1 :=
    h.invariant_history (I := fun p => Tracked p ∧ Reported p.1)
      (fun _ h0 => h0 ▸ ⟨initial_tracked, nofun⟩)
      fun _ _ _ _ hi hg hs => ⟨hi.1.step hs, Reported.step hi.2 hi.1 hg hs⟩
  refine ⟨fun hq hup => ?_, fun _ hex hdown => ?_, fun code argv a s' hw hex hs => ?_⟩
  · rcases hi.2 hup with hex | ⟨code, argv, hsp⟩
    · exact hex
    · cases hq.1.symm.trans hsp
  · exact hi.1.lowered (State.live_of_executing hex) hdown
  · have hdown : p.1.macroLoopRunning = false := by
      by_contra hup
      rcases hi.2 (eq_true_of_ne_false hup) with h | ⟨c, v, hsp⟩
      · exact hex h
      · cases hw.symm.trans hsp
    simp only [Dispatch.step, hw, Call.step, AdmitPc.step, hdown] at hs
    cases hs
    rfl

/-- The worker starts a macro, whose thread does `n` steps. -/
def macroRun (n : ℕ) (a : Answer) : List Action :=
  .receive macroStage1UnbiasedTdc [] :: (List.replicate 5 (.worker done) ++
    List.replicate n (.macroThread a))

/-- The worker executes `RESET_DAQ` with no DAQ thread there. -/
def workerReset : List Action := .receive resetDaq [] :: List.replicate 13 (.worker done)

/-- The macro stands before its first step when the worker resets the DAQ. -/
theorem flag_reports_reset :
    ∃ p, (flagMachine macroSequence).Reach RestoresActive p ∧ p.2 = .raised ∧ p.1.quiet ∧
      p.1.macroPc = some (.sequence 0 (.test (macroSteps macroStage1UnbiasedTdc))) ∧
      FlagReports macroSequence p := by
  have hend : ((flagMachine macroSequence).runIn RestoresActive (initial, .ended)
      (macroRun 2 done ++ workerReset)).map (fun p => (p.2, decide p.1.quiet, p.1.macroPc)) =
      some (.raised, true,
        some (.sequence 0 (.test (macroSteps macroStage1UnbiasedTdc)))) := by decide
  obtain ⟨p, hrun, hp⟩ := Option.map_eq_some_iff.mp hend
  simp only [Prod.mk.injEq, decide_eq_true_eq] at hp
  have h : (flagMachine macroSequence).Reach RestoresActive p :=
    Machine.Reach.runIn (.init (s := (initial, .ended)) ⟨rfl, rfl⟩) hrun
  exact ⟨p, h, hp.1, hp.2.1, hp.2.2, flag_reports h⟩

/-- After a macro that could not make its vault, `RESET_DAQ` finds the thread joinable and raises
the flag; after a `STOP_DAQ` the flag is down while the macro still executes. -/
theorem not_flag_iff_executing :
    ¬ (∀ s, (machine macroSequence).Reachable s → s.quiet →
      s.macroLoopRunning = true → s.executing) ∧
    ¬ (∀ s, (machine macroSequence).Reachable s → s.quiet →
      s.executing → s.macroLoopRunning = true) := by
  constructor
  · intro h
    obtain ⟨s, hs, hp⟩ := (machine macroSequence).exists_reachable_of_run
      initial (fun s => decide s.quiet && s.macroLoopRunning && !s.executing)
      (macroRun 5 { done with ok := false } ++ workerReset) rfl (by decide)
    simp only [Bool.and_eq_true, decide_eq_true_eq, Bool.not_eq_true'] at hp
    have hex := h s hs hp.1.1 hp.1.2
    rw [hp.2] at hex
    cases hex
  · intro h
    obtain ⟨s, hs, hp⟩ := (machine macroSequence).exists_reachable_of_run
      initial (fun s => decide s.quiet && s.executing && !s.macroLoopRunning)
      (macroRun 2 done ++ .receive stopDaq [] :: List.replicate 6 (.worker done)) rfl
      (by decide)
    simp only [Bool.and_eq_true, decide_eq_true_eq, Bool.not_eq_true'] at hp
    have hup := h s hs hp.1.1 hp.1.2
    rw [hp.2] at hup
    cases hup

end GramsTof.Dispatch
