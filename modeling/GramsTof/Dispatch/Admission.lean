import GramsTof.Dispatch.Flag

/-! Macro commands that come while a macro thread has not returned. -/

namespace GramsTof.Dispatch

open Lib TOFCommandCode

/-- A macro handler is about to test the flag. -/
def testsFlag : Option Call → Bool
  | some (.macroCommand _ _ .test) => true
  | _ => false

def State.testsFlag (s : State) : Action → Bool
  | .worker _ => Dispatch.testsFlag s.workerCall
  | .macroThread _ => Dispatch.testsFlag (s.macroPc.bind MacroPc.call)
  | _ => false

/-- When a macro handler tests the flag and a macro thread is there, the last store was `true`:
the thread of `MACRO_AUTO_RUN_CYCLE` has begun, no `STOP_DAQ` has lowered the flag since it was
last raised, and the thread itself has not. -/
def FlagStands (p : State × LastStore) (a : Action) : Prop :=
  p.1.testsFlag a → p.1.live → p.2 = .raised

/-- At most one macro, and the worker does not wait for it. -/
structure Exclusive (sequences : TOFCommandCode → MacroSequence) (s : State) : Prop where
  /-- While a macro thread is there, a macro handler is at its test or at the rejection. -/
  worker : ∀ code argv pc, s.worker = .busy (.macroCommand code argv pc) → s.live →
    pc = .test ∨ pc = .reject
  macroThread : ∀ code argv pc, s.macroPc.bind MacroPc.call = some (.macroCommand code argv pc) →
    pc = .test ∨ pc = .reject
  /-- `macroLoopThread_.join()` does not wait. -/
  joins : ∀ code argv a, s.worker = .busy (.macroCommand code argv .join) →
    (step sequences s (.worker a)).isSome
  /-- The rejection sends status 1, and the worker is free. -/
  rejects : ∀ code argv a, s.worker = .busy (.macroCommand code argv .reject) →
    step sequences s (.worker a) =
      some { s with callbacks := s.callbacks ++ [(code, 1)], worker := .idle }

variable {sequences : TOFCommandCode → MacroSequence} {s s' : State} {a : Answer}
  {l : LastStore}

theorem State.live_or (s : State) : s.live ∨ s.macroThread = .none ∨ s.macroThread = .finished := by
  cases hm : s.macroThread with
  | none => exact .inr (.inl rfl)
  | finished => exact .inr (.inr rfl)
  | running p pc => exact .inl ⟨p, pc, hm⟩

theorem step_join {code : TOFCommandCode} {argv : CommandArgs}
    (hw : s.worker = .busy (.macroCommand code argv .join)) (hlive : ¬ s.live) :
    (step sequences s (.worker a)).isSome := by
  rcases s.live_or with h | h | h
  · exact absurd h hlive
  · simp [step, hw, Call.step, AdmitPc.step, h]
  · simp [step, hw, Call.step, AdmitPc.step, h]

/-- The other two follow from where the handlers are. -/
theorem Exclusive.of_points
    (hworker : ∀ code argv pc, s.worker = .busy (.macroCommand code argv pc) → s.live →
      pc = .test ∨ pc = .reject)
    (hthread : ∀ code argv pc, s.macroPc.bind MacroPc.call = some (.macroCommand code argv pc) →
      pc = .test ∨ pc = .reject) : Exclusive sequences s := by
  refine ⟨hworker, hthread, fun code argv a hw => ?_, fun code argv a hw => ?_⟩
  · refine step_join hw fun hlive => ?_
    rcases hworker code argv .join hw hlive with h | h <;> cases h
  · simp only [step, hw]
    rfl

/-- Where a handler that does not go past its rejection can go. -/
theorem AdmitPc.step_confined {self : Caller} {code : TOFCommandCode} {argv : CommandArgs}
    {pc pc' : AdmitPc} (h : pc.step sequences self code argv s = some (s', .next pc'))
    (hpc : pc = .test ∨ pc = .reject) :
    pc = .test ∧ pc' = if s.macroLoopRunning then .reject else .configure := by
  rcases hpc with rfl | rfl
  · cases h
    exact ⟨rfl, rfl⟩
  · cases h

theorem AdmitPc.confined_iff {flag : Bool} :
    ((if flag then AdmitPc.reject else .configure) = .test ∨
      (if flag then AdmitPc.reject else .configure) = .reject) ↔ flag = true := by
  cases flag <;> simp

/-- A macro handler on the macro thread has just been called, or comes from its own step. -/
theorem SequenceMove.call_of {sub : String} {sequence : List TOFCommandCode} {pc pc₁ : SequencePc}
    {cycle : ℕ} {code : TOFCommandCode} {argv : CommandArgs} {pc' : AdmitPc}
    (h : SequenceMove sequences sub sequence a s pc s' (.next pc₁))
    (hm : (MacroPc.sequence cycle pc₁).call = some (.macroCommand code argv pc')) :
    pc' = .test ∨ ∃ pc₀ t, (MacroPc.sequence cycle pc).call = some (.macroCommand code argv pc₀) ∧
      AdmitPc.step sequences .macroThread code argv s pc₀ = some (t, .next pc') := by
  generalize hr : Progress.next pc₁ = r at h
  cases h with
  | call hcall =>
    cases hr
    cases hm
    exact .inl (handler_macroCommand hcall)
  | @step _ _ _ _ r hcall | @pulse _ _ _ r hcall =>
    cases r <;> cases hr <;> cases hm
    obtain ⟨pc₀, rfl, hpc⟩ := Call.step_macroCommand hcall
    exact .inr ⟨pc₀, _, rfl, hpc⟩
  | _ => cases hr <;> cases hm

theorem MacroPc.step_call {p : Program} {pc : MacroPc} {m : MacroThread} {code : TOFCommandCode}
    {argv : CommandArgs} {pc' : AdmitPc} (h : pc.step sequences p a s = some (s', m))
    (hm : m.pc.bind MacroPc.call = some (.macroCommand code argv pc')) :
    pc' = .test ∨ ∃ pc₀ t, pc.call = some (.macroCommand code argv pc₀) ∧
      AdmitPc.step sequences .macroThread code argv s pc₀ = some (t, .next pc') := by
  cases pc with
  | loopArm | loopBreak | clear _ | notify _ => cases h; cases hm
  | loopTest cycle =>
    simp only [MacroPc.step] at h
    split_ifs at h <;> (cases h; cases hm)
  | sequence cycle pc =>
    obtain ⟨⟨t, r⟩, ht, heq⟩ := Option.map_eq_some_iff.mp h
    cases heq
    cases r with
    | ret v =>
      change (p.afterSequence cycle v).call = _ at hm
      obtain ⟨-, hp⟩ | ⟨-, -, hp⟩ | ⟨-, hp⟩ := p.afterSequence_cases cycle v <;>
        (rw [hp] at hm; cases hm)
    | next pc₁ => exact (SequencePc.stepIn_move ht).call_of hm

theorem Exclusive.congr (hi : Exclusive sequences s) {w : Option Bool} (hs : Stores w s s') :
    Exclusive sequences s' := by
  refine .of_points (fun code argv pc hw hl => ?_) fun code argv pc hm => ?_
  · exact hi.worker code argv pc (hs.worker ▸ hw) (hs.live.mp hl)
  · exact hi.macroThread code argv pc (hs.macroPc ▸ hm)

theorem Exclusive.worker_step {call : Call} {r : Progress Call} (hi : Exclusive sequences s)
    (ht : Tracked (s, l)) (hg : FlagStands (s, l) (.worker a)) (hw : s.worker = .busy call)
    (hs : Stores call.writes s s') (h : call.step sequences .worker a s = some (s', r)) :
    Exclusive sequences { s' with worker := r.elim .busy fun _ => .idle } := by
  refine .of_points (fun code argv pc hr hl => ?_) fun code argv pc hm => ?_
  · cases r with
    | ret v => cases hr
    | next call' =>
      cases hr
      have hlive : s.live := hs.live.mp hl
      obtain ⟨pc₀, rfl, hpc⟩ := Call.step_macroCommand h
      obtain ⟨rfl, rfl⟩ := AdmitPc.step_confined hpc (hi.worker code argv pc₀ hw hlive)
      have htest : s.testsFlag (.worker a) = true := by
        rw [State.testsFlag, State.workerCall_eq hw]
        rfl
      exact AdmitPc.confined_iff.mpr ((ht.flag hlive).mpr (hg htest hlive))
  · exact hi.macroThread code argv pc (hs.macroPc ▸ hm)

theorem Exclusive.macro_step {p : Program} {pc : MacroPc} {m : MacroThread}
    (hi : Exclusive sequences s) (ht : Tracked (s, l)) (hg : FlagStands (s, l) (.macroThread a))
    (hm : s.macroThread = .running p pc) (hs : Stores pc.writes s s')
    (h : pc.step sequences p a s = some (s', m)) :
    Exclusive sequences { s' with macroThread := m } := by
  have hlive : s.live := ⟨p, pc, hm⟩
  have hat : s.macroPc = some pc := State.macroPc_eq hm
  refine .of_points (fun code argv pc hr _ => ?_) fun code argv pc' hm' => ?_
  · exact hi.worker code argv pc (hs.worker ▸ hr) hlive
  · rcases MacroPc.step_call h hm' with rfl | ⟨pc₀, t, hcall, hpc⟩
    · exact .inl rfl
    · have hin : s.macroPc.bind MacroPc.call = some (.macroCommand code argv pc₀) := by
        rw [hat]
        exact hcall
      obtain ⟨rfl, rfl⟩ := AdmitPc.step_confined hpc (hi.macroThread code argv pc₀ hin)
      have htest : s.testsFlag (.macroThread a) = true := by
        rw [State.testsFlag, hin]
        rfl
      exact AdmitPc.confined_iff.mpr ((ht.flag hlive).mpr (hg htest hlive))

/-- A step that the guard allows keeps the property. -/
theorem Exclusive.step {b : Action} (hi : Exclusive sequences s) (ht : Tracked (s, l))
    (hg : FlagStands (s, l) b) (h : step sequences s b = some s') : Exclusive sequences s' := by
  cases step_move h with
  | receive _ hcall =>
    refine .of_points (fun code argv pc hw _ => ?_) hi.macroThread
    cases hw
    exact .inl (handler_macroCommand hcall)
  | worker hw _ hs hcall => exact hi.worker_step ht hg hw hs hcall
  | join _ _ _ =>
    exact .of_points (fun _ _ _ _ hl => absurd hl (State.not_live rfl)) nofun
  | @spawn _ code argv p _ _ hp =>
    have hnone : p.start.call = none := by
      unfold Program.start
      split_ifs <;> rfl
    refine .of_points nofun fun code argv pc hm => ?_
    change p.start.call = _ at hm
    rw [hnone] at hm
    cases hm
  | macroThread hm hs hpc => exact hi.macro_step ht hg hm hs hpc
  | other _ _ _ hs => exact hi.congr hs

theorem testsFlag_iff {call : Option Call} :
    testsFlag call = true ↔ ∃ code argv, call = some (.macroCommand code argv .test) := by
  constructor
  · intro h
    unfold testsFlag at h
    split at h
    · exact ⟨_, _, rfl⟩
    · cases h
  · rintro ⟨code, argv, rfl⟩
    rfl

theorem MacroPc.step_test {p : Program} {pc : MacroPc} {m : MacroThread} {code : TOFCommandCode}
    {argv : CommandArgs} (hcall : pc.call = some (.macroCommand code argv .test))
    (h : pc.step sequences p a s = some (s', m)) :
    m.pc.bind MacroPc.call =
      some (.macroCommand code argv (if s.macroLoopRunning then .reject else .configure)) := by
  cases pc with
  | sequence cycle pc =>
    cases pc with
    | step cmd rest call | pulse rest call =>
      cases hcall
      cases h
      rfl
    | _ => cases hcall
  | _ => cases hcall

/-- A step that the guard does not allow breaks it at once. -/
theorem FlagStands.of_step {b : Action} (ht : Tracked (s, l)) (hi : Exclusive sequences s')
    (h : step sequences s b = some s') : FlagStands (s, l) b := by
  intro htest hlive
  refine (ht.flag hlive).mp ?_
  cases b with
  | worker a =>
    cases hw : s.worker with
    | idle => simp [State.testsFlag, Dispatch.testsFlag, State.workerCall, hw] at htest
    | busy call =>
      obtain ⟨code, argv, hcall⟩ := testsFlag_iff.mp htest
      rw [State.workerCall_eq hw] at hcall
      cases hcall
      simp only [Dispatch.step, hw] at h
      cases h
      exact AdmitPc.confined_iff.mp (hi.worker code argv _ rfl hlive)
  | macroThread a =>
    obtain ⟨q, pc, hm⟩ := hlive
    change s.macroThread = _ at hm
    obtain ⟨code, argv, hcall⟩ := testsFlag_iff.mp htest
    rw [State.macroPc, hm] at hcall
    simp only [Dispatch.step, hm] at h
    obtain ⟨⟨t, m⟩, ht, heq⟩ := Option.map_eq_some_iff.mp h
    cases heq
    exact AdmitPc.confined_iff.mp (hi.macroThread code argv _ (MacroPc.step_test hcall ht))
  | _ => cases htest

/-- In every run all of whose steps are allowed the property holds in every state, and the first
step that is not allowed breaks it. -/
theorem macro_exclusive_iff (sequences : TOFCommandCode → MacroSequence) :
    (∀ p, (flagMachine sequences).Reach FlagStands p → Exclusive sequences p.1) ∧
    ∀ p b p', (flagMachine sequences).Reach FlagStands p →
      (flagMachine sequences).step p b = some p' →
        (Exclusive sequences p'.1 ↔ FlagStands p b) := by
  have hall {p : State × LastStore} (h : (flagMachine sequences).Reach FlagStands p) :
      Tracked p ∧ Exclusive sequences p.1 :=
    h.invariant_history (I := fun p => Tracked p ∧ Exclusive sequences p.1)
      (fun _ h0 => h0 ▸ ⟨initial_tracked, .of_points nofun nofun⟩)
      fun _ _ _ _ hi hg hs => ⟨hi.1.step hs, hi.2.step hi.1 hg hs⟩
  refine ⟨fun p h => (hall h).2, fun p b p' h hs => ⟨fun hi => ?_, fun hg => ?_⟩⟩
  · exact FlagStands.of_step (hall h).1 hi (Machine.step_withHistory.mp hs).1
  · exact (hall h).2.step (hall h).1 hg (Machine.step_withHistory.mp hs).1

/-- `MACRO_AUTO_RUN_CYCLE` has started its thread, which has not yet raised the flag, when another
macro command passes its test: the worker waits for a loop without an end. -/
def secondMacroRun : List Action :=
  .receive macroAutoRunCycle [] :: (List.replicate 4 (.worker done) ++
    .receive macroThermalCalib [] :: List.replicate 2 (.worker done))

theorem not_macro_exclusive :
    ¬ ∀ s, (machine macroSequence).Reachable s → Exclusive macroSequence s := by
  intro h
  obtain ⟨s, hs, hp⟩ := (machine macroSequence).exists_reachable_of_run initial
    (fun s => s.worker = .busy (.macroCommand macroThermalCalib [] .join) && s.macroPc.isSome)
    secondMacroRun rfl (by decide)
  simp only [Bool.and_eq_true, decide_eq_true_eq] at hp
  rcases (h s hs).worker _ _ _ hp.1 (State.live_iff.mpr hp.2) with hpc | hpc <;> cases hpc

end GramsTof.Dispatch
