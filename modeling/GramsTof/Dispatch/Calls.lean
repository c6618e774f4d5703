import GramsTof.Dispatch.Custody

/-! The handler each of the two threads is in, from its dispatch to its return. -/

namespace GramsTof.Dispatch

open Lib TOFCommandCode

/-- How a command answers. -/
inductive Kind where
  /-- Through `executeSimpleCommand`. -/
  | reporting
  /-- Through `executeManagedBackground`. -/
  | background
  | other
  deriving DecidableEq, Repr

/-- A value has been returned. -/
def Progress.returns {π : Type} : Progress π → Bool
  | next _ => false
  | ret _ => true

@[simp] theorem Progress.returns_map {π ρ : Type} (f : π → ρ) (r : Progress π) :
    (r.map f).returns = r.returns := by
  cases r <;> rfl

namespace Call

def code : Call → TOFCommandCode
  | startDaq _ => .startDaq
  | stopDaq _ => .stopDaq
  | resetDaq _ => .resetDaq
  | simple code _ => code
  | background code _ => code
  | sendPulseTrain _ => .sendPulseTrain
  | startAsicTempRecord => .startAsicTempRecord
  | stopAsicTempRecord _ => .stopAsicTempRecord
  | macroCommand code _ _ => code
  | heartBeat => .heartBeat

def kind : Call → Kind
  | startDaq _ | stopDaq _ | resetDaq _ | simple _ _ => .reporting
  | background _ _ => .background
  | _ => .other

end Call

def TOFCommandCode.kind (code : TOFCommandCode) : Kind :=
  ((code.handler []).map Call.kind).getD .other

theorem handler_code {code : TOFCommandCode} {argv : CommandArgs} {call : Call}
    (h : code.handler argv = some call) : call.code = code ∧ call.kind = code.kind := by
  cases code <;> cases h <;> exact ⟨rfl, rfl⟩

section Handlers

variable {sequences : TOFCommandCode → MacroSequence} {self : Caller} {s s' : State}
  {a : Answer} {call : Call} {r : Progress Call}

theorem Call.step_code {call' : Call} (h : call.step sequences self a s = some (s', .next call')) :
    call'.code = call.code ∧ call'.kind = call.kind := by
  cases Call.step_continues h <;> exact ⟨rfl, rfl⟩

/-- `executeSimpleCommand` returns after its status and with it. -/
theorem Simple.step_own {π : Type} {code : TOFCommandCode}
    {body : State → π → Option (State × Progress π)} (op : π → Operation) {pc : Simple π}
    {r : Progress (Simple π)} (hbody : ∀ pc value, (op pc).own ≠ some (code, value))
    (h : pc.step code body s = some (s', r)) :
    (∃ value, (pc.operation code op).own = some (code, value)) ↔ r.returns := by
  cases pc with
  | body pc =>
    obtain ⟨⟨t, q⟩, ht, heq⟩ := Option.map_eq_some_iff.mp h
    cases heq
    refine iff_of_false (fun ⟨value, hv⟩ => hbody pc value hv) ?_
    cases q <;> exact Bool.false_ne_true
  | report success =>
    cases h
    exact iff_of_true ⟨_, rfl⟩ rfl

theorem StopPc.operation_own (a : Answer) (pc : StopPc) : (pc.operation a).own = none := by
  cases pc with
  | fork =>
    unfold StopPc.operation
    split_ifs
    · cases a.pid <;> rfl
    · rfl
  | _ => rfl

theorem BodyPc.operation_own (a : Answer) (pc : BodyPc) : (pc.operation a).own = none := by
  unfold BodyPc.operation
  split <;> rfl

theorem ResetPc.operation_own (a : Answer) (pc : ResetPc) (value : ℕ) :
    (pc.operation a).own ≠ some (resetDaq, value) := by
  cases pc with
  | save | restore _ => nofun
  | stop was pc =>
    cases pc with
    | body pc => exact fun h => absurd (StopPc.operation_own a pc ▸ h) nofun
    | report v => nofun
  | start was pc => cases pc <;> nofun

/-- A command of `executeSimpleCommand` sends its own status exactly when it returns. -/
theorem Call.step_own (hk : call.kind = .reporting)
    (h : call.step sequences self a s = some (s', r)) :
    (∃ value, (call.operation a).own = some (call.code, value)) ↔ r.returns := by
  cases call with
  | startDaq pc =>
    obtain ⟨⟨t, q⟩, ht, heq⟩ := Option.map_eq_some_iff.mp h
    cases heq
    rw [Progress.returns_map]
    exact Simple.step_own (fun _ => .idle) (fun _ _ => nofun) ht
  | stopDaq pc =>
    obtain ⟨⟨t, q⟩, ht, heq⟩ := Option.map_eq_some_iff.mp h
    cases heq
    rw [Progress.returns_map]
    exact Simple.step_own _ (fun pc value => by rw [StopPc.operation_own]; nofun) ht
  | resetDaq pc =>
    obtain ⟨⟨t, q⟩, ht, heq⟩ := Option.map_eq_some_iff.mp h
    cases heq
    rw [Progress.returns_map]
    exact Simple.step_own _ (ResetPc.operation_own a) ht
  | simple code pc =>
    obtain ⟨⟨t, q⟩, ht, heq⟩ := Option.map_eq_some_iff.mp h
    cases heq
    rw [Progress.returns_map]
    exact Simple.step_own _ (fun pc value => by rw [BodyPc.operation_own]; nofun) ht
  | _ => cases hk

/-- The task an operation starts or registers. -/
def Operation.task : Operation → Option BackgroundTask
  | fork _ task => some task
  | register _ task => some task
  | interrupt (some _) => some stopScript
  | _ => none

theorem Operation.task_added {o : Operation} {pid : Pid} {task : BackgroundTask}
    (h : o.added = some (pid, task)) : o.task = some task := by
  cases o with
  | register _ _ => cases h; rfl
  | interrupt stopPid =>
    cases stopPid <;> cases h
    rfl
  | _ => cases h

/-- The tasks that a command starts. -/
def TOFCommandCode.Starts (code : TOFCommandCode) (task : BackgroundTask) : Prop :=
  code.kind = .background ∧ task = ⟨code, true⟩ ∨
    (code = stopDaq ∨ code = resetDaq) ∧ task = stopScript

theorem Simple.operation_task {π : Type} {code : TOFCommandCode} {op : π → Operation}
    {pc : Simple π} {task : BackgroundTask} (hbody : ∀ pc, (op pc).task = some task → task = stopScript)
    (h : (pc.operation code op).task = some task) : task = stopScript := by
  cases pc with
  | body pc => exact hbody pc h
  | report v => cases h

theorem StopPc.operation_task {pc : StopPc} {task : BackgroundTask}
    (h : (pc.operation a).task = some task) : task = stopScript := by
  cases pc with
  | cancel | join | markStopped => cases h
  | fork =>
    unfold StopPc.operation at h
    split_ifs at h
    · cases hpid : a.pid <;> rw [hpid] at h <;> cases h
      rfl
    · cases h
  | register pid => cases h; rfl
  | interrupt stopPid =>
    cases stopPid <;> cases h
    rfl

theorem BodyPc.operation_task {pc : BodyPc} : (pc.operation a).task = none := by
  unfold BodyPc.operation
  split <;> rfl

theorem ResetPc.operation_task {pc : ResetPc} {task : BackgroundTask}
    (h : (pc.operation a).task = some task) : task = stopScript := by
  cases pc with
  | save | restore _ => cases h
  | stop was pc => exact Simple.operation_task (fun _ => StopPc.operation_task) h
  | start was pc => cases pc <;> cases h

theorem Call.operation_task {task : BackgroundTask} (h : (call.operation a).task = some task) :
    call.kind = .background ∧ task = ⟨call.code, true⟩ ∨
      (call.code = .stopDaq ∨ call.code = .resetDaq) ∧ task = stopScript := by
  cases call with
  | startDaq pc => cases pc <;> cases h
  | simple _ pc =>
    cases pc with
    | body pc =>
      change (pc.operation a).task = some task at h
      rw [BodyPc.operation_task] at h
      cases h
    | report v => cases h
  | stopDaq pc => exact .inr ⟨.inl rfl, Simple.operation_task (fun _ => StopPc.operation_task) h⟩
  | resetDaq pc => exact .inr ⟨.inr rfl, Simple.operation_task (fun _ => ResetPc.operation_task) h⟩
  | background code pc =>
    cases pc with
    | fork =>
      simp only [Call.operation, BackgroundPc.operation] at h
      cases hpid : a.pid <;> rw [hpid] at h <;> cases h
      exact .inl ⟨rfl, rfl⟩
    | register pid => cases h; exact .inl ⟨rfl, rfl⟩
  | sendPulseTrain pc | macroCommand _ _ pc => cases pc <;> cases h
  | startAsicTempRecord | stopAsicTempRecord _ | heartBeat => cases h

/-- A background command sends no status of its own. -/
theorem Call.background_own (hk : call.kind = .background) : (call.operation a).own = none := by
  cases call with
  | background code pc =>
    cases pc with
    | fork =>
      simp only [Call.operation, BackgroundPc.operation]
      cases a.pid <;> rfl
    | register pid => rfl
  | _ => cases hk

/-- It returns unless it has just forked its process. -/
theorem Call.background_next (hk : call.kind = .background) {call' : Call}
    (h : call.step sequences self a s = some (s', .next call')) :
    ∃ pid task, call.operation a = .fork pid task := by
  cases call with
  | background code pc =>
    obtain ⟨⟨t, q⟩, ht, heq⟩ := Option.map_eq_some_iff.mp h
    cases q <;> cases heq
    cases pc with
    | register pid => cases ht
    | fork =>
      simp only [BackgroundPc.step] at ht
      simp only [Call.operation, BackgroundPc.operation]
      cases hpid : a.pid with
      | none => rw [hpid] at ht; cases ht
      | some pid => exact ⟨pid, _, rfl⟩
  | _ => cases hk

end Handlers

/-! ### The two callers of `dispatch` -/

def Caller.launcher : Caller → Launcher
  | worker => .worker
  | macroThread => .macroThread

def MacroPc.begins : MacroPc → Option TOFCommandCode
  | sequence _ (.dispatch cmd _) => (cmd.handler []).map fun _ => cmd
  | sequence _ (.pulseDispatch _) => some sendPulseTrain
  | _ => none

namespace State

/-- The handler a caller is in. -/
def calls (s : State) : Caller → Option Call
  | .worker => s.workerCall
  | .macroThread => s.macroCall

/-- The command whose handler the step enters. -/
def begins (s : State) : Caller → Action → Option TOFCommandCode
  | .worker, .receive code argv => (code.handler argv).map fun _ => code
  | .macroThread, .macroThread _ => s.macroPc.bind MacroPc.begins
  | _, _ => none

theorem held_calls (s : State) (c : Caller) : s.held c.launcher = (s.calls c).bind Call.hold := by
  cases c <;> rfl

end State

/-- What a step does to the handler that the caller `c` is in. -/
inductive CallStep (sequences : TOFCommandCode → MacroSequence) (c : Caller) (b : Action)
    (s s' : State) : Prop where
  | begins {code : TOFCommandCode} {argv : CommandArgs} {call : Call} :
      s.begins c b = some code → code.handler argv = some call → s.calls c = none →
      s'.calls c = some call → s.operation b = .idle → CallStep sequences c b s s'
  | steps {a : Answer} {call : Call} {t : State} {r : Progress Call} :
      s.begins c b = none → b.launcher = some c.launcher → s.calls c = some call →
      call.step sequences c a s = some (t, r) → s.operation b = call.operation a →
      s'.calls c = r.elim some (fun _ => none) → CallStep sequences c b s s'
  | rests : s.begins c b = none → s'.calls c = s.calls c →
      (b.launcher = some c.launcher → s.calls c = none) → CallStep sequences c b s s'

section Steps

variable {sequences : TOFCommandCode → MacroSequence} {s s' : State} {a : Answer} {b : Action}

theorem step_worker (h : step sequences s b = some s') (hw : ∀ a, b ≠ .worker a)
    (hr : ∀ code argv, b ≠ .receive code argv) : s'.worker = s.worker := by
  cases step_move h with
  | receive _ _ => exact absurd rfl (hr _ _)
  | worker _ _ _ _ | join _ _ _ | spawn _ _ _ => exact absurd rfl (hw _)
  | macroThread _ hs _ => exact hs.worker
  | other _ _ _ hs => exact hs.worker

/-- No other thread moves the macro thread out of a handler or into one. -/
theorem step_macroCall (h : step sequences s b = some s') (hm : ∀ a, b ≠ .macroThread a) :
    s'.macroCall = s.macroCall := by
  cases step_move h with
  | receive _ _ => rfl
  | worker _ _ hs _ => exact congrArg (·.bind MacroPc.call) hs.macroPc
  | join _ hdead _ =>
    rw [State.live_iff, Option.not_isSome_iff_eq_none] at hdead
    rw [State.macroCall, State.macroCall, hdead]
    rfl
  | @spawn _ _ _ p _ hnone _ =>
    rw [State.macroCall, State.macroCall, State.macroPc_none hnone, State.macroPc_eq rfl]
    unfold Program.start
    split_ifs <;> rfl
  | macroThread _ _ _ => exact absurd rfl (hm _)
  | other _ _ _ hs => exact congrArg (·.bind MacroPc.call) hs.macroPc

theorem step_calls_worker (h : step sequences s b = some s') :
    CallStep sequences .worker b s s' := by
  cases b with
  | receive code argv =>
    cases hw : s.worker with
    | busy call => simp [step, hw] at h
    | idle =>
      cases hc : code.handler argv with
      | none =>
        simp only [step, hw, hc] at h
        cases h
        exact .rests (by simp [State.begins, hc]) rfl fun hl => by cases hl
      | some call =>
        simp only [step, hw, hc] at h
        cases h
        exact .begins (by simp [State.begins, hc]) hc (by simp [State.calls, State.workerCall, hw])
          rfl rfl
  | worker a =>
    cases hw : s.worker with
    | idle => simp [step, hw] at h
    | busy call =>
      simp only [step, hw] at h
      obtain ⟨⟨t, r⟩, ht, heq⟩ := Option.map_eq_some_iff.mp h
      cases heq
      exact .steps rfl rfl (State.workerCall_eq hw) ht (State.operation_worker hw)
        (by cases r <;> rfl)
  | macroThread a | monitor pid w | daq | recorder a =>
    refine .rests rfl ?_ fun hl => by cases hl
    change s'.workerCall = s.workerCall
    rw [State.workerCall, State.workerCall, step_worker h (by simp) (by simp)]

theorem Program.call_afterSequence (p : Program) (cycle : ℕ) (success : Bool) :
    (p.afterSequence cycle success).call = none := by
  obtain ⟨-, hp⟩ | ⟨-, -, hp⟩ | ⟨-, hp⟩ := p.afterSequence_cases cycle success <;> rw [hp] <;> rfl

/-- What a step of the macro thread does to the handler it is in. -/
inductive MacroCallStep (sequences : TOFCommandCode → MacroSequence) (a : Answer) (s : State)
    (pc : MacroPc) (after : Option Call) : Prop where
  | begins {code : TOFCommandCode} {call : Call} : pc.begins = some code →
      code.handler [] = some call → pc.call = none → after = some call →
      MacroCallStep sequences a s pc after
  | steps {call : Call} {t : State} {r : Progress Call} : pc.begins = none → pc.call = some call →
      call.step sequences .macroThread a s = some (t, r) → after = r.elim some (fun _ => none) →
      MacroCallStep sequences a s pc after
  | rests : pc.begins = none → pc.call = none → after = none → MacroCallStep sequences a s pc after

theorem SequenceMove.calls {sub : String} {sequence : List TOFCommandCode} (cycle : ℕ)
    {pc : SequencePc} {r : Progress SequencePc} {t : State}
    (h : SequenceMove sequences sub sequence a s pc t r) :
    MacroCallStep sequences a s (.sequence cycle pc)
      (r.elim (fun pc => (MacroPc.sequence cycle pc).call) fun _ => none) := by
  cases h with
  | call hcall => exact .begins (by simp [MacroPc.begins, hcall]) hcall rfl rfl
  | unknown hcall => exact .rests (by simp [MacroPc.begins, hcall]) rfl rfl
  | @step _ _ _ _ r hcall => exact .steps rfl rfl hcall (by cases r <;> rfl)
  | @pulse _ _ _ r hcall => exact .steps rfl rfl hcall (by cases r <;> rfl)
  | pulseDispatch => exact .begins rfl rfl rfl rfl
  | _ => exact .rests rfl rfl rfl

theorem MacroPc.step_calls {p : Program} {pc : MacroPc} {m : MacroThread} {t : State}
    (h : pc.step sequences p a s = some (t, m)) :
    MacroCallStep sequences a s pc (m.pc.bind MacroPc.call) := by
  cases pc with
  | loopArm | loopBreak | clear _ | notify _ => cases h; exact .rests rfl rfl rfl
  | loopTest cycle =>
    simp only [MacroPc.step] at h
    split_ifs at h <;> (cases h; exact .rests rfl rfl rfl)
  | sequence cycle pc =>
    obtain ⟨⟨u, r⟩, hu, heq⟩ := Option.map_eq_some_iff.mp h
    cases heq
    have hc := (SequencePc.stepIn_move hu).calls cycle
    cases r with
    | next pc' => exact hc
    | ret success =>
      change MacroCallStep sequences a s _ (p.afterSequence cycle success).call
      rw [Program.call_afterSequence]
      exact hc

theorem step_calls_macroThread (h : step sequences s b = some s') :
    CallStep sequences .macroThread b s s' := by
  cases b with
  | macroThread a =>
    cases hm : s.macroThread with
    | none | finished => simp [step, hm] at h
    | running p pc =>
      have hat : s.macroPc = some pc := State.macroPc_eq hm
      have hcalls : s.calls .macroThread = pc.call := by
        rw [State.calls, State.macroCall, hat]
        rfl
      have hbegins : s.begins .macroThread (.macroThread a) = pc.begins := by
        rw [State.begins, hat]
        rfl
      simp only [step, hm] at h
      obtain ⟨⟨t, m⟩, ht, heq⟩ := Option.map_eq_some_iff.mp h
      cases heq
      have hop : ∀ o, pc.operation a = o → pc.call ≠ none ∨ pc.begins ≠ none →
          s.operation (.macroThread a) = o := by
        rintro o rfl hne
        rw [State.operation, hm]
        cases pc with
        | notify v => simp [MacroPc.call, MacroPc.begins] at hne
        | _ => rfl
      cases MacroPc.step_calls ht with
      | begins hb hh hnone hafter =>
        refine .begins (hbegins.trans hb) hh (hcalls.trans hnone) hafter (hop _ ?_ ?_)
        · rw [MacroPc.operation, hnone]
          rfl
        · exact .inr (by simp [hb])
      | steps hb hcall hstep hafter =>
        refine .steps (hbegins.trans hb) rfl (hcalls.trans hcall) hstep (hop _ ?_ ?_) hafter
        · rw [MacroPc.operation, hcall]
          rfl
        · exact .inl (by simp [hcall])
      | rests hb hnone hafter =>
        refine .rests (hbegins.trans hb) (hafter.trans ?_) fun _ => hcalls.trans hnone
        rw [hcalls, hnone]
  | receive _ _ | worker _ | monitor _ _ | daq | recorder _ =>
    exact .rests rfl (step_macroCall h (by simp)) fun hl => by cases hl

theorem step_calls (h : step sequences s b = some s') (c : Caller) :
    CallStep sequences c b s s' := by
  cases c with
  | worker => exact step_calls_worker h
  | macroThread => exact step_calls_macroThread h

end Steps

end GramsTof.Dispatch
