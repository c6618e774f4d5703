import GramsTof.Dispatch.Effects
import GramsTof.Lib.Registry

/-! What a step does to the child processes, to `activeBackgroundTasks_` and to the
status callbacks, and which process a thread has forked and not yet registered. -/

namespace GramsTof.Dispatch

open Lib TOFCommandCode

/-- What a step does to the processes, their registry and the callbacks. -/
inductive Operation where
  | idle
  /-- A handler, or the macro thread, sends its own status. -/
  | report (code : TOFCommandCode) (value : ℕ)
  /-- `pid` is forked, to be registered as `task`. -/
  | fork (pid : Pid) (task : BackgroundTask)
  | register (pid : Pid) (task : BackgroundTask)
  /-- The critical section of `STOP_DAQ` that ends the registered processes. -/
  | interrupt (stopPid : Option Pid)
  | reap (pid : Pid) (w : Wait)
  /-- The `fork` of `calibrateAllAsics`. -/
  | forkWorker (pid : Pid)
  /-- The child that a `wait(NULL)` of `calibrateAllAsics` takes. -/
  | waitAny (pid : Pid)
  deriving DecidableEq, Repr

/-- The task of a stop script. -/
def stopScript : BackgroundTask := ⟨stopDaq, true⟩

namespace Operation

variable {ν : Type*}

def children (cs : List Pid) : Operation → List Pid
  | fork pid _ => pid :: cs
  | reap pid (.exited _) => cs.erase pid
  | waitAny pid => cs.erase pid
  | _ => cs

def workers (ws : List Pid) : Operation → List Pid
  | forkWorker pid => pid :: ws
  | reap pid (.exited _) => ws.erase pid
  | waitAny pid => ws.erase pid
  | _ => ws

/-- The registry after the operation, where `f` gives what is stored for a task. -/
def registry (f : BackgroundTask → ν) (m : List (Pid × ν)) : Operation → List (Pid × ν)
  | register pid task => Registry.put m pid (f task)
  | interrupt stopPid => stopPid.toList.map (·, f stopScript)
  | reap pid _ => Registry.remove m pid
  | _ => m

/-- The registered tasks that get a status, and which. -/
def verdicts (task : ν → BackgroundTask) (m : List (Pid × ν)) : Operation → List (ν × ℕ)
  | interrupt stopPid => (Registry.others m stopPid).map fun e => (e.2, 2)
  | reap pid (.exited success) =>
    ((m.lookup pid).toList.filter fun v => (task v).sendCallback).map
      (·, if success then 0 else 1)
  | _ => []

/-- A handler's own status. -/
def own : Operation → Option (TOFCommandCode × ℕ)
  | report code value => some (code, value)
  | _ => none

/-- The calls of `sendStatusCallback` in the operation. -/
def callbacks (m : List (Pid × BackgroundTask)) (o : Operation) : List (TOFCommandCode × ℕ) :=
  (o.verdicts id m).map (fun v => (v.1.commandCode, v.2)) ++ o.own.toList

def Enabled (s : State) : Operation → Prop
  | fork pid _ => pid ∉ s.children ∧ pid ∉ s.workers
  | forkWorker pid => pid ∉ s.children ∧ pid ∉ s.workers
  | reap pid w => (s.activeBackgroundTasks.lookup pid).isSome ∧
      (w = .error ↔ pid ∉ s.children ∧ pid ∉ s.workers)
  | _ => True

end Operation

/-- The process a thread is about to register. `script` is a stop script between its two
registrations. -/
inductive Hold where
  | forked (pid : Pid) (task : BackgroundTask)
  | script (pid : Pid)
  deriving DecidableEq, Repr

/-! ### The operation of the next step, and what is held before it -/

def Simple.operation {π : Type} (code : TOFCommandCode) (body : π → Operation) :
    Simple π → Operation
  | .body pc => body pc
  | .report success => .report code (if success then 0 else 1)

def StopPc.operation (a : Answer) : StopPc → Operation
  | fork => if a.ok then a.pid.elim .idle (.fork · stopScript) else .idle
  | register pid => .register pid stopScript
  | interrupt stopPid => .interrupt stopPid
  | _ => .idle

def ResetPc.operation (a : Answer) : ResetPc → Operation
  | stop _ pc => pc.operation stopDaq (StopPc.operation a)
  | start _ pc => pc.operation startDaq fun _ => .idle
  | _ => .idle

def BodyPc.operation (a : Answer) (pc : BodyPc) : Operation :=
  match pc.child a with
  | none => .idle
  | some (.forked pid) => .forkWorker pid
  | some (.waited pid) => .waitAny pid

def BackgroundPc.operation (code : TOFCommandCode) (a : Answer) : BackgroundPc → Operation
  | fork => a.pid.elim .idle (.fork · ⟨code, true⟩)
  | register pid => .register pid ⟨code, true⟩

def PulsePc.operation : PulsePc → Operation
  | report value _ => .report sendPulseTrain value
  | _ => .idle

def AdmitPc.operation (code : TOFCommandCode) : AdmitPc → Operation
  | reject => .report code 1
  | _ => .idle

def Call.operation (a : Answer) : Call → Operation
  | startDaq pc => pc.operation .startDaq fun _ => .idle
  | stopDaq pc => pc.operation .stopDaq (StopPc.operation a)
  | resetDaq pc => pc.operation .resetDaq (ResetPc.operation a)
  | simple code pc => pc.operation code (BodyPc.operation a)
  | background code pc => pc.operation code a
  | sendPulseTrain pc => pc.operation
  | macroCommand code _ pc => pc.operation code
  | _ => .idle

def Simple.hold {π : Type} (body : π → Option Hold) : Simple π → Option Hold
  | .body pc => body pc
  | .report _ => none

def StopPc.hold : StopPc → Option Hold
  | register pid => some (.forked pid stopScript)
  | interrupt stopPid => stopPid.map .script
  | _ => none

def ResetPc.hold : ResetPc → Option Hold
  | stop _ pc => pc.hold StopPc.hold
  | _ => none

def BackgroundPc.hold (code : TOFCommandCode) : BackgroundPc → Option Hold
  | register pid => some (.forked pid ⟨code, true⟩)
  | fork => none

def Call.hold : Call → Option Hold
  | stopDaq pc => pc.hold StopPc.hold
  | resetDaq pc => pc.hold ResetPc.hold
  | background code pc => pc.hold code
  | _ => none

/-- A reading of the temperature recorder. -/
def reading : BackgroundTask := ⟨readTemperatureSensors, false⟩

def Recorder.hold : Recorder → Option Hold
  | register pid => some (.forked pid reading)
  | _ => Option.none

/-- The macro thread's own status, outside the handlers it dispatches. -/
def MacroThread.operation (a : Answer) : MacroThread → Operation
  | running p (.notify success) => .report p.code (if success then 0 else 1)
  | running _ pc => pc.call.elim .idle (Call.operation a)
  | _ => .idle

/-- The threads that start processes. -/
inductive Launcher where
  | worker
  | macroThread
  | recorder
  deriving DecidableEq, Repr

namespace State

/-- The handler the macro thread is in. -/
def macroCall (s : State) : Option Call := s.macroPc.bind MacroPc.call

def held (s : State) : Launcher → Option Hold
  | .worker => s.workerCall.bind Call.hold
  | .macroThread => s.macroCall.bind Call.hold
  | .recorder => s.recorder.hold

def recorderOperation (s : State) (a : Answer) : Operation :=
  match s.recorder with
  | .looping => if s.tempRecordRunning then a.pid.elim .idle (.fork · reading) else .idle
  | .register pid => .register pid reading
  | _ => .idle

def operation (s : State) : Action → Operation
  | .worker a => s.workerCall.elim .idle (Call.operation a)
  | .macroThread a => s.macroThread.operation a
  | .monitor pid w => .reap pid w
  | .recorder a => s.recorderOperation a
  | _ => .idle

end State

/-- The thread that takes the step, if it starts processes. -/
def Action.launcher : Action → Option Launcher
  | worker _ => some .worker
  | macroThread _ => some .macroThread
  | recorder _ => some .recorder
  | _ => none

/-- What `o` does to the state. -/
structure Effect (o : Operation) (s s' : State) : Prop where
  enabled : o.Enabled s
  children : s'.children = o.children s.children
  workers : s'.workers = o.workers s.workers
  tasks : s'.activeBackgroundTasks = o.registry id s.activeBackgroundTasks
  callbacks : s'.callbacks = s.callbacks ++ o.callbacks s.activeBackgroundTasks

/-- What a thread that performs `o` holds before and after. -/
inductive Handed : Option Hold → Operation → Option Hold → Prop where
  | idle : Handed none .idle none
  | report (code : TOFCommandCode) (value : ℕ) : Handed none (.report code value) none
  | fork (pid : Pid) (task : BackgroundTask) : Handed none (.fork pid task) (some (.forked pid task))
  | register (pid : Pid) (task : BackgroundTask) :
      Handed (some (.forked pid task)) (.register pid task) none
  | registerScript (pid : Pid) :
      Handed (some (.forked pid stopScript)) (.register pid stopScript) (some (.script pid))
  | interrupt : Handed none (.interrupt none) none
  | interruptScript (pid : Pid) : Handed (some (.script pid)) (.interrupt (some pid)) none
  | forkWorker (pid : Pid) : Handed none (.forkWorker pid) none
  | waitAny (pid : Pid) : Handed none (.waitAny pid) none

/-- A step of a handler. -/
structure Performs (before : Option Hold) (o : Operation) (after : Option Hold) (s s' : State) :
    Prop extends Effect o s s' where
  handed : Handed before o after
  recorder : s'.recorder.hold = s.recorder.hold

section Handlers

variable {s s' : State} {a : Answer} {pid : Pid} {task : BackgroundTask}

theorem Effect.idle (hc : s'.children = s.children) (hw : s'.workers = s.workers)
    (ht : s'.activeBackgroundTasks = s.activeBackgroundTasks) (hb : s'.callbacks = s.callbacks) :
    Effect .idle s s' :=
  ⟨trivial, hc, hw, ht, by rw [hb]; exact (List.append_nil _).symm⟩

theorem Effect.report (code : TOFCommandCode) (value : ℕ) (hc : s'.children = s.children)
    (hw : s'.workers = s.workers)
    (ht : s'.activeBackgroundTasks = s.activeBackgroundTasks)
    (hb : s'.callbacks = s.callbacks ++ [(code, value)]) : Effect (.report code value) s s' :=
  ⟨trivial, hc, hw, ht, hb⟩

theorem Effect.forked (task : BackgroundTask) (h : s.forked pid = some s') : Effect (.fork pid task) s s' := by
  unfold State.forked at h
  split_ifs at h with hfree
  cases h
  exact ⟨not_or.mp hfree, rfl, rfl, rfl, (List.append_nil _).symm⟩

theorem Effect.register : Effect (.register pid task) s (s.register pid task) :=
  ⟨trivial, rfl, rfl, rfl, (List.append_nil _).symm⟩

theorem Effect.interrupt (stopPid : Option Pid) :
    Effect (.interrupt stopPid) s (s.interrupt stopPid) := by
  refine ⟨trivial, rfl, rfl, rfl, ?_⟩
  simp only [State.interrupt, Operation.callbacks, Operation.verdicts, Operation.own,
    List.map_map, Option.toList_none, List.append_nil]
  rfl

theorem forked_recorder (h : s.forked pid = some s') : s'.recorder = s.recorder := by
  unfold State.forked at h
  split_ifs at h
  cases h
  rfl

theorem Performs.idle (hc : s'.children = s.children) (hw : s'.workers = s.workers)
    (ht : s'.activeBackgroundTasks = s.activeBackgroundTasks) (hb : s'.callbacks = s.callbacks)
    (hr : s'.recorder.hold = s.recorder.hold) : Performs none .idle none s s' :=
  ⟨Effect.idle hc hw ht hb, .idle, hr⟩

theorem Performs.refl (s : State) : Performs none .idle none s s := .idle rfl rfl rfl rfl rfl

theorem Performs.report (code : TOFCommandCode) (value : ℕ) :
    Performs none (.report code value) none s (s.sendStatusCallback code value) :=
  ⟨Effect.report code value rfl rfl rfl rfl, .report code value, rfl⟩

theorem Performs.forked (h : s.forked pid = some s') :
    Performs none (.fork pid task) (some (.forked pid task)) s s' :=
  ⟨Effect.forked task h, .fork pid task, by rw [forked_recorder h]⟩

theorem Simple.step_performs {π : Type} {code : TOFCommandCode}
    {body : State → π → Option (State × Progress π)} (op : π → Operation) (hold : π → Option Hold)
    (hbody : ∀ pc s' r, body s pc = some (s', r) →
      Performs (hold pc) (op pc) (r.elim hold fun _ => none) s s') {pc : Simple π}
    {r : Progress (Simple π)} (h : pc.step code body s = some (s', r)) :
    Performs (pc.hold hold) (pc.operation code op) (r.elim (Simple.hold hold) fun _ => none)
      s s' := by
  cases pc with
  | body pc =>
    obtain ⟨⟨t, q⟩, ht, heq⟩ := Option.map_eq_some_iff.mp h
    cases heq
    have hp := hbody pc _ _ ht
    cases q <;> exact hp
  | report success => cases h; exact Performs.report code _

theorem StartPc.step_performs {pc : StartPc} {r : Progress StartPc}
    (h : pc.step a s = some (s', r)) : Performs none .idle none s s' := by
  cases pc with
  | lock =>
    simp only [StartPc.step] at h
    split_ifs at h <;> cases h <;> exact .idle rfl rfl rfl rfl rfl
  | join =>
    simp only [StartPc.step] at h
    split at h <;> cases h <;> exact .idle rfl rfl rfl rfl rfl
  | initializeDaq =>
    simp only [StartPc.step] at h
    split_ifs at h <;> cases h <;> exact .idle rfl rfl rfl rfl rfl

theorem StopPc.step_performs {pc : StopPc} {r : Progress StopPc}
    (h : pc.step a s = some (s', r)) :
    Performs pc.hold (pc.operation a) (r.elim StopPc.hold fun _ => none) s s' := by
  cases pc with
  | cancel => cases h; exact .idle rfl rfl rfl rfl rfl
  | fork =>
    unfold StopPc.operation
    simp only [StopPc.step] at h
    split_ifs at h with hok
    · rw [if_pos hok]
      cases hpid : a.pid with
      | none => rw [hpid] at h; cases h; exact .refl s
      | some pid =>
        rw [hpid] at h
        obtain ⟨t, ht, heq⟩ := Option.map_eq_some_iff.mp h
        cases heq
        exact .forked ht
    · rw [if_neg hok]
      cases h
      exact .refl s
  | register pid => cases h; exact ⟨.register, .registerScript pid, rfl⟩
  | interrupt stopPid =>
    cases h
    cases stopPid with
    | none => exact ⟨.interrupt none, .interrupt, rfl⟩
    | some pid => exact ⟨.interrupt (some pid), .interruptScript pid, rfl⟩
  | join =>
    simp only [StopPc.step] at h
    split at h <;> cases h <;> exact .idle rfl rfl rfl rfl rfl
  | markStopped =>
    simp only [StopPc.step] at h
    split at h <;> cases h
    exact .idle rfl rfl rfl rfl rfl

/-- A body that has no process in its hands. -/
theorem Simple.step_performs_none {π : Type} {code : TOFCommandCode}
    {body : State → π → Option (State × Progress π)} (op : π → Operation)
    (hbody : ∀ pc s' r, body s pc = some (s', r) → Performs none (op pc) none s s') {pc : Simple π}
    {r : Progress (Simple π)} (h : pc.step code body s = some (s', r)) :
    Performs none (pc.operation code op) none s s' := by
  have hp := Simple.step_performs op (fun _ => none)
    (fun pc t q hb => by cases q <;> exact hbody pc t _ hb) h
  cases pc <;> rcases r with (_ | _) | _ <;> exact hp

theorem ResetPc.step_performs {pc : ResetPc} {r : Progress ResetPc}
    (h : pc.step a s = some (s', r)) :
    Performs pc.hold (pc.operation a) (r.elim ResetPc.hold fun _ => none) s s' := by
  cases pc with
  | save => cases h; exact .refl s
  | stop was pc =>
    obtain ⟨⟨t, q⟩, ht, heq⟩ := Option.map_eq_some_iff.mp h
    cases heq
    have hp := Simple.step_performs _ _ (fun _ _ _ => StopPc.step_performs) ht
    cases q <;> exact hp
  | start was pc =>
    obtain ⟨⟨t, q⟩, ht, heq⟩ := Option.map_eq_some_iff.mp h
    cases heq
    have hp := Simple.step_performs_none (fun _ => .idle) (fun _ _ _ => StartPc.step_performs) ht
    rcases q with _ | _ | _ <;> exact hp
  | restore was => cases was <;> (cases h; exact .idle rfl rfl rfl rfl rfl)

theorem Effect.forkedWorker (h : s.forkedWorker pid = some s') : Effect (.forkWorker pid) s s' := by
  unfold State.forkedWorker at h
  split_ifs at h with hfree
  cases h
  exact ⟨not_or.mp hfree, rfl, rfl, rfl, (List.append_nil _).symm⟩

theorem BodyPc.step_performs {code : TOFCommandCode} {pc : BodyPc} {r : Progress BodyPc}
    (h : pc.step code a s = some (s', r)) : Performs none (pc.operation a) none s s' := by
  have hrecorder : s'.recorder = s.recorder := by rw [BodyPc.step_frame h]
  have hmove := BodyPc.step_move h
  unfold BodyPc.operation
  generalize pc.child a = child at hmove
  cases hmove with
  | idle => exact .refl s
  | @forked pid _ hf => exact ⟨Effect.forkedWorker hf, .forkWorker pid, by rw [hrecorder]⟩
  | waited pid =>
    exact ⟨⟨trivial, rfl, rfl, rfl, (List.append_nil _).symm⟩, .waitAny pid, rfl⟩

theorem BackgroundPc.step_performs {code : TOFCommandCode} {pc : BackgroundPc}
    {r : Progress BackgroundPc} (h : pc.step code a s = some (s', r)) :
    Performs (pc.hold code) (pc.operation code a) (r.elim (BackgroundPc.hold code) fun _ => none)
      s s' := by
  cases pc with
  | fork =>
    unfold BackgroundPc.operation
    simp only [BackgroundPc.step] at h
    cases hpid : a.pid with
    | none => rw [hpid] at h; cases h; exact .refl s
    | some pid =>
      rw [hpid] at h
      obtain ⟨t, ht, heq⟩ := Option.map_eq_some_iff.mp h
      cases heq
      exact .forked ht
  | register pid => cases h; exact ⟨.register, .register pid _, rfl⟩

theorem PulsePc.step_performs {pc : PulsePc} {r : Progress PulsePc}
    (h : pc.step a s = some (s', r)) : Performs none pc.operation none s s' := by
  cases pc with
  | report value result => cases h; exact .report sendPulseTrain value
  | access | run => cases h; exact .refl s

variable {sequences : TOFCommandCode → MacroSequence} {self : Caller}

theorem AdmitPc.step_performs {code : TOFCommandCode} {argv : CommandArgs} {pc : AdmitPc}
    {r : Progress AdmitPc} (h : pc.step sequences self code argv s = some (s', r)) :
    Performs none (pc.operation code) none s s' := by
  cases pc with
  | reject => cases h; exact .report code 1
  | test | configure | arm => cases h; exact .idle rfl rfl rfl rfl rfl
  | join =>
    simp only [AdmitPc.step] at h
    split at h <;> cases h <;> exact .idle rfl rfl rfl rfl rfl
  | spawn =>
    simp only [AdmitPc.step] at h
    split at h <;> cases h
    exact .idle rfl rfl rfl rfl rfl

theorem Call.step_performs {call : Call} {r : Progress Call}
    (h : call.step sequences self a s = some (s', r)) :
    Performs call.hold (call.operation a) (r.elim Call.hold fun _ => none) s s' := by
  cases call with
  | startDaq pc =>
    obtain ⟨⟨t, q⟩, ht, heq⟩ := Option.map_eq_some_iff.mp h
    cases heq
    have hp := Simple.step_performs_none (fun _ => .idle) (fun _ _ _ => StartPc.step_performs) ht
    cases q <;> exact hp
  | stopDaq pc =>
    obtain ⟨⟨t, q⟩, ht, heq⟩ := Option.map_eq_some_iff.mp h
    cases heq
    have hp := Simple.step_performs _ _ (fun _ _ _ => StopPc.step_performs) ht
    cases q <;> exact hp
  | resetDaq pc =>
    obtain ⟨⟨t, q⟩, ht, heq⟩ := Option.map_eq_some_iff.mp h
    cases heq
    have hp := Simple.step_performs _ _ (fun _ _ _ => ResetPc.step_performs) ht
    cases q <;> exact hp
  | simple code pc =>
    obtain ⟨⟨t, q⟩, ht, heq⟩ := Option.map_eq_some_iff.mp h
    cases heq
    have hp := Simple.step_performs_none (BodyPc.operation a) (fun _ _ _ => BodyPc.step_performs) ht
    cases q <;> exact hp
  | background code pc =>
    obtain ⟨⟨t, q⟩, ht, heq⟩ := Option.map_eq_some_iff.mp h
    cases heq
    have hp := BackgroundPc.step_performs ht
    cases q <;> exact hp
  | sendPulseTrain pc =>
    obtain ⟨⟨t, q⟩, ht, heq⟩ := Option.map_eq_some_iff.mp h
    cases heq
    have hp := PulsePc.step_performs ht
    cases q <;> exact hp
  | startAsicTempRecord =>
    simp only [Call.step] at h
    split_ifs at h with hrun hnone <;> cases h
    · exact .refl s
    · refine .idle rfl rfl rfl rfl ?_
      rw [not_not.mp hnone]
      rfl
  | stopAsicTempRecord joining =>
    cases joining with
    | false =>
      simp only [Call.step] at h
      split_ifs at h <;> cases h <;> exact .idle rfl rfl rfl rfl rfl
    | true =>
      simp only [Call.step] at h
      split at h <;> cases h
      · exact .refl s
      · refine .idle rfl rfl rfl rfl ?_
        rw [‹s.recorder = .finished›]
        rfl
  | macroCommand code argv pc =>
    obtain ⟨⟨t, q⟩, ht, heq⟩ := Option.map_eq_some_iff.mp h
    cases heq
    have hp := AdmitPc.step_performs ht
    cases q <;> exact hp
  | heartBeat => cases h; exact .refl s

end Handlers

/-! ### The threads -/

section Threads

variable {sequences : TOFCommandCode → MacroSequence} {s s' : State} {a : Answer}

/-- No handler starts with a process in its hands. -/
theorem handler_hold {code : TOFCommandCode} {argv : CommandArgs} {call : Call}
    (h : code.handler argv = some call) : call.hold = none := by
  cases code <;> cases h <;> rfl

theorem Performs.clearVaultPath (s : State) (sub : String) :
    Performs none .idle none s (s.clearVaultPath sub) := by
  unfold State.clearVaultPath
  split_ifs <;> exact .idle rfl rfl rfl rfl rfl

/-- What the macro thread holds at a program point. -/
def MacroPc.hold (pc : MacroPc) : Option Hold := pc.call.bind Call.hold

def MacroPc.operation (a : Answer) (pc : MacroPc) : Operation := pc.call.elim .idle (Call.operation a)

theorem SequenceMove.performs {sub : String} {sequence : List TOFCommandCode} (cycle : ℕ)
    {pc : SequencePc} {r : Progress SequencePc}
    (h : SequenceMove sequences sub sequence a s pc s' r) :
    Performs (MacroPc.sequence cycle pc).hold ((MacroPc.sequence cycle pc).operation a)
      (r.elim (fun pc => (MacroPc.sequence cycle pc).hold) fun _ => none) s s' := by
  cases h with
  | @step _ _ _ _ r hcall | @pulse _ _ _ r hcall =>
    have hp := Call.step_performs hcall
    cases r <;> exact hp
  | finish | abort _ | fail => exact Performs.clearVaultPath s sub
  | @call _ _ call hcall =>
    change Performs none .idle call.hold s s
    rw [handler_hold hcall]
    exact .refl s
  | _ => exact .idle rfl rfl rfl rfl rfl

theorem MacroPc.hold_afterSequence (p : Program) (cycle : ℕ) (success : Bool) :
    (p.afterSequence cycle success).hold = none := by
  obtain ⟨-, hp⟩ | ⟨-, -, hp⟩ | ⟨-, hp⟩ := p.afterSequence_cases cycle success <;> rw [hp] <;> rfl

theorem MacroPc.step_performs {p : Program} {pc : MacroPc} {m : MacroThread}
    (h : pc.step sequences p a s = some (s', m)) :
    Performs pc.hold ((MacroThread.running p pc).operation a) (m.pc.bind MacroPc.hold) s s' := by
  cases pc with
  | loopArm | loopBreak | clear _ => cases h; exact .idle rfl rfl rfl rfl rfl
  | loopTest cycle =>
    simp only [MacroPc.step] at h
    split_ifs at h <;> (cases h; exact .refl s)
  | notify success => cases h; exact .report p.code _
  | sequence cycle pc =>
    obtain ⟨⟨t, r⟩, ht, heq⟩ := Option.map_eq_some_iff.mp h
    cases heq
    have hp := (SequencePc.stepIn_move ht).performs cycle
    cases r with
    | next pc' => exact hp
    | ret success =>
      change Performs _ _ (p.afterSequence cycle success).hold s _
      rw [hold_afterSequence]
      exact hp

theorem Program.start_hold (p : Program) : p.start.hold = none := by
  unfold Program.start
  split_ifs <;> rfl

/-- A step of the dispatcher: its effect, and whose hands it changes. -/
structure Performed (b : Action) (s s' : State) : Prop where
  effect : Effect (s.operation b) s s'
  hands : ∀ l, b.launcher = some l → Handed (s.held l) (s.operation b) (s'.held l)
  keeps : ∀ l, b.launcher ≠ some l → s'.held l = s.held l

theorem State.held_worker {call : Call} (h : s.worker = .busy call) :
    s.held .worker = call.hold := by
  rw [held, workerCall_eq h]
  rfl

theorem State.held_macroThread {p : Program} {pc : MacroPc} (h : s.macroThread = .running p pc) :
    s.held .macroThread = pc.hold := by
  rw [held, macroCall, macroPc_eq h]
  rfl

theorem State.held_dead (h : ¬ s.live) : s.held .macroThread = none := by
  rw [live_iff, Option.not_isSome_iff_eq_none] at h
  rw [held, macroCall, h]
  rfl

theorem State.operation_worker {call : Call} (h : s.worker = .busy call) :
    s.operation (.worker a) = call.operation a := by
  rw [operation, workerCall_eq h]
  rfl

theorem Stores.held_worker {w : Option Bool} (h : Stores w s s') :
    s'.held .worker = s.held .worker := by
  unfold State.held State.workerCall
  rw [h.worker]

theorem Stores.held_macroThread {w : Option Bool} (h : Stores w s s') :
    s'.held .macroThread = s.held .macroThread := by
  unfold State.held State.macroCall
  rw [h.macroPc]

/-- Nothing about the temperature recorder changes. -/
def SameRecorder (s s' : State) : Prop :=
  s'.recorder = s.recorder ∧ s'.tempRecordRunning = s.tempRecordRunning

theorem Operation.callbacks_exited {m : List (Pid × BackgroundTask)} {pid : Pid}
    {task : BackgroundTask} (success : Bool) (h : m.lookup pid = some task) :
    (reap pid (.exited success)).callbacks m =
      if task.sendCallback then [(task.commandCode, if success then 0 else 1)] else [] := by
  simp only [callbacks, verdicts, own, h]
  cases hsend : task.sendCallback <;> simp [hsend]

theorem State.reap_effect {pid : Pid} {w : Wait} (h : s.reap pid w = some s') :
    Effect (.reap pid w) s s' ∧ SameRecorder s s' := by
  unfold State.reap at h
  split at h
  · rename_i task success htask
    rw [Option.ite_none_right_eq_some] at h
    obtain ⟨hchild, heq⟩ := h
    have hen : (Operation.reap pid (.exited success)).Enabled s :=
      ⟨by rw [htask]; rfl, iff_of_false nofun fun hnone => not_or.mpr hnone hchild⟩
    have hcb := Operation.callbacks_exited success htask
    cases hsend : task.sendCallback with
    | true =>
      simp only [hsend, if_true] at heq hcb
      cases heq
      exact ⟨⟨hen, rfl, rfl, rfl, by rw [hcb]; rfl⟩, rfl, rfl⟩
    | false =>
      simp only [hsend, Bool.false_eq_true, if_false] at heq hcb
      cases heq
      exact ⟨⟨hen, rfl, rfl, rfl, by rw [hcb, List.append_nil]; rfl⟩, rfl, rfl⟩
  · rename_i task htask
    split_ifs at h with hchild
    cases h
    exact ⟨⟨⟨by rw [htask]; rfl, iff_of_true rfl (not_or.mp hchild)⟩, rfl, rfl, rfl,
      (List.append_nil _).symm⟩, rfl, rfl⟩
  · cases h

theorem State.daqStep_effect (h : s.daqStep = some s') :
    Effect .idle s s' ∧ SameRecorder s s' := by
  unfold State.daqStep at h
  split at h
  · cases h; exact ⟨.idle rfl rfl rfl rfl, rfl, rfl⟩
  · split_ifs at h
    cases h
    exact ⟨.idle rfl rfl rfl rfl, rfl, rfl⟩
  · cases h

theorem State.recorderStep_effect (h : s.recorderStep a = some s') :
    Effect (s.recorderOperation a) s s' ∧
      Handed s.recorder.hold (s.recorderOperation a) s'.recorder.hold := by
  unfold State.recorderStep at h
  unfold State.recorderOperation
  split at h
  · rename_i hloop
    simp only [hloop]
    split_ifs at h with hrun
    · rw [if_pos hrun]
      cases hpid : a.pid with
      | none =>
        rw [hpid] at h
        cases h
        rw [hloop]
        exact ⟨.idle rfl rfl rfl rfl, .idle⟩
      | some pid =>
        rw [hpid] at h
        obtain ⟨t, ht, heq⟩ := Option.map_eq_some_iff.mp h
        cases heq
        have he := Effect.forked reading ht
        exact ⟨⟨he.enabled, he.children, he.workers, he.tasks, he.callbacks⟩, .fork pid reading⟩
    · rw [if_neg hrun]
      cases h
      exact ⟨.idle rfl rfl rfl rfl, .idle⟩
  · rename_i pid hreg
    simp only [hreg]
    cases h
    exact ⟨⟨trivial, rfl, rfl, rfl, (List.append_nil _).symm⟩, .register pid reading⟩
  · cases h

theorem performed_worker {call : Call} {t : State} {r : Progress Call} (hw : s.worker = .busy call)
    (hs : Stores call.writes s t) (hp : Performs call.hold (call.operation a)
      (r.elim Call.hold fun _ => none) s t) :
    Performed (.worker a) s { t with worker := r.elim .busy fun _ => .idle } := by
  have hafter : State.held { t with worker := r.elim .busy fun _ => .idle } .worker =
      r.elim Call.hold fun _ => none := by cases r <;> rfl
  refine ⟨?_, ?_, ?_⟩
  · rw [State.operation_worker hw]
    exact ⟨hp.enabled, hp.children, hp.workers, hp.tasks, hp.callbacks⟩
  · rintro l ⟨⟩
    rw [State.operation_worker hw, State.held_worker hw, hafter]
    exact hp.handed
  · intro l hl
    cases l with
    | worker => exact absurd rfl hl
    | macroThread => exact hs.held_macroThread
    | recorder => exact hp.recorder

theorem performed_macroThread {p : Program} {pc : MacroPc} {t : State} {m : MacroThread}
    (hm : s.macroThread = .running p pc) (hs : Stores pc.writes s t)
    (hp : Performs pc.hold ((MacroThread.running p pc).operation a) (m.pc.bind MacroPc.hold) s t) :
    Performed (.macroThread a) s { t with macroThread := m } := by
  have hop : s.operation (.macroThread a) = (MacroThread.running p pc).operation a := by
    rw [State.operation, hm]
  have hafter : State.held { t with macroThread := m } .macroThread = m.pc.bind MacroPc.hold := by
    unfold State.held State.macroCall State.macroPc MacroPc.hold
    rw [Option.bind_assoc]
  refine ⟨?_, ?_, ?_⟩
  · rw [hop]
    exact ⟨hp.enabled, hp.children, hp.workers, hp.tasks, hp.callbacks⟩
  · rintro l ⟨⟩
    rw [hop, State.held_macroThread hm, hafter]
    exact hp.handed
  · intro l hl
    cases l with
    | worker => exact hs.held_worker
    | macroThread => exact absurd rfl hl
    | recorder => exact hp.recorder

/-- A step of no thread that starts processes. -/
theorem performed_other {b : Action} (hb : b.launcher = none) (he : Effect (s.operation b) s s')
    (hs : Stores none s s') (hr : s'.recorder = s.recorder) : Performed b s s' := by
  refine ⟨he, fun l hl => ?_, fun l _ => ?_⟩
  · rw [hb] at hl
    cases hl
  · cases l with
    | worker => exact hs.held_worker
    | macroThread => exact hs.held_macroThread
    | recorder => rw [State.held, State.held, hr]

/-- A step of a macro handler that starts no process, and holds none. -/
theorem performed_macroCommand {a : Answer} {code : TOFCommandCode} {argv : CommandArgs}
    {pc : AdmitPc} (hw : s.worker = .busy (.macroCommand code argv pc))
    (hidle : (Call.macroCommand code argv pc).operation a = .idle) (he : Effect .idle s s')
    (hself : s'.held .worker = none) (hbody : s'.held .macroThread = s.held .macroThread)
    (hrecorder : s'.held .recorder = s.held .recorder) : Performed (.worker a) s s' := by
  have hop : s.operation (.worker a) = .idle := (State.operation_worker hw).trans hidle
  refine ⟨by rw [hop]; exact he, ?_, ?_⟩
  · rintro l ⟨⟩
    rw [hop, State.held_worker hw, hself]
    exact .idle
  · intro l hl
    cases l with
    | worker => exact absurd rfl hl
    | macroThread => exact hbody
    | recorder => exact hrecorder

theorem step_performed {b : Action} (h : step sequences s b = some s') : Performed b s s' := by
  cases step_move h with
  | receive hidle hcall =>
    refine ⟨.idle rfl rfl rfl rfl, nofun, fun l _ => ?_⟩
    cases l with
    | worker => rw [State.held_worker rfl, handler_hold hcall, State.held, State.workerCall, hidle]; rfl
    | macroThread | recorder => rfl
  | worker hw _ hs hcall => exact performed_worker hw hs (Call.step_performs hcall)
  | join hw hdead _ =>
    refine performed_macroCommand hw rfl (.idle rfl rfl rfl rfl) rfl ?_ rfl
    rw [State.held_dead hdead]
    rfl
  | spawn hw hnone _ =>
    refine performed_macroCommand hw rfl (.idle rfl rfl rfl rfl) rfl ?_ rfl
    rw [State.held_macroThread rfl, Program.start_hold, State.held_dead (State.not_live hnone)]
  | macroThread hm hs hpc => exact performed_macroThread hm hs (MacroPc.step_performs hpc)
  | other hnw hnm hnr hs =>
    cases b with
    | receive code argv =>
      cases hw : s.worker with
      | idle =>
        simp only [step, hw, hnr code argv rfl] at h
        cases h
        exact performed_other rfl (.idle rfl rfl rfl rfl) hs rfl
      | busy call => simp [step, hw] at h
    | worker a => exact absurd rfl (hnw a)
    | macroThread a => exact absurd rfl (hnm a)
    | monitor pid w =>
      obtain ⟨he, hr⟩ := State.reap_effect h
      exact performed_other rfl he hs hr.1
    | daq =>
      obtain ⟨he, hr⟩ := State.daqStep_effect h
      exact performed_other rfl he hs hr.1
    | recorder a =>
      obtain ⟨he, hh⟩ := State.recorderStep_effect h
      refine ⟨he, ?_, ?_⟩
      · rintro l ⟨⟩
        exact hh
      · intro l hl
        cases l with
        | worker => exact hs.held_worker
        | macroThread => exact hs.held_macroThread
        | recorder => exact absurd rfl hl

end Threads

end GramsTof.Dispatch
