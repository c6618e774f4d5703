import GramsTof.Dispatch.Command
import GramsTof.Lib.Machine

/-! The dispatcher: the command worker, the macro thread, the DAQ thread, the
temperature recorder and the monitor on the members of
`GRAMS_TOF_CommandDispatch`, in any interleaving. A step makes at most one access
to `macroLoopRunning_`, one critical section, one `fork` or one status callback;
what the outside answers is part of the step's label. -/

namespace GramsTof.Dispatch

open Lib TOFCommandCode

/-- Where `executeMacroSequence` is. `rest` are the steps left. -/
inductive SequencePc where
  /-- At `macroLoopRunning_ = true`. -/
  | arm
  | vault
  | vaultFailed
  /-- At the head of the loop; the next step is the first of `rest`. -/
  | test (rest : List TOFCommandCode)
  | dispatch (cmd : TOFCommandCode) (rest : List TOFCommandCode)
  | step (cmd : TOFCommandCode) (rest : List TOFCommandCode) (call : Call)
  | returned (success : Bool) (cmd : TOFCommandCode) (rest : List TOFCommandCode)
  /-- After a `RESET_DAQ` step, at `macroLoopRunning_ = true`. -/
  | rearm (rest : List TOFCommandCode)
  /-- After an `ACQUIRE_SIPM_DATA` step that a `SEND_PULSE_TRAIN` follows. -/
  | pulseTest (rest : List TOFCommandCode)
  | pulseDispatch (rest : List TOFCommandCode)
  | pulse (rest : List TOFCommandCode) (call : Call)
  | pulseReturned (success : Bool) (rest : List TOFCommandCode)
  /-- At `while (is_running && macroLoopRunning_)`, where `is_running` holds. -/
  | wait (cmd : TOFCommandCode) (rest : List TOFCommandCode)
  | poll (cmd : TOFCommandCode) (rest : List TOFCommandCode)
  /-- A step has failed, at `macroLoopRunning_ = false`. -/
  | failed
  deriving DecidableEq, Repr

/-- Where the macro thread is. `cycle` is `currentCycle`. -/
inductive MacroPc where
  /-- At the first `macroLoopRunning_ = true` of `executeMacroLoop`. -/
  | loopArm
  | loopTest (cycle : ℕ)
  | sequence (cycle : ℕ) (pc : SequencePc)
  /-- At `macroLoopRunning_ = false` before a `break`. -/
  | loopBreak
  /-- At the thread's own `macroLoopRunning_ = false`. -/
  | clear (success : Bool)
  | notify (success : Bool)
  deriving DecidableEq, Repr

/-- `macroLoopThread_`: not joinable, running, or returned and not joined. -/
inductive MacroThread where
  | none
  | running (p : Program) (pc : MacroPc)
  | finished
  deriving DecidableEq, Repr

/-- `daqThread_`. In `leaving`, `DAQManager::run` has returned and `daqRunning_` is not yet reset. -/
inductive DaqThread where
  | none
  | running
  | leaving
  | finished
  deriving DecidableEq, Repr

/-- `tempRecordThread_`. -/
inductive Recorder where
  | none
  | looping
  | register (pid : Pid)
  | finished
  deriving DecidableEq, Repr

structure BackgroundTask where
  commandCode : TOFCommandCode
  sendCallback : Bool
  deriving DecidableEq, Repr

/-- The thread of the command queue. -/
inductive Worker where
  | idle
  | busy (call : Call)
  deriving DecidableEq, Repr

structure State where
  macroLoopRunning : Bool
  macroThread : MacroThread
  worker : Worker
  activeBackgroundTasks : List (Pid × BackgroundTask)
  /-- Forked by `executeManagedBackground` or `STOP_DAQ` and not yet waited for. -/
  children : List Pid
  /-- Forked by `calibrateAllAsics` and not yet waited for. -/
  workers : List Pid
  daqRunning : Bool
  daqThread : DaqThread
  /-- `daqMutex_` is held by a `START_DAQ`. -/
  daqMutex : Bool
  tempRecordRunning : Bool
  recorder : Recorder
  sipmDataAcquisitionTime : ℕ
  /-- Below the data directory. -/
  vaultPath : String
  /-- The calls of `sendStatusCallback`. -/
  callbacks : List (TOFCommandCode × ℕ)
  deriving DecidableEq, Repr

def initial : State where
  macroLoopRunning := false
  macroThread := .none
  worker := .idle
  activeBackgroundTasks := []
  children := []
  workers := []
  daqRunning := false
  daqThread := .none
  daqMutex := false
  tempRecordRunning := false
  recorder := .none
  sipmDataAcquisitionTime := 300
  vaultPath := ""
  callbacks := []

/-- What the outside answers to a step: how a body comes out, the child of a `fork` or a `wait` that
succeeds, a time stamp, and the files of `calibrateAllAsics` with the workers it may have. -/
structure Answer where
  ok : Bool
  pid : Option Pid
  time : String
  asics : ℕ
  maxWorkers : ℕ
  deriving DecidableEq, Repr

/-- A `fork` fails, everything else succeeds. -/
def done : Answer := ⟨true, none, "", 0, 0⟩

/-- What `wait(NULL)` comes to: a child, `ECHILD`, or another error. -/
inductive WaitAny where
  | reaped
  | noChild
  | failed
  deriving DecidableEq, Repr

/-- What a step of a function leaves: the next program point, or the value returned. -/
inductive Progress (π : Type) where
  | next (pc : π)
  | ret (value : Bool)
  deriving DecidableEq, Repr

namespace Progress

variable {π ρ : Type}

def map (f : π → ρ) : Progress π → Progress ρ
  | next pc => next (f pc)
  | ret v => ret v

/-- Go on at `f pc`, or with `g v` when `v` has been returned. -/
def elim {γ : Type*} (f : π → γ) (g : Bool → γ) : Progress π → γ
  | next pc => f pc
  | ret v => g v

end Progress

namespace State

def sendStatusCallback (s : State) (code : TOFCommandCode) (status : ℕ) : State :=
  { s with callbacks := s.callbacks ++ [(code, status)] }

/-- A `fork` that succeeds; the kernel does not reuse the number of a child not waited for. -/
def forked (s : State) (pid : Pid) : Option State :=
  if pid ∈ s.children ∨ pid ∈ s.workers then none else some { s with children := pid :: s.children }

/-- The `fork` of `calibrateAllAsics`. -/
def forkedWorker (s : State) (pid : Pid) : Option State :=
  if pid ∈ s.children ∨ pid ∈ s.workers then none else some { s with workers := pid :: s.workers }

/-- The child `pid` is waited for. A child of the libraries is in neither list. -/
def waited (s : State) (pid : Pid) : State :=
  { s with children := s.children.erase pid, workers := s.workers.erase pid }

/-- `wait(NULL)`: any child. -/
def waitAny (s : State) (a : Answer) : Option (State × WaitAny) :=
  match a.pid with
  | some pid => some (s.waited pid, .reaped)
  | none =>
    if a.ok then if s.children = [] ∧ s.workers = [] then some (s, .noChild) else none
    else some (s, .failed)

/-- `activeBackgroundTasks_[pid] = task`. -/
def register (s : State) (pid : Pid) (task : BackgroundTask) : State :=
  { s with
    activeBackgroundTasks := (pid, task) :: s.activeBackgroundTasks.filter (·.1 ≠ pid) }

/-- Some task has the code of the step waited for. -/
def isRunning (s : State) (cmd : TOFCommandCode) : Bool :=
  s.activeBackgroundTasks.any (·.2.commandCode = cmd)

/-- `macroLoopThread_.joinable()`. -/
def joinable (s : State) : Bool := s.macroThread ≠ .none

/-- The block under `pidMutex_` of `STOP_DAQ`. -/
def interrupt (s : State) (stopPid : Option Pid) : State :=
  let stopped := s.activeBackgroundTasks.filter (some ·.1 ≠ stopPid)
  { s with
    activeBackgroundTasks := stopPid.toList.map (·, ⟨stopDaq, true⟩)
    callbacks := s.callbacks ++ stopped.map fun (_, task) => (task.commandCode, 2) }

end State

/-- The two threads that call `dispatch`. -/
inductive Caller where
  | worker
  | macroThread
  deriving DecidableEq, Repr

/-- `executeSimpleCommand`, around the steps of its body. -/
def Simple.step {π : Type} (code : TOFCommandCode)
    (body : State → π → Option (State × Progress π)) (s : State) :
    Simple π → Option (State × Progress (Simple π))
  | .body pc =>
    (body s pc).map fun (s, r) => (s, r.elim (.next <| .body ·) (.next <| .report ·))
  | .report success =>
    some (s.sendStatusCallback code (if success then 0 else 1), .ret success)

/-- A body, and the steps of `calibrateAllAsics` in it. What it throws fails the command. -/
def BodyPc.step (code : TOFCommandCode) (a : Answer) (s : State) :
    BodyPc → Option (State × Progress BodyPc)
  | run =>
    some (s, if code.calibratesAsics ∧ a.ok then .next (.asics a.asics 0 (max a.maxWorkers 1))
      else .ret a.ok)
  | asics 0 nWorkers _ => some (s, .next (.drain nWorkers))
  | asics (left + 1) nWorkers maxWorkers =>
    -- a file that cannot be opened throws; a `fork` that fails is counted as a worker
    if a.ok then
      match a.pid with
      | some pid => (s.forkedWorker pid).map fun s => (s, .next (.limit left (nWorkers + 1) maxWorkers))
      | none => some (s, .next (.limit left (nWorkers + 1) maxWorkers))
    else some (s, .ret false)
  | limit left nWorkers maxWorkers =>
    if nWorkers < maxWorkers then some (s, .next (.asics left nWorkers maxWorkers))
    else (s.waitAny a).map fun (s, w) =>
      (s, if w = .reaped then .next (.limit left (nWorkers - 1) maxWorkers) else .ret false)
  | drain 0 => some (s, .next .finish)
  | drain (nWorkers + 1) =>
    (s.waitAny a).map fun (s, w) => (s, match w with
      | .reaped => .next (.drain nWorkers)
      | .noChild => .next .finish
      | .failed => .ret false)
  | finish => some (s, .ret a.ok)

def StartPc.step (a : Answer) (s : State) : StartPc → Option (State × Progress StartPc)
  | lock =>
    if s.daqMutex then none
    else if s.daqRunning then some (s, .ret false)
    else some ({ s with daqMutex := true }, .next .join)
  -- `daqThread_.joinable()`, then `join`, which waits for the thread to return
  | join =>
    match s.daqThread with
    | .none => some (s, .next .initializeDaq)
    | .finished => some ({ s with daqThread := .none }, .next .initializeDaq)
    | _ => none
  | initializeDaq =>
    if a.ok then
      some ({ s with daqMutex := false, daqRunning := true, daqThread := .running }, .ret true)
    else some ({ s with daqMutex := false }, .ret false)

def StopPc.step (a : Answer) (s : State) : StopPc → Option (State × Progress StopPc)
  | cancel => some ({ s with macroLoopRunning := false }, .next .fork)
  -- without `stop_daq.py` `resolveScriptPath` throws, which `executeSimpleCommand` catches
  | fork =>
    if a.ok then
      match a.pid with
      | some pid => (s.forked pid).map fun s => (s, .next (.register pid))
      | none => some (s, .next (.interrupt none))
    else some (s, .ret false)
  | register pid => some (s.register pid ⟨stopDaq, true⟩, .next (.interrupt (some pid)))
  | interrupt stopPid => some (s.interrupt stopPid, .next .join)
  | join =>
    match s.daqThread with
    | .none => some (s, .next .markStopped)
    | .finished => some ({ s with daqThread := .none }, .next .markStopped)
    | _ => none
  | markStopped => if s.daqMutex then none else some ({ s with daqRunning := false }, .ret true)

def ResetPc.step (a : Answer) (s : State) : ResetPc → Option (State × Progress ResetPc)
  | save => some (s, .next (.stop s.joinable (.body .cancel)))
  | stop was pc =>
    (pc.step stopDaq (StopPc.step a) s).map fun (s, r) =>
      (s, r.elim (.next <| .stop was ·) fun _ => .next (.start was (.body .lock)))
  | start was pc =>
    (pc.step startDaq (StartPc.step a) s).map fun (s, r) =>
      (s, r.elim (.next <| .start was ·) fun v => if v then .next (.restore was) else .ret false)
  | restore was =>
    some (if was then { s with macroLoopRunning := true } else s, .ret true)

def BackgroundPc.step (code : TOFCommandCode) (a : Answer) (s : State) :
    BackgroundPc → Option (State × Progress BackgroundPc)
  | fork =>
    match a.pid with
    | some pid => (s.forked pid).map fun s => (s, .next (.register pid))
    | none => some (s, .ret false)
  | register pid => some (s.register pid ⟨code, true⟩, .ret true)

def PulsePc.step (a : Answer) (s : State) : PulsePc → Option (State × Progress PulsePc)
  -- a missing `ad3_ctrl` is reported but does not fail the command
  | access => some (s, .next (if a.ok then .run else .report 1 true))
  | run => some (s, .next (.report (if a.ok then 0 else 1) a.ok))
  | report value result => some (s.sendStatusCallback sendPulseTrain value, .ret result)

/-- What a macro handler stores to `sipmDataAcquisitionTime_`. -/
def duration (code : TOFCommandCode) (argv : CommandArgs) : Option ℕ :=
  match code with
  | macroStage3OperationalD => argv[0]?
  | macroAutoRunCycle => argv[1]?
  | _ => none

/-- The program of the thread a macro handler starts. -/
def program (sequences : TOFCommandCode → MacroSequence) (code : TOFCommandCode)
    (argv : CommandArgs) : Program where
  code := code
  vaultSubDir := (sequences code).vaultSubDir
  sequence := (sequences code).steps
  cycles := if code = macroAutoRunCycle then some (argv[0]?.getD 0) else none

def Program.start (p : Program) : MacroPc := if p.cycles.isSome then .loopArm else .sequence 0 .arm

variable (sequences : TOFCommandCode → MacroSequence)

def AdmitPc.step (self : Caller) (code : TOFCommandCode) (argv : CommandArgs) (s : State) :
    AdmitPc → Option (State × Progress AdmitPc)
  | test => some (s, .next (if s.macroLoopRunning then .reject else .configure))
  | reject => some (s.sendStatusCallback code 1, .ret false)
  | configure =>
    some ({ s with
      sipmDataAcquisitionTime := (duration code argv).getD s.sipmDataAcquisitionTime },
      .next .join)
  | join =>
    let after : AdmitPc := if code = macroAutoRunCycle then .spawn else .arm
    match self, s.macroThread with
    -- a thread that joins itself throws, which `dispatch` turns into `false`
    | .macroThread, _ => some (s, .ret false)
    | .worker, .none => some (s, .next after)
    | .worker, .finished => some ({ s with macroThread := .none }, .next after)
    | .worker, .running .. => none
  | arm => some ({ s with macroLoopRunning := true }, .next .spawn)
  | spawn =>
    match s.macroThread with
    | .none =>
      let p := program sequences code argv
      some ({ s with macroThread := .running p p.start }, .ret true)
    | _ => none

/-- One step of a handler. -/
def Call.step (self : Caller) (a : Answer) (s : State) : Call → Option (State × Progress Call)
  | startDaq pc =>
    (pc.step .startDaq (StartPc.step a) s).map fun (s, r) => (s, r.map startDaq)
  | stopDaq pc =>
    (pc.step .stopDaq (StopPc.step a) s).map fun (s, r) => (s, r.map stopDaq)
  | resetDaq pc =>
    (pc.step .resetDaq (ResetPc.step a) s).map fun (s, r) => (s, r.map resetDaq)
  | simple code pc =>
    (pc.step code (BodyPc.step code a) s).map fun (s, r) => (s, r.map (simple code))
  | background code pc =>
    (pc.step code a s).map fun (s, r) => (s, r.map (background code))
  | sendPulseTrain pc => (pc.step a s).map fun (s, r) => (s, r.map sendPulseTrain)
  | startAsicTempRecord =>
    if s.tempRecordRunning then some (s, .ret true)
    -- assigning to a joinable thread would end the program
    else if s.recorder ≠ .none then none
    else some ({ s with tempRecordRunning := true, recorder := .looping }, .ret true)
  | stopAsicTempRecord false =>
    if s.tempRecordRunning then
      some ({ s with tempRecordRunning := false }, .next (stopAsicTempRecord true))
    else some (s, .ret true)
  | stopAsicTempRecord true =>
    match s.recorder with
    | .none => some (s, .ret true)
    | .finished => some ({ s with recorder := .none }, .ret true)
    | _ => none
  | macroCommand code argv pc =>
    (pc.step sequences self code argv s).map fun (s, r) => (s, r.map (macroCommand code argv))
  | heartBeat => some (s, .ret true)

/-- After a step of a sequence has succeeded. -/
def SequencePc.after (cmd : TOFCommandCode) (rest : List TOFCommandCode) : SequencePc :=
  match cmd, rest with
  | acquireSipmData, sendPulseTrain :: rest => .pulseTest rest
  | _, _ => .wait cmd rest

/-- `if (!vaultSubDir.empty()) config.clearVaultPath()`. -/
def State.clearVaultPath (s : State) (vaultSubDir : String) : State :=
  if vaultSubDir = "" then s else { s with vaultPath := "" }

/-- One step of `executeMacroSequence`. -/
def SequencePc.stepIn (vaultSubDir : String) (sequence : List TOFCommandCode) (a : Answer)
    (s : State) : SequencePc → Option (State × Progress SequencePc)
  | arm => some ({ s with macroLoopRunning := true }, .next .vault)
  | vault =>
    if vaultSubDir = "" then some (s, .next (.test sequence))
    else if a.ok then
      some ({ s with vaultPath := "/vault/" ++ vaultSubDir ++ "/run_" ++ a.time },
        .next (.test sequence))
    else some (s, .next .vaultFailed)
  | vaultFailed => some ({ s with macroLoopRunning := false }, .ret false)
  | test [] => some (s.clearVaultPath vaultSubDir, .ret true)
  | test (cmd :: rest) =>
    if s.macroLoopRunning then some (s, .next (.dispatch cmd rest))
    else some (s.clearVaultPath vaultSubDir, .ret false)
  | dispatch cmd rest =>
    match cmd.handler [] with
    | some call => some (s, .next (.step cmd rest call))
    | none => some (s, .next (.returned false cmd rest))
  | step cmd rest call =>
    (call.step sequences .macroThread a s).map fun (s, r) =>
      (s, .next (r.elim (.step cmd rest ·) (.returned · cmd rest)))
  | returned false _ _ => some (s.clearVaultPath vaultSubDir, .next .failed)
  | returned true cmd rest =>
    some (s, .next (if cmd = resetDaq then .rearm rest else .after cmd rest))
  | rearm rest => some ({ s with macroLoopRunning := true }, .next (.wait resetDaq rest))
  | pulseTest rest =>
    some (s, .next (if s.macroLoopRunning then .pulseDispatch rest else .wait acquireSipmData rest))
  | pulseDispatch rest => some (s, .next (.pulse rest (.sendPulseTrain .access)))
  | pulse rest call =>
    (call.step sequences .macroThread a s).map fun (s, r) =>
      (s, .next (r.elim (.pulse rest ·) (.pulseReturned · rest)))
  | pulseReturned _ rest => some (s, .next (.wait acquireSipmData rest))
  | wait cmd rest =>
    some (s, .next (if s.macroLoopRunning then .poll cmd rest else .test rest))
  | poll cmd rest => some (s, .next (if s.isRunning cmd then .wait cmd rest else .test rest))
  | failed => some ({ s with macroLoopRunning := false }, .ret false)

/-- `vaultSubDir`, in `executeMacroLoop` with the number of the cycle. -/
def Program.subDir (p : Program) (cycle : ℕ) : String :=
  match p.cycles with
  | none => p.vaultSubDir
  | some _ => if p.vaultSubDir = "" then "" else p.vaultSubDir ++ "/cycle_" ++ toString cycle

/-- What follows the return of `executeMacroSequence`. -/
def Program.afterSequence (p : Program) (cycle : ℕ) (success : Bool) : MacroPc :=
  match p.cycles with
  | none => .clear success
  | some n => if success ∧ ¬ (n > 0 ∧ cycle ≥ n) then .loopTest cycle else .loopBreak

/-- One step of the macro thread, and where it is then. -/
def MacroPc.step (p : Program) (a : Answer) (s : State) : MacroPc → Option (State × MacroThread)
  | loopArm => some ({ s with macroLoopRunning := true }, .running p (.loopTest 0))
  | loopTest cycle =>
    -- `currentCycle` is a `uint32_t`
    some (s, .running p (if s.macroLoopRunning then .sequence ((cycle + 1) % UInt32.size) .arm
      else .clear true))
  | sequence cycle pc =>
    (pc.stepIn sequences (p.subDir cycle) p.sequence a s).map fun (s, r) =>
      (s, .running p (r.elim (.sequence cycle ·) (p.afterSequence cycle ·)))
  | loopBreak => some ({ s with macroLoopRunning := false }, .running p (.clear true))
  | clear success => some ({ s with macroLoopRunning := false }, .running p (.notify success))
  | notify success =>
    some (s.sendStatusCallback p.code (if success then 0 else 1), .finished)

/-- What `waitpid` reports of a registered process: that it is over, and whether it exited with
status 0, or an error. -/
inductive Wait where
  | exited (success : Bool)
  | error
  deriving DecidableEq, Repr

/-- The monitor thread at the process `pid`. -/
def State.reap (s : State) (pid : Pid) (w : Wait) : Option State :=
  match s.activeBackgroundTasks.lookup pid, w with
  | some task, .exited success =>
    if pid ∈ s.children ∨ pid ∈ s.workers then
      let s' := { s.waited pid with
        activeBackgroundTasks := s.activeBackgroundTasks.filter (·.1 ≠ pid) }
      some (if task.sendCallback then
        s'.sendStatusCallback task.commandCode (if success then 0 else 1) else s')
    else none
  | some _, .error =>
    if pid ∈ s.children ∨ pid ∈ s.workers then none
    else some { s with activeBackgroundTasks := s.activeBackgroundTasks.filter (·.1 ≠ pid) }
  | none, _ => none

/-- `runDAQThread`: `run` returns, then `daqRunning_` is reset under `daqMutex_`. -/
def State.daqStep (s : State) : Option State :=
  match s.daqThread with
  | .running => some { s with daqThread := .leaving }
  | .leaving =>
    if s.daqMutex then none else some { s with daqThread := .finished, daqRunning := false }
  | _ => none

/-- The thread of `startTempRecord`; its tasks send no callback. -/
def State.recorderStep (s : State) (a : Answer) : Option State :=
  match s.recorder with
  | .looping =>
    if s.tempRecordRunning then
      match a.pid with
      | some pid => (s.forked pid).map fun s => { s with recorder := .register pid }
      | none => some s
    else some { s with recorder := .finished }
  | .register pid =>
    some { s.register pid ⟨readTemperatureSensors, false⟩ with recorder := .looping }
  | _ => none

inductive Action where
  /-- The worker takes a command off the queue. -/
  | receive (code : TOFCommandCode) (argv : CommandArgs)
  | worker (a : Answer)
  | macroThread (a : Answer)
  | monitor (pid : Pid) (w : Wait)
  | daq
  | recorder (a : Answer)
  deriving DecidableEq, Repr

def step (s : State) : Action → Option State
  | .receive code argv =>
    match s.worker, code.handler argv with
    | .idle, some call => some { s with worker := .busy call }
    | .idle, none => some s
    | .busy _, _ => none
  | .worker a =>
    match s.worker with
    | .idle => none
    | .busy call =>
      (call.step sequences .worker a s).map fun (s, r) =>
        { s with worker := r.elim .busy fun _ => .idle }
  | .macroThread a =>
    match s.macroThread with
    | .running p pc =>
      (pc.step sequences p a s).map fun (s, t) => { s with macroThread := t }
    | _ => none
  | .monitor pid w => s.reap pid w
  | .daq => s.daqStep
  | .recorder a => s.recorderStep a

/-- The dispatcher, whatever sequences and vault directories its macros have. -/
def machine : Machine State Action := ⟨fun s => s = initial, step sequences⟩

end GramsTof.Dispatch
