import GramsTof.Dispatch.Activity
import GramsTof.Dispatch.Flag
import GramsTof.Dispatch.Ledger

/-! The processes that a step of a macro has started, when `executeMacroSequence`
dispatches the next one. -/

namespace GramsTof.Dispatch

open Lib TOFCommandCode

/-- A registered task, and whether the macro's step under execution has started it. -/
structure Started where
  task : BackgroundTask
  current : Bool
  deriving DecidableEq, Repr

structure StepRecord where
  entries : List (Pid × Started)
  /-- The step under execution has started the temperature recorder. -/
  recorder : Bool
  deriving DecidableEq, Repr

namespace SequencePc

/-- A sequence starts, or its next step does. -/
def renews : SequencePc → Bool
  | arm | dispatch _ _ => true
  | _ => false

/-- The step under execution. -/
def command : SequencePc → Option TOFCommandCode
  | step cmd _ _ | returned _ cmd _ | wait cmd _ | poll cmd _ => some cmd
  | rearm _ => some resetDaq
  | pulseTest _ | pulseDispatch _ | pulse _ _ | pulseReturned _ _ => some acquireSipmData
  | _ => none

/-- The handler under execution, and the command it was dispatched for. -/
def handles : SequencePc → Option (TOFCommandCode × Call)
  | step cmd _ call => some (cmd, call)
  | pulse _ call => some (sendPulseTrain, call)
  | _ => none

/-- No step is under execution, and the next one is due while the flag is `up`. -/
def due (up : Bool) : SequencePc → Bool
  | vault | dispatch _ _ => true
  | test (_ :: _) => up
  | _ => false

/-- The wait loop of this command looks at the registry, and another step follows. -/
def polls : SequencePc → Option TOFCommandCode
  | poll cmd (_ :: _) => some cmd
  | _ => none

end SequencePc

def MacroPc.sequencePc : MacroPc → Option SequencePc
  | sequence _ pc => some pc
  | _ => none

namespace State

def sequencePc (s : State) : Option SequencePc := s.macroPc.bind MacroPc.sequencePc

def due (s : State) : Bool := s.sequencePc.any (·.due s.macroLoopRunning)

def renews (s : State) : Action → Bool
  | .macroThread _ => s.sequencePc.any SequencePc.renews
  | _ => false

def polls (s : State) : Action → Option TOFCommandCode
  | .macroThread _ => s.sequencePc.bind SequencePc.polls
  | _ => none

/-- The caller whose `START_ASIC_TEMP_RECORD` starts the recorder in this step. -/
def recorderStart (s : State) : Action → Option Caller
  | .worker _ =>
    if s.calls .worker = some .startAsicTempRecord ∧ s.tempRecordRunning = false then some .worker
    else none
  | .macroThread _ =>
    if s.calls .macroThread = some .startAsicTempRecord ∧ s.tempRecordRunning = false then
      some .macroThread
    else none
  | _ => none

end State

namespace StepRecord

/-- What the step under execution has started acts. -/
def owns (w : StepRecord) : Action → Bool
  | .macroThread _ => true
  | .recorder _ => w.recorder
  | _ => false

def track (s : State) (b : Action) (_ : State) (w : StepRecord) : StepRecord :=
  if s.renews b then
    { entries := Registry.mapValues (fun v => { v with current := false }) w.entries
      recorder := false }
  else
    { entries := (s.operation b).registry (⟨·, w.owns b⟩) w.entries
      recorder := (s.recorderStart b).elim w.recorder (· = .macroThread) }

/-- `cmd` starts what is of the step, on its own or through the recorder. -/
structure Of (w : StepRecord) (cmd : TOFCommandCode) : Prop where
  entries : ∀ e ∈ w.entries, e.2.current → cmd.Starts e.2.task ∨
    cmd = startAsicTempRecord ∧ e.2.task = reading
  recorder : w.recorder → cmd = startAsicTempRecord

/-- Nothing that the step has started is registered, or about to be. -/
structure Over (s : State) (w : StepRecord) : Prop where
  entries : ∀ e ∈ w.entries, e.2.current = false
  recorder : w.recorder → s.recorder.hold = none

end StepRecord

def stepMachine (sequences : TOFCommandCode → MacroSequence) :
    Machine (State × StepRecord) Action :=
  (machine sequences).withHistory ⟨[], false⟩ StepRecord.track

/-- A `STOP_DAQ` or a `RESET_DAQ` comes from outside the macro. -/
def Action.outside : Action → Bool
  | receive code _ => code = stopDaq || code = resetDaq
  | _ => false

/-- When the wait loop looks, the step has nothing registered under another command's code, and
its recorder starts nothing before the next step. -/
structure StepsWait (p : State × StepRecord) (b : Action) : Prop where
  outside : b.outside = false
  /-- The stop script of a `RESET_DAQ` is registered under `STOP_DAQ`. -/
  reset : p.1.polls b = some resetDaq → p.1.isRunning stopDaq = false
  /-- The readings of a recorder are registered under `READ_TEMPERATURE_SENSORS`. -/
  record : p.1.polls b = some startAsicTempRecord → (p.2.recorder → p.1.recorder.hold = none) ∧
    ∀ e ∈ p.2.entries, e.2.current → e.2.task ≠ reading
  between : p.2.recorder → p.1.due → b.launcher = some .recorder → (p.1.operation b).task = none

instance (p : State × StepRecord) (b : Action) : Decidable (StepsWait p b) :=
  decidable_of_iff (_ ∧ _ ∧ _ ∧ _) ⟨fun ⟨h₁, h₂, h₃, h₄⟩ => ⟨h₁, h₂, h₃, h₄⟩,
    fun h => ⟨h.outside, h.reset, h.record, h.between⟩⟩

/-- The handler is that of the command. -/
def Call.Of (call : Call) (cmd : TOFCommandCode) : Prop := call.code = cmd ∧ call.kind = cmd.kind

/-- The registry is marked, and each mark is of the step under execution. -/
structure Apart (s : State) (w : StepRecord) : Prop where
  entries : Registry.mapValues Started.task w.entries = s.activeBackgroundTasks
  worker : ∀ call, s.workerCall = some call → call.code ≠ stopDaq ∧ call.code ≠ resetDaq
  handlers : ∀ cmd call, s.sequencePc.bind SequencePc.handles = some (cmd, call) → call.Of cmd
  due : s.due → w.Over s
  command : ∀ cmd, s.sequencePc.bind SequencePc.command = some cmd → w.Of cmd

/-! ### The steps of a sequence -/

section Sequence

variable {sequences : TOFCommandCode → MacroSequence} {s s' t : State} {a : Answer}
  {sub : String} {sequence : List TOFCommandCode} {pc pc' : SequencePc} {cmd : TOFCommandCode}
  {call : Call}

theorem SequenceMove.command (h : SequenceMove sequences sub sequence a s pc t (.next pc'))
    (hpc : pc.renews = false) (hc : pc'.command = some cmd) : pc.command = some cmd := by
  generalize hr : Progress.next pc' = r at h
  cases h with
  | arm | call _ | unknown _ => cases hpc
  | @step _ _ _ _ r | @pulse _ _ _ r => cases r <;> (cases hr; exact hc)
  | vaultFailed | finish | abort _ | failed => cases hr
  | vaultNone _ | vault _ | vaultError _ | go _ | fail | waitStop _ | pollDone _ => cases hr; cases hc
  | _ => cases hr; exact hc

/-- The next step comes to be due at the start of the sequence and at the end of the wait loop. -/
theorem SequenceMove.due (h : SequenceMove sequences sub sequence a s pc t (.next pc'))
    (hpc : pc.renews = false) (hd : pc'.due t.macroLoopRunning) :
    pc.due s.macroLoopRunning ∨ ∃ cmd, pc.polls = some cmd ∧ s.isRunning cmd = false := by
  generalize hr : Progress.next pc' = r at h
  cases h with
  | arm | call _ | unknown _ => cases hpc
  | vaultNone _ | vault _ => exact .inl rfl
  | go hup => exact .inl hup
  | @step _ _ _ _ r | @pulse _ _ _ r => cases r <;> (cases hr; cases hd)
  | @waitStop _ rest hdown =>
    cases hr
    cases rest with
    | nil => cases hd
    | cons next rest => exact absurd (hdown.symm.trans hd) Bool.false_ne_true
  | @pollDone cmd rest hrun =>
    cases hr
    cases rest with
    | nil => cases hd
    | cons next rest => exact .inr ⟨cmd, rfl, hrun⟩
  | vaultFailed | finish | abort _ | failed => cases hr
  | _ => cases hr; cases hd

theorem Call.Of.next {r : Progress Call} {call' : Call} (hi : call.Of cmd)
    (h : call.step sequences .macroThread a s = some (t, r)) (hr : r = .next call') :
    call'.Of cmd := by
  subst hr
  obtain ⟨hcode, hkind⟩ := Call.step_code h
  exact ⟨hcode.trans hi.1, hkind.trans hi.2⟩

theorem SequenceMove.handlers (h : SequenceMove sequences sub sequence a s pc t (.next pc'))
    (hi : ∀ cmd call, pc.handles = some (cmd, call) → call.Of cmd)
    (hh : pc'.handles = some (cmd, call)) : call.Of cmd := by
  generalize hr : Progress.next pc' = r at h
  cases h with
  | call hcall =>
    cases hr
    cases hh
    exact handler_code hcall
  | pulseDispatch =>
    cases hr
    cases hh
    exact ⟨rfl, rfl⟩
  | @step _ _ _ _ r hcall | @pulse _ _ _ r hcall =>
    cases hr
    cases r with
    | ret v => cases hh
    | next call' =>
      cases hh
      exact (hi _ _ rfl).next hcall rfl
  | vaultFailed | finish | abort _ | failed => cases hr
  | _ => cases hr; cases hh

/-- Where the macro thread is within a sequence, after one of its steps. -/
theorem MacroPc.step_sequence {p : Program} {pc : MacroPc} {m : MacroThread}
    (h : pc.step sequences p a s = some (t, m)) :
    (∃ (sub : String) (sequence : List TOFCommandCode) (q q' : SequencePc), pc.sequencePc = some q ∧
      m.pc.bind sequencePc = some q' ∧ SequenceMove sequences sub sequence a s q t (.next q')) ∨
      m.pc.bind sequencePc = none ∨ m.pc.bind sequencePc = some .arm := by
  cases pc with
  | loopArm | loopBreak | clear _ | notify _ => cases h; exact .inr (.inl rfl)
  | loopTest cycle =>
    simp only [MacroPc.step] at h
    split_ifs at h <;> cases h
    · exact .inr (.inr rfl)
    · exact .inr (.inl rfl)
  | sequence cycle pc =>
    obtain ⟨⟨u, r⟩, hu, heq⟩ := Option.map_eq_some_iff.mp h
    cases heq
    cases r with
    | next pc' => exact .inl ⟨_, _, pc, pc', rfl, rfl, SequencePc.stepIn_move hu⟩
    | ret success =>
      right
      left
      obtain ⟨-, hp⟩ | ⟨-, -, hp⟩ | ⟨-, hp⟩ := p.afterSequence_cases cycle success <;>
        (simp only [Progress.elim, MacroThread.pc, hp]; rfl)

theorem Program.start_sequence (p : Program) :
    p.start.sequencePc = none ∨ p.start.sequencePc = some .arm := by
  unfold Program.start
  split_ifs
  · exact .inl rfl
  · exact .inr rfl

theorem SequencePc.handles_due {up : Bool} (h : pc.due up) : pc.handles = none := by
  cases pc with
  | step _ _ _ | pulse _ _ => cases h
  | _ => rfl

theorem SequencePc.handles_polls (h : pc.polls = some cmd) : pc.handles = none := by
  cases pc with
  | step _ _ _ | pulse _ _ => cases h
  | _ => rfl

theorem SequencePc.handles_renews (h : pc.renews) : pc.handles = none := by
  cases pc with
  | step _ _ _ | pulse _ _ => cases h
  | _ => rfl

theorem SequencePc.command_polls (h : pc.polls = some cmd) : pc.command = some cmd := by
  cases pc with
  | poll cmd' rest =>
    cases rest with
    | nil => cases h
    | cons next rest => cases h; rfl
  | _ => cases h

/-- The handler of a step was dispatched for the step itself, or for the pulses beside it. -/
theorem SequencePc.command_handles {cmd' : TOFCommandCode} (h : pc.handles = some (cmd', call))
    (hc : pc.command = some cmd) : cmd' = cmd ∨ cmd' = sendPulseTrain := by
  cases pc with
  | step _ _ _ => cases h; cases hc; exact .inl rfl
  | pulse _ _ => cases h; exact .inr rfl
  | _ => cases h

theorem State.sequencePc_eq {s : State} (h : s.sequencePc = some pc) :
    ∃ p cycle, s.macroThread = .running p (.sequence cycle pc) := by
  obtain ⟨q, hq, hpc⟩ := Option.bind_eq_some_iff.mp h
  cases hm : s.macroThread with
  | none | finished => rw [State.macroPc, hm] at hq; cases hq
  | running p q' =>
    rw [State.macroPc_eq hm] at hq
    cases hq
    cases q with
    | sequence cycle pc' => cases hpc; exact ⟨p, cycle, rfl⟩
    | _ => cases hpc

theorem State.operation_sequence (h : s.sequencePc = some pc) :
    s.operation (.macroThread a) = pc.handles.elim .idle fun e => e.2.operation a := by
  obtain ⟨p, cycle, hm⟩ := State.sequencePc_eq h
  rw [State.operation, hm]
  cases pc <;> rfl

theorem State.calls_sequence (h : s.sequencePc = some pc) :
    s.calls .macroThread = pc.handles.map Prod.snd := by
  obtain ⟨p, cycle, hm⟩ := State.sequencePc_eq h
  rw [State.calls, State.macroCall, State.macroPc_eq hm]
  cases pc <;> rfl

end Sequence

/-! ### What a step does to the marks -/

section Marks

variable {sequences : TOFCommandCode → MacroSequence} {s s' : State} {a : Answer} {b : Action}
  {w : StepRecord} {pc : SequencePc} {cmd : TOFCommandCode}

theorem State.renews_eq (h : s.sequencePc = some pc) : s.renews (.macroThread a) = pc.renews := by
  rw [renews, h, Option.any_some]

theorem State.renews_other (hb : ∀ a, b ≠ .macroThread a) : s.renews b = false := by
  cases b with
  | macroThread a => exact absurd rfl (hb a)
  | _ => rfl

theorem StepRecord.track_renews (h : s.renews b = true) :
    w.track s b s' = ⟨Registry.mapValues (fun v => { v with current := false }) w.entries, false⟩ :=
  if_pos h

theorem StepRecord.track_keeps (h : s.renews b = false) :
    w.track s b s' = ⟨(s.operation b).registry (⟨·, w.owns b⟩) w.entries,
      (s.recorderStart b).elim w.recorder (· = .macroThread)⟩ :=
  if_neg (by simp [h])

theorem State.operation_renews (h : s.renews b = true) : s.operation b = .idle := by
  cases b with
  | macroThread a =>
    obtain ⟨pc, hpc, hrenews⟩ := (Option.any_eq_true _ _).mp h
    rw [State.operation_sequence hpc, SequencePc.handles_renews hrenews]
    rfl
  | _ => cases h

theorem StepRecord.entries_step (hi : Registry.mapValues Started.task w.entries = s.activeBackgroundTasks)
    (he : Effect (s.operation b) s s') :
    Registry.mapValues Started.task (w.track s b s').entries = s'.activeBackgroundTasks := by
  rw [he.tasks, ← hi]
  cases hr : s.renews b with
  | true =>
    rw [StepRecord.track_renews hr, State.operation_renews hr]
    simp only [Registry.mapValues, List.map_map]
    rfl
  | false =>
    rw [StepRecord.track_keeps hr]
    exact Operation.mapValues_registry Started.task (s.operation b)

/-- A mark is old, or set with the entry. -/
theorem StepRecord.mem_track {e : Pid × Started} (hr : s.renews b = false)
    (he : e ∈ (w.track s b s').entries) (hc : e.2.current) :
    e ∈ w.entries ∨ w.owns b ∧ (s.operation b).task = some e.2.task := by
  rw [StepRecord.track_keeps hr] at he
  rcases Operation.mem_registry.mp he with ⟨hold, -⟩ | ⟨task, hadd, hv⟩
  · exact .inl hold
  · rw [hv] at hc ⊢
    exact .inr ⟨hc, Operation.task_added hadd⟩

theorem StepRecord.over_renews (hr : s.renews b = true) : (w.track s b s').Over s' := by
  rw [StepRecord.track_renews hr]
  refine ⟨fun e he => ?_, nofun⟩
  obtain ⟨v, -, hv⟩ := Registry.mem_mapValues.mp he
  rw [← hv]

theorem StepRecord.Over.of (h : w.Over s) (hr : w.recorder = false) : w.Of cmd :=
  ⟨fun e he hc => absurd hc (by simp [h.entries e he]), fun h => absurd h (by simp [hr])⟩

/-- Nobody takes a process into the recorder's hands but the recorder. -/
theorem Performed.recorder_hold (h : Performed b s s') (hs : s.recorder.hold = none)
    (hop : b.launcher = some .recorder → (s.operation b).task = none) : s'.recorder.hold = none := by
  by_cases hb : b.launcher = some .recorder
  · have hh := h.hands .recorder hb
    have hnone := hop hb
    change Handed s.recorder.hold (s.operation b) s'.recorder.hold at hh
    rw [hs] at hh
    generalize s.operation b = o at hh hnone
    generalize s'.recorder.hold = after at hh
    cases hh with
    | fork pid task => cases hnone
    | _ => rfl
  · exact (h.keeps .recorder hb).trans hs

theorem StepRecord.Over.step (hi : w.Over s) (hp : Performed b s s') (hr : s.renews b = false)
    (hstart : s.recorderStart b ≠ some .macroThread)
    (hop : w.owns b → (s.operation b).task = none)
    (hrec : w.recorder → b.launcher = some .recorder → (s.operation b).task = none) :
    (w.track s b s').Over s' := by
  constructor
  · intro e he
    cases hc : e.2.current with
    | false => rfl
    | true =>
      rcases StepRecord.mem_track hr he hc with hold | ⟨howns, htask⟩
      · exact absurd hc (by simp [hi.entries e hold])
      · rw [hop howns] at htask
        cases htask
  · intro hw
    rw [StepRecord.track_keeps hr] at hw
    cases hst : s.recorderStart b with
    | none =>
      simp only [hst, Option.elim_none] at hw
      exact hp.recorder_hold (hi.recorder hw) (hrec hw)
    | some c =>
      simp only [hst, Option.elim_some, decide_eq_true_eq] at hw
      rw [hw] at hst
      exact absurd hst hstart

theorem StepRecord.Of.step (hi : w.Of cmd) (hr : s.renews b = false)
    (hstart : s.recorderStart b = some .macroThread → cmd = startAsicTempRecord)
    (hop : w.owns b → ∀ task, (s.operation b).task = some task → cmd.Starts task ∨
      cmd = startAsicTempRecord ∧ task = reading) : (w.track s b s').Of cmd := by
  constructor
  · intro e he hc
    rcases StepRecord.mem_track hr he hc with hold | ⟨howns, htask⟩
    · exact hi.entries e hold hc
    · exact hop howns _ htask
  · intro hw
    rw [StepRecord.track_keeps hr] at hw
    cases hst : s.recorderStart b with
    | none =>
      simp only [hst, Option.elim_none] at hw
      exact hi.recorder hw
    | some c =>
      simp only [hst, Option.elim_some, decide_eq_true_eq] at hw
      rw [hw] at hst
      exact hstart hst

end Marks

/-! ### The steps of the threads -/

section Threads

variable {sequences : TOFCommandCode → MacroSequence} {s s' t : State} {a : Answer} {b : Action}
  {w : StepRecord} {pc pc' : SequencePc} {cmd : TOFCommandCode}

theorem State.isRunning_false (h : s.isRunning cmd = false) {e : Pid × BackgroundTask}
    (he : e ∈ s.activeBackgroundTasks) : e.2.commandCode ≠ cmd := by
  intro hc
  have hnot := List.any_eq_false.mp h e he
  simp [hc] at hnot

/-- Without a command from outside, the worker is in no `STOP_DAQ` and no `RESET_DAQ`. -/
theorem Apart.worker_step (hi : Apart s w) (hout : b.outside = false)
    (h : step sequences s b = some s') {call : Call} (hc : s'.workerCall = some call) :
    call.code ≠ stopDaq ∧ call.code ≠ resetDaq := by
  cases step_calls h .worker with
  | @begins code argv call' hb hh _ hafter _ =>
    cases hafter.symm.trans hc
    rw [(handler_code hh).1]
    cases b with
    | receive code' argv' =>
      obtain ⟨_, -, rfl⟩ := Option.map_eq_some_iff.mp hb
      simpa [Action.outside] using hout
    | _ => cases hb
  | @steps a call' t r _ _ hbefore hstep _ hafter =>
    cases r with
    | ret v => cases hafter.symm.trans hc
    | next call'' =>
      cases hafter.symm.trans hc
      rw [(Call.step_code hstep).1]
      exact hi.worker call' hbefore
  | rests _ hsame _ => exact hi.worker call (hsame.symm.trans hc)

/-- The wait loop ends when nothing of the step is left. -/
theorem Apart.over_polls (hi : Apart s w) (hg : StepsWait (s, w) b) (hpolls : s.polls b = some cmd)
    (hrun : s.isRunning cmd = false) (hcmd : w.Of cmd) : w.Over s := by
  refine ⟨fun e he => ?_, fun hw => ?_⟩
  · by_contra hc
    have hcurrent : e.2.current = true := by simpa using hc
    have hmem : (e.1, e.2.task) ∈ s.activeBackgroundTasks := by
      rw [← hi.entries]
      exact Registry.mem_mapValues.mpr ⟨e.2, he, rfl⟩
    have hcode : e.2.task.commandCode ≠ cmd := State.isRunning_false hrun hmem
    rcases hcmd.entries e he hcurrent with (⟨-, htask⟩ | ⟨rfl | rfl, htask⟩) | ⟨rfl, htask⟩
    · exact hcode (by rw [htask])
    · exact hcode (by rw [htask]; rfl)
    · exact State.isRunning_false (hg.reset hpolls) hmem (by rw [htask]; rfl)
    · exact (hg.record hpolls).2 e he hcurrent htask
  · have hstart := hcmd.recorder hw
    subst hstart
    exact (hg.record hpolls).1 hw

/-- Outside a sequence, and at its start, nothing is asked of the marks. -/
theorem Apart.of_start (hi : Apart s w) (hg : StepsWait (s, w) b)
    (h : step sequences s b = some s') (hs : s'.sequencePc = none ∨ s'.sequencePc = some .arm) :
    Apart s' (w.track s b s') := by
  have hhandles : s'.sequencePc.bind SequencePc.handles = none := by
    rcases hs with hs | hs <;> (rw [hs]; rfl)
  have hdue : s'.due = false := by
    rcases hs with hs | hs <;> (rw [State.due, hs]; rfl)
  have hcommand : s'.sequencePc.bind SequencePc.command = none := by
    rcases hs with hs | hs <;> (rw [hs]; rfl)
  refine ⟨StepRecord.entries_step hi.entries (step_performed h).effect,
    fun _ => hi.worker_step hg.outside h, fun cmd call hh => ?_, fun hd => ?_, fun cmd hc => ?_⟩
  · rw [hhandles] at hh
    cases hh
  · rw [hdue] at hd
    cases hd
  · rw [hcommand] at hc
    cases hc

theorem State.recorderStart_sequence (hs : s.sequencePc = some pc)
    (h : s.recorderStart (.macroThread a) = some .macroThread) :
    ∃ cmd, pc.handles = some (cmd, .startAsicTempRecord) := by
  simp only [State.recorderStart] at h
  split_ifs at h with hstart
  have hcall := hstart.1
  rw [State.calls_sequence hs] at hcall
  obtain ⟨⟨cmd, call⟩, he, hcall⟩ := Option.map_eq_some_iff.mp hcall
  cases hcall
  exact ⟨cmd, he⟩

theorem Call.Of.starts {call : Call} {task : BackgroundTask} (hi : call.Of cmd)
    (h : (call.operation a).task = some task) : cmd.Starts task := by
  have hstarts := Call.operation_task h
  rwa [hi.2, hi.1] at hstarts

theorem not_starts_sendPulseTrain (task : BackgroundTask) : ¬ sendPulseTrain.Starts task := by
  rintro (⟨hkind, -⟩ | ⟨hcode | hcode, -⟩)
  · cases hkind
  · cases hcode
  · cases hcode

theorem Apart.handlers_at (hi : Apart s w) (hs : s.sequencePc = some pc) {call : Call}
    (hh : pc.handles = some (cmd, call)) : call.Of cmd :=
  hi.handlers cmd call (by rw [hs]; exact hh)

theorem Apart.command_at (hi : Apart s w) (hs : s.sequencePc = some pc)
    (hc : pc.command = some cmd) : w.Of cmd :=
  hi.command cmd (by rw [hs]; exact hc)

/-- The macro thread goes on to where the next step is due. -/
theorem Apart.macro_over {sub : String} {sequence : List TOFCommandCode} (hi : Apart s w)
    (hg : StepsWait (s, w) (.macroThread a)) (hp : Performed (.macroThread a) s s')
    (hs : s.sequencePc = some pc) (hr : pc.renews = false)
    (hmove : SequenceMove sequences sub sequence a s pc t (.next pc'))
    (hd : pc'.due t.macroLoopRunning) : (w.track s (.macroThread a) s').Over s' := by
  have hbefore : w.Over s ∧ pc.handles = none := by
    rcases hmove.due hr hd with hdue | ⟨cmd, hpolls, hrun⟩
    · exact ⟨hi.due (by rw [State.due, hs]; exact hdue), SequencePc.handles_due hdue⟩
    · have hof : w.Of cmd := hi.command_at hs (SequencePc.command_polls hpolls)
      exact ⟨hi.over_polls hg (by rw [State.polls, hs]; exact hpolls) hrun hof,
        SequencePc.handles_polls hpolls⟩
  obtain ⟨hover, hnone⟩ := hbefore
  have hidle : s.operation (.macroThread a) = .idle := by
    rw [State.operation_sequence hs, hnone]
    rfl
  have hstart : s.recorderStart (.macroThread a) ≠ some .macroThread := by
    intro hstart
    obtain ⟨cmd, hh⟩ := State.recorderStart_sequence hs hstart
    rw [hnone] at hh
    cases hh
  exact hover.step hp ((State.renews_eq hs).trans hr) hstart (fun _ => by rw [hidle]; rfl)
    fun _ hl => by cases hl

/-- The macro thread stays within a step. -/
theorem Apart.macro_of (hi : Apart s w) (hs : s.sequencePc = some pc) (hr : pc.renews = false)
    (hcommand : pc.command = some cmd) : (w.track s (.macroThread a) s').Of cmd := by
  refine (hi.command_at hs hcommand).step ((State.renews_eq hs).trans hr)
    (fun hstart => ?_) fun _ task htask => .inl ?_
  · obtain ⟨cmd', hh⟩ := State.recorderStart_sequence hs hstart
    have hcode := (hi.handlers_at hs hh).1
    rcases SequencePc.command_handles hh hcommand with rfl | rfl
    · exact hcode.symm
    · cases hcode
  · rw [State.operation_sequence hs] at htask
    cases hh : pc.handles with
    | none => rw [hh] at htask; cases htask
    | some e =>
      rw [hh] at htask
      have hstarts := (hi.handlers_at hs hh).starts htask
      rcases SequencePc.command_handles hh hcommand with hcmd | hcmd
      · exact hcmd ▸ hstarts
      · rw [hcmd] at hstarts
        exact absurd hstarts (not_starts_sendPulseTrain task)

/-- A step of the macro thread within a sequence. -/
theorem Apart.macro_step {sub : String} {sequence : List TOFCommandCode} (hi : Apart s w)
    (hg : StepsWait (s, w) (.macroThread a)) (h : step sequences s (.macroThread a) = some s')
    (hs : s.sequencePc = some pc) (hs' : s'.sequencePc = some pc')
    (hflag : s'.macroLoopRunning = t.macroLoopRunning)
    (hmove : SequenceMove sequences sub sequence a s pc t (.next pc')) :
    Apart s' (w.track s (.macroThread a) s') := by
  have hp := step_performed h
  refine ⟨StepRecord.entries_step hi.entries hp.effect, fun _ => hi.worker_step hg.outside h,
    fun cmd call hh => ?_, fun hd => ?_, fun cmd hc => ?_⟩
  · rw [hs'] at hh
    exact hmove.handlers (fun _ _ => hi.handlers_at hs) hh
  · rw [State.due, hs', Option.any_some, hflag] at hd
    cases hr : pc.renews with
    | true => exact StepRecord.over_renews ((State.renews_eq hs).trans hr)
    | false => exact hi.macro_over hg hp hs hr hmove hd
  · rw [hs', Option.bind_some] at hc
    cases hr : pc.renews with
    | true =>
      have hr := (State.renews_eq (a := a) hs).trans hr
      have hover : (w.track s (.macroThread a) s').Over s' := StepRecord.over_renews hr
      exact hover.of (by rw [StepRecord.track_renews hr])
    | false => exact hi.macro_of hs hr (hmove.command hr hc)

/-- While a macro is there, no other thread moves it or raises its flag. -/
theorem Apart.sequencePc_step (hi : Apart s w) (hreach : (machine sequences).Reachable s)
    (h : step sequences s b = some s') (hb : ∀ a, b ≠ .macroThread a) :
    (s'.sequencePc = none ∨ s'.sequencePc = some .arm) ∨
      s'.sequencePc = s.sequencePc ∧ (s'.macroLoopRunning = true → s.macroLoopRunning = true) := by
  cases step_move h with
  | receive _ _ => exact .inr ⟨rfl, id⟩
  | @worker a call t r hw _ hs _ =>
    have hsame : State.sequencePc { t with worker := r.elim .busy fun _ => .idle } = s.sequencePc :=
      congrArg (·.bind MacroPc.sequencePc) hs.macroPc
    cases hpc : s.sequencePc with
    | none => exact .inl (.inl (hsame.trans hpc))
    | some pc =>
      refine .inr ⟨hsame.trans hpc, fun hup => ?_⟩
      have hflag : call.writes.getD s.macroLoopRunning = true := hs.flag.symm.trans hup
      cases hwrites : call.writes with
      | none => rwa [hwrites] at hflag
      | some v =>
        rw [hwrites] at hflag
        cases hflag
        rcases Call.writes_true hwrites with ⟨code, argv, rfl⟩ | rfl
        · obtain ⟨p, cycle, hm⟩ := State.sequencePc_eq hpc
          rw [macroThread_vacant hreach (.inl hw)] at hm
          cases hm
        · exact absurd rfl (hi.worker _ (State.workerCall_eq hw)).2
  | join _ _ _ => exact .inl (.inl rfl)
  | @spawn _ _ _ p _ _ _ => exact .inl p.start_sequence
  | macroThread _ _ _ => exact absurd rfl (hb _)
  | other _ _ _ hs =>
    refine .inr ⟨congrArg (·.bind MacroPc.sequencePc) hs.macroPc, fun hup => ?_⟩
    rwa [hs.flag] at hup

theorem State.recorderStart_other (hb : ∀ a, b ≠ .macroThread a) :
    s.recorderStart b ≠ some .macroThread := by
  cases b with
  | macroThread a => exact absurd rfl (hb a)
  | worker a =>
    simp only [State.recorderStart]
    split_ifs <;> simp
  | _ => simp [State.recorderStart]

theorem SequencePc.due_mono {up : Bool} (h : up = true → s.macroLoopRunning = true)
    (hd : pc.due up) : pc.due s.macroLoopRunning := by
  cases pc with
  | test rest =>
    cases rest with
    | nil => cases hd
    | cons cmd rest => exact h hd
  | vault | dispatch _ _ => rfl
  | _ => cases hd

/-- Of the other threads, only the step's own recorder sets marks. -/
theorem StepRecord.owns_other (hb : ∀ a, b ≠ .macroThread a) (h : w.owns b) :
    w.recorder ∧ ∃ a, b = .recorder a := by
  cases b with
  | macroThread a => exact absurd rfl (hb a)
  | recorder a => exact ⟨h, a, rfl⟩
  | _ => cases h

/-- A step of another thread. -/
theorem Apart.other_step (hi : Apart s w) (hg : StepsWait (s, w) b)
    (h : step sequences s b = some s') (hb : ∀ a, b ≠ .macroThread a)
    (hs : s'.sequencePc = s.sequencePc)
    (hup : s'.macroLoopRunning = true → s.macroLoopRunning = true) :
    Apart s' (w.track s b s') := by
  have hp := step_performed h
  have hr : s.renews b = false := State.renews_other hb
  refine ⟨StepRecord.entries_step hi.entries hp.effect, fun _ => hi.worker_step hg.outside h,
    fun cmd call hh => hi.handlers cmd call (hs ▸ hh), fun hd => ?_, fun cmd hc => ?_⟩
  · have hdue : s.due := by
      obtain ⟨pc, hpc, hd⟩ := (Option.any_eq_true _ _).mp hd
      exact (Option.any_eq_true _ _).mpr ⟨pc, hs ▸ hpc, SequencePc.due_mono hup hd⟩
    refine (hi.due hdue).step hp hr (State.recorderStart_other hb) (fun howns => ?_)
      fun hw hl => hg.between hw hdue hl
    obtain ⟨hw, a, rfl⟩ := StepRecord.owns_other hb howns
    exact hg.between hw hdue rfl
  · have hof := hi.command cmd (hs ▸ hc)
    refine hof.step hr (fun hstart => absurd hstart (State.recorderStart_other hb))
      fun howns task htask => ?_
    obtain ⟨hw, a, rfl⟩ := StepRecord.owns_other hb howns
    exact .inr ⟨hof.recorder hw, State.recorderOperation_task htask⟩

theorem Apart.step (hi : Apart s w) (hreach : (machine sequences).Reachable s)
    (hg : StepsWait (s, w) b) (h : Dispatch.step sequences s b = some s') :
    Apart s' (w.track s b s') := by
  by_cases hb : ∀ a, b ≠ .macroThread a
  · rcases hi.sequencePc_step hreach h hb with hs | ⟨hs, hup⟩
    · exact hi.of_start hg h hs
    · exact hi.other_step hg h hb hs hup
  · obtain ⟨a, rfl⟩ := by simpa using hb
    cases hm : s.macroThread with
    | none | finished => simp [Dispatch.step, hm] at h
    | running p pc =>
      have hstep := h
      simp only [Dispatch.step, hm] at hstep
      obtain ⟨⟨t, m⟩, ht, heq⟩ := Option.map_eq_some_iff.mp hstep
      cases heq
      have hs : s.sequencePc = pc.sequencePc := by
        rw [State.sequencePc, State.macroPc_eq hm, Option.bind_some]
      obtain ⟨sub, sequence, q, q', hq, hq', hmove⟩ | hout := MacroPc.step_sequence ht
      · exact hi.macro_step (t := t) hg h (hs.trans hq) hq' rfl hmove
      · exact hi.of_start hg h hout

theorem initial_apart : Apart initial ⟨[], false⟩ where
  entries := rfl
  worker _ h := by cases h
  handlers _ _ h := by cases h
  due h := by cases h
  command _ h := by cases h

end Threads

/-! ### The dispatch of the next step -/

/-- What the step under execution has started has left `activeBackgroundTasks_`, and nothing
of it is about to be registered. -/
structure StepOver (p : State × StepRecord) : Prop where
  entries : Registry.mapValues Started.task p.2.entries = p.1.activeBackgroundTasks
  left : ∀ e ∈ p.2.entries, e.2.current = false
  recorder : p.2.recorder → p.1.recorder.hold = none

/-- `executeMacroSequence` dispatches a step when everything the step before it has started is
over, in every run without a `STOP_DAQ` or `RESET_DAQ` from outside and in which the wait loop
misses nothing. -/
theorem steps_apart {sequences : TOFCommandCode → MacroSequence} {p : State × StepRecord}
    {cycle : ℕ} {cmd : TOFCommandCode} {rest : List TOFCommandCode}
    (h : (stepMachine sequences).Reach StepsWait p)
    (hp : p.1.macroPc = some (.sequence cycle (.dispatch cmd rest))) : StepOver p := by
  have hi : (machine sequences).Reachable p.1 ∧ Apart p.1 p.2 :=
    h.invariant_history (I := fun p => (machine sequences).Reachable p.1 ∧ Apart p.1 p.2)
      (fun _ h0 => ⟨.init h0, h0 ▸ initial_apart⟩) fun _ _ _ _ hi hg hs =>
        ⟨.step hi.1 trivial hs, hi.2.step hi.1 hg hs⟩
  have hover := hi.2.due (by rw [State.due, State.sequencePc, hp]; rfl)
  exact ⟨hi.2.entries, hover.entries, hover.recorder⟩

/-- A macro, up to the end of its first step, a `RESET_DAQ` with the stop script `stopPid`. -/
def macroReset (stopPid : Pid) : List Action :=
  .receive macroStage1UnbiasedTdc [] :: List.replicate 5 (.worker done) ++
    List.replicate 6 (.macroThread done) ++ .macroThread { done with pid := some stopPid } ::
    List.replicate 13 (.macroThread done)

/-- The stop script ends in time, and the next step is due. -/
theorem steps_apart_reset :
    ∃ p, (stepMachine macroSequence).Reach StepsWait p ∧
      p.1.macroPc = some (.sequence 0 (.dispatch readTemperatureSensorsSingle
        [acquireTdcCalibration, processTdcCalibration, readTemperatureSensorsSingle])) ∧
      StepOver p := by
  have hend : ((stepMachine macroSequence).runIn StepsWait (initial, ⟨[], false⟩)
      (macroReset 7 ++ .monitor 7 (.exited true) :: List.replicate 3 (.macroThread done))).map
        (fun p => p.1.macroPc) =
      some (some (.sequence 0 (.dispatch readTemperatureSensorsSingle
        [acquireTdcCalibration, processTdcCalibration, readTemperatureSensorsSingle]))) := by decide
  obtain ⟨p, hrun, hp⟩ := Option.map_eq_some_iff.mp hend
  have h0 : (stepMachine macroSequence).init (initial, ⟨[], false⟩) := ⟨rfl, rfl⟩
  have h : (stepMachine macroSequence).Reach StepsWait p := Machine.Reach.runIn (.init h0) hrun
  exact ⟨p, h, hp, steps_apart h hp⟩

/-- After a `RESET_DAQ` the wait loop looks for tasks of `RESET_DAQ`, and the stop script is one of
`STOP_DAQ`. -/
theorem not_steps_apart :
    ¬ ∀ p, (stepMachine macroSequence).Reach (fun _ b => b.outside = false) p →
      ∀ cycle cmd rest, p.1.macroPc = some (.sequence cycle (.dispatch cmd rest)) → StepOver p := by
  intro h
  have hend : ((stepMachine macroSequence).runIn (fun _ b => b.outside = false)
      (initial, ⟨[], false⟩) (macroReset 7 ++ List.replicate 3 (.macroThread done))).map
        (fun p => (p.1.macroPc, p.2.entries)) =
      some (some (.sequence 0 (.dispatch readTemperatureSensorsSingle
        [acquireTdcCalibration, processTdcCalibration, readTemperatureSensorsSingle])),
        [(7, ⟨stopScript, true⟩)]) := by decide
  obtain ⟨p, hrun, hp⟩ := Option.map_eq_some_iff.mp hend
  obtain ⟨hpc, hentries⟩ := Prod.mk.inj hp
  have h0 : (stepMachine macroSequence).init (initial, ⟨[], false⟩) := ⟨rfl, rfl⟩
  have hover := h p (Machine.Reach.runIn (.init h0) hrun) _ _ _ hpc
  have hleft := hover.left (7, ⟨stopScript, true⟩) (by simp [hentries])
  cases hleft

end GramsTof.Dispatch
