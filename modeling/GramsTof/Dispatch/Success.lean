import GramsTof.Dispatch.Calls

/-! What has come about when `executeMacroSequence` returns `true`. -/

namespace GramsTof.Dispatch

open Lib TOFCommandCode

/-- What has come about since the macro thread last entered `executeMacroSequence`, until it left
it. -/
structure Past where
  /-- The steps dispatched, and what `dispatch` returned. -/
  results : List (TOFCommandCode × Bool)
  /-- Started by `executeManagedBackground` for a step, and not ended with exit status 0. -/
  unfinished : List Pid
  /-- A `STOP_DAQ` has cancelled the macro, or ended the processes. -/
  stopped : Bool
  deriving DecidableEq

def Past.empty : Past := ⟨[], [], false⟩

/-- Every step has succeeded, with its process, and there was no `STOP_DAQ`. -/
structure Past.Succeeded (w : Past) (sequence : List TOFCommandCode) : Prop where
  results : w.results = sequence.map (·, true)
  unfinished : w.unfinished = []
  stopped : w.stopped = false

/-! ### What a step adds -/

def SequencePc.dispatched : SequencePc → Option (TOFCommandCode × Bool)
  | returned success cmd _ => some (cmd, success)
  | pulseReturned success _ => some (sendPulseTrain, success)
  | _ => none

/-- At the cancellation, or at the critical section that ends the processes. -/
def StopPc.stops : StopPc → Bool
  | cancel | interrupt _ => true
  | _ => false

def Simple.stops {π : Type} (body : π → Bool) : Simple π → Bool
  | .body pc => body pc
  | .report _ => false

def ResetPc.stops : ResetPc → Bool
  | stop _ pc => pc.stops StopPc.stops
  | _ => false

def Call.stops : Call → Bool
  | stopDaq pc => pc.stops StopPc.stops
  | resetDaq pc => pc.stops ResetPc.stops
  | _ => false

/-- After the entry into `executeMacroSequence`. -/
def MacroPc.within : MacroPc → Option SequencePc
  | sequence _ .arm => none
  | sequence _ pc => some pc
  | _ => none

/-- At the entry into `executeMacroSequence`. -/
def MacroPc.entering : MacroPc → Bool
  | sequence _ .arm => true
  | _ => false

/-- The process that ends with exit status 0. -/
def Action.finishes : Action → Option Pid
  | monitor pid (.exited true) => some pid
  | _ => none

namespace State

def within (s : State) : Option SequencePc := s.macroPc.bind MacroPc.within

/-- A `STOP_DAQ` takes the step, other than that of the macro's own `RESET_DAQ`. -/
def stops (s : State) : Action → Bool
  | .worker _ => s.workerCall.any Call.stops
  | .macroThread _ => s.macroCall.any fun call => call.code = stopDaq && call.stops
  | _ => false

/-- The process that the step starts for a step of the macro. -/
def launches (s : State) (b : Action) : Option Pid :=
  match b, s.operation b with
  | .macroThread _, .fork pid task => if task = stopScript then none else some pid
  | _, _ => none

def dispatched (s : State) : Action → Option (TOFCommandCode × Bool)
  | .macroThread _ => s.within.bind SequencePc.dispatched
  | _ => none

def enters (s : State) : Action → Bool
  | .macroThread _ => s.macroPc.any MacroPc.entering
  | _ => false

end State

def Past.track (s : State) (b : Action) (_ : State) (w : Past) : Past :=
  if s.enters b then .empty
  else if s.within.isSome then {
    results := w.results ++ (s.dispatched b).toList
    unfinished := (s.launches b).toList ++ w.unfinished.filter (some · ≠ b.finishes)
    stopped := w.stopped || s.stops b }
  else w

variable (sequences : TOFCommandCode → MacroSequence)

/-- Some step follows `cmd`, a `SEND_PULSE_TRAIN` that is sent during it apart. -/
def followed (cmd : TOFCommandCode) (rest : List TOFCommandCode) : Bool :=
  rest ≠ [] && !(cmd = acquireSipmData && rest = [sendPulseTrain])

/-- From here the flag is tested again, and not set, before `executeMacroSequence` returns `true`. -/
def SequencePc.aborts (sequence : List TOFCommandCode) : SequencePc → Bool
  | arm | rearm _ => false
  | vaultFailed | failed | returned false _ _ => true
  | vault => sequence ≠ []
  | test rest | pulseTest rest | pulseDispatch rest | pulse rest _ | pulseReturned _ rest
  | wait _ rest | poll _ rest => rest ≠ []
  | dispatch cmd rest | step cmd rest _ | returned true cmd rest => cmd ≠ resetDaq && followed cmd rest

/-- After the step `b` the flag is down, and the macro thread tests it again. -/
def State.abortsAfter (s : State) (b : Action) : Bool :=
  match s.macroThread with
  | .running q (.sequence _ pc) =>
    pc = .arm || pc.aborts q.sequence && (s.writes b).getD s.macroLoopRunning = false
  | _ => true

/-- A process of the macro fails, or its pulse train. -/
def State.fails (s : State) (w : Past) : Action → Bool
  | .monitor pid (.exited false) => pid ∈ w.unfinished
  | .macroThread a => !a.ok && s.within.any fun pc => match pc with
    | .pulse _ (.sendPulseTrain .run) => true
    | _ => false
  | _ => false

/-- No process of a macro that has not been stopped fails, nor its pulse train; a `STOP_DAQ` comes
when the macro still notices it, and nothing sets the flag again; and the processes are told apart
by their numbers. -/
structure Unspoilt (p : State × Past) (b : Action) : Prop where
  fresh : Fresh p.1 b
  fails : p.1.within.isSome → p.2.stopped = false → p.1.fails p.2 b = false
  stops : p.1.stops b = true → p.1.abortsAfter b = true
  keeps : p.1.within.isSome → p.2.stopped = true → p.1.writes b ≠ some true

instance (p : State × Past) (b : Action) : Decidable (Unspoilt p b) :=
  decidable_of_iff (_ ∧ _ ∧ _ ∧ _)
    ⟨fun ⟨h, h', h'', h'''⟩ => ⟨h, h', h'', h'''⟩, fun h => ⟨h.fresh, h.fails, h.stops, h.keeps⟩⟩

/-! ### What carries the argument -/

/-- On its way from the macro thread into the registry, or there. -/
def State.Launched (s : State) (pid : Pid) (task : BackgroundTask) : Prop :=
  s.held .macroThread = some (.forked pid task) ∨ (pid, task) ∈ s.activeBackgroundTasks

namespace SequencePc

/-- A step has failed. -/
def fails : SequencePc → Bool
  | vaultFailed | failed | returned false _ _ => true
  | _ => false

/-- The steps whose results are still to come. -/
def todo (sequence : List TOFCommandCode) : SequencePc → List TOFCommandCode
  | arm | vault => sequence
  | vaultFailed | failed => []
  | test rest | rearm rest | wait _ rest | poll _ rest => rest
  | dispatch cmd rest | step cmd rest _ | returned _ cmd rest => cmd :: rest
  | pulseTest rest | pulseDispatch rest | pulse rest _ | pulseReturned _ rest => sendPulseTrain :: rest

/-- The step whose process may be there. -/
def current : SequencePc → Option TOFCommandCode
  | step cmd _ _ | returned _ cmd _ | wait cmd _ | poll cmd _ => some cmd
  | rearm _ => some resetDaq
  | pulseTest _ | pulseDispatch _ | pulse _ _ | pulseReturned _ _ => some acquireSipmData
  | _ => none

/-- In the macro's own `RESET_DAQ`. -/
def resets : SequencePc → Bool
  | step cmd _ _ | returned _ cmd _ => cmd = resetDaq
  | rearm _ => true
  | _ => false

/-- The handler is that of the step. -/
def Consistent : SequencePc → Prop
  | step cmd _ call => call.code = cmd ∧ call.kind = cmd.kind
  | pulse _ call => ∃ pc, call = .sendPulseTrain pc
  | _ => True

/-- The pulse train succeeds. -/
def PulseGood : SequencePc → Prop
  | pulse _ (.sendPulseTrain (.report _ result)) => result = true
  | pulseReturned success _ => success = true
  | _ => True

/-- At a program point of a macro that has not been stopped. -/
structure Sound (sequence : List TOFCommandCode) (s : State) (w : Past) (pc : SequencePc) : Prop where
  flag : pc.resets = false → s.macroLoopRunning = true
  results : w.results ++ (pc.todo sequence).map (·, true) = sequence.map (·, true)
  processes : ∀ pid ∈ w.unfinished, ∃ cmd, pc.current = some cmd ∧ cmd.kind = .background ∧
    s.Launched pid ⟨cmd, true⟩
  pulse : pc.PulseGood

/-- At any program point after the entry. -/
structure Fits (sequence : List TOFCommandCode) (s : State) (w : Past) (pc : SequencePc) : Prop where
  consistent : pc.Consistent
  stopped : w.stopped = true → s.macroLoopRunning = false ∧ pc.aborts sequence = true
  sound : w.stopped = false → pc.fails = false → pc.Sound sequence s w

end SequencePc

/-- At a program point of the macro thread. -/
def MacroPc.Fits (q : Program) (s : State) (w : Past) : MacroPc → Prop
  | sequence _ pc => pc ≠ .arm → pc.Fits q.sequence s w
  | clear success | notify success => q.cycles = none → success = true → w.Succeeded q.sequence
  | loopArm | loopTest _ | loopBreak => q.cycles ≠ none

structure Attested (p : State × Past) : Prop where
  custody : Custody p.1
  fits : ∀ q pc, p.1.macroThread = .running q pc → pc.Fits q p.1 p.2

section Steps

variable {sequences} {s s' : State} {w : Past} {b : Action} {a : Answer} {q : Program}
  {sequence rest : List TOFCommandCode} {cmd : TOFCommandCode} {pc pc' : SequencePc} {call : Call}
  {pid : Pid} {task : BackgroundTask}

/-- A process of the macro stays with it until the monitor waits for it or a `STOP_DAQ` ends it. -/
theorem State.Launched.kept (hc : Custody s) (hp : Performed b s s') (ht : task ≠ stopScript)
    (h : s.Launched pid task) :
    s'.Launched pid task ∨ (∃ stopPid, s.operation b = .interrupt stopPid) ∨
      ∃ success, s.operation b = .reap pid (.exited success) := by
  have htasks := hp.effect.tasks
  rcases h with hheld | hmem
  · rcases hp.forked_kept hheld with hheld' | ho
    · exact .inl (.inl hheld')
    · refine .inl (.inr ?_)
      rw [htasks, ho]
      exact List.mem_cons_self
  · by_cases hkeep : (s.operation b).keeps pid = true
    · refine .inl (.inr ?_)
      rw [htasks]
      exact Operation.mem_registry.mpr (.inl ⟨hmem, hkeep⟩)
    · cases ho : s.operation b with
      | idle | report _ _ | fork _ _ | forkWorker _ | waitAny _ =>
        rw [ho] at hkeep
        exact absurd rfl hkeep
      | interrupt stopPid => exact .inr (.inl ⟨stopPid, rfl⟩)
      | register p t =>
        have hpid : pid = p := by simpa [ho, Operation.keeps] using hkeep
        subst hpid
        have hreg : pid ∈ s.registered := Registry.mem_keys_of_mem hmem
        obtain ⟨l, -, -, ⟨hl, -⟩ | ⟨-, -, ho'⟩⟩ := hp.added_held (by rw [ho]; rfl)
        · exact absurd hreg (hc.forked l pid t hl).2
        · rw [ho] at ho'
          cases ho'
      | reap p wait =>
        have hpid : pid = p := by simpa [ho, Operation.keeps] using hkeep
        subst hpid
        cases wait with
        | exited success => exact .inr (.inr ⟨success, rfl⟩)
        | error =>
          have hen := hp.effect.enabled
          rw [ho] at hen
          exact absurd (hc.alive pid task hmem ht) (hen.2.mp rfl).1

theorem Simple.stops_of {π : Type} {code : TOFCommandCode} {op : π → Operation} {body : π → Bool}
    {sp : Simple π} {stopPid : Option Pid} (hbody : ∀ q, op q = .interrupt stopPid → body q = true)
    (h : sp.operation code op = .interrupt stopPid) : sp.stops body = true := by
  cases sp with
  | body q => exact hbody q h
  | report _ => cases h

theorem StopPc.stops_of_interrupt {pc : StopPc} {stopPid : Option Pid}
    (h : pc.operation a = .interrupt stopPid) : pc.stops = true := by
  cases pc with
  | interrupt _ => rfl
  | fork =>
    simp only [StopPc.operation] at h
    split_ifs at h
    cases hpid : a.pid <;> rw [hpid] at h <;> cases h
  | _ => cases h

theorem Call.stops_of_interrupt {stopPid : Option Pid} (h : call.operation a = .interrupt stopPid) :
    call.stops = true := by
  cases call with
  | stopDaq pc => exact Simple.stops_of (fun _ => StopPc.stops_of_interrupt) h
  | resetDaq pc =>
    refine Simple.stops_of (fun pc h => ?_) h
    cases pc with
    | stop _ pc => exact Simple.stops_of (fun _ => StopPc.stops_of_interrupt) h
    | start _ pc => cases pc <;> cases h
    | save | restore _ => cases h
  | startDaq pc => cases pc <;> cases h
  | simple code pc =>
    cases pc with
    | report _ => cases h
    | body pc =>
      simp only [Call.operation, Simple.operation, BodyPc.operation] at h
      split at h <;> cases h
  | background code pc =>
    cases pc with
    | register _ => cases h
    | fork =>
      simp only [Call.operation, BackgroundPc.operation] at h
      cases hpid : a.pid <;> rw [hpid] at h <;> cases h
  | sendPulseTrain pc | macroCommand _ _ pc => cases pc <;> cases h
  | startAsicTempRecord | stopAsicTempRecord _ | heartBeat => cases h

theorem Call.stops_of_writes (h : call.writes = some false) : call.stops = true := by
  cases call with
  | stopDaq pc =>
    cases pc with
    | report _ => cases h
    | body pc =>
      cases pc with
      | cancel => rfl
      | _ => cases h
  | resetDaq pc =>
    cases pc with
    | report _ => cases h
    | body pc =>
      cases pc with
      | save | start _ _ => cases h
      | restore was => cases was <;> cases h
      | stop _ pc =>
        cases pc with
        | report _ => cases h
        | body pc =>
          cases pc with
          | cancel => rfl
          | _ => cases h
  | macroCommand _ _ pc => cases pc <;> cases h
  | _ => cases h

theorem Call.code_of_stops (h : call.stops = true) : call.code = .stopDaq ∨ call.code = .resetDaq := by
  cases call with
  | stopDaq _ => exact .inl rfl
  | resetDaq _ => exact .inr rfl
  | _ => cases h

/-- Outside the macro thread, whoever ends the processes or lowers the flag is a `STOP_DAQ`. -/
theorem State.stops_of (hb : ∀ a, b ≠ .macroThread a) :
    (∀ stopPid, s.operation b = .interrupt stopPid → s.stops b = true) ∧
      (s.writes b = some false → s.stops b = true) := by
  cases b with
  | macroThread a => exact absurd rfl (hb a)
  | worker a =>
    rw [State.stops, State.operation, State.writes]
    cases s.workerCall with
    | none => exact ⟨fun _ h => (by cases h), fun h => (by cases h)⟩
    | some call => exact ⟨fun _ h => Call.stops_of_interrupt h, fun h => Call.stops_of_writes h⟩
  | recorder a =>
    refine ⟨fun stopPid h => ?_, fun h => (by cases h)⟩
    simp only [State.operation, State.recorderOperation] at h
    split at h
    · split_ifs at h
      cases hpid : a.pid <;> rw [hpid] at h <;> cases h
    · cases h
    · cases h
  | receive _ _ | monitor _ _ | daq => exact ⟨fun _ h => (by cases h), fun h => (by cases h)⟩

/-- Only the monitor waits for a process by its number. -/
theorem Performed.monitor_of_reap {wait : Wait} (hp : Performed b s s')
    (ho : s.operation b = .reap pid wait) : b = .monitor pid wait := by
  have hnone {l : Launcher} (hl : b.launcher = some l) : False := by
    have hh := hp.hands l hl
    rw [ho] at hh
    generalize s.held l = before, s'.held l = after at hh
    cases hh
  cases b with
  | monitor _ _ => cases ho; rfl
  | worker _ => exact (hnone (l := .worker) rfl).elim
  | macroThread _ => exact (hnone (l := .macroThread) rfl).elim
  | recorder _ => exact (hnone (l := .recorder) rfl).elim
  | receive _ _ | daq => cases ho

theorem State.within_eq {cycle : ℕ} (hm : s.macroThread = .running q (.sequence cycle pc))
    (hpc : pc ≠ .arm) : s.within = some pc := by
  rw [State.within, State.macroPc_eq hm]
  cases pc <;> first | rfl | exact absurd rfl hpc

/-- A step of another thread leaves the macro thread where it was. -/
theorem SequencePc.Fits.other {cycle : ℕ} (hi : pc.Fits q.sequence s w) (hc : Custody s)
    (hg : Unspoilt (s, w) b) (hm : s.macroThread = .running q (.sequence cycle pc))
    (hpc : pc ≠ .arm) (hb : ∀ a, b ≠ .macroThread a) (hp : Performed b s s')
    (hflag : s'.macroLoopRunning = (s.writes b).getD s.macroLoopRunning) :
    pc.Fits q.sequence s' (w.track s b s') := by
  have hin : s.within = some pc := State.within_eq hm hpc
  have htrack : w.track s b s' = ⟨w.results, w.unfinished.filter (some · ≠ b.finishes),
      w.stopped || s.stops b⟩ := by
    have henters : s.enters b = false := by
      cases b <;> first | rfl | exact absurd rfl (hb _)
    have hnone : s.dispatched b = none ∧ s.launches b = none := by
      cases b <;> first | exact ⟨rfl, rfl⟩ | exact absurd rfl (hb _)
    simp [Past.track, henters, hin, hnone.1, hnone.2]
  rw [htrack]
  refine ⟨hi.consistent, fun hstopped => ?_, fun hstopped hfails => ?_⟩
  · cases hbefore : w.stopped with
    | true =>
      obtain ⟨hdown, haborts⟩ := hi.stopped hbefore
      have hkeeps : s.writes b ≠ some true := hg.keeps (by rw [hin]; rfl) hbefore
      refine ⟨?_, haborts⟩
      cases hwrites : s.writes b with
      | none => rw [hflag, hwrites]; exact hdown
      | some v =>
        cases v with
        | true => exact absurd hwrites hkeeps
        | false => rw [hflag, hwrites]; rfl
    | false =>
      have hstops : s.stops b = true := by simpa [hbefore] using hstopped
      have hafter := hg.stops hstops
      simp only [State.abortsAfter, hm, Bool.or_eq_true, decide_eq_true_eq, hpc, false_or,
        Bool.and_eq_true] at hafter
      exact ⟨hflag.trans hafter.2, hafter.1⟩
  · obtain ⟨hbefore, hstops⟩ := Bool.or_eq_false_iff.mp hstopped
    have hs := hi.sound hbefore hfails
    obtain ⟨hinterrupt, hlowers⟩ := State.stops_of (s := s) hb
    refine ⟨fun hreset => ?_, hs.results, fun pid hpid => ?_, hs.pulse⟩
    · cases hwrites : s.writes b with
      | none => rw [hflag, hwrites]; exact hs.flag hreset
      | some v =>
        cases v with
        | true => rw [hflag, hwrites]; rfl
        | false => exact absurd (hstops.symm.trans (hlowers hwrites)) Bool.false_ne_true
    · obtain ⟨hmem, hends⟩ := List.mem_filter.mp hpid
      obtain ⟨cmd, hcmd, hkind, hl⟩ := hs.processes pid hmem
      have htask : (⟨cmd, true⟩ : BackgroundTask) ≠ stopScript := by
        rintro ⟨⟩
        cases hkind
      refine ⟨cmd, hcmd, hkind, ?_⟩
      rcases hl.kept hc hp htask with hl | ⟨stopPid, ho⟩ | ⟨success, ho⟩
      · exact hl
      · exact absurd (hstops.symm.trans (hinterrupt stopPid ho)) Bool.false_ne_true
      · obtain rfl := hp.monitor_of_reap ho
        cases success with
        | true => simp [Action.finishes] at hends
        | false =>
          have hfine : s.fails w (.monitor pid (.exited false)) = false :=
            hg.fails (by rw [hin]; rfl) hbefore
          simp [State.fails, hmem] at hfine

/-! ### The macro thread's own steps -/

theorem SequencePc.aborts_step {r : Progress Call}
    (h : (SequencePc.step cmd rest call).aborts sequence = true) :
    (r.elim (SequencePc.step cmd rest ·) (.returned · cmd rest)).aborts sequence = true := by
  rcases r with call' | _ | _
  · exact h
  · rfl
  · exact h

/-- A cancelled macro stays where it tests the flag again. -/
theorem SequenceMove.aborts {sub : String} {t : State} (hdown : s.macroLoopRunning = false)
    (h : SequenceMove sequences sub sequence a s pc t (.next pc'))
    (ha : pc.aborts sequence = true) : pc'.aborts sequence = true := by
  generalize hr : Progress.next pc' = r at h
  cases h with
  | arm | rearm => cases ha
  | reset => simp [SequencePc.aborts] at ha
  | vaultFailed | finish | abort _ | failed => cases hr
  | vaultNone _ | vault _ => cases hr; exact ha
  | vaultError _ | unknown _ | fail => cases hr; rfl
  | go hup | pulseGo hup | waitOn hup => exact absurd (hdown.symm.trans hup) Bool.false_ne_true
  | call _ => cases hr; exact ha
  | step _ => cases hr; exact SequencePc.aborts_step ha
  | @pulse _ _ _ r _ => cases hr; cases r <;> exact ha
  | pulseDue | succeed _ _ =>
    cases hr
    simp only [SequencePc.aborts, followed, Bool.and_eq_true, decide_eq_true_eq] at ha ⊢
    grind
  | pulseSkip _ | pulseDispatch | pulseReturned | waitStop _ | pollAgain _ | pollDone _ =>
    cases hr
    exact ha

theorem SequenceMove.consistent {sub : String} {t : State}
    (h : SequenceMove sequences sub sequence a s pc t (.next pc')) (hc : pc.Consistent) :
    pc'.Consistent := by
  generalize hr : Progress.next pc' = r at h
  cases h with
  | call hcall =>
    cases hr
    obtain ⟨hcode, hkind⟩ := handler_code hcall
    exact ⟨hcode, hkind⟩
  | @step _ _ _ _ r hcall =>
    cases hr
    cases r with
    | ret v => trivial
    | next call' =>
      obtain ⟨hcode, hkind⟩ := Call.step_code hcall
      exact ⟨hcode.trans hc.1, hkind.trans hc.2⟩
  | @pulse _ _ _ r hcall =>
    cases hr
    cases r with
    | ret v => trivial
    | next call' =>
      obtain ⟨pc, rfl⟩ := hc
      cases Call.step_continues hcall
      exact ⟨_, rfl⟩
  | pulseDispatch => cases hr; exact ⟨_, rfl⟩
  | vaultFailed | finish | abort _ | failed => cases hr
  | _ => cases hr; trivial

theorem State.stops_macroThread {cycle : ℕ} (hm : s.macroThread = .running q (.sequence cycle pc)) :
    s.stops (.macroThread a) =
      (MacroPc.sequence cycle pc).call.any fun call => call.code = stopDaq && call.stops := by
  rw [State.stops, State.macroCall, State.macroPc_eq hm]
  rfl

/-- At a `STOP_DAQ` of the macro itself. -/
theorem SequencePc.Consistent.of_stops {cycle : ℕ} (hc : pc.Consistent)
    (h : (MacroPc.sequence cycle pc).call = some call) (hs : call.stops = true) :
    ∃ rest, pc = .step call.code rest call ∧ call.kind = call.code.kind ∧
      (call.code = .stopDaq ∨ call.code = .resetDaq) := by
  cases pc with
  | step cmd rest call' =>
    cases h
    obtain ⟨rfl, hkind⟩ := hc
    exact ⟨rest, rfl, hkind, Call.code_of_stops hs⟩
  | pulse rest call' =>
    cases h
    obtain ⟨pc, rfl⟩ := hc
    cases hs
  | _ => cases h

theorem SequencePc.Sound.kept {cycle : ℕ} (hs : pc.Sound sequence s w) (hcons : pc.Consistent)
    (hc : Custody s) (hm : s.macroThread = .running q (.sequence cycle pc))
    (hp : Performed (.macroThread a) s s') (hpid : pid ∈ w.unfinished) :
    ∃ cmd, pc.current = some cmd ∧ cmd.kind = .background ∧ s'.Launched pid ⟨cmd, true⟩ := by
  obtain ⟨cmd, hcmd, hkind, hl⟩ := hs.processes pid hpid
  have htask : (⟨cmd, true⟩ : BackgroundTask) ≠ stopScript := by
    rintro ⟨⟩
    cases hkind
  refine ⟨cmd, hcmd, hkind, ?_⟩
  rcases hl.kept hc hp htask with hl | ⟨stopPid, ho⟩ | ⟨success, ho⟩
  · exact hl
  · have hop : (MacroPc.sequence cycle pc).operation a = .interrupt stopPid := by
      rw [← ho, State.operation, hm]
      rfl
    cases hcall : (MacroPc.sequence cycle pc).call with
    | none => rw [MacroPc.operation, hcall] at hop; cases hop
    | some call =>
      rw [MacroPc.operation, hcall] at hop
      obtain ⟨rest, rfl, -, hcode⟩ := hcons.of_stops hcall (Call.stops_of_interrupt hop)
      cases hcmd
      rcases hcode with hcode | hcode <;> rw [hcode] at hkind <;> cases hkind
  · cases hp.monitor_of_reap ho

/-- What a step of the macro thread starts is the process of the step of the sequence. -/
theorem SequencePc.launched {cycle : ℕ} (hcons : pc.Consistent)
    (hm : s.macroThread = .running q (.sequence cycle pc)) (hp : Performed (.macroThread a) s s')
    (h : s.launches (.macroThread a) = some pid) :
    ∃ cmd rest call, pc = .step cmd rest call ∧ cmd.kind = .background ∧
      s'.Launched pid ⟨cmd, true⟩ := by
  have hop : s.operation (.macroThread a) = (MacroThread.running q (.sequence cycle pc)).operation a := by
    rw [State.operation, hm]
  unfold State.launches at h
  split at h
  · rename_i b a' p task hb ho
    split_ifs at h with htask
    cases h
    have hcall : (MacroPc.sequence cycle pc).operation a = .fork pid task := hop.symm.trans ho
    have hheld : s'.held .macroThread = some (.forked pid task) := by
      have hh := hp.hands .macroThread rfl
      rw [ho] at hh
      generalize s.held .macroThread = before at hh
      generalize hafter : s'.held .macroThread = after at hh
      cases hh
      rfl
    cases pc with
    | step cmd rest call =>
      obtain ⟨rfl, hkind⟩ := hcons
      have hstarts : (call.operation a).task = some task := by
        rw [show call.operation a = .fork pid task from hcall]
        rfl
      rcases Call.operation_task hstarts with ⟨hk, rfl⟩ | ⟨-, hscript⟩
      · exact ⟨_, rest, call, rfl, hkind ▸ hk, .inl hheld⟩
      · exact absurd hscript htask
    | pulse rest call =>
      obtain ⟨pc, rfl⟩ := hcons
      cases pc <;> cases hcall
    | _ => cases hcall
  · cases h

theorem SequenceMove.sound {sub : String} {cycle : ℕ} {t : State} (hs : pc.Sound sequence s w)
    (hcons : pc.Consistent) (hc : Custody s) (hg : s.fails w (.macroThread a) = false)
    (hm : s.macroThread = .running q (.sequence cycle pc)) (hpc : pc ≠ .arm)
    (h : SequenceMove sequences sub sequence a s pc t (.next pc'))
    (hp : Performed (.macroThread a) s s') (hstops : s.stops (.macroThread a) = false)
    (hflag : s'.macroLoopRunning = ((MacroPc.sequence cycle pc).writes).getD s.macroLoopRunning)
    (hfails : pc'.fails = false) :
    pc'.Sound sequence s' ⟨w.results ++ pc.dispatched.toList,
      (s.launches (.macroThread a)).toList ++ w.unfinished, false⟩ := by
  have hkept (pid : Pid) (hpid : pid ∈ w.unfinished) := hs.kept hcons hc hm hp hpid
  have hstay (hcur : ∀ cmd, pc.current = some cmd → pc'.current = some cmd)
      (hpc : ∀ cmd rest call, pc ≠ .step cmd rest call) :
      ∀ pid ∈ (s.launches (.macroThread a)).toList ++ w.unfinished, ∃ cmd, pc'.current = some cmd ∧
        cmd.kind = .background ∧ s'.Launched pid ⟨cmd, true⟩ := by
    cases hl : s.launches (.macroThread a) with
    | some pid =>
      obtain ⟨cmd, rest, call, hstep, -⟩ := SequencePc.launched hcons hm hp hl
      exact absurd hstep (hpc cmd rest call)
    | none =>
      intro pid hpid
      obtain ⟨cmd, hcmd, hk⟩ := hkept pid hpid
      exact ⟨cmd, hcur cmd hcmd, hk⟩
  generalize hr : Progress.next pc' = r at h
  cases h with
  | vaultFailed | finish | abort _ | failed => cases hr
  | arm => exact absurd rfl hpc
  | vaultError _ | unknown _ | fail => cases hr; cases hfails
  | vaultNone _ | vault _ | go _ | call _ =>
    cases hr
    refine ⟨fun _ => hflag.trans (hs.flag rfl), ?_, hstay ?_ ?_, trivial⟩
    · simpa [SequencePc.dispatched, SequencePc.todo] using hs.results
    · rintro _ ⟨⟩
    · rintro _ _ _ ⟨⟩
  | @step cmd rest call t r hcall =>
    have hr' : pc' = r.elim (SequencePc.step cmd rest ·) (.returned · cmd rest) := Progress.next.inj hr
    have hsame : pc'.todo sequence = cmd :: rest ∧ pc'.current = some cmd ∧
        pc'.resets = decide (cmd = resetDaq) ∧ pc'.PulseGood := by
      rw [hr']
      cases r <;> exact ⟨rfl, rfl, rfl, trivial⟩
    obtain ⟨htodo, hcurrent, hresets, hpulse⟩ := hsame
    refine ⟨fun hreset => ?_, ?_, fun p hpid => ?_, hpulse⟩
    · rw [hresets] at hreset
      have hup := hs.flag hreset
      have hown : s'.macroLoopRunning = call.writes.getD s.macroLoopRunning := hflag
      cases hwrites : call.writes with
      | none => rw [hown, hwrites]; exact hup
      | some v =>
        cases v with
        | true => rw [hown, hwrites]; rfl
        | false =>
          have hcall := Call.stops_of_writes hwrites
          rw [State.stops_macroThread hm] at hstops
          rcases Call.code_of_stops hcall with hcode | hcode
          · simp [MacroPc.call, hcode, hcall] at hstops
          · exact absurd (hcons.1.symm.trans hcode) (of_decide_eq_false hreset)
    · rw [htodo]
      simpa [SequencePc.dispatched, SequencePc.todo] using hs.results
    · rw [hcurrent]
      rcases List.mem_append.mp hpid with hnew | hold
      · obtain ⟨cmd', rest', call', heq, hk⟩ :=
          SequencePc.launched hcons hm hp (Option.mem_toList.mp hnew)
        cases heq
        exact ⟨cmd, rfl, hk⟩
      · exact hkept p hold
  | reset =>
    cases hr
    refine ⟨?_, ?_, hstay ?_ ?_, trivial⟩
    · rintro ⟨⟩
    · simpa [SequencePc.dispatched, SequencePc.todo] using hs.results
    · rintro _ ⟨⟩
      rfl
    · rintro _ _ _ ⟨⟩
  | pulseDue =>
    cases hr
    refine ⟨fun _ => hflag.trans (hs.flag rfl), ?_, hstay ?_ ?_, trivial⟩
    · simpa [SequencePc.dispatched, SequencePc.todo] using hs.results
    · rintro _ ⟨⟩
      rfl
    · rintro _ _ _ ⟨⟩
  | succeed hreset _ =>
    cases hr
    refine ⟨fun _ => hflag.trans (hs.flag (decide_eq_false hreset)), ?_, hstay ?_ ?_, trivial⟩
    · simpa [SequencePc.dispatched, SequencePc.todo] using hs.results
    · rintro _ ⟨⟩
      rfl
    · rintro _ _ _ ⟨⟩
  | rearm =>
    cases hr
    refine ⟨fun _ => hflag, ?_, hstay ?_ ?_, trivial⟩
    · simpa [SequencePc.dispatched, SequencePc.todo] using hs.results
    · rintro _ ⟨⟩
      rfl
    · rintro _ _ _ ⟨⟩
  | pulseGo _ | pulseDispatch | waitOn _ | pollAgain _ =>
    cases hr
    refine ⟨fun _ => hflag.trans (hs.flag rfl), ?_, hstay ?_ ?_, trivial⟩
    · simpa [SequencePc.dispatched, SequencePc.todo] using hs.results
    · rintro _ ⟨⟩
      rfl
    · rintro _ _ _ ⟨⟩
  | pulseSkip hdown | waitStop hdown =>
    exact absurd (hdown.symm.trans (hs.flag rfl)) Bool.false_ne_true
  | @pulse rest call t r hcall =>
    have hr' : pc' = r.elim (SequencePc.pulse rest ·) (.pulseReturned · rest) := Progress.next.inj hr
    obtain ⟨pulse, rfl⟩ := hcons
    have hsame : pc'.todo sequence = sendPulseTrain :: rest ∧ pc'.current = some acquireSipmData := by
      rw [hr']
      cases r <;> exact ⟨rfl, rfl⟩
    obtain ⟨htodo, hcurrent⟩ := hsame
    refine ⟨fun _ => hflag.trans (hs.flag rfl), ?_, hstay ?_ ?_, ?_⟩
    · rw [htodo]
      simpa [SequencePc.dispatched, SequencePc.todo] using hs.results
    · rintro _ ⟨⟩
      exact hcurrent
    · rintro _ _ _ ⟨⟩
    · rw [hr']
      obtain ⟨⟨u, r'⟩, hu, heq⟩ := Option.map_eq_some_iff.mp hcall
      cases heq
      cases pulse with
      | access =>
        cases hu
        cases hok : a.ok <;> simp [Progress.map, Progress.elim, SequencePc.PulseGood]
      | run =>
        cases hu
        have hok : a.ok = true := by
          simpa [State.fails, State.within_eq hm hpc] using hg
        simp [Progress.map, Progress.elim, SequencePc.PulseGood, hok]
      | report value result =>
        cases hu
        exact hs.pulse
  | @pulseReturned success rest =>
    cases hr
    have hgood : success = true := hs.pulse
    subst hgood
    refine ⟨fun _ => hflag.trans (hs.flag rfl), ?_, hstay ?_ ?_, trivial⟩
    · simpa [SequencePc.dispatched, SequencePc.todo] using hs.results
    · rintro _ ⟨⟩
      rfl
    · rintro _ _ _ ⟨⟩
  | @pollDone cmd rest hdone =>
    cases hr
    have hempty (p : Pid) (hpid : p ∈ w.unfinished) : False := by
      obtain ⟨cmd', hcmd, -, hheld | hmem⟩ := hs.processes p hpid
      · rw [State.held_macroThread hm] at hheld
        cases hheld
      · cases hcmd
        have hrunning : s.isRunning cmd = true :=
          List.any_eq_true.mpr ⟨_, hmem, decide_eq_true rfl⟩
        exact Bool.false_ne_true (hdone.symm.trans hrunning)
    refine ⟨fun _ => hflag.trans (hs.flag rfl), ?_, fun p hpid => ?_, trivial⟩
    · simpa [SequencePc.dispatched, SequencePc.todo] using hs.results
    · rcases List.mem_append.mp hpid with hnew | hold
      · obtain ⟨cmd', rest', call', heq, -⟩ :=
          SequencePc.launched hcons hm hp (Option.mem_toList.mp hnew)
        cases heq
      · exact (hempty p hold).elim

theorem Past.track_macroThread {cycle : ℕ}
    (hm : s.macroThread = .running q (.sequence cycle pc)) (hpc : pc ≠ .arm) :
    w.track s (.macroThread a) s' = ⟨w.results ++ pc.dispatched.toList,
      (s.launches (.macroThread a)).toList ++ w.unfinished, w.stopped || s.stops (.macroThread a)⟩ := by
  have hin : s.within = some pc := State.within_eq hm hpc
  have henters : s.enters (.macroThread a) = false := by
    rw [State.enters, State.macroPc_eq hm]
    cases pc <;> first | rfl | exact absurd rfl hpc
  simp [Past.track, henters, hin, State.dispatched, Action.finishes]

theorem SequencePc.Fits.move {cycle : ℕ} {sub : String} {t : State} (hi : pc.Fits q.sequence s w)
    (hc : Custody s) (hg : Unspoilt (s, w) (.macroThread a))
    (hm : s.macroThread = .running q (.sequence cycle pc)) (hpc : pc ≠ .arm)
    (h : SequenceMove sequences sub q.sequence a s pc t (.next pc'))
    (hp : Performed (.macroThread a) s s')
    (hflag : s'.macroLoopRunning = ((MacroPc.sequence cycle pc).writes).getD s.macroLoopRunning) :
    pc'.Fits q.sequence s' (w.track s (.macroThread a) s') := by
  have hin : s.within = some pc := State.within_eq hm hpc
  have hwrites : s.writes (.macroThread a) = (MacroPc.sequence cycle pc).writes := by
    rw [State.writes, State.macroPc_eq hm]
    rfl
  rw [Past.track_macroThread hm hpc]
  refine ⟨h.consistent hi.consistent, fun hstopped => ?_, fun hstopped hfails => ?_⟩
  · cases hbefore : w.stopped with
    | true =>
      obtain ⟨hdown, haborts⟩ := hi.stopped hbefore
      have hkeeps : s.writes (.macroThread a) ≠ some true := hg.keeps (by rw [hin]; rfl) hbefore
      rw [hwrites] at hkeeps
      refine ⟨?_, h.aborts hdown haborts⟩
      cases hw : (MacroPc.sequence cycle pc).writes with
      | none => rw [hflag, hw]; exact hdown
      | some v =>
        cases v with
        | true => exact absurd hw hkeeps
        | false => rw [hflag, hw]; rfl
    | false =>
      have hstops : s.stops (.macroThread a) = true := by simpa [hbefore] using hstopped
      have hafter := hg.stops hstops
      simp only [State.abortsAfter, hm, Bool.or_eq_true, decide_eq_true_eq, hpc, false_or,
        Bool.and_eq_true] at hafter
      refine ⟨hflag.trans (hwrites ▸ hafter.2), ?_⟩
      rw [State.stops_macroThread hm] at hstops
      obtain ⟨call, hcall, hboth⟩ := Option.any_eq_true _ _ |>.mp hstops
      obtain ⟨rest, rfl, -, -⟩ := hi.consistent.of_stops hcall (Bool.and_eq_true _ _ |>.mp hboth).2
      generalize hr : Progress.next pc' = r at h
      cases h
      cases hr
      exact SequencePc.aborts_step hafter.1
  · obtain ⟨hbefore, hstops⟩ := Bool.or_eq_false_iff.mp hstopped
    have hfine : s.fails w (.macroThread a) = false := hg.fails (by rw [hin]; rfl) hbefore
    have hrunning : pc.fails = false := by
      generalize hr : Progress.next pc' = r at h
      cases h with
      | fail => cases hr; cases hfails
      | vaultFailed | failed => cases hr
      | _ => rfl
    have hs := (hi.sound hbefore hrunning)
    rw [hbefore, hstops]
    exact h.sound hs hi.consistent hc hfine hm hpc hp hstops hflag hfails

/-- At the end of the sequence everything has succeeded. -/
theorem SequencePc.Fits.succeeded (hi : (SequencePc.test []).Fits sequence s w) : w.Succeeded sequence := by
  have hstopped : w.stopped = false := by
    by_contra hstopped
    have haborts := (hi.stopped (eq_true_of_ne_false hstopped)).2
    simp [SequencePc.aborts] at haborts
  have hs := hi.sound hstopped rfl
  refine ⟨by simpa [SequencePc.todo] using hs.results, ?_, hstopped⟩
  refine List.eq_nil_iff_forall_not_mem.mpr fun pid hpid => ?_
  obtain ⟨cmd, hcmd, -⟩ := hs.processes pid hpid
  cases hcmd

theorem Past.track_outside (hin : s.within = none) (henters : s.enters b = false) :
    w.track s b s' = w := by
  simp [Past.track, hin, henters]

theorem MacroPc.Fits.other {pc : MacroPc} (hi : pc.Fits q s w) (hc : Custody s)
    (hg : Unspoilt (s, w) b) (hm : s.macroThread = .running q pc) (hb : ∀ a, b ≠ .macroThread a)
    (hp : Performed b s s') (hflag : s'.macroLoopRunning = (s.writes b).getD s.macroLoopRunning) :
    pc.Fits q s' (w.track s b s') := by
  have hsame (hin : pc.within = none) : w.track s b s' = w := by
    refine Past.track_outside ?_ ?_
    · rw [State.within, State.macroPc_eq hm]
      exact hin
    · cases b <;> first | rfl | exact absurd rfl (hb _)
  cases pc with
  | sequence cycle pc => exact fun hpc => (hi hpc).other hc hg hm hpc hb hp hflag
  | clear success | notify success =>
    rw [hsame rfl]
    exact hi
  | loopArm | loopTest _ | loopBreak => exact hi

theorem MacroPc.Fits.afterSequence {success : Bool} {cycle : ℕ}
    (h : success = true → w.Succeeded q.sequence) : (q.afterSequence cycle success).Fits q s w := by
  obtain ⟨-, hp⟩ | ⟨hloop, -, hp⟩ | ⟨hloop, hp⟩ := q.afterSequence_cases cycle success <;> rw [hp]
  · exact fun _ => h
  · exact hloop
  · exact hloop

theorem MacroPc.Fits.move {q' : Program} {pc pc' : MacroPc} {t : State} (hi : pc.Fits q s w)
    (hc : Custody s) (hg : Unspoilt (s, w) (.macroThread a)) (hm : s.macroThread = .running q pc)
    (h : pc.step sequences q a s = some (t, .running q' pc')) (hp : Performed (.macroThread a) s s')
    (hflag : s'.macroLoopRunning = pc.writes.getD s.macroLoopRunning) :
    pc'.Fits q' s' (w.track s (.macroThread a) s') := by
  have hsame (hin : pc.within = none) (henters : pc.entering = false) :
      w.track s (.macroThread a) s' = w := by
    refine Past.track_outside ?_ ?_
    · rw [State.within, State.macroPc_eq hm]
      exact hin
    · rw [State.enters, State.macroPc_eq hm]
      exact henters
  cases pc with
  | loopArm => cases h; exact hi
  | loopTest cycle =>
    simp only [MacroPc.step] at h
    split_ifs at h <;> cases h
    · exact fun hne => absurd rfl hne
    · exact fun hnone => absurd hnone hi
  | loopBreak => cases h; exact fun hnone => absurd hnone hi
  | clear success =>
    cases h
    rw [hsame rfl rfl]
    exact hi
  | notify success => cases h
  | sequence cycle pc =>
    obtain ⟨⟨u, r⟩, hu, heq⟩ := Option.map_eq_some_iff.mp h
    cases heq
    by_cases hpc : pc = .arm
    · subst hpc
      cases hu
      have htrack : w.track s (.macroThread a) s' = .empty := by
        rw [Past.track, State.enters, State.macroPc_eq hm]
        rfl
      intro _
      rw [htrack]
      refine ⟨trivial, fun hstopped => ?_, fun _ _ => ⟨fun _ => hflag, rfl, fun p hpid => ?_, trivial⟩⟩
      · cases hstopped
      · cases hpid
    · have hmove := SequencePc.stepIn_move hu
      cases r with
      | next pc' => exact fun _ => (hi hpc).move hc hg hm hpc hmove hp hflag
      | ret success =>
        refine MacroPc.Fits.afterSequence fun hs => ?_
        subst hs
        cases hmove
        have hnone : s.launches (.macroThread a) = none ∧ s.stops (.macroThread a) = false := by
          refine ⟨?_, State.stops_macroThread hm⟩
          simp [State.launches, State.operation, hm, MacroThread.operation, MacroPc.call]
        rw [Past.track_macroThread hm hpc, hnone.1, hnone.2]
        simpa [SequencePc.dispatched] using (hi hpc).succeeded

theorem Program.start_fits : q.start.Fits q s w := by
  unfold Program.start
  split_ifs with hloop
  · exact Option.isSome_iff_ne_none.mp hloop
  · exact fun hne => absurd rfl hne

theorem Attested.step (hi : Attested (s, w)) (hg : Unspoilt (s, w) b)
    (h : step sequences s b = some s') : Attested (s', w.track s b s') := by
  have hp := step_performed h
  refine ⟨hi.custody.step hg.fresh h, fun q pc' hm' => ?_⟩
  cases step_move h with
  | receive hidle _ => exact (hi.fits q pc' hm').other hi.custody hg hm' (by simp) hp rfl
  | @worker a call t r hw _ hs _ =>
    have hm : s.macroThread = .running q pc' := hs.macroThread.symm.trans hm'
    refine (hi.fits q pc' hm).other hi.custody hg hm (by simp) hp ?_
    rw [State.writes, State.workerCall_eq hw]
    exact hs.flag
  | join _ _ _ => cases hm'
  | spawn _ _ _ => cases hm'; exact Program.start_fits
  | macroThread hm hs hpc =>
    cases hm'
    exact (hi.fits _ _ hm).move hi.custody hg hm hpc hp hs.flag
  | @other b _ hnw hnm _ hs =>
    have hm : s.macroThread = .running q pc' := hs.macroThread.symm.trans hm'
    refine (hi.fits q pc' hm).other hi.custody hg hm hnm hp ?_
    have hwrites : s.writes b = none := by
      cases b with
      | worker a => exact absurd rfl (hnw a)
      | macroThread a => exact absurd rfl (hnm a)
      | _ => rfl
    rw [hwrites]
    exact hs.flag

end Steps

/-- A step of the macro that starts the background process `pid`, up to its wait. -/
def backgroundStart (pid : Pid) : List Action :=
  List.replicate 2 (.macroThread done) ++ .macroThread { done with pid := some pid } ::
    List.replicate 2 (.macroThread done)

/-- The same step to its end. -/
def backgroundStep (pid : Pid) (success : Bool) : List Action :=
  backgroundStart pid ++ .monitor pid (.exited success) :: List.replicate 2 (.macroThread done)

end GramsTof.Dispatch
