import GramsTof.Dispatch.Children
import GramsTof.Dispatch.Quiescence
import GramsTof.Dispatch.Stop

/-! What the worker's `STOP_DAQ` leaves running, from its return to the next command
that starts something. -/

namespace GramsTof.Dispatch

open Lib TOFCommandCode

/-- A child, whether `STOP_DAQ` forked it, and whether it has been sent `SIGTERM`. -/
structure Process where
  pid : Pid
  script : Bool
  signalled : Bool
  deriving DecidableEq, Repr

/-- How far the worker's last `STOP_DAQ` is, if nothing has been started since. -/
inductive StopPhase where
  | none
  | running
  | returned
  deriving DecidableEq, Repr

structure StopRecord where
  processes : List Process
  phase : StopPhase
  /-- The stop script of the worker's last interruption. -/
  script : Option Pid
  deriving DecidableEq, Repr

/-- `STOP_DAQ` signals the registered processes but its own script. -/
def Process.interrupt (s : State) (stopPid : Option Pid) (q : Process) : Process :=
  if q.pid ∈ s.registered ∧ some q.pid ≠ stopPid then { q with signalled := true } else q

def Operation.processes (s : State) (qs : List Process) : Operation → List Process
  | fork pid task => ⟨pid, task = stopScript, false⟩ :: qs
  | interrupt stopPid => qs.map (Process.interrupt s stopPid)
  | reap pid (.exited _) => qs.filter (·.pid ≠ pid)
  | waitAny pid => qs.filter (·.pid ≠ pid)
  | _ => qs

/-- When a command is received. -/
def StopPhase.received (w : StopPhase) (b : Action) : TOFCommandCode → StopPhase
  | stopDaq => running
  | _ => if b.startsWork then none else w

def StopPhase.track (s : State) (w : StopPhase) : Action → StopPhase
  | .receive code argv => w.received (.receive code argv) code
  | .worker a => if s.stopReturns (.worker a) ∧ w = running then returned else w
  | _ => w

def StopRecord.track (s : State) (b : Action) (_ : State) (w : StopRecord) : StopRecord where
  processes := (s.operation b).processes s w.processes
  phase := w.phase.track s b
  script := match b, s.operation b with
    | .worker _, .interrupt stopPid => stopPid
    | _, _ => w.script

def stopMachine (sequences : TOFCommandCode → MacroSequence) :
    Machine (State × StopRecord) Action :=
  (machine sequences).withHistory ⟨[], .none, none⟩ StopRecord.track

/-! ### Every child is registered, about to be, or has been signalled -/

structure Followed (s : State) (w : StopRecord) : Prop where
  processes : w.processes.map Process.pid = s.children
  children : s.children.Nodup
  followed : ∀ q ∈ w.processes, q.signalled ∨ s.launching q.pid ∨ q.pid ∈ s.registered

section Followed

variable {sequences : TOFCommandCode → MacroSequence} {s s' : State} {w : StopRecord}
  {b : Action} {stopPid : Option Pid}

theorem Process.interrupt_pid (q : Process) : (q.interrupt s stopPid).pid = q.pid := by
  unfold Process.interrupt
  split_ifs <;> rfl

theorem Process.interrupt_script (q : Process) : (q.interrupt s stopPid).script = q.script := by
  unfold Process.interrupt
  split_ifs <;> rfl

theorem Process.interrupt_signalled {q : Process}
    (h : q.signalled ∨ q.pid ∈ s.registered ∧ some q.pid ≠ stopPid) :
    (q.interrupt s stopPid).signalled := by
  unfold Process.interrupt
  split_ifs with hq
  · rfl
  · exact h.resolve_right hq

theorem Followed.processes_step (hi : Followed s w) (he : Effect (s.operation b) s s') :
    ((s.operation b).processes s w.processes).map Process.pid = s'.children := by
  rw [he.children, ← hi.processes]
  have hnodup := hi.processes ▸ hi.children
  have herase (pid : Pid) : (w.processes.filter (·.pid ≠ pid)).map Process.pid =
      (w.processes.map Process.pid).erase pid := by
    rw [hnodup.erase_eq_filter, List.filter_map]
    congr 1
    exact List.filter_congr fun q _ => by simp [bne, beq_eq_decide]
  cases s.operation b with
  | idle | report _ _ | register _ _ | forkWorker _ => rfl
  | fork pid task => rfl
  | waitAny pid => exact herase pid
  | interrupt stopPid =>
    simp only [Operation.processes, Operation.children, List.map_map]
    exact List.map_congr_left fun q _ => Process.interrupt_pid q
  | reap pid wait =>
    cases wait with
    | error => rfl
    | exited success => exact herase pid

theorem Followed.followed_step (hi : Followed s w) (h : step sequences s b = some s')
    {q : Process} (hq : q ∈ (s.operation b).processes s w.processes) :
    q.signalled ∨ s'.launching q.pid ∨ q.pid ∈ s'.registered := by
  have hp := step_performed h
  have hchild : q.pid ∈ s'.children := by
    rw [← hi.processes_step hp.effect]
    exact List.mem_map_of_mem hq
  -- a process that is neither forked nor interrupted by this step
  have hold (hmem : q ∈ w.processes) (hnot : ∀ stopPid, s.operation b ≠ .interrupt stopPid) :
      q.signalled ∨ s'.launching q.pid ∨ q.pid ∈ s'.registered := by
    rcases hi.followed q hmem with hs | hl | hr
    · exact .inl hs
    · exact .inr (State.launching_kept hp hl)
    · rcases hp.effect.registered_kept hi.children hchild hr with hr | ⟨stopPid, ho, -⟩
      · exact .inr (.inr hr)
      · exact absurd ho (hnot stopPid)
  generalize ho : s.operation b = o at hq hold
  cases o with
  | idle | report _ _ | register _ _ | forkWorker _ => exact hold hq nofun
  | waitAny pid => exact hold (List.mem_filter.mp hq).1 nofun
  | fork pid task =>
    rcases List.mem_cons.mp hq with rfl | hmem
    · obtain ⟨l, hl⟩ := hp.fork_held ho
      exact .inr (.inl ⟨l, task, hl⟩)
    · exact hold hmem nofun
  | reap pid wait =>
    cases wait with
    | error => exact hold hq nofun
    | exited success => exact hold (List.mem_filter.mp hq).1 nofun
  | interrupt stopPid =>
    obtain ⟨q, hmem, rfl⟩ := List.mem_map.mp hq
    rw [Process.interrupt_pid] at hchild ⊢
    rcases hi.followed q hmem with hs | hl | hr
    · exact .inl (Process.interrupt_signalled (.inl hs))
    · exact .inr (State.launching_kept hp hl)
    · rcases hp.effect.registered_kept hi.children hchild hr with hr | ⟨stopPid', ho', hne⟩
      · exact .inr (.inr hr)
      · cases ho.symm.trans ho'
        exact .inl (Process.interrupt_signalled (.inr ⟨hr, hne⟩))

theorem Followed.step (hi : Followed s w) (h : Dispatch.step sequences s b = some s') :
    Followed s' (w.track s b s') where
  processes := hi.processes_step (step_performed h).effect
  children := (step_performed h).effect.nodup_children hi.children
  followed _ hq := hi.followed_step h hq

theorem initial_followed : Followed initial ⟨[], .none, none⟩ where
  processes := rfl
  children := List.nodup_nil
  followed := nofun

end Followed

/-! ### Runs in which `STOP_DAQ` finds everything settled -/

/-- The worker is at the critical section of its `STOP_DAQ`, with this stop script. -/
def State.snapshot (s : State) : Action → Option (Option Pid)
  | .worker _ => match s.workerCall with
    | some (.stopDaq (.body (.interrupt stopPid))) => some stopPid
    | _ => none
  | _ => none

/-- `STOP_DAQ` does not miss `stop_daq.py`. -/
def State.resolves (s : State) : Action → Bool
  | .worker a => match s.workerCall with
    | some (.stopDaq (.body .fork)) => a.ok
    | _ => true
  | _ => true

/-- Neither the macro thread nor the temperature recorder is about to start a process. -/
def State.settled (s : State) : Prop :=
  s.macroPc.all (fun pc => pc.passive && !s.macroLoopRunning) ∧ s.recorderOff

instance (s : State) : Decidable s.settled := inferInstanceAs (Decidable (_ ∧ _))

/-- What `STOP_DAQ` needs of the rest of the program. -/
structure StopsClean (p : State × StopRecord) (b : Action) : Prop where
  resolves : p.1.resolves b
  settled : (p.1.snapshot b).isSome → p.1.settled
  /-- No other process has got the number of the stop script since its fork. -/
  own : ∀ q ∈ p.2.processes, p.1.snapshot b = some (some q.pid) → q.script

instance (p : State × StopRecord) (b : Action) : Decidable (StopsClean p b) :=
  decidable_of_iff (_ ∧ _ ∧ _)
    ⟨fun ⟨h, h', h''⟩ => ⟨h, h', h''⟩, fun h => ⟨h.resolves, h.settled, h.own⟩⟩

/-- Only the stop script is registered, and every other child has been signalled. -/
structure Left (s : State) (w : StopRecord) : Prop where
  tasks : ∀ e ∈ s.activeBackgroundTasks, e.2 = stopScript ∧ some e.1 = w.script
  signalled : ∀ q ∈ w.processes, q.signalled ∨ q.script ∧ some q.pid = w.script

/-- The handler the worker is in starts nothing any more. -/
def State.workerPassive (s : State) : Prop := ∀ call, s.workerCall = some call → call.passive

structure Supervised (s : State) (w : StopRecord) : Prop where
  followed : Followed s w
  running : w.phase = .running → ∃ pc, s.worker = .busy (.stopDaq pc)
  returned : w.phase = .returned → s.workerPassive
  left : w.phase ≠ .none → s.workerPassive → Quiet s ∧ Left s w

section Supervised

variable {sequences : TOFCommandCode → MacroSequence} {s s' : State} {w : StopRecord}
  {a : Answer} {b : Action} {stopPid : Option Pid}

theorem State.workerPassive_busy {call : Call} (hw : s.worker = .busy call) (hp : s.workerPassive) :
    call.passive := hp call (State.workerCall_eq hw)

theorem State.workerPassive_idle (hw : s.worker = .idle) : s.workerPassive := by
  intro call hc
  rw [State.workerCall, hw] at hc
  cases hc

/-- An operation that starts and signals nothing leaves nothing more. -/
theorem Left.silent {o : Operation} {w' : StopRecord} (hi : Left s w) (he : Effect o s s')
    (ho : o.silent) (hq : w'.processes = o.processes s w.processes) (hs : w'.script = w.script) :
    Left s' w' := by
  refine ⟨fun e hmem => ?_, fun q hmem => ?_⟩
  · rw [he.tasks] at hmem
    rw [hs]
    cases o with
    | idle | report _ _ | waitAny _ => exact hi.tasks e hmem
    | reap pid wait => exact hi.tasks e (Registry.mem_remove.mp hmem).1
    | fork _ _ | register _ _ | interrupt _ | forkWorker _ => cases ho
  · rw [hq] at hmem
    rw [hs]
    cases o with
    | idle | report _ _ => exact hi.signalled q hmem
    | reap pid wait =>
      cases wait with
      | error => exact hi.signalled q hmem
      | exited success => exact hi.signalled q (List.mem_filter.mp hmem).1
    | waitAny pid => exact hi.signalled q (List.mem_filter.mp hmem).1
    | fork _ _ | register _ _ | interrupt _ | forkWorker _ => cases ho

theorem StopRecord.track_script (ho : (s.operation b).silent) :
    (w.track s b s').script = w.script := by
  unfold StopRecord.track
  cases b with
  | worker a =>
    generalize s.operation (.worker a) = o at ho
    cases o with
    | interrupt _ => cases ho
    | _ => rfl
  | _ => rfl

/-- In a quiet state a step leaves nothing more. -/
theorem Left.step (hi : Left s w) (hq : Quiet s) (h : Dispatch.step sequences s b = some s') :
    Left s' (w.track s b s') :=
  hi.silent (step_performed h).effect (hq.silent b) rfl (StopRecord.track_script (hq.silent b))

/-- Where nothing is about to be started, nobody holds a process not yet registered. -/
theorem State.settled_launching {pid : Pid} {call : Call} (hw : s.worker = .busy call)
    (hcall : ∀ pid task, call.hold ≠ some (.forked pid task)) (hs : s.settled) :
    ¬ s.launching pid := by
  rintro ⟨l, task, hl⟩
  cases l with
  | worker =>
    rw [State.held_worker hw] at hl
    exact hcall pid task hl
  | macroThread =>
    obtain ⟨call', hc, hh⟩ := Option.bind_eq_some_iff.mp hl
    obtain ⟨pc, hpc, hcall'⟩ := Option.bind_eq_some_iff.mp hc
    have hpassive : pc.passive := by
      have hall := hs.1
      rw [hpc] at hall
      exact (Bool.and_eq_true_iff.mp hall).1
    rw [Call.passive_hold (MacroPc.passive_call hpassive hcall')] at hh
    cases hh
  | recorder =>
    rcases hs.2 with hr | hr | ⟨hr, -⟩ <;>
      (rw [State.held, hr] at hl; cases hl)

theorem State.snapshot_interrupt (hw : s.worker = .busy (.stopDaq (.body (.interrupt stopPid)))) :
    s.snapshot (.worker a) = some stopPid := by
  rw [snapshot, workerCall_eq hw]

theorem State.step_interrupt (hw : s.worker = .busy (.stopDaq (.body (.interrupt stopPid))))
    (h : step sequences s (.worker a) = some s') :
    s' = { s.interrupt stopPid with worker := .busy (.stopDaq (.body .join)) } := by
  simp only [step, hw] at h
  cases h
  rfl

/-- The critical section of `STOP_DAQ` leaves its script only. -/
theorem Followed.left_interrupt (hi : Followed s w)
    (hw : s.worker = .busy (.stopDaq (.body (.interrupt stopPid))))
    (hg : StopsClean (s, w) (.worker a)) (h : Dispatch.step sequences s (.worker a) = some s') :
    Left s' (w.track s (.worker a) s') := by
  have hsnap := State.snapshot_interrupt (a := a) hw
  have hsettled := hg.settled (by rw [hsnap]; rfl)
  have hop : s.operation (.worker a) = .interrupt stopPid := State.operation_worker hw
  have hscript : (w.track s (.worker a) s').script = stopPid := by
    simp only [StopRecord.track, hop]
  have hnone (pid : Pid) : ¬ s.launching pid :=
    State.settled_launching hw (fun p task => by cases stopPid <;> exact nofun) hsettled
  constructor
  · intro e hmem
    rw [hscript]
    rw [(step_performed h).effect.tasks, hop] at hmem
    obtain ⟨pid, hpid, rfl⟩ := List.mem_map.mp hmem
    exact ⟨rfl, (Option.mem_toList.mp hpid).symm⟩
  · intro q hmem
    rw [hscript]
    simp only [StopRecord.track, hop, Operation.processes, List.mem_map] at hmem
    obtain ⟨q, hq, rfl⟩ := hmem
    rw [Process.interrupt_pid, Process.interrupt_script]
    by_cases hown : some q.pid = stopPid
    · exact .inr ⟨hg.own q hq (by rw [hsnap, hown]), hown⟩
    · left
      rcases hi.followed q hq with hs | hl | hr
      · exact Process.interrupt_signalled (.inl hs)
      · exact absurd hl (hnone q.pid)
      · exact Process.interrupt_signalled (.inr ⟨hr, hown⟩)

/-- The critical section of `STOP_DAQ` leaves a quiet state. -/
theorem StopsClean.quiet_interrupt (hg : StopsClean (s, w) (.worker a))
    (hw : s.worker = .busy (.stopDaq (.body (.interrupt stopPid))))
    (h : step sequences s (.worker a) = some s') : Quiet s' := by
  obtain ⟨hthread, hoff⟩ := hg.settled (by rw [State.snapshot_interrupt hw]; rfl)
  rw [State.step_interrupt hw h]
  refine ⟨fun call hc => ?_, fun pc hpc => ?_, hoff⟩
  · cases hc
    rfl
  · have hpc' : s.macroPc = some pc := hpc
    rw [hpc'] at hthread
    have hdown : pc.passive ∧ s.macroLoopRunning = false := by simpa using hthread
    exact hdown

/-- `STOP_DAQ` is over with its critical section when it starts nothing more. -/
theorem StopsClean.left_worker {pc : Simple StopPc} {r : Progress Call} {t : State}
    (hg : StopsClean (s, w) (.worker a)) (hi : Followed s w) (hw : s.worker = .busy (.stopDaq pc))
    (hnot : (Call.stopDaq pc).passive = false)
    (hcall : (Call.stopDaq pc).step sequences .worker a s = some (t, r))
    (hs' : s' = { t with worker := r.elim .busy fun _ => .idle }) (hp : s'.workerPassive)
    (h : Dispatch.step sequences s (.worker a) = some s') :
    Quiet s' ∧ Left s' (w.track s (.worker a) s') := by
  have hnext (call : Call) (hr : r = .next call) : call.passive := by
    subst hr hs'
    exact hp call rfl
  cases pc with
  | report v => cases hnot
  | body pc =>
    cases pc with
    | interrupt stopPid => exact ⟨hg.quiet_interrupt hw h, hi.left_interrupt hw hg h⟩
    | cancel =>
      cases hcall
      cases hnext _ rfl
    | register pid =>
      cases hcall
      cases hnext _ rfl
    | fork =>
      have hok : a.ok = true := by
        have hres := hg.resolves
        rwa [State.resolves, State.workerCall_eq hw] at hres
      simp only [Call.step, Simple.step, StopPc.step, if_pos hok] at hcall
      cases hpid : a.pid with
      | none =>
        rw [hpid] at hcall
        cases hcall
        cases hnext _ rfl
      | some pid =>
        rw [hpid] at hcall
        simp only [Option.map_map] at hcall
        obtain ⟨u, -, heq⟩ := Option.map_eq_some_iff.mp hcall
        cases heq
        cases hnext _ rfl
    | join | markStopped => cases hnot

theorem StopPhase.track_other {v : StopPhase} (hw : ∀ a, b ≠ .worker a)
    (hr : ∀ code argv, b ≠ .receive code argv) : v.track s b = v := by
  cases b with
  | receive code argv => exact absurd rfl (hr code argv)
  | worker a => exact absurd rfl (hw a)
  | _ => rfl

/-- `STOP_DAQ` is over only with its status. -/
theorem Supervised.running_step {call : Call} {r : Progress Call} {t : State} (hi : Supervised s w)
    (hw : s.worker = .busy call) (hcall : call.step sequences .worker a s = some (t, r))
    (hrun : w.phase = .running) (hret : s.stopReturns (.worker a) = false) :
    ∃ pc, State.worker { t with worker := r.elim .busy fun _ => .idle } = .busy (.stopDaq pc) := by
  obtain ⟨pc, hpc⟩ := hi.running hrun
  cases hw.symm.trans hpc
  cases pc with
  | report v =>
    rw [State.stopReturns, State.workerCall_eq hw] at hret
    cases hret
  | body pc =>
    obtain ⟨⟨u, q⟩, hu, heq⟩ := Option.map_eq_some_iff.mp hcall
    cases heq
    obtain ⟨⟨u, q⟩, -, heq⟩ := Option.map_eq_some_iff.mp hu
    cases q <;> cases heq <;> exact ⟨_, rfl⟩

/-- After its return the worker is in no handler that starts something. -/
theorem Supervised.returned_step {call : Call} {r : Progress Call} {t : State} (hi : Supervised s w)
    (hw : s.worker = .busy call) (hcall : call.step sequences .worker a s = some (t, r))
    (hdone : w.phase.track s (.worker a) = .returned) :
    State.workerPassive { t with worker := r.elim .busy fun _ => .idle } := by
  rw [StopPhase.track] at hdone
  split_ifs at hdone with hret
  · obtain ⟨pc, hpc⟩ := hi.running hret.2
    cases hw.symm.trans hpc
    cases pc with
    | report v => cases hcall; exact State.workerPassive_idle rfl
    | body pc =>
      rw [State.stopReturns, State.workerCall_eq hw] at hret
      cases hret.1
  · have hp := State.workerPassive_busy hw (hi.returned hdone)
    cases r with
    | next call' => rintro _ ⟨⟩; exact Call.passive_next hp hcall
    | ret v => exact State.workerPassive_idle rfl

/-- The worker comes to nothing that starts something, by a step of such a handler or out of the
critical section of `STOP_DAQ`. -/
theorem Supervised.left_step {call : Call} {r : Progress Call} {t : State} (hi : Supervised s w)
    (hg : StopsClean (s, w) (.worker a)) (hw : s.worker = .busy call)
    (hcall : call.step sequences .worker a s = some (t, r))
    (hs' : s' = { t with worker := r.elim .busy fun _ => .idle })
    (h : Dispatch.step sequences s (.worker a) = some s') (hv : w.phase ≠ .none)
    (hp : s'.workerPassive) : Quiet s' ∧ Left s' (w.track s (.worker a) s') := by
  cases hpassive : call.passive with
  | true =>
    have hbefore : s.workerPassive := by
      intro call' hc
      rw [State.workerCall_eq hw] at hc
      cases hc
      exact hpassive
    obtain ⟨hq, hl⟩ := hi.left hv hbefore
    exact ⟨hq.step rfl h, hl.step hq h⟩
  | false =>
    have hrun : w.phase = .running := by
      cases hphase : w.phase with
      | none => exact absurd hphase hv
      | running => rfl
      | returned =>
        rw [State.workerPassive_busy hw (hi.returned hphase)] at hpassive
        cases hpassive
    obtain ⟨pc, hpc⟩ := hi.running hrun
    cases hw.symm.trans hpc
    exact hg.left_worker hi.followed hw hpassive hcall hs' hp h

/-- The worker's own steps. -/
theorem Supervised.worker {call : Call} {r : Progress Call} {t : State} (hi : Supervised s w)
    (hg : StopsClean (s, w) (.worker a)) (hw : s.worker = .busy call)
    (hcall : call.step sequences .worker a s = some (t, r))
    (hs' : s' = { t with worker := r.elim .busy fun _ => .idle })
    (h : Dispatch.step sequences s (.worker a) = some s') :
    Supervised s' (w.track s (.worker a) s') := by
  have hphase : (w.track s (.worker a) s').phase = w.phase.track s (.worker a) := rfl
  refine ⟨hi.followed.step h, fun hrun => ?_, fun hdone => ?_, fun hv hp => ?_⟩
  · rw [hphase, StopPhase.track] at hrun
    split_ifs at hrun with hret
    rw [hs']
    exact hi.running_step hw hcall hrun (by simpa [hrun] using hret)
  · rw [hs']
    exact hi.returned_step hw hcall (hphase.symm.trans hdone)
  · refine hi.left_step hg hw hcall hs' h (fun hnone => hv ?_) hp
    rw [hphase, StopPhase.track, hnone]
    simp

theorem StopPhase.received_of_ne {v : StopPhase} {code : TOFCommandCode} (h : code ≠ stopDaq) :
    v.received b code = if b.startsWork then .none else v := by
  cases code with
  | stopDaq => exact absurd rfl h
  | _ => rfl

theorem State.step_receive {code : TOFCommandCode} {argv : CommandArgs}
    (h : step sequences s (.receive code argv) = some s') :
    s.worker = .idle ∧ s'.workerCall = code.handler argv := by
  cases hw : s.worker with
  | busy call => simp [step, hw] at h
  | idle =>
    refine ⟨rfl, ?_⟩
    simp only [step, hw] at h
    cases hc : code.handler argv with
    | none => rw [hc] at h; cases h; rw [State.workerCall, hw]
    | some call => rw [hc] at h; cases h; rfl

theorem Supervised.not_running (hi : Supervised s w) (hidle : s.worker = .idle) :
    w.phase ≠ .running := by
  intro hrun
  obtain ⟨pc, hpc⟩ := hi.running hrun
  rw [hidle] at hpc
  cases hpc

/-- A `STOP_DAQ` is taken off the queue. -/
theorem Supervised.receive_stop {argv : CommandArgs} (hi : Supervised s w)
    (h : Dispatch.step sequences s (.receive stopDaq argv) = some s') :
    Supervised s' (w.track s (.receive stopDaq argv) s') := by
  have hphase : (w.track s (.receive stopDaq argv) s').phase = .running := rfl
  have hbusy : s'.worker = .busy (.stopDaq (.body .cancel)) := by
    simp only [Dispatch.step, (State.step_receive h).1] at h
    cases h
    rfl
  refine ⟨hi.followed.step h, fun _ => ⟨_, hbusy⟩, fun hv => ?_, fun _ hp => ?_⟩
  · rw [hphase] at hv
    cases hv
  · cases State.workerPassive_busy hbusy hp

/-- A command is taken off the queue. -/
theorem Supervised.receive {code : TOFCommandCode} {argv : CommandArgs} (hi : Supervised s w)
    (hcode : code ≠ stopDaq) (h : Dispatch.step sequences s (.receive code argv) = some s') :
    Supervised s' (w.track s (.receive code argv) s') := by
  obtain ⟨hidle, hcall⟩ := State.step_receive h
  have hphase : (w.track s (.receive code argv) s').phase =
      if (Action.receive code argv).startsWork then .none else w.phase :=
    StopPhase.received_of_ne hcode
  have hnot : w.phase ≠ .running := hi.not_running hidle
  cases hwork : (Action.receive code argv).startsWork with
  | true =>
    rw [hwork, if_pos rfl] at hphase
    refine ⟨hi.followed.step h, fun hv => ?_, fun hv => ?_, fun hv => absurd hphase hv⟩
    · cases hphase.symm.trans hv
    · cases hphase.symm.trans hv
  | false =>
    rw [hwork, if_neg Bool.false_ne_true] at hphase
    have hpassive : s'.workerPassive := by
      intro call hc
      rw [hcall] at hc
      simpa [Action.startsWork, hc] using hwork
    refine ⟨hi.followed.step h, fun hv => absurd (hphase.symm.trans hv) hnot, fun _ => hpassive,
      fun hv _ => ?_⟩
    obtain ⟨hq, hl⟩ := hi.left (fun hn => hv (hphase.trans hn)) (State.workerPassive_idle hidle)
    exact ⟨hq.step hwork h, hl.step hq h⟩

/-- The steps of the other threads. -/
theorem Supervised.other (hi : Supervised s w) (hw : ∀ a, b ≠ .worker a)
    (hr : ∀ code argv, b ≠ .receive code argv) (hworker : s'.worker = s.worker)
    (h : Dispatch.step sequences s b = some s') : Supervised s' (w.track s b s') := by
  have hphase : (w.track s b s').phase = w.phase := StopPhase.track_other hw hr
  have hpassive : s'.workerPassive ↔ s.workerPassive := by
    rw [State.workerPassive, State.workerPassive, State.workerCall, State.workerCall, hworker]
  have hwork : b.startsWork = false := by
    cases b with
    | receive code argv => exact absurd rfl (hr code argv)
    | _ => rfl
  refine ⟨hi.followed.step h, ?_, ?_, ?_⟩ <;> rw [hphase]
  · rw [hworker]
    exact hi.running
  · rw [hpassive]
    exact hi.returned
  · intro hv hp
    obtain ⟨hq, hl⟩ := hi.left hv (hpassive.mp hp)
    exact ⟨hq.step hwork h, hl.step hq h⟩

theorem Supervised.step (hi : Supervised s w) (hg : StopsClean (s, w) b)
    (h : Dispatch.step sequences s b = some s') : Supervised s' (w.track s b s') := by
  cases b with
  | receive code argv =>
    by_cases hcode : code = stopDaq
    · subst hcode
      exact hi.receive_stop h
    · exact hi.receive hcode h
  | worker a =>
    cases hw : s.worker with
    | idle => simp [Dispatch.step, hw] at h
    | busy call =>
      have hstep := h
      simp only [Dispatch.step, hw] at hstep
      obtain ⟨⟨t, r⟩, ht, heq⟩ := Option.map_eq_some_iff.mp hstep
      exact hi.worker hg hw ht heq.symm h
  | macroThread a | monitor pid wait | daq | recorder a =>
    exact hi.other (by simp) (by simp) (step_worker h (by simp) (by simp)) h

end Supervised

/-! ### What is left -/

/-- Nothing runs but the stop script and what has been sent `SIGTERM`, and nothing is started. -/
structure NothingRuns (sequences : TOFCommandCode → MacroSequence) (p : State × StopRecord) :
    Prop where
  processes : p.2.processes.map Process.pid = p.1.children
  tasks : ∀ e ∈ p.1.activeBackgroundTasks, e.2 = stopScript ∧ some e.1 = p.2.script
  signalled : ∀ q ∈ p.2.processes, q.signalled ∨ q.script ∧ some q.pid = p.2.script
  starts : ∀ b s', step sequences p.1 b = some s' →
    (∀ pid ∈ s'.children, pid ∈ p.1.children) ∧ ∀ pid ∈ s'.workers, pid ∈ p.1.workers

theorem initial_supervised : Supervised initial ⟨[], .none, none⟩ :=
  ⟨initial_followed, nofun, nofun, fun h => absurd rfl h⟩

theorem Quiet.starts {sequences : TOFCommandCode → MacroSequence} {s s' : State} {b : Action}
    (hi : Quiet s) (h : Dispatch.step sequences s b = some s') :
    (∀ pid ∈ s'.children, pid ∈ s.children) ∧ ∀ pid ∈ s'.workers, pid ∈ s.workers := by
  have he := (step_performed h).effect
  have hsilent := hi.silent b
  constructor
  · intro pid hc
    rcases he.child_old hc with hc | ⟨task, ho⟩
    · exact hc
    · rw [ho] at hsilent
      cases hsilent
  · intro pid hw
    rw [he.workers] at hw
    generalize s.operation b = o at hw hsilent
    cases o with
    | forkWorker _ => cases hsilent
    | reap p wait =>
      cases wait with
      | exited success => exact List.mem_of_mem_erase hw
      | error => exact hw
    | waitAny p => exact List.mem_of_mem_erase hw
    | _ => exact hw

/-- After `STOP_DAQ` has returned, and until a command comes that may start something, nothing
runs, in every run whose `STOP_DAQ`s find their script, and the other threads settled. -/
theorem stop_leaves_nothing {sequences : TOFCommandCode → MacroSequence}
    {p : State × StopRecord} (h : (stopMachine sequences).Reach StopsClean p)
    (hp : p.2.phase = .returned) : NothingRuns sequences p := by
  have hi : Supervised p.1 p.2 :=
    h.invariant_history (I := fun p => Supervised p.1 p.2)
      (fun _ h0 => h0 ▸ initial_supervised) fun _ _ _ _ hi hg hs => hi.step hg hs
  obtain ⟨hq, hl⟩ := hi.left (by simp [hp]) (hi.returned hp)
  exact ⟨hi.followed.processes, hl.tasks, hl.signalled, fun _ _ hs => hq.starts hs⟩

/-- `STOP_DAQ` finds a calibration running. -/
theorem stop_leaves_nothing_calibration :
    ∃ p, (stopMachine macroSequence).Reach StopsClean p ∧ p.2.phase = .returned ∧
      p.2.processes = [⟨8, true, false⟩, ⟨7, false, true⟩] ∧ NothingRuns macroSequence p := by
  have hend : ((stopMachine macroSequence).runIn StopsClean (initial, ⟨[], .none, none⟩)
      (workerBackground acquireTdcCalibration 7 ++ workerStop 8 ++
        List.replicate 3 (.worker done))).map Prod.snd =
      some ⟨[⟨8, true, false⟩, ⟨7, false, true⟩], .returned, some 8⟩ := by decide
  obtain ⟨p, hrun, hp⟩ := Option.map_eq_some_iff.mp hend
  have h0 : (stopMachine macroSequence).init (initial, ⟨[], .none, none⟩) := ⟨rfl, rfl⟩
  have h : (stopMachine macroSequence).Reach StopsClean p := Machine.Reach.runIn (.init h0) hrun
  have hphase : p.2.phase = .returned := by rw [hp]
  exact ⟨p, h, hphase, by rw [hp], stop_leaves_nothing h hphase⟩

/-- The temperature recorder goes on: `STOP_DAQ` leaves `tempRecordRunning_` as it is. -/
theorem not_stop_leaves_nothing :
    ¬ ∀ p, (stopMachine macroSequence).Reachable p → p.2.phase = .returned →
      NothingRuns macroSequence p := by
  intro h
  obtain ⟨p, hp, hend⟩ := (stopMachine macroSequence).exists_reachable_of_run
    (initial, ⟨[], .none, none⟩)
    (fun p => decide (p.2.phase = .returned ∧ p.1.children = [] ∧
      (step macroSequence p.1 (.recorder { done with pid := some 7 })).map State.children = some [7]))
    ([.receive startAsicTempRecord [], .worker done, .receive stopDaq []] ++
      List.replicate 6 (.worker done)) ⟨rfl, rfl⟩ (by decide)
  obtain ⟨hphase, hnone, hfork⟩ := of_decide_eq_true hend
  obtain ⟨s', hs, hc⟩ := Option.map_eq_some_iff.mp hfork
  have hold := ((h p hp hphase).starts _ s' hs).1 7 (by simp [hc])
  simp [hnone] at hold

end GramsTof.Dispatch
