import GramsTof.Codec.Packet
import GramsTof.Lib.Machine
import GramsTof.Lib.Overtaking
import Mathlib.Data.List.Sigma

/-! The command queue between the read loop and the worker, over any number of
`start()`/`stop()` cycles. Three threads take steps: the one that calls `start`
and `stop`, the client thread that queues packets, and the worker that pops them
and calls the handler. The machine also records every packet queued, popped and
passed to the handler. -/

namespace GramsTof.CommandClient.Queue

open Codec Lib

/-- A queued packet with its number of arrival. -/
abbrev Entry := Packet × ℕ

/-- `pkt.code == 0x5001 || pkt.code == 0x5002`: stop or reset. -/
def urgent (e : Entry) : Bool := e.1.code == 0x5001 || e.1.code == 0x5002

/-- Where the worker thread is. -/
inductive Worker where
  | off
  /-- At `while (running_)`. -/
  | test
  /-- In `queueCV_.wait`. -/
  | waiting
  /-- Holding the popped packet, the lock released. -/
  | popped (e : Entry)
  /-- In `handler_(pkt)`. -/
  | handling (e : Entry)
  deriving DecidableEq, Repr

/-- The packet popped and not yet passed to the handler. -/
def Worker.inHand : Worker → List Entry
  | .popped e => [e]
  | _ => []

/-- Where the caller of `start` and `stop` is. -/
inductive Control where
  | idle
  /-- In `stop`, at `worker_thread_.join()`. -/
  | joinWorker
  /-- In `stop`, at `client_thread_.join()`. -/
  | joinClient
  deriving DecidableEq, Repr

structure State where
  running : Bool
  control : Control
  /-- The client thread is in `run`. -/
  client : Bool
  worker : Worker
  commandQueue : List Entry
  /-- All packets queued, popped, and passed to the handler so far, oldest first. -/
  queued : List Packet
  poppedLog : List Entry
  handledLog : List Entry
  deriving DecidableEq, Repr

inductive Action where
  | start
  | stop
  | workerJoined
  | clientJoined
  /-- The outer loop of `run` ends. -/
  | clientExit
  /-- The read loop queues an acknowledged packet. -/
  | arrive (pkt : Packet)
  | workerTest
  | workerWake
  | callHandler
  /-- The handler returns, or throws a `std::exception` that the worker catches. -/
  | handlerDone (threw : Bool)
  deriving DecidableEq, Repr

def initial : State := ⟨false, .idle, false, .off, [], [], [], []⟩

/-- `start()`. -/
def start (s : State) : State :=
  if s.running then s else { s with running := true, client := true, worker := .test }

/-- `stop()` up to its first join. -/
def stop (s : State) : State :=
  if s.running then { s with running := false, control := .joinWorker } else s

/-- Queue one packet: stop and reset jump to the front. -/
def arrive (pkt : Packet) (s : State) : State :=
  { s with commandQueue := Overtaking.enqueue urgent s.commandQueue (pkt, s.queued.length)
           queued := s.queued ++ [pkt] }

/-- The wake-up of `queueCV_.wait` and what follows under the lock; with the predicate false the
worker goes on waiting. -/
def wake (s : State) : Option State :=
  match s.commandQueue with
  | [] => if s.running then none else some { s with worker := .off }
  | e :: rest =>
    some { s with worker := .popped e, commandQueue := rest, poppedLog := s.poppedLog ++ [e] }

def step (s : State) : Action → Option State
  | .start => if s.control = .idle then some (start s) else none
  | .stop => if s.control = .idle then some (stop s) else none
  | .workerJoined =>
    if s.control = .joinWorker ∧ s.worker = .off then some { s with control := .joinClient }
    else none
  | .clientJoined =>
    if s.control = .joinClient ∧ s.client = false then some { s with control := .idle } else none
  | .clientExit => if s.client ∧ ¬ s.running then some { s with client := false } else none
  | .arrive pkt => if s.client then some (arrive pkt s) else none
  | .workerTest =>
    if s.worker = .test then some { s with worker := if s.running then .waiting else .off }
    else none
  | .workerWake => if s.worker = .waiting then wake s else none
  | .callHandler =>
    match s.worker with
    | .popped e => some { s with worker := .handling e, handledLog := s.handledLog ++ [e] }
    | _ => none
  | .handlerDone _ =>
    match s.worker with
    | .handling _ => some { s with worker := .test }
    | _ => none

def machine : Machine State Action := ⟨fun s => s = initial, step⟩

/-! ### Starting and stopping -/

/-- Outside `stop` with `running_` false both threads are gone; `stop` clears `running_` first and
passes its first join only when the worker is gone. -/
structure Lifecycle (s : State) : Prop where
  stopped : s.control = .idle → s.running = false → s.worker = .off ∧ s.client = false
  stopping : s.control ≠ .idle → s.running = false
  workerGone : s.control = .joinClient → s.worker = .off

theorem wake_inv {s s' : State} (h : wake s = some s') :
    (s.commandQueue = [] ∧ s.running = false ∧ s' = { s with worker := .off }) ∨
    ∃ e rest, s.commandQueue = e :: rest ∧
      s' = { s with worker := .popped e, commandQueue := rest, poppedLog := s.poppedLog ++ [e] } := by
  rw [wake] at h
  split at h
  · rename_i hq
    split_ifs at h with hr
    cases h
    exact .inl ⟨hq, by simpa using hr, rfl⟩
  · rename_i e rest hq
    cases h
    exact .inr ⟨e, rest, hq, rfl⟩

theorem lifecycle_initial : Lifecycle initial :=
  ⟨fun _ _ => ⟨rfl, rfl⟩, fun _ => rfl, fun _ => rfl⟩

/-- A worker that is there may do what it likes. -/
theorem Lifecycle.of_worker_ne_off {s s' : State} (hs : Lifecycle s) (hworker : s.worker ≠ .off)
    (hcontrol : s'.control = s.control) (hrunning : s'.running = s.running) : Lifecycle s' where
  stopped hidle hr := by
    rw [hcontrol] at hidle
    rw [hrunning] at hr
    exact absurd (hs.stopped hidle hr).1 hworker
  stopping hbusy := by
    rw [hcontrol] at hbusy
    rw [hrunning]
    exact hs.stopping hbusy
  workerGone hjoin := by
    rw [hcontrol] at hjoin
    exact absurd (hs.workerGone hjoin) hworker

theorem lifecycle_step {s s' : State} {a : Action} (hs : Lifecycle s) (h : step s a = some s') :
    Lifecycle s' := by
  have ⟨h1, h2, h3⟩ := hs
  cases a with
  | start =>
    simp only [step] at h
    split_ifs at h with hidle
    cases h
    rw [start]
    split_ifs with hr
    · exact ⟨h1, h2, h3⟩
    · exact ⟨fun _ h => (by cases h), fun h => absurd hidle h, fun h => by simp [hidle] at h⟩
  | stop =>
    simp only [step] at h
    split_ifs at h with hidle
    cases h
    rw [stop]
    split_ifs with hr
    · exact ⟨fun h => (by cases h), fun _ => rfl, fun h => (by cases h)⟩
    · exact ⟨h1, h2, h3⟩
  | workerJoined =>
    simp only [step] at h
    split_ifs at h with hj
    cases h
    exact ⟨fun h => (by cases h), fun _ => h2 (by simp [hj.1]), fun _ => hj.2⟩
  | clientJoined =>
    simp only [step] at h
    split_ifs at h with hj
    cases h
    exact ⟨fun _ _ => ⟨h3 hj.1, hj.2⟩, fun h => absurd rfl h, fun h => (by cases h)⟩
  | clientExit =>
    simp only [step] at h
    split_ifs at h with hc
    cases h
    exact ⟨fun hi hr => ⟨(h1 hi hr).1, rfl⟩, h2, h3⟩
  | arrive pkt =>
    simp only [step] at h
    split_ifs at h with hc
    cases h
    exact ⟨h1, h2, h3⟩
  | workerTest =>
    simp only [step] at h
    split_ifs at h with hw hr <;> cases h <;>
      exact hs.of_worker_ne_off (by simp [hw]) rfl rfl
  | workerWake =>
    simp only [step] at h
    split_ifs at h with hw
    rcases wake_inv h with ⟨-, -, rfl⟩ | ⟨e, rest, -, rfl⟩ <;>
      exact hs.of_worker_ne_off (by simp [hw]) rfl rfl
  | callHandler =>
    simp only [step] at h
    split at h
    · rename_i e hw
      cases h
      exact hs.of_worker_ne_off (by simp [hw]) rfl rfl
    · cases h
  | handlerDone threw =>
    simp only [step] at h
    split at h
    · rename_i e hw
      cases h
      exact hs.of_worker_ne_off (by simp [hw]) rfl rfl
    · cases h

/-! ### What a step does to the packets -/

/-- Every step leaves the packets where they are, queues one, or pops one. -/
inductive Moved (s s' : State) : Prop where
  | same (hq : s'.commandQueue = s.commandQueue) (ha : s'.queued = s.queued)
      (hp : s'.poppedLog = s.poppedLog)
      (hh : s'.handledLog ++ s'.worker.inHand = s.handledLog ++ s.worker.inHand)
  | queued (pkt : Packet) (hs : s' = arrive pkt s)
  | popped (e : Entry) (hw : s.worker = .waiting) (hq : s.commandQueue = e :: s'.commandQueue)
      (ha : s'.queued = s.queued) (hp : s'.poppedLog = s.poppedLog ++ [e])
      (hh : s'.handledLog = s.handledLog) (hw' : s'.worker = .popped e)

theorem step_moved {s s' : State} {a : Action} (hs : Lifecycle s) (h : step s a = some s') :
    Moved s s' := by
  cases a with
  | start =>
    simp only [step] at h
    split_ifs at h with hidle
    cases h
    rw [start]
    split_ifs with hr
    · exact .same rfl rfl rfl rfl
    · exact .same rfl rfl rfl (by rw [(hs.stopped hidle (by simpa using hr)).1]; rfl)
  | stop =>
    simp only [step] at h
    split_ifs at h with hidle
    cases h
    rw [stop]
    split_ifs <;> exact .same rfl rfl rfl rfl
  | workerJoined => simp only [step] at h; split_ifs at h; cases h; exact .same rfl rfl rfl rfl
  | clientJoined => simp only [step] at h; split_ifs at h; cases h; exact .same rfl rfl rfl rfl
  | clientExit => simp only [step] at h; split_ifs at h; cases h; exact .same rfl rfl rfl rfl
  | arrive pkt => simp only [step] at h; split_ifs at h; cases h; exact .queued pkt rfl
  | workerTest =>
    simp only [step] at h
    split_ifs at h with hw hr <;> cases h <;> exact .same rfl rfl rfl (by rw [hw]; rfl)
  | workerWake =>
    simp only [step] at h
    split_ifs at h with hw
    rcases wake_inv h with ⟨-, -, rfl⟩ | ⟨e, rest, hq, rfl⟩
    · exact .same rfl rfl rfl (by rw [hw]; rfl)
    · exact .popped e hw hq rfl rfl rfl rfl
  | callHandler =>
    simp only [step] at h
    split at h
    · rename_i e hw
      cases h
      exact .same rfl rfl rfl (by simp [hw, Worker.inHand])
    · cases h
  | handlerDone threw =>
    simp only [step] at h
    split at h
    · rename_i e hw
      cases h
      exact .same rfl rfl rfl (by rw [hw]; rfl)
    · cases h

/-! ### Accounting -/

/-- The ordinary packets. -/
def ordinary (e : Entry) : Bool := !urgent e

/-- The queue invariant: no packet is lost or doubled, ordinary packets keep their order, urgent
ones stand first, and the popped packets are those handled and the one in hand. -/
structure Accounted (s : State) : Prop where
  perm : (s.poppedLog ++ s.commandQueue).Perm s.queued.zipIdx
  order : (s.poppedLog ++ s.commandQueue).filter ordinary = s.queued.zipIdx.filter ordinary
  urgentFirst : Overtaking.UrgentFirst urgent s.commandQueue
  handled : s.poppedLog = s.handledLog ++ s.worker.inHand

theorem accounted_initial : Accounted initial :=
  ⟨List.Perm.refl _, rfl, Overtaking.urgentFirst_nil, rfl⟩

theorem accounted_arrive {s : State} (hs : Accounted s) (pkt : Packet) :
    Accounted (arrive pkt s) := by
  have hzip : (s.queued ++ [pkt]).zipIdx = s.queued.zipIdx ++ [(pkt, s.queued.length)] := by
    simp [List.zipIdx_append]
  refine ⟨?_, ?_, hs.urgentFirst.enqueue _, hs.handled⟩
  · simp only [arrive, hzip]
    have henq := Overtaking.enqueue_perm urgent s.commandQueue (pkt, s.queued.length)
    exact (henq.append_left _).trans
      ((List.perm_middle.trans (List.perm_append_singleton _ _).symm).trans (hs.perm.append_right _))
  · have henq := Overtaking.filter_enqueue urgent s.commandQueue (pkt, s.queued.length)
    simp only [arrive, hzip, List.filter_append] at hs ⊢
    rw [← hs.order, List.filter_append, List.append_assoc]
    exact congrArg _ henq

theorem accounted_step {s s' : State} (hs : Accounted s) (h : Moved s s') : Accounted s' := by
  cases h with
  | same hq ha hp hh =>
    refine ⟨?_, ?_, ?_, ?_⟩
    · rw [hp, hq, ha]; exact hs.perm
    · rw [hp, hq, ha]; exact hs.order
    · rw [hq]; exact hs.urgentFirst
    · rw [hp, hh]; exact hs.handled
  | queued pkt h => rw [h]; exact accounted_arrive hs pkt
  | popped e hw hq ha hp hh hw' =>
    have hsplit : s'.poppedLog ++ s'.commandQueue = s.poppedLog ++ s.commandQueue := by
      rw [hp, hq, List.append_assoc, List.singleton_append]
    refine ⟨?_, ?_, ?_, ?_⟩
    · rw [hsplit, ha]; exact hs.perm
    · rw [hsplit, ha]; exact hs.order
    · have hfirst := hs.urgentFirst
      rw [hq] at hfirst
      exact hfirst.tail
    · rw [hp, hh, hw', hs.handled, hw]
      simp [Worker.inHand]

theorem reachable_inv {s : State} (h : machine.Reachable s) : Lifecycle s ∧ Accounted s := by
  refine h.invariant (I := fun s => Lifecycle s ∧ Accounted s) ?_ ?_
  · rintro s rfl
    exact ⟨lifecycle_initial, accounted_initial⟩
  · rintro s a s' ⟨hl, ha⟩ - hstep
    exact ⟨lifecycle_step hl hstep, accounted_step ha (step_moved hl hstep)⟩

/-- No packet is popped twice. -/
theorem Accounted.nodup_popped {s : State} (hs : Accounted s) : s.poppedLog.Nodup := by
  have hnodup : s.queued.zipIdx.Nodup := List.Nodup.of_map _ (List.nodup_zipIdx_map_snd _)
  exact (List.nodup_append.mp (hs.perm.nodup_iff.mpr hnodup)).1

/-- A packet passed to the handler is one that was queued, and is passed once. -/
theorem Accounted.handled_queued {s : State} (hs : Accounted s) :
    s.handledLog.Nodup ∧ ∀ e ∈ s.handledLog, s.queued[e.2]? = some e.1 := by
  have hnodup := hs.nodup_popped
  have hperm := hs.perm
  rw [hs.handled] at hnodup hperm
  refine ⟨(List.nodup_append.mp hnodup).1, fun e he => ?_⟩
  exact List.mem_zipIdx_iff_getElem?.mp
    (hperm.mem_iff.mp (List.mem_append_left _ (List.mem_append_left _ he)))

/-- Only the call of the handler notes a packet as passed to it. -/
theorem step_handledLog {s s' : State} {a : Action} (ha : a ≠ .callHandler) (h : step s a = some s') :
    s'.handledLog = s.handledLog := by
  cases a with
  | callHandler => exact absurd rfl ha
  | start =>
    simp only [step, start] at h
    split_ifs at h <;> cases h <;> rfl
  | stop =>
    simp only [step, stop] at h
    split_ifs at h <;> cases h <;> rfl
  | workerWake =>
    simp only [step] at h
    split_ifs at h
    rcases wake_inv h with ⟨-, -, rfl⟩ | ⟨e, rest, -, rfl⟩ <;> rfl
  | handlerDone threw =>
    rw [step] at h
    split at h <;> cases h
    rfl
  | workerJoined | clientJoined | clientExit | arrive pkt | workerTest =>
    simp only [step] at h
    split_ifs at h <;> cases h <;> rfl

/-- In every state of every run: no packet is popped twice, what was queued is what was popped and
what is still queued, ordinary packets are popped in order of arrival, the popped packets are
those passed to the handler and at most one in the worker's hand, and whenever a step pops a packet
while an urgent one is pending, the popped one is urgent. -/
theorem queue_sound {s : State} (h : machine.Reachable s) :
    s.poppedLog.Nodup ∧
    (s.poppedLog ++ s.commandQueue).Perm s.queued.zipIdx ∧
    s.poppedLog.filter ordinary ++ s.commandQueue.filter ordinary =
      s.queued.zipIdx.filter ordinary ∧
    s.poppedLog = s.handledLog ++ s.worker.inHand ∧
    ∀ a s' e, machine.step s a = some s' → s'.poppedLog = s.poppedLog ++ [e] →
      (∃ w ∈ s.commandQueue, urgent w = true) → urgent e = true := by
  obtain ⟨hl, ha⟩ := reachable_inv h
  refine ⟨ha.nodup_popped, ha.perm, ?_, ha.handled, ?_⟩
  · rw [← List.filter_append]
    exact ha.order
  · rintro a s' e hstep hpop ⟨w, hw, hu⟩
    cases step_moved hl hstep with
    | same hq hqd hp hh => rw [hp] at hpop; simp at hpop
    | queued pkt hs => subst hs; simp [arrive] at hpop
    | popped e' _ hq _ hp _ _ =>
      rw [hp] at hpop
      have he : e' = e := by simpa using hpop
      have hfirst := ha.urgentFirst
      rw [hq] at hfirst hw
      rw [← he]
      exact hfirst.front hw hu

/-- A command is queued, a stop overtakes it, and the handler throws on the stop. -/
def overtakingRun : List Action :=
  [.start, .arrive ⟨0x4001, 0, []⟩, .arrive ⟨0x5001, 0, []⟩, .workerTest, .workerWake,
    .callHandler, .handlerDone true]

theorem queue_sound_overtaken :
    ∃ s, machine.Reachable s ∧ s.handledLog = [(⟨0x5001, 0, []⟩, 1)] ∧
      (s.poppedLog ++ s.commandQueue).Perm s.queued.zipIdx := by
  cases hrun : machine.run initial overtakingRun with
  | none => cases hrun
  | some s =>
    have h : machine.Reachable s := Machine.Reach.run (.init rfl) hrun
    refine ⟨s, h, ?_, (queue_sound h).2.1⟩
    cases hrun
    rfl

end GramsTof.CommandClient.Queue
