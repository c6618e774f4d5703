import GramsTof.Lib.Machine
import Mathlib.Algebra.BigOperators.Fin
import Mathlib.Data.Fintype.Basic

/-! The thread pool and the handler that takes its buffers in order. The main thread
queues one job after another, waits for the queue and the workers, and takes the
pool down; each worker runs the jobs it takes from the queue, and waits inside a
job until its number is due. Every section under a lock is one step; a thread on a
condition variable takes none until it is woken. -/

namespace GramsTof.Pipeline

open Lib

variable {J S : Type*} {n : ℕ}

/-- The places of the main thread. `completeQueue` is called twice, by `processStep` and by the
destructor; it looks at the workers in turn. -/
inductive Main where
  | queue
  | waitRoom
  | complete (call : Bool)
  | waitDrained (call : Bool)
  | scan (call : Bool) (i : ℕ)
  | waitCompleted (call : Bool) (i : ℕ)
  | terminating
  | joining
  | done
  deriving DecidableEq

/-- The places of a worker, with the number of its job. -/
inductive Worker (S : Type*) where
  | ready
  | asleep
  | decoding (k : ℕ)
  | entering (k : ℕ)
  | waiting (k : ℕ)
  | woken (k : ℕ)
  | passed (k : ℕ)
  | handling (k : ℕ) (seen : S)
  | handled (k : ℕ)
  | returning
  | exited

namespace Worker

/-- The job that is not yet done. -/
def held : Worker S → Option ℕ
  | .decoding k | .entering k | .waiting k | .woken k | .passed k | .handling k _ | .handled k => some k
  | _ => none

/-- The job whose turn it is. -/
def turn : Worker S → Option ℕ
  | .passed k | .handling k _ | .handled k => some k
  | _ => none

def isBusy : Worker S → Bool
  | .ready | .asleep | .exited => false
  | _ => true

def isAsleep : Worker S → Bool
  | .asleep => true
  | _ => false

def isExited : Worker S → Bool
  | .exited => true
  | _ => false

/-- The signal to the worker that waits for number `k`. -/
def call (k : ℕ) : Worker S → Worker S
  | .waiting j => if j = k then .woken j else .waiting j
  | w => w

end Worker

/-- The pool, with the handler's number and what it has written. -/
structure Pool (n : ℕ) (S : Type*) where
  main : Main
  next : ℕ
  queue : List ℕ
  workers : Fin n → Worker S
  terminate : Bool
  expectedSeqN : ℕ
  sink : S

namespace Pool

def set (s : Pool n S) (i : Fin n) (w : Worker S) : Pool n S :=
  { s with workers := Function.update s.workers i w }

/-- The main thread as `cond_dequeued` leaves it. -/
def dequeued : Main → Main
  | .waitRoom => .queue
  | .waitDrained call => .complete call
  | m => m

/-- The main thread as `cond_completed` leaves it. -/
def completed : Main → Main
  | .waitCompleted call i => .scan call (i + 1)
  | m => m

variable (maxQueueSize : ℕ) (jobs : List J) (write : S → J → S)

/-- The first busy worker from number `i` on. -/
def busyFrom (s : Pool n S) (i : ℕ) : Option (Fin n) :=
  (List.finRange n).find? fun j => decide (i ≤ j.val) && (s.workers j).isBusy

/-- The rest of the loop of `completeQueue`. -/
def scanFrom (s : Pool n S) (call : Bool) (i : ℕ) : Main :=
  match s.busyFrom i with
  | some j => .waitCompleted call j
  | none => if call then .terminating else .complete true

/-- A step of the main thread, the queueing of a job excepted. -/
def mainStep (s : Pool n S) : Option (Pool n S) :=
  match s.main with
  | .queue =>
    if s.next < jobs.length then
      if maxQueueSize ≤ s.queue.length then some { s with main := .waitRoom } else none
    else some { s with main := .complete false }
  | .complete call =>
    if s.queue ≠ [] then some { s with main := .waitDrained call }
    else some { s with main := s.scanFrom call 0 }
  | .scan call i => some { s with main := s.scanFrom call i }
  | .terminating =>
    some { s with
      main := .joining
      terminate := true
      workers := fun i => if (s.workers i).isAsleep then .ready else s.workers i }
  | .joining => if ∀ i, (s.workers i).isExited then some { s with main := .done } else none
  | .waitRoom | .waitDrained _ | .waitCompleted _ _ | .done => none

/-- `queueTask` with room in the queue. The signal wakes a worker, if one is asleep. -/
def queueTask (s : Pool n S) (wake : Option (Fin n)) : Option (Pool n S) :=
  if s.main = .queue ∧ s.next < jobs.length ∧ s.queue.length < maxQueueSize then
    let s' := { s with next := s.next + 1, queue := s.queue ++ [s.next] }
    match wake with
    | some i => if (s.workers i).isAsleep then some (s'.set i .ready) else none
    | none => if ∀ i, (s.workers i).isAsleep = false then some s' else none
  else none

/-- A step of a worker. -/
def workStep (s : Pool n S) (i : Fin n) : Option (Pool n S) :=
  match s.workers i with
  | .ready =>
    if s.terminate then some (s.set i .exited)
    else
      match s.queue with
      | [] => some (s.set i .asleep)
      | k :: queue => some { s.set i (.decoding k) with queue := queue, main := dequeued s.main }
  | .decoding k => some (s.set i (.entering k))
  | .entering k | .woken k => some (s.set i (if k = s.expectedSeqN then .passed k else .waiting k))
  | .passed k => some (s.set i (.handling k s.sink))
  | .handling k seen =>
    (jobs[k]?).map fun job => { s.set i (.handled k) with sink := write seen job }
  | .handled _ =>
    some { s with
      expectedSeqN := s.expectedSeqN + 1
      workers := Function.update (fun j => (s.workers j).call (s.expectedSeqN + 1)) i .returning }
  | .returning => some { s.set i .ready with main := completed s.main }
  | .asleep | .waiting _ | .exited => none

/-- A thread leaves its condition variable although nobody woke it. -/
def spurious (s : Pool n S) : Option (Fin n) → Option (Pool n S)
  | none =>
    if dequeued (completed s.main) = s.main then none
    else some { s with main := dequeued (completed s.main) }
  | some i =>
    match s.workers i with
    | .asleep => some (s.set i .ready)
    | .waiting k => some (s.set i (.woken k))
    | _ => none

variable {maxQueueSize jobs write} {s s' : Pool n S} {i : Fin n}

/-- A step of a worker, by the place it is taken at. -/
inductive WorkStep (jobs : List J) (write : S → J → S) (s : Pool n S) (i : Fin n) : Pool n S → Prop where
  | exit : s.workers i = .ready → s.terminate = true → WorkStep jobs write s i (s.set i .exited)
  | sleep : s.workers i = .ready → s.terminate = false → s.queue = [] →
      WorkStep jobs write s i (s.set i .asleep)
  | take {k : ℕ} {queue : List ℕ} : s.workers i = .ready → s.terminate = false → s.queue = k :: queue →
      WorkStep jobs write s i { s.set i (.decoding k) with queue := queue, main := dequeued s.main }
  | decoded {k : ℕ} : s.workers i = .decoding k → WorkStep jobs write s i (s.set i (.entering k))
  | pass {k : ℕ} : s.workers i = .entering k ∨ s.workers i = .woken k → k = s.expectedSeqN →
      WorkStep jobs write s i (s.set i (.passed k))
  | wait {k : ℕ} : s.workers i = .entering k ∨ s.workers i = .woken k → k ≠ s.expectedSeqN →
      WorkStep jobs write s i (s.set i (.waiting k))
  | begin {k : ℕ} : s.workers i = .passed k → WorkStep jobs write s i (s.set i (.handling k s.sink))
  | finish {k : ℕ} {seen : S} {job : J} : s.workers i = .handling k seen → jobs[k]? = some job →
      WorkStep jobs write s i { s.set i (.handled k) with sink := write seen job }
  | release {k : ℕ} : s.workers i = .handled k →
      WorkStep jobs write s i { s with
        expectedSeqN := s.expectedSeqN + 1
        workers := Function.update (fun j => (s.workers j).call (s.expectedSeqN + 1)) i .returning }
  | returned : s.workers i = .returning →
      WorkStep jobs write s i { s.set i .ready with main := completed s.main }

theorem workStep_inv (h : s.workStep jobs write i = some s') : WorkStep jobs write s i s' := by
  have hpass : ∀ {k}, s.workers i = .entering k ∨ s.workers i = .woken k →
      s' = s.set i (if k = s.expectedSeqN then .passed k else .waiting k) → WorkStep jobs write s i s' := by
    intro k hw hs
    split_ifs at hs with he <;> rw [hs]
    · exact .pass hw he
    · exact .wait hw he
  unfold workStep at h
  split at h
  · split_ifs at h with ht
    · obtain rfl := Option.some.inj h
      exact .exit ‹_› ht
    · split at h <;> obtain rfl := Option.some.inj h
      · exact .sleep ‹_› (by simpa using ht) ‹_›
      · exact .take ‹_› (by simpa using ht) ‹_›
  · obtain rfl := Option.some.inj h
    exact .decoded ‹_›
  · exact hpass (.inl ‹_›) (Option.some.inj h).symm
  · exact hpass (.inr ‹_›) (Option.some.inj h).symm
  · obtain rfl := Option.some.inj h
    exact .begin ‹_›
  · obtain ⟨job, hjob, rfl⟩ := Option.map_eq_some_iff.mp h
    exact .finish ‹_› hjob
  · obtain rfl := Option.some.inj h
    exact .release ‹_›
  · obtain rfl := Option.some.inj h
    exact .returned ‹_›
  all_goals cases h

theorem WorkStep.eq_some (h : WorkStep jobs write s i s') : s.workStep jobs write i = some s' := by
  cases h with
  | exit hi ht => simp only [workStep, hi, ht, if_true]
  | sleep hi ht hq => simp only [workStep, hi, ht, hq, Bool.false_eq_true, if_false]
  | take hi ht hq => simp only [workStep, hi, ht, hq, Bool.false_eq_true, if_false]
  | decoded hi | begin hi | release hi | returned hi => simp only [workStep, hi]
  | pass hi hk => obtain hi | hi := hi <;> simp only [workStep, hi, if_pos hk]
  | wait hi hk => obtain hi | hi := hi <;> simp only [workStep, hi, if_neg hk]
  | finish hi hjob => simp only [workStep, hi, hjob, Option.map_some]

/-- A step of the main thread, by the place it is taken at. -/
inductive MainStep (maxQueueSize : ℕ) (jobs : List J) (s : Pool n S) : Pool n S → Prop where
  | full : s.main = .queue → s.next < jobs.length → maxQueueSize ≤ s.queue.length →
      MainStep maxQueueSize jobs s { s with main := .waitRoom }
  | queued : s.main = .queue → jobs.length ≤ s.next →
      MainStep maxQueueSize jobs s { s with main := .complete false }
  | undrained {call : Bool} : s.main = .complete call → s.queue ≠ [] →
      MainStep maxQueueSize jobs s { s with main := .waitDrained call }
  | drained {call : Bool} : s.main = .complete call → s.queue = [] →
      MainStep maxQueueSize jobs s { s with main := s.scanFrom call 0 }
  | scan {call : Bool} {i : ℕ} : s.main = .scan call i →
      MainStep maxQueueSize jobs s { s with main := s.scanFrom call i }
  | terminate : s.main = .terminating →
      MainStep maxQueueSize jobs s { s with
        main := .joining
        terminate := true
        workers := fun i => if (s.workers i).isAsleep then .ready else s.workers i }
  | join : s.main = .joining → (∀ i, (s.workers i).isExited = true) →
      MainStep maxQueueSize jobs s { s with main := .done }

theorem mainStep_inv (h : s.mainStep maxQueueSize jobs = some s') : MainStep maxQueueSize jobs s s' := by
  unfold mainStep at h
  split at h
  · split_ifs at h with hn hq <;> obtain rfl := Option.some.inj h
    · exact .full ‹_› hn hq
    · exact .queued ‹_› (not_lt.mp hn)
  · split_ifs at h with hq <;> obtain rfl := Option.some.inj h
    · exact .undrained ‹_› hq
    · exact .drained ‹_› (not_not.mp hq)
  · obtain rfl := Option.some.inj h
    exact .scan ‹_›
  · obtain rfl := Option.some.inj h
    exact .terminate ‹_›
  · split_ifs at h with he
    obtain rfl := Option.some.inj h
    exact .join ‹_› he
  all_goals cases h

theorem MainStep.eq_some (h : MainStep maxQueueSize jobs s s') :
    s.mainStep maxQueueSize jobs = some s' := by
  cases h with
  | full hm hn hq => simp only [mainStep, hm, if_pos hn, if_pos hq]
  | queued hm hn => simp only [mainStep, hm, if_neg (not_lt.mpr hn)]
  | undrained hm hq => simp only [mainStep, hm, if_pos hq]
  | drained hm hq => simp only [mainStep, hm, if_neg (not_not.mpr hq)]
  | scan hm | terminate hm => simp only [mainStep, hm]
  | join hm he => simp only [mainStep, hm, if_pos he]

theorem queueTask_inv {wake : Option (Fin n)} (h : s.queueTask maxQueueSize jobs wake = some s') :
    (s.main = .queue ∧ s.next < jobs.length ∧ s.queue.length < maxQueueSize) ∧
      ((∃ i, (s.workers i).isAsleep = true ∧
          s' = { s.set i .ready with next := s.next + 1, queue := s.queue ++ [s.next] }) ∨
        (∀ i, (s.workers i).isAsleep = false) ∧
          s' = { s with next := s.next + 1, queue := s.queue ++ [s.next] }) := by
  unfold queueTask at h
  by_cases hg : s.main = .queue ∧ s.next < jobs.length ∧ s.queue.length < maxQueueSize
  · rw [if_pos hg] at h
    refine ⟨hg, ?_⟩
    cases wake with
    | some i =>
      dsimp only at h
      split_ifs at h with ha
      exact .inl ⟨i, ha, (Option.some.inj h).symm⟩
    | none =>
      dsimp only at h
      split_ifs at h with ha
      exact .inr ⟨ha, (Option.some.inj h).symm⟩
  · rw [if_neg hg] at h
    cases h

theorem spurious_inv {who : Option (Fin n)} (h : s.spurious who = some s') :
    s' = { s with main := dequeued (completed s.main) } ∧ dequeued (completed s.main) ≠ s.main ∨
      (∃ i, s.workers i = .asleep ∧ s' = s.set i .ready) ∨
      ∃ i k, s.workers i = .waiting k ∧ s' = s.set i (.woken k) := by
  unfold spurious at h
  split at h
  · split_ifs at h with hm
    exact .inl ⟨(Option.some.inj h).symm, hm⟩
  · split at h
    · exact .inr (.inl ⟨_, ‹_›, (Option.some.inj h).symm⟩)
    · exact .inr (.inr ⟨_, _, ‹_›, (Option.some.inj h).symm⟩)
    · cases h

end Pool

inductive Event (n : ℕ) where
  | main
  | queueTask (wake : Option (Fin n))
  | work (i : Fin n)
  | spurious (i : Option (Fin n))

/-- The pool over a list of jobs, its handler starting from `start`. -/
def pool (n maxQueueSize : ℕ) (jobs : List J) (write : S → J → S) (start : S) :
    Machine (Pool n S) (Event n) where
  init s := s = ⟨.queue, 0, [], fun _ => .ready, false, 0, start⟩
  step s e :=
    match e with
    | .main => s.mainStep maxQueueSize jobs
    | .queueTask wake => s.queueTask maxQueueSize jobs wake
    | .work i => s.workStep jobs write i
    | .spurious i => s.spurious i

end GramsTof.Pipeline
