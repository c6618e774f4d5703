import GramsTof.Pipeline.Order

/-! Where the threads of the pool can be at once: a queue with jobs in it is never left
to workers that are all asleep, the main thread waits only for what some worker is
still to do, and once the pool is taken down nothing is left in it. From this and the
order of the jobs, what the pool has written when it is done. -/

namespace GramsTof.Pipeline

open Lib

variable {J S : Type*} {n maxQueueSize : ℕ} {jobs : List J} {write : S → J → S} {start : S}

namespace Main

/-- `queueTask` is still to be called. -/
def isQueueing : Main → Bool
  | .queue | .waitRoom => true
  | _ => false

/-- The queue was seen empty, and is not looked at again. -/
def isDrained : Main → Bool
  | .scan _ _ | .waitCompleted _ _ | .terminating | .joining | .done => true
  | _ => false

/-- `terminate` is set. -/
def isOver : Main → Bool
  | .joining | .done => true
  | _ => false

end Main

namespace Worker

@[simp] theorem isAsleep_call (k : ℕ) (w : Worker S) : (w.call k).isAsleep = w.isAsleep := by
  obtain h | ⟨rfl, h⟩ := call_cases k w <;> rw [h]
  rfl

@[simp] theorem isBusy_call (k : ℕ) (w : Worker S) : (w.call k).isBusy = w.isBusy := by
  obtain h | ⟨rfl, h⟩ := call_cases k w <;> rw [h]
  rfl

@[simp] theorem isExited_call (k : ℕ) (w : Worker S) : (w.call k).isExited = w.isExited := by
  obtain h | ⟨rfl, h⟩ := call_cases k w <;> rw [h]
  rfl

/-- The worker that waits for `k` does not wait on. -/
theorem call_ne (k : ℕ) (w : Worker S) : w.call k ≠ .waiting k := by
  intro h
  unfold call at h
  split at h
  · split_ifs at h with hj
    exact hj (Worker.waiting.inj h)
  · rename_i hw
    exact hw k h

theorem waiting_of_call {k l : ℕ} {w : Worker S} (h : w.call k = .waiting l) : w = .waiting l ∧ l ≠ k := by
  obtain hw | ⟨rfl, hw⟩ := call_cases k w
  · exact ⟨hw.symm.trans h, fun hl => call_ne k w (hl ▸ h)⟩
  · rw [hw] at h
    cases h

theorem held_of_exited {w : Worker S} (h : w.isExited = true) : w.held = none := by
  cases w <;> first | rfl | cases h

end Worker

namespace Pool

variable {s s' : Pool n S} {i : Fin n}

/-- The threads' places. -/
structure PlaceInv (maxQueueSize : ℕ) (jobs : List J) (s : Pool n S) : Prop where
  room : s.main = .waitRoom → maxQueueSize ≤ s.queue.length
  undrained : ∀ call, s.main = .waitDrained call → s.queue ≠ []
  busy : ∀ call i, s.main = .waitCompleted call i → ∃ j : Fin n, (s.workers j).isBusy = true
  queued : s.main.isQueueing = false → s.next = jobs.length
  drained : s.main.isDrained = true → s.queue = []
  terminate : s.terminate = s.main.isOver
  awake : s.queue ≠ [] → ∃ i, (s.workers i).isAsleep = false
  asleep : ∀ i, (s.workers i).isAsleep = true → s.terminate = false
  exited : ∀ i, (s.workers i).isExited = true → s.terminate = true
  waiting : ∀ i k, s.workers i = .waiting k → k ≠ s.expectedSeqN
  done : s.main = .done → ∀ i, (s.workers i).isExited = true

/-- A worker goes to its next place, and neither empties the queue nor leaves the pool. -/
theorem PlaceInv.set (h : PlaceInv maxQueueSize jobs s) {w : Worker S}
    (hhere : (s.workers i).isExited = false)
    (hasleep : w.isAsleep = true → s.queue = [] ∧ s.terminate = false)
    (hexited : w.isExited = true → s.terminate = true)
    (hbusy : (∃ call k, s.main = .waitCompleted call k) → (s.workers i).isBusy = true → w.isBusy = true)
    (hwaiting : ∀ k, w = .waiting k → k ≠ s.expectedSeqN) : PlaceInv maxQueueSize jobs (s.set i w) where
  room := h.room
  undrained := h.undrained
  busy call k hmain := by
    obtain ⟨j, hj⟩ := h.busy call k hmain
    by_cases hji : j = i
    · exact ⟨i, by rw [set_workers_self, hbusy ⟨call, k, hmain⟩ (hji ▸ hj)]⟩
    · exact ⟨j, by rw [set_workers_ne hji, hj]⟩
  queued := h.queued
  drained := h.drained
  terminate := h.terminate
  awake hq := by
    obtain ⟨j, hj⟩ := h.awake hq
    by_cases hji : j = i
    · refine ⟨i, ?_⟩
      rw [set_workers_self, Bool.eq_false_iff]
      exact fun hw => hq (hasleep hw).1
    · exact ⟨j, by rw [set_workers_ne hji, hj]⟩
  asleep j hj := by
    by_cases hji : j = i
    · rw [hji, set_workers_self] at hj
      exact (hasleep hj).2
    · rw [set_workers_ne hji] at hj
      exact h.asleep j hj
  exited j hj := by
    by_cases hji : j = i
    · rw [hji, set_workers_self] at hj
      exact hexited hj
    · rw [set_workers_ne hji] at hj
      exact h.exited j hj
  waiting j k hj := by
    by_cases hji : j = i
    · rw [hji, set_workers_self] at hj
      exact hwaiting k hj
    · rw [set_workers_ne hji] at hj
      exact h.waiting j k hj
  done hmain := by
    have := h.done hmain i
    rw [hhere] at this
    cases this

/-- A worker that is inside a job stays inside it. -/
theorem PlaceInv.inside (h : PlaceInv maxQueueSize jobs s) {w : Worker S}
    (hi : (s.workers i).isBusy = true) (hw : w.isBusy = true)
    (hwaiting : ∀ k, w = .waiting k → k ≠ s.expectedSeqN) : PlaceInv maxQueueSize jobs (s.set i w) := by
  refine h.set ?_ (fun ha => ?_) (fun he => ?_) (fun _ _ => hw) hwaiting
  · cases hworker : s.workers i <;> first | rfl | (rw [hworker] at hi; cases hi)
  · rw [Worker.eq_asleep ha] at hw
    cases hw
  · cases w <;> cases he
    cases hw

/-- What is at the sink is nobody's place. -/
theorem PlaceInv.written (h : PlaceInv maxQueueSize jobs s) (sink : S) :
    PlaceInv maxQueueSize jobs { s with sink := sink } :=
  ⟨h.room, h.undrained, h.busy, h.queued, h.drained, h.terminate, h.awake, h.asleep, h.exited, h.waiting,
    h.done⟩

/-- The main thread moves on. -/
theorem PlaceInv.move (h : PlaceInv maxQueueSize jobs s) {main : Main}
    (hroom : main = .waitRoom → maxQueueSize ≤ s.queue.length)
    (hundrained : ∀ call, main = .waitDrained call → s.queue ≠ [])
    (hbusy : ∀ call i, main = .waitCompleted call i → ∃ j : Fin n, (s.workers j).isBusy = true)
    (hqueued : main.isQueueing = false → s.next = jobs.length)
    (hdrained : main.isDrained = true → s.queue = [])
    (hover : main.isOver = s.main.isOver)
    (hdone : main = .done → ∀ i, (s.workers i).isExited = true) :
    PlaceInv maxQueueSize jobs { s with main := main } :=
  ⟨hroom, hundrained, hbusy, hqueued, hdrained, h.terminate.trans hover.symm, h.awake, h.asleep, h.exited,
    h.waiting, hdone⟩

theorem completed_cases (m : Main) :
    completed m = m ∨ ∃ call i, m = .waitCompleted call i ∧ completed m = .scan call (i + 1) := by
  cases m <;> first | exact .inl rfl | exact .inr ⟨_, _, rfl, rfl⟩

theorem dequeued_cases (m : Main) :
    dequeued m = m ∧ m ≠ .waitRoom ∧ (∀ call, m ≠ .waitDrained call) ∨ m = .waitRoom ∧ dequeued m = .queue ∨
      ∃ call, m = .waitDrained call ∧ dequeued m = .complete call := by
  cases m <;> first | exact .inl ⟨rfl, nofun, nofun⟩ | exact .inr (.inl ⟨rfl, rfl⟩)
                    | exact .inr (.inr ⟨_, rfl, rfl⟩)

theorem PlaceInv.of_completed (h : PlaceInv maxQueueSize jobs s) :
    PlaceInv maxQueueSize jobs { s with main := completed s.main } := by
  obtain heq | ⟨call, i, hmain, heq⟩ := completed_cases s.main <;> rw [heq]
  · exact h
  · exact h.move nofun nofun nofun (fun _ => h.queued (by rw [hmain]; rfl))
      (fun _ => h.drained (by rw [hmain]; rfl)) (by rw [hmain]; rfl) nofun

/-- The main thread looks at the queue again. -/
theorem PlaceInv.of_dequeued (h : PlaceInv maxQueueSize jobs s) :
    PlaceInv maxQueueSize jobs { s with main := dequeued s.main } := by
  obtain ⟨heq, -⟩ | ⟨hmain, heq⟩ | ⟨call, hmain, heq⟩ := dequeued_cases s.main <;> rw [heq]
  · exact h
  · exact h.move nofun nofun nofun nofun nofun (by rw [hmain]; rfl) nofun
  · exact h.move nofun nofun nofun (fun _ => h.queued (by rw [hmain]; rfl)) nofun (by rw [hmain]; rfl) nofun

/-- A worker takes the first job, and the main thread looks at the queue again. -/
theorem PlaceInv.take (h : PlaceInv maxQueueSize jobs s) {k : ℕ} {queue : List ℕ}
    (hi : s.workers i = .ready) (hq : s.queue = k :: queue) :
    PlaceInv maxQueueSize jobs { s.set i (.decoding k) with queue := queue, main := dequeued s.main } := by
  have hset : PlaceInv maxQueueSize jobs (s.set i (.decoding k)) :=
    h.set (by rw [hi]; rfl) nofun nofun (fun _ _ => rfl) nofun
  have hmain := hset.of_dequeued
  have hne : s.queue ≠ [] := by rw [hq]; exact List.cons_ne_nil k queue
  refine ⟨fun hr => ?_, fun call hr => ?_, hmain.busy, hmain.queued, fun hd => ?_, hmain.terminate,
    fun _ => ⟨i, ?_⟩, hmain.asleep, hmain.exited, hmain.waiting, hmain.done⟩
  · obtain ⟨heq, hm, -⟩ | ⟨-, heq⟩ | ⟨_, -, heq⟩ := dequeued_cases s.main
    · exact absurd (heq.symm.trans hr) hm
    · cases heq.symm.trans hr
    · cases heq.symm.trans hr
  · obtain ⟨heq, -, hm⟩ | ⟨-, heq⟩ | ⟨_, -, heq⟩ := dequeued_cases s.main
    · exact absurd (heq.symm.trans hr) (hm call)
    · cases heq.symm.trans hr
    · cases heq.symm.trans hr
  · exact absurd (hmain.drained hd) hne
  · exact congrArg Worker.isAsleep (set_workers_self s i (.decoding k))

/-- The next number is due. -/
theorem PlaceInv.release (h : PlaceInv maxQueueSize jobs s) {k : ℕ} (hi : s.workers i = .handled k) :
    PlaceInv maxQueueSize jobs { s with
      expectedSeqN := s.expectedSeqN + 1
      workers := Function.update (fun j => (s.workers j).call (s.expectedSeqN + 1)) i .returning } := by
  have hcall : PlaceInv maxQueueSize jobs { s with
      expectedSeqN := s.expectedSeqN + 1
      workers := fun j => (s.workers j).call (s.expectedSeqN + 1) } := by
    refine ⟨h.room, h.undrained, ?_, h.queued, h.drained, h.terminate, ?_, ?_, ?_, ?_, ?_⟩
    · simpa only [Worker.isBusy_call] using h.busy
    · simpa only [Worker.isAsleep_call] using h.awake
    · simpa only [Worker.isAsleep_call] using h.asleep
    · simpa only [Worker.isExited_call] using h.exited
    · exact fun j l hj => (Worker.waiting_of_call hj).2
    · simpa only [Worker.isExited_call] using h.done
  refine hcall.inside (i := i) (w := .returning) ?_ rfl nofun
  rw [Worker.isBusy_call, hi]
  rfl

theorem PlaceInv.workStep (h : PlaceInv maxQueueSize jobs s) (hs : WorkStep jobs write s i s') :
    PlaceInv maxQueueSize jobs s' := by
  cases hs with
  | exit hi ht => exact h.set (by rw [hi]; rfl) nofun (fun _ => ht) (fun _ hb => by rw [hi] at hb; cases hb) nofun
  | sleep hi ht hq =>
    exact h.set (by rw [hi]; rfl) (fun _ => ⟨hq, ht⟩) nofun (fun _ hb => by rw [hi] at hb; cases hb) nofun
  | take hi _ hq => exact h.take hi hq
  | decoded hi | begin hi => exact h.inside (by rw [hi]; rfl) rfl nofun
  | pass hi _ => exact h.inside (by obtain hi | hi := hi <;> rw [hi] <;> rfl) rfl nofun
  | wait hi hne =>
    refine h.inside (by obtain hi | hi := hi <;> rw [hi] <;> rfl) rfl fun l hl => ?_
    obtain rfl := Worker.waiting.inj hl
    exact hne
  | @finish k _ _ hi _ => exact (h.inside (i := i) (w := .handled k) (by rw [hi]; rfl) rfl nofun).written _
  | release hi => exact h.release hi
  | returned hi =>
    refine h.of_completed.set (i := i) (w := .ready) ?_ nofun nofun (fun hw _ => ?_) nofun
    · rw [hi]
      rfl
    · obtain ⟨call, k, hmain⟩ := hw
      obtain heq | ⟨_, _, -, heq⟩ := completed_cases s.main
      · rw [heq.symm.trans hmain] at heq
        cases heq
      · cases heq.symm.trans hmain

theorem busyFrom_isBusy {k : ℕ} {j : Fin n} (h : s.busyFrom k = some j) : (s.workers j).isBusy = true := by
  have hp := List.find?_some h
  exact (Bool.and_eq_true_iff.mp hp).2

theorem scanFrom_cases (s : Pool n S) (call : Bool) (k : ℕ) :
    (∃ j : Fin n, (s.workers j).isBusy = true ∧ s.scanFrom call k = .waitCompleted call j) ∨
      call = true ∧ s.scanFrom call k = .terminating ∨ call = false ∧ s.scanFrom call k = .complete true := by
  unfold scanFrom
  cases hj : s.busyFrom k with
  | some j => exact .inl ⟨j, busyFrom_isBusy hj, rfl⟩
  | none => cases call <;> simp

theorem PlaceInv.of_scan (h : PlaceInv maxQueueSize jobs s) (call : Bool) (k : ℕ) (hq : s.queue = [])
    (hnext : s.next = jobs.length) (hover : s.main.isOver = false) :
    PlaceInv maxQueueSize jobs { s with main := s.scanFrom call k } := by
  obtain ⟨j, hj, heq⟩ | ⟨-, heq⟩ | ⟨-, heq⟩ := s.scanFrom_cases call k <;> rw [heq]
  · exact h.move nofun nofun (fun _ _ _ => ⟨j, hj⟩) (fun _ => hnext) (fun _ => hq) hover.symm nofun
  · exact h.move nofun nofun nofun (fun _ => hnext) (fun _ => hq) hover.symm nofun
  · exact h.move nofun nofun nofun (fun _ => hnext) (fun _ => hq) hover.symm nofun

theorem PlaceInv.mainStep (h : PlaceInv maxQueueSize jobs s) (hbound : s.next ≤ jobs.length)
    (hs : MainStep maxQueueSize jobs s s') : PlaceInv maxQueueSize jobs s' := by
  cases hs with
  | full hmain _ hq => exact h.move (fun _ => hq) nofun nofun nofun nofun (by rw [hmain]; rfl) nofun
  | queued hmain hlen =>
    exact h.move nofun nofun nofun (fun _ => hbound.antisymm hlen) nofun (by rw [hmain]; rfl) nofun
  | undrained hmain hq =>
    exact h.move nofun (fun _ _ => hq) nofun (fun _ => h.queued (by rw [hmain]; rfl)) nofun
      (by rw [hmain]; rfl) nofun
  | drained hmain hq => exact h.of_scan _ _ hq (h.queued (by rw [hmain]; rfl)) (by rw [hmain]; rfl)
  | scan hmain =>
    exact h.of_scan _ _ (h.drained (by rw [hmain]; rfl)) (h.queued (by rw [hmain]; rfl))
      (by rw [hmain]; rfl)
  | terminate hmain =>
    have hq := h.drained (by rw [hmain]; rfl)
    refine ⟨nofun, nofun, nofun, fun _ => h.queued (by rw [hmain]; rfl), fun _ => hq, rfl,
      fun hne => absurd hq hne, fun i hi => ?_, fun _ _ => rfl, fun i k hi => ?_, nofun⟩
    · dsimp only at hi
      split_ifs at hi with ha
      · cases hi
      · exact absurd hi ha
    · dsimp only at hi
      split_ifs at hi
      exact h.waiting i k hi
  | join hmain he =>
    exact h.move nofun nofun nofun (fun _ => h.queued (by rw [hmain]; rfl))
      (fun _ => h.drained (by rw [hmain]; rfl)) (by rw [hmain]; rfl) (fun _ => he)

/-- A job is queued, and a worker is awake to take it. -/
theorem PlaceInv.enqueue (h : PlaceInv maxQueueSize jobs s) (hmain : s.main = .queue)
    (hawake : ∃ i, (s.workers i).isAsleep = false) :
    PlaceInv maxQueueSize jobs { s with next := s.next + 1, queue := s.queue ++ [s.next] } where
  room hr := by cases hmain.symm.trans hr
  undrained call hr := by cases hmain.symm.trans hr
  busy := h.busy
  queued hr := by rw [hmain] at hr; cases hr
  drained hr := by rw [hmain] at hr; cases hr
  terminate := h.terminate
  awake _ := hawake
  asleep := h.asleep
  exited := h.exited
  waiting := h.waiting
  done := h.done

theorem PlaceInv.queueTask {wake : Option (Fin n)} (h : PlaceInv maxQueueSize jobs s) (hn : 0 < n)
    (hs : s.queueTask maxQueueSize jobs wake = some s') : PlaceInv maxQueueSize jobs s' := by
  obtain ⟨⟨hmain, -, -⟩, ⟨i, ha, rfl⟩ | ⟨ha, rfl⟩⟩ := queueTask_inv hs
  · have hi := Worker.eq_asleep ha
    have hset : PlaceInv maxQueueSize jobs (s.set i .ready) :=
      h.set (by rw [hi]; rfl) nofun nofun (fun _ hb => by rw [hi] at hb; cases hb) nofun
    exact hset.enqueue hmain ⟨i, by rw [set_workers_self]; rfl⟩
  · exact h.enqueue hmain ⟨⟨0, hn⟩, ha _⟩

theorem PlaceInv.spurious {who : Option (Fin n)} (h : PlaceInv maxQueueSize jobs s)
    (hs : s.spurious who = some s') : PlaceInv maxQueueSize jobs s' := by
  obtain ⟨rfl, -⟩ | ⟨i, hi, rfl⟩ | ⟨i, k, hi, rfl⟩ := spurious_inv hs
  · exact h.of_completed.of_dequeued
  · exact h.set (by rw [hi]; rfl) nofun nofun (fun _ hb => by rw [hi] at hb; cases hb) nofun
  · exact h.inside (by rw [hi]; rfl) rfl nofun

theorem PlaceInv.init (hn : 0 < n) (start : S) :
    PlaceInv maxQueueSize jobs (⟨.queue, 0, [], fun _ => .ready, false, 0, start⟩ : Pool n S) :=
  ⟨nofun, nofun, nofun, nofun, nofun, rfl, fun _ => ⟨⟨0, hn⟩, rfl⟩, nofun, nofun, nofun, nofun⟩

/-- The pool taken down with every job written. -/
theorem sink_of_done (ho : OrderInv maxQueueSize jobs write start s) (hp : PlaceInv maxQueueSize jobs s)
    (hdone : s.main = .done) : s.sink = jobs.foldl write start := by
  have hnone : ∀ i, (s.workers i).held = none := fun i => Worker.held_of_exited (hp.done hdone i)
  have hall : s.expectedSeqN = s.taken := by
    by_contra hne
    obtain ⟨i, hi⟩ := ho.held.all _ le_rfl (lt_of_le_of_ne ho.held.expected hne)
    rw [hnone i] at hi
    cases hi
  have htaken : s.taken = jobs.length := by
    rw [taken, hp.drained (by rw [hdone]; rfl), hp.queued (by rw [hdone]; rfl)]
    rfl
  rw [ho.sink.idle fun i k hi => ?_, hall, htaken, List.take_length]
  have := Worker.held_of_turn (Worker.turn_of_writing hi)
  rw [hnone i] at this
  cases this

end Pool

theorem place_inv {s : Pool n S} (hn : 0 < n) (h : (pool n maxQueueSize jobs write start).Reachable s) :
    Pool.PlaceInv maxQueueSize jobs s := by
  suffices hboth : Pool.OrderInv maxQueueSize jobs write start s ∧ Pool.PlaceInv maxQueueSize jobs s from hboth.2
  refine ⟨order_inv h, ?_⟩
  induction h with
  | init h0 =>
    obtain rfl := h0
    exact .init hn start
  | @step s s' e hr _ hs ih =>
    cases e with
    | main => exact ih.mainStep (order_inv hr).queue.next (Pool.mainStep_inv hs)
    | queueTask wake => exact ih.queueTask hn hs
    | work i => exact ih.workStep (Pool.workStep_inv hs)
    | spurious who => exact ih.spurious hs

/-- At every moment of every run what has been written is what the first jobs write one after
another, with one worker at it at most; a pool that is done has written all of them. -/
theorem written_in_order {s : Pool n S} (hn : 0 < n)
    (h : (pool n maxQueueSize jobs write start).Reachable s) :
    (∃ k ≤ jobs.length, s.sink = (jobs.take k).foldl write start) ∧
      (∀ i j k l, (s.workers i).turn = some k → (s.workers j).turn = some l → i = j) ∧
      (s.main = .done → s.sink = jobs.foldl write start) := by
  have ho := order_inv h
  refine ⟨?_, fun i j k l hi hj => ho.held.turn_inj hj hi, Pool.sink_of_done ho (place_inv hn h)⟩
  have htaken : s.taken ≤ s.next := Nat.sub_le ..
  have hnext := ho.queue.next
  by_cases hw : ∃ i k, (s.workers i).writing = some (k, none)
  · obtain ⟨i, k, hik⟩ := hw
    have hrange := ho.held.range i k (Worker.held_of_turn (Worker.turn_of_writing hik))
    exact ⟨k + 1, by omega, ho.sink.handled i k hik⟩
  · have hexp := ho.held.expected
    exact ⟨s.expectedSeqN, by omega, ho.sink.idle fun i k hik => hw ⟨i, k, hik⟩⟩

/-- Two workers and two jobs. The second worker waits inside its job for the first one's. -/
def sampleRun : List (Event 2) :=
  [.queueTask none, .work 0, .queueTask none, .main, .main, .work 1, .main] ++
  [.work 1, .work 1, .work 0, .work 0, .work 0, .work 0, .work 0, .work 0, .work 0, .main] ++
  [.work 1, .work 1, .work 1, .work 1, .work 1, .main, .main, .main, .work 0, .work 1, .main]

/-- A pool whose jobs are noted as they are handled. -/
def samplePool : Machine (Pool 2 (List ℕ)) (Event 2) :=
  pool 2 1 [7, 9] (fun l job => l ++ [job]) []

theorem sampleRun_done : ∃ s, samplePool.Reachable s ∧ decide (s.main = .done) = true :=
  Machine.exists_reachable_of_run samplePool ⟨.queue, 0, [], fun _ => .ready, false, 0, []⟩ _ sampleRun rfl
    (by decide)

theorem written_in_order_sample :
    ∃ s, samplePool.Reachable s ∧ s.main = .done ∧ s.sink = [7, 9] := by
  obtain ⟨s, hs, hdone⟩ := sampleRun_done
  have hmain := of_decide_eq_true hdone
  exact ⟨s, hs, hmain, (written_in_order (by decide) hs).2.2 hmain⟩

end GramsTof.Pipeline
