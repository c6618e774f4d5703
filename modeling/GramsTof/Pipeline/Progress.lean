import GramsTof.Pipeline.Places
import Mathlib.Algebra.Order.BigOperators.Group.Finset
import Mathlib.Tactic.Linarith

/-! The pool is never stuck and always done in the end: wherever its threads are,
one of them has a step that needs nobody to be woken for nothing, and a weight on
the places and the jobs bounds the number of such steps in any run. -/

namespace GramsTof.Pipeline

open Lib

variable {J S : Type*} {n maxQueueSize : ℕ} {jobs : List J} {write : S → J → S} {start : S}

/-- Steps nobody signalled. -/
def Event.isSpurious : Event n → Bool
  | .spurious _ => true
  | _ => false

namespace Worker

/-- The steps a worker may still take for its job, those it wakes others with included. -/
def weight : Worker S → ℕ
  | .exited | .asleep => 0
  | .ready => 1
  | .returning => 3
  | .handled _ => 5
  | .handling _ _ => 6
  | .passed _ => 7
  | .waiting _ => 8
  | .woken _ => 9
  | .entering _ => 10
  | .decoding _ => 11

end Worker

namespace Main

/-- The same for the main thread, which may still wake all `n` workers. -/
def weight (n : ℕ) : Main → ℕ
  | .done => 0
  | .joining => 1
  | .terminating => n + 3
  | .waitCompleted true _ => n + 4
  | .scan true _ => n + 5
  | .waitDrained true => n + 6
  | .complete true => n + 7
  | .waitCompleted false _ => n + 8
  | .scan false _ => n + 9
  | .waitDrained false => n + 10
  | .complete false => n + 11
  | .waitRoom => n + 12
  | .queue => n + 13

end Main

namespace Pool

variable {s s' : Pool n S} {i : Fin n}

/-! ### Some thread can always go on -/

/-- The worker with the number that is due does not wait. -/
theorem exists_workStep_of_expected (ho : OrderInv maxQueueSize jobs write start s)
    (hp : PlaceInv maxQueueSize jobs s) (hi : (s.workers i).held = some s.expectedSeqN) :
    ∃ s', WorkStep jobs write s i s' := by
  cases hw : s.workers i with
  | waiting k =>
    rw [hw] at hi
    exact absurd (Option.some.inj hi) (hp.waiting i k hw)
  | handling k seen =>
    have hlt : k < jobs.length := by
      have := (ho.held.range i k (by rw [hw]; rfl)).2
      have : s.taken ≤ s.next := Nat.sub_le ..
      have := ho.queue.next
      omega
    exact ⟨_, .finish hw (List.getElem?_eq_getElem hlt)⟩
  | decoding k => exact ⟨_, .decoded hw⟩
  | entering k =>
    rw [hw] at hi
    exact ⟨_, .pass (.inl hw) (Option.some.inj hi)⟩
  | woken k =>
    rw [hw] at hi
    exact ⟨_, .pass (.inr hw) (Option.some.inj hi)⟩
  | passed k => exact ⟨_, .begin hw⟩
  | handled k => exact ⟨_, .release hw⟩
  | ready | asleep | returning | exited =>
    rw [hw] at hi
    cases hi

theorem isBusy_cases {w : Worker S} (h : w.isBusy = true) : w = .returning ∨ ∃ k, w.held = some k := by
  cases w <;> first | exact .inl rfl | exact .inr ⟨_, rfl⟩ | cases h

/-- As long as a worker is busy, one of the workers goes on. -/
theorem exists_workStep_of_isBusy (ho : OrderInv maxQueueSize jobs write start s)
    (hp : PlaceInv maxQueueSize jobs s) (hi : (s.workers i).isBusy = true) :
    ∃ j s', WorkStep jobs write s j s' := by
  obtain hw | ⟨k, hk⟩ := isBusy_cases hi
  · exact ⟨i, _, .returned hw⟩
  · obtain ⟨hle, hlt⟩ := ho.held.range i k hk
    obtain ⟨j, hj⟩ := ho.held.all s.expectedSeqN le_rfl (hle.trans_lt hlt)
    exact ⟨j, exists_workStep_of_expected ho hp hj⟩

theorem isBusy_or (w : Worker S) :
    w.isBusy = true ∨ w = .ready ∨ w.isAsleep = true ∨ w.isExited = true := by
  cases w <;> simp [Worker.isBusy, Worker.isAsleep, Worker.isExited]

/-- A queue with jobs in it is being worked at. -/
theorem exists_workStep_of_queue (ho : OrderInv maxQueueSize jobs write start s)
    (hp : PlaceInv maxQueueSize jobs s) (hq : s.queue ≠ []) (hover : s.main.isOver = false) :
    ∃ j s', WorkStep jobs write s j s' := by
  have ht := hp.terminate.trans hover
  obtain ⟨i, hi⟩ := hp.awake hq
  obtain hb | hw | ha | he := isBusy_or (s.workers i)
  · exact exists_workStep_of_isBusy ho hp hb
  · obtain ⟨k, queue, hcons⟩ := List.exists_cons_of_ne_nil hq
    exact ⟨i, _, .take hw ht hcons⟩
  · exact absurd ha (by rw [hi]; nofun)
  · exact absurd (hp.exited i he) (by rw [ht]; nofun)

theorem exists_queueTask (hmain : s.main = .queue) (hlt : s.next < jobs.length)
    (hroom : s.queue.length < maxQueueSize) :
    ∃ wake s', s.queueTask maxQueueSize jobs wake = some s' := by
  by_cases ha : ∃ i, (s.workers i).isAsleep = true
  · obtain ⟨i, hi⟩ := ha
    refine ⟨some i, { s.set i .ready with next := s.next + 1, queue := s.queue ++ [s.next] }, ?_⟩
    rw [queueTask, if_pos ⟨hmain, hlt, hroom⟩]
    exact if_pos hi
  · have hnone : ∀ i, (s.workers i).isAsleep = false := by simpa using ha
    refine ⟨none, { s with next := s.next + 1, queue := s.queue ++ [s.next] }, ?_⟩
    rw [queueTask, if_pos ⟨hmain, hlt, hroom⟩]
    exact if_pos hnone

/-- While the pool is taken down, so does whoever has not left it. -/
theorem exists_workStep_of_over (ho : OrderInv maxQueueSize jobs write start s)
    (hp : PlaceInv maxQueueSize jobs s) (hover : s.main.isOver = true) (hi : (s.workers i).isExited ≠ true) :
    ∃ j s', WorkStep jobs write s j s' := by
  have ht := hp.terminate.trans hover
  obtain hb | hw | ha | he := isBusy_or (s.workers i)
  · exact exists_workStep_of_isBusy ho hp hb
  · exact ⟨i, _, .exit hw ht⟩
  · exact absurd (hp.asleep i ha) (by rw [ht]; nofun)
  · exact absurd he hi

end Pool

/-- Some thread goes on, unless the pool is done. -/
theorem exists_step {s : Pool n S} (hn : 0 < n) (hroom : 0 < maxQueueSize)
    (h : (pool n maxQueueSize jobs write start).Reachable s) (hdone : s.main ≠ .done) :
    ∃ e s', e.isSpurious = false ∧ (pool n maxQueueSize jobs write start).step s e = some s' := by
  have ho := order_inv h
  have hp := place_inv hn h
  have hmain : (∃ s', Pool.MainStep maxQueueSize jobs s s') →
      ∃ e s', e.isSpurious = false ∧ (pool n maxQueueSize jobs write start).step s e = some s' :=
    fun ⟨s', hs⟩ => ⟨.main, s', rfl, hs.eq_some⟩
  have hwork : (∃ j s', Pool.WorkStep jobs write s j s') →
      ∃ e s', e.isSpurious = false ∧ (pool n maxQueueSize jobs write start).step s e = some s' :=
    fun ⟨j, s', hs⟩ => ⟨.work j, s', rfl, hs.eq_some⟩
  cases hm : s.main with
  | queue =>
    by_cases hlt : s.next < jobs.length
    · by_cases hq : maxQueueSize ≤ s.queue.length
      · exact hmain ⟨_, .full hm hlt hq⟩
      · obtain ⟨wake, s', hs⟩ := Pool.exists_queueTask hm hlt (not_le.mp hq)
        exact ⟨.queueTask wake, s', rfl, hs⟩
    · exact hmain ⟨_, .queued hm (not_lt.mp hlt)⟩
  | waitRoom =>
    have hq : s.queue ≠ [] := List.ne_nil_of_length_pos (hroom.trans_le (hp.room hm))
    exact hwork (Pool.exists_workStep_of_queue ho hp hq (by rw [hm]; rfl))
  | complete call =>
    by_cases hq : s.queue = []
    · exact hmain ⟨_, .drained hm hq⟩
    · exact hmain ⟨_, .undrained hm hq⟩
  | waitDrained call =>
    exact hwork (Pool.exists_workStep_of_queue ho hp (hp.undrained call hm) (by rw [hm]; rfl))
  | scan call i => exact hmain ⟨_, .scan hm⟩
  | waitCompleted call i =>
    obtain ⟨j, hj⟩ := hp.busy call i hm
    exact hwork (Pool.exists_workStep_of_isBusy ho hp hj)
  | terminating => exact hmain ⟨_, .terminate hm⟩
  | joining =>
    by_cases he : ∀ i, (s.workers i).isExited = true
    · exact hmain ⟨_, .join hm he⟩
    · obtain ⟨i, hi⟩ := not_forall.mp he
      exact hwork (Pool.exists_workStep_of_over ho hp (by rw [hm]; rfl) hi)
  | done => exact absurd hm hdone

namespace Pool

variable {s s' : Pool n S} {i : Fin n}

/-! ### The weight of a state -/

/-- The jobs in the queue, and every thread at its place. -/
def load (s : Pool n S) : ℕ :=
  12 * s.queue.length + s.main.weight n + ∑ i, (s.workers i).weight

/-- The load with the jobs still to come. -/
def rank (jobs : List J) (s : Pool n S) : ℕ := 14 * (jobs.length - s.next) + s.load

theorem sum_update (workers : Fin n → Worker S) (i : Fin n) (w : Worker S) :
    ∑ j, (Function.update workers i w j).weight + (workers i).weight = ∑ j, (workers j).weight + w.weight := by
  have hupdate : (fun j => (Function.update workers i w j).weight) =
      Function.update (fun j => (workers j).weight) i w.weight := by
    funext j
    rw [Function.apply_update fun _ => Worker.weight]
  rw [hupdate, Finset.sum_update_of_mem (Finset.mem_univ i), ← Finset.add_sum_erase _ _ (Finset.mem_univ i),
    Finset.sdiff_singleton_eq_erase]
  omega

theorem weight_call (k : ℕ) (w : Worker S) (h : w ≠ .waiting k) : (w.call k).weight = w.weight := by
  obtain hw | ⟨rfl, -⟩ := Worker.call_cases k w
  · rw [hw]
  · exact absurd rfl h

/-- One worker at most is called. -/
theorem sum_call_le (h : HeldInv s) (k : ℕ) :
    ∑ j, ((s.workers j).call k).weight ≤ ∑ j, (s.workers j).weight + 1 := by
  by_cases hw : ∃ i, s.workers i = .waiting k
  · obtain ⟨i, hi⟩ := hw
    have hcall : (fun j => (s.workers j).call k) = Function.update s.workers i (.woken k) := by
      funext j
      by_cases hj : j = i
      · rw [hj, Function.update_self, hi, Worker.call, if_pos rfl]
      · rw [Function.update_of_ne hj]
        obtain heq | ⟨hjk, -⟩ := Worker.call_cases k (s.workers j)
        · exact heq
        · exact absurd (h.inj j i k (by rw [hjk]; rfl) (by rw [hi]; rfl)) hj
    have hsum := sum_update s.workers i (.woken k)
    rw [← hcall, hi] at hsum
    change ∑ j, ((s.workers j).call k).weight + 8 = ∑ j, (s.workers j).weight + 9 at hsum
    omega
  · rw [Finset.sum_congr rfl fun j _ => weight_call k (s.workers j) fun hj => hw ⟨j, hj⟩]
    omega

theorem sum_wake_le (s : Pool n S) :
    ∑ j, (if (s.workers j).isAsleep then Worker.ready else s.workers j).weight ≤
      ∑ j, (s.workers j).weight + n := by
  have hle : ∀ j, (if (s.workers j).isAsleep then Worker.ready else s.workers j).weight ≤
      (s.workers j).weight + 1 := by
    intro j
    split_ifs with ha
    · exact Nat.le_add_left ..
    · exact Nat.le_succ _
  calc ∑ j, (if (s.workers j).isAsleep then Worker.ready else s.workers j).weight
      ≤ ∑ j, ((s.workers j).weight + 1) := Finset.sum_le_sum fun j _ => hle j
    _ = ∑ j, (s.workers j).weight + n := by
      rw [Finset.sum_add_distrib, Finset.sum_const, Finset.card_univ, Fintype.card_fin, smul_eq_mul, mul_one]

theorem weight_dequeued_le (n : ℕ) (m : Main) : (dequeued m).weight n ≤ m.weight n + 1 := by
  obtain ⟨heq, -⟩ | ⟨rfl, heq⟩ | ⟨call, rfl, heq⟩ := dequeued_cases m
  · rw [heq]
    exact Nat.le_succ _
  · exact le_rfl
  · cases call <;> exact le_rfl

theorem weight_completed_le (n : ℕ) (m : Main) : (completed m).weight n ≤ m.weight n + 1 := by
  obtain heq | ⟨call, i, rfl, heq⟩ := completed_cases m
  · rw [heq]
    exact Nat.le_succ _
  · cases call <;> exact le_rfl

theorem rank_lt (hnext : s'.next = s.next) (hlt : s'.load < s.load) : s'.rank jobs < s.rank jobs := by
  rw [rank, rank, hnext]
  exact Nat.add_lt_add_left hlt _

/-- A step that moves one worker, with what else it moves. -/
theorem load_lt {w : Worker S} (hworkers : s'.workers = Function.update s.workers i w)
    (hlt : 12 * s'.queue.length + s'.main.weight n + w.weight <
      12 * s.queue.length + s.main.weight n + (s.workers i).weight) : s'.load < s.load := by
  have hsum := sum_update s.workers i w
  rw [← hworkers] at hsum
  rw [load, load]
  omega

theorem rank_set {w : Worker S} (hlt : w.weight < (s.workers i).weight) :
    (s.set i w).rank jobs < s.rank jobs :=
  rank_lt rfl (load_lt rfl (Nat.add_lt_add_left hlt _))

/-- A step of the main thread alone. -/
theorem rank_move {main : Main} (hlt : main.weight n < s.main.weight n) :
    ({ s with main := main } : Pool n S).rank jobs < s.rank jobs :=
  rank_lt rfl (Nat.add_lt_add_right (Nat.add_lt_add_left hlt _) _)

theorem rank_workStep (ho : HeldInv s) (hs : WorkStep jobs write s i s') : s'.rank jobs < s.rank jobs := by
  cases hs with
  | exit hi _ | sleep hi _ _ | decoded hi | begin hi =>
    refine rank_set ?_
    rw [hi]
    simp only [Worker.weight, Nat.reduceLT]
  | pass hi _ | wait hi _ =>
    refine rank_set ?_
    obtain hi | hi := hi <;> rw [hi] <;> simp only [Worker.weight, Nat.reduceLT]
  | @take k queue hi _ hq =>
    refine rank_lt rfl (load_lt (w := .decoding k) rfl ?_)
    have := weight_dequeued_le n s.main
    have hlen : s.queue.length = queue.length + 1 := by rw [hq, List.length_cons]
    rw [hi, hlen]
    change 12 * queue.length + (dequeued s.main).weight n + 11 < 12 * (queue.length + 1) + s.main.weight n + 1
    omega
  | @finish k _ _ hi _ =>
    refine rank_lt rfl (load_lt (w := .handled k) rfl (Nat.add_lt_add_left ?_ _))
    rw [hi]
    exact Nat.lt_succ_self 5
  | release hi =>
    have hcall := sum_call_le ho (s.expectedSeqN + 1)
    have hsum := sum_update (fun j => (s.workers j).call (s.expectedSeqN + 1)) i .returning
    rw [hi] at hsum
    change _ + 5 = _ + 3 at hsum
    have hless : ∑ j, (Function.update (fun j => (s.workers j).call (s.expectedSeqN + 1)) i
        .returning j).weight < ∑ j, (s.workers j).weight := by omega
    exact rank_lt rfl (Nat.add_lt_add_left hless _)
  | returned hi =>
    refine rank_lt rfl (load_lt (w := .ready) rfl ?_)
    have := weight_completed_le n s.main
    rw [hi]
    change 12 * s.queue.length + (completed s.main).weight n + 1 < 12 * s.queue.length + s.main.weight n + 3
    omega

theorem weight_scanFrom_lt (s : Pool n S) (call : Bool) (k : ℕ) :
    (s.scanFrom call k).weight n < (Main.scan call k).weight n := by
  obtain ⟨j, -, heq⟩ | ⟨rfl, heq⟩ | ⟨rfl, heq⟩ := s.scanFrom_cases call k <;> rw [heq]
  · cases call <;> simp only [Main.weight, Nat.add_lt_add_iff_left, Nat.reduceLT]
  all_goals simp only [Main.weight, Nat.add_lt_add_iff_left, Nat.reduceLT]

theorem rank_mainStep (hs : MainStep maxQueueSize jobs s s') : s'.rank jobs < s.rank jobs := by
  cases hs with
  | full hm _ _ | queued hm _ =>
    refine rank_move ?_
    rw [hm]
    simp only [Main.weight, Nat.add_lt_add_iff_left, Nat.reduceLT]
  | @undrained call hm _ =>
    refine rank_move ?_
    rw [hm]
    cases call <;> simp only [Main.weight, Nat.add_lt_add_iff_left, Nat.reduceLT]
  | @drained call hm _ =>
    refine rank_move ((s.weight_scanFrom_lt call 0).trans ?_)
    rw [hm]
    cases call <;> simp only [Main.weight, Nat.add_lt_add_iff_left, Nat.reduceLT]
  | @scan call k hm =>
    refine rank_move ?_
    rw [hm]
    exact s.weight_scanFrom_lt call k
  | terminate hm =>
    have hwake := s.sum_wake_le
    have hmain : s.main.weight n = n + 3 := by rw [hm]; rfl
    refine rank_lt rfl ?_
    change 12 * s.queue.length + 1 +
      ∑ j, (if (s.workers j).isAsleep then Worker.ready else s.workers j).weight < s.load
    rw [load]
    omega
  | join hm _ =>
    refine rank_move ?_
    rw [hm]
    simp only [Main.weight, Nat.reduceLT]

theorem rank_queueTask {wake : Option (Fin n)} (hs : s.queueTask maxQueueSize jobs wake = some s') :
    s'.rank jobs < s.rank jobs := by
  obtain ⟨⟨-, hlt, -⟩, hs⟩ := queueTask_inv hs
  have hsum : s'.next = s.next + 1 ∧ s'.queue.length = s.queue.length + 1 ∧ s'.main = s.main ∧
      ∑ j, (s'.workers j).weight ≤ ∑ j, (s.workers j).weight + 1 := by
    obtain ⟨i, ha, rfl⟩ | ⟨-, rfl⟩ := hs
    · have hset := sum_update s.workers i .ready
      rw [Worker.eq_asleep ha] at hset
      exact ⟨rfl, List.length_append, rfl, hset.le⟩
    · exact ⟨rfl, List.length_append, rfl, Nat.le_succ _⟩
  obtain ⟨hnext, hlen, hmain, hsum⟩ := hsum
  rw [rank, rank, load, load, hnext, hlen, hmain]
  omega

theorem rank_spurious {who : Option (Fin n)} (hs : s.spurious who = some s') :
    s'.rank jobs ≤ s.rank jobs + 1 := by
  have hset : ∀ i w, w.weight = (s.workers i).weight + 1 → (s.set i w).rank jobs ≤ s.rank jobs + 1 := by
    intro i w hw
    have hsum := sum_update s.workers i w
    have hless : ∑ j, ((s.set i w).workers j).weight = ∑ j, (s.workers j).weight + 1 := by
      change ∑ j, (Function.update s.workers i w j).weight = _
      omega
    rw [rank, rank, load, load, hless]
    exact le_rfl
  obtain ⟨rfl, -⟩ | ⟨i, hi, rfl⟩ | ⟨i, k, hi, rfl⟩ := spurious_inv hs
  · have hmain : (dequeued (completed s.main)).weight n ≤ s.main.weight n + 1 := by
      obtain heq | ⟨call, i, -, heq⟩ := completed_cases s.main
      · rw [heq]
        exact weight_dequeued_le n s.main
      · have hle := weight_completed_le n s.main
        rw [heq] at hle ⊢
        exact hle
    rw [rank, rank, load, load]
    dsimp only
    omega
  · exact hset i _ (by rw [hi]; rfl)
  · exact hset i _ (by rw [hi]; rfl)

end Pool

theorem rank_step {s s' : Pool n S} {e : Event n} (h : (pool n maxQueueSize jobs write start).Reachable s)
    (hs : (pool n maxQueueSize jobs write start).step s e = some s') (he : e.isSpurious = false) :
    s'.rank jobs < s.rank jobs := by
  cases e with
  | main => exact Pool.rank_mainStep (Pool.mainStep_inv hs)
  | queueTask wake => exact Pool.rank_queueTask hs
  | work i => exact Pool.rank_workStep (order_inv h).held (Pool.workStep_inv hs)
  | spurious who => cases he

/-- The pool can be run to its end from wherever it is. -/
theorem exists_done {s : Pool n S} (hn : 0 < n) (hroom : 0 < maxQueueSize)
    (h : (pool n maxQueueSize jobs write start).Reachable s) :
    ∃ s', (pool n maxQueueSize jobs write start).Reachable s' ∧ s'.main = .done := by
  induction hr : s.rank jobs using Nat.strong_induction_on generalizing s with
  | _ r ih =>
    by_cases hdone : s.main = .done
    · exact ⟨s, h, hdone⟩
    · obtain ⟨e, s', he, hs⟩ := exists_step hn hroom h hdone
      exact ih _ (hr ▸ rank_step h hs he) (.step h trivial hs) rfl

theorem rank_init {s : Pool n S} (h0 : (pool n maxQueueSize jobs write start).init s) :
    s.rank jobs = 14 * jobs.length + 2 * n + 13 := by
  obtain rfl := h0
  have hsum : ∑ _i : Fin n, (Worker.ready (S := S)).weight = n := by
    rw [Finset.sum_const, Finset.card_univ, Fintype.card_fin, smul_eq_mul]
    exact Nat.mul_one n
  rw [Pool.rank, Pool.load]
  dsimp only [List.length_nil, Main.weight]
  rw [hsum]
  omega

/-- There are no more steps than the jobs and the workers account for, those nobody signalled and
what they cause excepted. -/
theorem steps_le {s s' : Pool n S} {es : List (Event n)}
    (h0 : (pool n maxQueueSize jobs write start).init s)
    (h : (pool n maxQueueSize jobs write start).Steps (fun _ _ => True) s es s') :
    es.countP (fun e => !e.isSpurious) ≤ 14 * jobs.length + 2 * n + 13 + es.countP Event.isSpurious := by
  have hbound := h.potential (Pool.rank jobs) Event.isSpurious h0
    (fun t e u ht hs he => rank_step ht hs he) fun t e u _ hs he => by
      cases e with
      | spurious who => exact Pool.rank_spurious hs
      | main | queueTask _ | work _ => cases he
  rw [rank_init h0] at hbound
  omega

/-- No run gets stuck, and none goes on for ever: until the pool is done some thread has a step that
nobody has to be woken for nothing for, and there are only so many such steps. -/
theorem runs_complete {s s' : Pool n S} {es : List (Event n)} (hn : 0 < n) (hroom : 0 < maxQueueSize)
    (h0 : (pool n maxQueueSize jobs write start).init s)
    (h : (pool n maxQueueSize jobs write start).Steps (fun _ _ => True) s es s') :
    es.countP (fun e => !e.isSpurious) ≤ 14 * jobs.length + 2 * n + 13 + es.countP Event.isSpurious ∧
      (s'.main ≠ .done → ∃ e s'', e.isSpurious = false ∧
        (pool n maxQueueSize jobs write start).step s' e = some s'') :=
  ⟨steps_le h0 h, exists_step hn hroom (h.reachable h0)⟩

theorem runs_complete_sample :
    ∃ s, samplePool.Steps (fun _ _ => True) ⟨.queue, 0, [], fun _ => .ready, false, 0, []⟩
        (sampleRun.take 9) s ∧
      (sampleRun.take 9).countP (fun e => !e.isSpurious) ≤ 45 ∧
      ∃ e s', e.isSpurious = false ∧ samplePool.step s e = some s' := by
  obtain ⟨s, hs⟩ : ∃ s, samplePool.run ⟨.queue, 0, [], fun _ => .ready, false, 0, []⟩
      (sampleRun.take 9) = some s := ⟨_, rfl⟩
  have hsteps := Machine.Steps.of_run hs
  obtain ⟨hle, hgo⟩ := runs_complete (by decide) (by decide) rfl hsteps
  refine ⟨s, hsteps, hle, hgo ?_⟩
  have hmain : (samplePool.run ⟨.queue, 0, [], fun _ => .ready, false, 0, []⟩
      (sampleRun.take 9)).all (fun s => decide (s.main ≠ .done)) = true := by decide
  rw [hs] at hmain
  exact of_decide_eq_true hmain

end GramsTof.Pipeline
