import GramsTof.Pipeline.ThreadPool

/-! In every run of the pool the jobs are handled one at a time and in the order of
their numbers: a job whose turn has not come is held by one worker that waits for
it, and what is written is what the jobs write one after another. -/

namespace GramsTof.Pipeline

open Lib

variable {J S : Type*} {n maxQueueSize : ℕ} {jobs : List J} {write : S → J → S} {start : S}

namespace Worker

/-- The job at the sink: with what its worker has read of it, or written back already. -/
def writing : Worker S → Option (ℕ × Option S)
  | .handling k seen => some (k, some seen)
  | .handled k => some (k, none)
  | _ => none

/-- The signal only moves a worker that waits. -/
theorem call_cases (k : ℕ) (w : Worker S) : w.call k = w ∨ w = .waiting k ∧ w.call k = .woken k := by
  unfold call
  split
  · split_ifs with hj
    · exact .inr ⟨by rw [hj], by rw [hj]⟩
    · exact .inl rfl
  · exact .inl rfl

@[simp] theorem held_call (k : ℕ) (w : Worker S) : (w.call k).held = w.held := by
  obtain h | ⟨rfl, h⟩ := call_cases k w <;> rw [h]
  rfl

@[simp] theorem turn_call (k : ℕ) (w : Worker S) : (w.call k).turn = w.turn := by
  obtain h | ⟨rfl, h⟩ := call_cases k w <;> rw [h]
  rfl

@[simp] theorem writing_call (k : ℕ) (w : Worker S) : (w.call k).writing = w.writing := by
  obtain h | ⟨rfl, h⟩ := call_cases k w <;> rw [h]
  rfl

theorem eq_asleep {w : Worker S} (h : w.isAsleep = true) : w = .asleep := by
  cases w <;> first | rfl | cases h

/-- The broadcast shows only to those who look for sleepers. -/
theorem wake_congr {A : Type*} {f : Worker S → A} (hf : f .ready = f .asleep) (w : Worker S) :
    f (if w.isAsleep then .ready else w) = f w := by
  split_ifs with ha
  · rw [hf, eq_asleep ha]
  · rfl

theorem held_of_turn {w : Worker S} {k : ℕ} (h : w.turn = some k) : w.held = some k := by
  cases w <;> first | exact h | cases h

theorem turn_of_writing {w : Worker S} {k : ℕ} {seen : Option S} (h : w.writing = some (k, seen)) :
    w.turn = some k := by
  cases w <;> cases h <;> rfl

end Worker

namespace Pool

variable {s s' : Pool n S} {i : Fin n}

/-- The number of jobs taken from the queue. -/
def taken (s : Pool n S) : ℕ := s.next - s.queue.length

@[simp] theorem set_workers_self (s : Pool n S) (i : Fin n) (w : Worker S) :
    (s.set i w).workers i = w := Function.update_self ..

theorem set_workers_ne {j : Fin n} (h : j ≠ i) (w : Worker S) :
    (s.set i w).workers j = s.workers j := Function.update_of_ne h ..

/-- The queue is the run of numbers between the jobs taken and the jobs to come. -/
structure QueueInv (maxQueueSize : ℕ) (jobs : List J) (s : Pool n S) : Prop where
  next : s.next ≤ jobs.length
  length : s.queue.length ≤ s.next
  queue : s.queue = List.range' s.taken s.queue.length
  room : s.queue.length ≤ maxQueueSize

/-- Jobs in hand: those taken and not yet done, each with one worker. -/
structure HeldInv (s : Pool n S) : Prop where
  expected : s.expectedSeqN ≤ s.taken
  range : ∀ i k, (s.workers i).held = some k → s.expectedSeqN ≤ k ∧ k < s.taken
  inj : ∀ i j k, (s.workers i).held = some k → (s.workers j).held = some k → i = j
  all : ∀ k, s.expectedSeqN ≤ k → k < s.taken → ∃ i, (s.workers i).held = some k
  turn : ∀ i k, (s.workers i).turn = some k → k = s.expectedSeqN

/-- What has been written, by the worker whose turn it is or with nobody at it. -/
structure SinkInv (jobs : List J) (write : S → J → S) (start : S) (s : Pool n S) : Prop where
  handling : ∀ i k seen, (s.workers i).writing = some (k, some seen) → seen = s.sink
  handled : ∀ i k, (s.workers i).writing = some (k, none) → s.sink = (jobs.take (k + 1)).foldl write start
  idle : (∀ i k, (s.workers i).writing ≠ some (k, none)) → s.sink = (jobs.take s.expectedSeqN).foldl write start

/-- The three invariants. -/
structure OrderInv (maxQueueSize : ℕ) (jobs : List J) (write : S → J → S) (start : S) (s : Pool n S) :
    Prop where
  queue : QueueInv maxQueueSize jobs s
  held : HeldInv s
  sink : SinkInv jobs write start s

/-- Two workers never have their turn at once. -/
theorem HeldInv.turn_inj (h : HeldInv s) {j : Fin n} {k l : ℕ} (hi : (s.workers i).turn = some k)
    (hj : (s.workers j).turn = some l) : j = i := by
  obtain rfl : l = k := (h.turn j l hj).trans (h.turn i k hi).symm
  exact h.inj j i l (Worker.held_of_turn hj) (Worker.held_of_turn hi)

/-- The states agree on the jobs in hand. -/
structure Alike (s s' : Pool n S) : Prop where
  held : ∀ j, (s'.workers j).held = (s.workers j).held
  turn : ∀ j, (s'.workers j).turn = (s.workers j).turn
  taken : s'.taken = s.taken
  expectedSeqN : s'.expectedSeqN = s.expectedSeqN

theorem update_congr {A : Type*} {f : Worker S → A} {workers : Fin n → Worker S} {w : Worker S}
    (h : f w = f (workers i)) (j : Fin n) : f (Function.update workers i w j) = f (workers j) := by
  by_cases hj : j = i
  · rw [hj, Function.update_self, h]
  · rw [Function.update_of_ne hj]

theorem Alike.set {w : Worker S} (hheld : w.held = (s.workers i).held)
    (hturn : w.turn = (s.workers i).turn) : Alike s (s.set i w) :=
  ⟨update_congr hheld, update_congr hturn, rfl, rfl⟩

theorem HeldInv.congr (h : HeldInv s) (ha : Alike s s') : HeldInv s' := by
  refine ⟨?_, fun j k => ?_, fun j₁ j₂ k => ?_, fun k => ?_, fun j k => ?_⟩
  · rw [ha.expectedSeqN, ha.taken]
    exact h.expected
  · rw [ha.held, ha.expectedSeqN, ha.taken]
    exact h.range j k
  · rw [ha.held, ha.held]
    exact h.inj j₁ j₂ k
  · rw [ha.expectedSeqN, ha.taken]
    simp only [ha.held]
    exact h.all k
  · rw [ha.turn, ha.expectedSeqN]
    exact h.turn j k

theorem SinkInv.congr (h : SinkInv jobs write start s)
    (hwriting : ∀ j, (s'.workers j).writing = (s.workers j).writing)
    (hexp : s'.expectedSeqN = s.expectedSeqN) (hsink : s'.sink = s.sink) : SinkInv jobs write start s' := by
  refine ⟨fun j k seen => ?_, fun j k => ?_, ?_⟩
  · rw [hwriting, hsink]
    exact h.handling j k seen
  · rw [hwriting, hsink]
    exact h.handled j k
  · simp only [hwriting, hsink, hexp]
    exact h.idle

/-! ### The queue -/

theorem QueueInv.congr (h : QueueInv maxQueueSize jobs s) (hnext : s'.next = s.next)
    (hqueue : s'.queue = s.queue) : QueueInv maxQueueSize jobs s' := by
  have htaken : s'.taken = s.taken := by rw [taken, taken, hnext, hqueue]
  constructor
  · rw [hnext]
    exact h.next
  · rw [hnext, hqueue]
    exact h.length
  · rw [hqueue, htaken]
    exact h.queue
  · rw [hqueue]
    exact h.room

/-- The job at the head of the queue is the next in order. -/
theorem QueueInv.head (h : QueueInv maxQueueSize jobs s) {k : ℕ} {queue : List ℕ}
    (hq : s.queue = k :: queue) : k = s.taken ∧ queue = List.range' (s.taken + 1) queue.length := by
  have hrange := h.queue
  rw [hq, List.length_cons, List.range'_succ] at hrange
  exact List.cons.inj hrange

theorem QueueInv.taken_take (h : QueueInv maxQueueSize jobs s) {k : ℕ} {queue : List ℕ}
    (hq : s.queue = k :: queue) (hnext : s'.next = s.next) (hqueue : s'.queue = queue) :
    s'.taken = s.taken + 1 := by
  have hlen : s.queue.length = queue.length + 1 := by rw [hq, List.length_cons]
  have hle := h.length
  rw [taken, taken, hnext, hqueue]
  omega

theorem QueueInv.take (h : QueueInv maxQueueSize jobs s) {k : ℕ} {queue : List ℕ}
    (hq : s.queue = k :: queue) (hnext : s'.next = s.next) (hqueue : s'.queue = queue) :
    QueueInv maxQueueSize jobs s' := by
  have hlen : s.queue.length = queue.length + 1 := by rw [hq, List.length_cons]
  have hle := h.length
  refine ⟨?_, ?_, ?_, ?_⟩
  · rw [hnext]
    exact h.next
  · rw [hnext, hqueue]
    omega
  · rw [hqueue, h.taken_take hq hnext hqueue]
    exact (h.head hq).2
  · rw [hqueue]
    have := h.room
    omega

theorem QueueInv.taken_queueTask (h : QueueInv maxQueueSize jobs s) (hnext : s'.next = s.next + 1)
    (hqueue : s'.queue = s.queue ++ [s.next]) : s'.taken = s.taken := by
  have hle := h.length
  rw [taken, taken, hnext, hqueue, List.length_append, List.length_singleton]
  omega

theorem QueueInv.queueTask (h : QueueInv maxQueueSize jobs s) (hlt : s.next < jobs.length)
    (hroom : s.queue.length < maxQueueSize) (hnext : s'.next = s.next + 1)
    (hqueue : s'.queue = s.queue ++ [s.next]) : QueueInv maxQueueSize jobs s' := by
  have hlen : s'.queue.length = s.queue.length + 1 := by
    rw [hqueue, List.length_append, List.length_singleton]
  have hle := h.length
  have hend : s.taken + s.queue.length = s.next := Nat.sub_add_cancel hle
  refine ⟨by omega, by omega, ?_, by omega⟩
  rw [hlen, h.taken_queueTask hnext hqueue, hqueue, List.range'_1_concat, ← h.queue, hend]

/-! ### One step -/

theorem OrderInv.set (h : OrderInv maxQueueSize jobs write start s) {w : Worker S}
    (hheld : w.held = (s.workers i).held) (hturn : w.turn = (s.workers i).turn)
    (hwriting : w.writing = (s.workers i).writing) : OrderInv maxQueueSize jobs write start (s.set i w) :=
  ⟨h.queue.congr rfl rfl, h.held.congr (.set hheld hturn), h.sink.congr (update_congr hwriting) rfl rfl⟩

/-- Where the main thread is and whether the pool is being taken down. -/
theorem OrderInv.elsewhere (h : OrderInv maxQueueSize jobs write start s) (main : Main) (terminate : Bool) :
    OrderInv maxQueueSize jobs write start { s with main := main, terminate := terminate } :=
  ⟨h.queue.congr rfl rfl, h.held.congr ⟨fun _ => rfl, fun _ => rfl, rfl, rfl⟩,
    h.sink.congr (fun _ => rfl) rfl rfl⟩

/-- A worker takes the first job of the queue. -/
theorem HeldInv.take {k : ℕ} (h : HeldInv s) (hi : (s.workers i).held = none) (hk : k = s.taken)
    (hw : s'.workers = Function.update s.workers i (.decoding k)) (htaken : s'.taken = s.taken + 1)
    (hexp : s'.expectedSeqN = s.expectedSeqN) : HeldInv s' := by
  have hself : s'.workers i = .decoding k := by rw [hw, Function.update_self]
  have hne : ∀ j, j ≠ i → s'.workers j = s.workers j := fun j hj => by rw [hw, Function.update_of_ne hj]
  have hlt : ∀ j l, j ≠ i → (s'.workers j).held = some l → s.expectedSeqN ≤ l ∧ l < s.taken := by
    intro j l hj hl
    rw [hne j hj] at hl
    exact h.range j l hl
  have heq : ∀ l, (s'.workers i).held = some l → l = s.taken := by
    intro l hl
    rw [hself] at hl
    exact (Option.some.inj hl).symm.trans hk
  have hexpected := h.expected
  refine ⟨by omega, fun j l hl => ?_, fun j₁ j₂ l h1 h2 => ?_, fun l h1 h2 => ?_, fun j l hl => ?_⟩
  · by_cases hj : j = i
    · rw [hj] at hl
      have := heq l hl
      omega
    · have := hlt j l hj hl
      omega
  · by_cases hj₁ : j₁ = i <;> by_cases hj₂ : j₂ = i
    · rw [hj₁, hj₂]
    · rw [hj₁] at h1
      have := heq l h1
      have := hlt j₂ l hj₂ h2
      omega
    · rw [hj₂] at h2
      have := heq l h2
      have := hlt j₁ l hj₁ h1
      omega
    · rw [hne _ hj₁] at h1
      rw [hne _ hj₂] at h2
      exact h.inj _ _ l h1 h2
  · by_cases hl : l = s.taken
    · exact ⟨i, by rw [hself, Worker.held, hl, hk]⟩
    · obtain ⟨j, hj⟩ := h.all l (by omega) (by omega)
      have hji : j ≠ i := by
        rintro rfl
        rw [hi] at hj
        cases hj
      exact ⟨j, by rw [hne j hji, hj]⟩
  · by_cases hj : j = i
    · rw [hj, hself] at hl
      cases hl
    · rw [hne j hj] at hl
      rw [hexp]
      exact h.turn j l hl

/-- A worker whose number is due goes on. -/
theorem HeldInv.pass {k : ℕ} (h : HeldInv s) (hi : (s.workers i).held = some k) (hk : k = s.expectedSeqN) :
    HeldInv (s.set i (.passed k)) := by
  have hheld : ∀ j, ((s.set i (.passed k)).workers j).held = (s.workers j).held := update_congr hi.symm
  refine ⟨h.expected, fun j l => ?_, fun j₁ j₂ l => ?_, fun l h1 h2 => ?_, fun j l hl => ?_⟩
  · rw [hheld]
    exact h.range j l
  · rw [hheld, hheld]
    exact h.inj j₁ j₂ l
  · simp only [hheld]
    exact h.all l h1 h2
  · by_cases hj : j = i
    · rw [hj, set_workers_self] at hl
      exact (Option.some.inj hl).symm.trans hk
    · rw [set_workers_ne hj] at hl
      exact h.turn j l hl

/-- The number moves on, and the worker that is waiting for it is called. -/
theorem HeldInv.release {k : ℕ} (h : HeldInv s) (hi : s.workers i = .handled k)
    (hw : s'.workers =
      Function.update (fun j => (s.workers j).call (s.expectedSeqN + 1)) i .returning)
    (htaken : s'.taken = s.taken) (hexp : s'.expectedSeqN = s.expectedSeqN + 1) : HeldInv s' := by
  have hheld : (s.workers i).held = some k := by rw [hi]; rfl
  have hturn : (s.workers i).turn = some k := by rw [hi]; rfl
  have hk : k = s.expectedSeqN := h.turn i k hturn
  have hself : s'.workers i = .returning := by rw [hw, Function.update_self]
  have hne : ∀ j, j ≠ i → s'.workers j = (s.workers j).call (s.expectedSeqN + 1) :=
    fun j hj => by rw [hw, Function.update_of_ne hj]
  have hother : ∀ j l, (s'.workers j).held = some l → j ≠ i ∧ (s.workers j).held = some l := by
    intro j l hl
    have hj : j ≠ i := by
      rintro rfl
      rw [hself] at hl
      cases hl
    rw [hne j hj, Worker.held_call] at hl
    exact ⟨hj, hl⟩
  refine ⟨?_, fun j l hl => ?_, fun j₁ j₂ l h1 h2 => ?_, fun l h1 h2 => ?_, fun j l hl => ?_⟩
  · have := h.range i k hheld
    omega
  · obtain ⟨hj, hl⟩ := hother j l hl
    have hlk : l ≠ k := by
      rintro rfl
      exact hj (h.inj j i l hl hheld)
    have := h.range j l hl
    omega
  · exact h.inj j₁ j₂ l (hother j₁ l h1).2 (hother j₂ l h2).2
  · obtain ⟨j, hj⟩ := h.all l (by omega) (by omega)
    have hji : j ≠ i := by
      rintro rfl
      rw [hheld] at hj
      have := Option.some.inj hj
      omega
    exact ⟨j, by rw [hne j hji, Worker.held_call, hj]⟩
  · have hj := (hother j l (Worker.held_of_turn hl)).1
    rw [hne j hj, Worker.turn_call] at hl
    exact absurd (h.turn_inj hturn hl) hj

/-- The worker whose turn it is reads what has been written. -/
theorem SinkInv.begin {k : ℕ} (h : SinkInv jobs write start s) (hi : (s.workers i).writing = none) :
    SinkInv jobs write start (s.set i (.handling k s.sink)) := by
  refine ⟨fun j l seen hl => ?_, fun j l hl => ?_, fun hnone => h.idle fun j l hl => ?_⟩
  · by_cases hj : j = i
    · rw [hj, set_workers_self] at hl
      cases hl
      rfl
    · rw [set_workers_ne hj] at hl
      exact h.handling j l seen hl
  · by_cases hj : j = i
    · rw [hj, set_workers_self] at hl
      cases hl
    · rw [set_workers_ne hj] at hl
      exact h.handled j l hl
  · by_cases hj : j = i
    · rw [hj, hi] at hl
      cases hl
    · exact hnone j l (by rw [set_workers_ne hj, hl])

theorem HeldInv.writing_ne (h : HeldInv s) {j : Fin n} {k l : ℕ} {seen : Option S}
    (hi : (s.workers i).turn = some k) (hj : j ≠ i) : (s.workers j).writing ≠ some (l, seen) :=
  fun hw => hj (h.turn_inj hi (Worker.turn_of_writing hw))

/-- Its write is the next in order. -/
theorem SinkInv.finish {k : ℕ} {seen : S} {job : J} (h : SinkInv jobs write start s) (hheld : HeldInv s)
    (hi : s.workers i = .handling k seen) (hjob : jobs[k]? = some job)
    (hw : s'.workers = Function.update s.workers i (.handled k)) (hsink : s'.sink = write seen job) :
    SinkInv jobs write start s' := by
  have hturn : (s.workers i).turn = some k := by rw [hi]; rfl
  have hself : s'.workers i = .handled k := by rw [hw, Function.update_self]
  have hother : ∀ j l seen', (s'.workers j).writing = some (l, seen') → j = i ∧ l = k ∧ seen' = none := by
    intro j l seen' hl
    by_cases hj : j = i
    · rw [hj, hself] at hl
      cases hl
      exact ⟨hj, rfl, rfl⟩
    · rw [hw, Function.update_of_ne hj] at hl
      exact absurd hl (hheld.writing_ne hturn hj)
  have hbefore : s.sink = (jobs.take k).foldl write start := by
    rw [hheld.turn i k hturn]
    refine h.idle fun j l hl => ?_
    by_cases hj : j = i
    · rw [hj, hi] at hl
      cases hl
    · exact hheld.writing_ne hturn hj hl
  have hseen : seen = s.sink := h.handling i k seen (by rw [hi]; rfl)
  refine ⟨fun j l seen' hl => ?_, fun j l hl => ?_, fun hnone => ?_⟩
  · cases (hother j l _ hl).2.2
  · rw [(hother j l _ hl).2.1, hsink, hseen, hbefore, List.take_add_one, hjob, Option.toList_some,
      List.foldl_append, List.foldl_cons, List.foldl_nil]
  · exact absurd (by rw [hself]; rfl) (hnone i k)

theorem SinkInv.release {k : ℕ} (h : SinkInv jobs write start s) (hheld : HeldInv s)
    (hi : s.workers i = .handled k)
    (hw : s'.workers =
      Function.update (fun j => (s.workers j).call (s.expectedSeqN + 1)) i .returning)
    (hsink : s'.sink = s.sink) (hexp : s'.expectedSeqN = s.expectedSeqN + 1) :
    SinkInv jobs write start s' := by
  have hturn : (s.workers i).turn = some k := by rw [hi]; rfl
  have hnone : ∀ j l seen, (s'.workers j).writing ≠ some (l, seen) := by
    intro j l seen hl
    by_cases hj : j = i
    · rw [hj, hw, Function.update_self] at hl
      cases hl
    · rw [hw, Function.update_of_ne hj, Worker.writing_call] at hl
      exact hheld.writing_ne hturn hj hl
  refine ⟨fun j l seen hl => absurd hl (hnone j l _), fun j l hl => absurd hl (hnone j l _), fun _ => ?_⟩
  rw [hsink, hexp, ← hheld.turn i k hturn]
  exact h.handled i k (by rw [hi]; rfl)

theorem OrderInv.workStep (h : OrderInv maxQueueSize jobs write start s)
    (hs : WorkStep jobs write s i s') : OrderInv maxQueueSize jobs write start s' := by
  cases hs with
  | exit hi _ => exact h.set (by rw [hi]; rfl) (by rw [hi]; rfl) (by rw [hi]; rfl)
  | sleep hi _ _ => exact h.set (by rw [hi]; rfl) (by rw [hi]; rfl) (by rw [hi]; rfl)
  | take hi _ hq =>
    exact ⟨h.queue.take hq rfl rfl,
      h.held.take (by rw [hi]; rfl) (h.queue.head hq).1 rfl (h.queue.taken_take hq rfl rfl) rfl,
      h.sink.congr (update_congr (by rw [hi]; rfl)) rfl rfl⟩
  | decoded hi => exact h.set (by rw [hi]; rfl) (by rw [hi]; rfl) (by rw [hi]; rfl)
  | @pass k hi hk =>
    have hheld : (s.workers i).held = some k := by obtain hi | hi := hi <;> rw [hi] <;> rfl
    have hwriting : (s.workers i).writing = none := by obtain hi | hi := hi <;> rw [hi] <;> rfl
    exact ⟨h.queue.congr rfl rfl, h.held.pass hheld hk, h.sink.congr (update_congr hwriting.symm) rfl rfl⟩
  | wait hi _ =>
    obtain hi | hi := hi <;> exact h.set (by rw [hi]; rfl) (by rw [hi]; rfl) (by rw [hi]; rfl)
  | begin hi =>
    exact ⟨h.queue.congr rfl rfl, h.held.congr (.set (by rw [hi]; rfl) (by rw [hi]; rfl)),
      h.sink.begin (by rw [hi]; rfl)⟩
  | finish hi hjob =>
    exact ⟨h.queue.congr rfl rfl,
      h.held.congr ⟨update_congr (by rw [hi]; rfl), update_congr (by rw [hi]; rfl), rfl, rfl⟩,
      h.sink.finish h.held hi hjob rfl rfl⟩
  | release hi =>
    exact ⟨h.queue.congr rfl rfl, h.held.release hi rfl rfl rfl, h.sink.release h.held hi rfl rfl rfl⟩
  | returned hi =>
    exact (h.set (i := i) (w := .ready) (by rw [hi]; rfl) (by rw [hi]; rfl) (by rw [hi]; rfl)).elsewhere
      _ s.terminate

theorem OrderInv.mainStep (h : OrderInv maxQueueSize jobs write start s)
    (hs : MainStep maxQueueSize jobs s s') : OrderInv maxQueueSize jobs write start s' := by
  cases hs with
  | full | queued | undrained | drained | scan | join => exact h.elsewhere _ s.terminate
  | terminate =>
    exact ⟨h.queue.congr rfl rfl,
      h.held.congr ⟨fun j => Worker.wake_congr rfl _, fun j => Worker.wake_congr rfl _, rfl, rfl⟩,
      h.sink.congr (fun j => Worker.wake_congr rfl _) rfl rfl⟩

theorem OrderInv.queueTask {wake : Option (Fin n)} (h : OrderInv maxQueueSize jobs write start s)
    (hs : s.queueTask maxQueueSize jobs wake = some s') : OrderInv maxQueueSize jobs write start s' := by
  obtain ⟨⟨-, hnext, hroom⟩, ⟨i, ha, rfl⟩ | ⟨-, rfl⟩⟩ := queueTask_inv hs
  · have hi := Worker.eq_asleep ha
    exact ⟨h.queue.queueTask hnext hroom rfl rfl,
      h.held.congr ⟨update_congr (by rw [hi]; rfl), update_congr (by rw [hi]; rfl),
        h.queue.taken_queueTask rfl rfl, rfl⟩,
      h.sink.congr (update_congr (by rw [hi]; rfl)) rfl rfl⟩
  · exact ⟨h.queue.queueTask hnext hroom rfl rfl,
      h.held.congr ⟨fun _ => rfl, fun _ => rfl, h.queue.taken_queueTask rfl rfl, rfl⟩,
      h.sink.congr (fun _ => rfl) rfl rfl⟩

theorem OrderInv.spurious {who : Option (Fin n)} (h : OrderInv maxQueueSize jobs write start s)
    (hs : s.spurious who = some s') : OrderInv maxQueueSize jobs write start s' := by
  obtain ⟨rfl, -⟩ | ⟨i, hi, rfl⟩ | ⟨i, k, hi, rfl⟩ := spurious_inv hs
  · exact h.elsewhere _ s.terminate
  · exact h.set (by rw [hi]; rfl) (by rw [hi]; rfl) (by rw [hi]; rfl)
  · exact h.set (by rw [hi]; rfl) (by rw [hi]; rfl) (by rw [hi]; rfl)

theorem OrderInv.init (start : S) :
    OrderInv maxQueueSize jobs write start (⟨.queue, 0, [], fun _ => .ready, false, 0, start⟩ : Pool n S) where
  queue := ⟨Nat.zero_le _, le_rfl, rfl, Nat.zero_le _⟩
  held := ⟨le_rfl, nofun, nofun, fun _ _ h => absurd h (Nat.not_lt_zero _), nofun⟩
  sink := ⟨nofun, nofun, fun _ => rfl⟩

end Pool

theorem order_inv {s : Pool n S} (h : (pool n maxQueueSize jobs write start).Reachable s) :
    Pool.OrderInv maxQueueSize jobs write start s := by
  refine h.invariant ?_ ?_
  · rintro _ rfl
    exact .init start
  · intro s e s' hi _ hs
    cases e with
    | main => exact hi.mainStep (Pool.mainStep_inv hs)
    | queueTask wake => exact hi.queueTask hs
    | work i => exact hi.workStep (Pool.workStep_inv hs)
    | spurious who => exact hi.spurious hs

end GramsTof.Pipeline
