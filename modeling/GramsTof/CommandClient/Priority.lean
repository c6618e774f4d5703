import GramsTof.CommandClient.Queue

/-! Two stop or reset packets in the command queue: each goes to the front, so the
later one is handled first exactly when it finds the earlier one still pending. -/

namespace GramsTof.CommandClient.Queue

open Codec Lib

/-- For each packet queued, the queue it found. -/
def found (s : State) (a : Action) (_ : State) (w : List (List Entry)) : List (List Entry) :=
  match a with
  | .arrive _ => w ++ [s.commandQueue]
  | _ => w

/-- The command queue with what each packet found. -/
def foundMachine : Machine (State × List (List Entry)) Action := machine.withHistory [] found

/-- The packet `x` was pending when `y` was queued. -/
def Pending (w : List (List Entry)) (x y : Entry) : Prop := ∃ q, w[y.2]? = some q ∧ x ∈ q

/-- The order in which packets are popped, whenever that will be. -/
def State.order (s : State) : List Entry := s.poppedLog ++ s.commandQueue

/-- Of two urgent packets the later one stands behind unless it found the earlier one pending. -/
structure Ordered (s : State) (w : List (List Entry)) : Prop where
  length : w.length = s.queued.length
  urgent : ∀ x ∈ s.order, ∀ y ∈ s.order, urgent x = true → urgent y = true → x.2 < y.2 →
    (s.order.idxOf x < s.order.idxOf y ↔ ¬ Pending w x y)

theorem Accounted.mem_order {s : State} (h : Accounted s) {x : Entry} (hx : x ∈ s.order) :
    x.2 < s.queued.length := by
  obtain ⟨pkt, n⟩ := x
  have hzip := List.mem_zipIdx (h.perm.subset hx)
  simpa using hzip.2.1

theorem Accounted.nodup_order {s : State} (h : Accounted s) : s.order.Nodup :=
  h.perm.nodup_iff.mpr (List.Nodup.of_map _ (List.nodup_zipIdx_map_snd _))

theorem pending_append {w : List (List Entry)} {q : List Entry} {x y : Entry}
    (hy : y.2 < w.length) : Pending (w ++ [q]) x y ↔ Pending w x y := by
  unfold Pending
  rw [List.getElem?_append_left hy]

theorem pending_new {w : List (List Entry)} {q : List Entry} {x y : Entry} (hy : y.2 = w.length) :
    Pending (w ++ [q]) x y ↔ x ∈ q := by
  unfold Pending
  rw [hy, List.getElem?_append_right (Nat.le_refl _), Nat.sub_self]
  simp

/-- The order after an arrival is the order before it with the packet inserted. -/
theorem order_arrive (pkt : Packet) (s : State) :
    ∃ p q, s.order = p ++ q ∧ (arrive pkt s).order = p ++ (pkt, s.queued.length) :: q ∧
      (urgent (pkt, s.queued.length) = true → p = s.poppedLog ∧ q = s.commandQueue) := by
  simp only [State.order, arrive, Overtaking.enqueue]
  split_ifs with hu
  · exact ⟨s.poppedLog, s.commandQueue, rfl, rfl, fun _ => ⟨rfl, rfl⟩⟩
  · exact ⟨s.poppedLog ++ s.commandQueue, [], by simp, by simp, fun h => absurd h hu⟩

theorem Ordered.arrive {s : State} {w : List (List Entry)} (hi : Ordered s w) (ha : Accounted s)
    (pkt : Packet) : Ordered (arrive pkt s) (w ++ [s.commandQueue]) := by
  obtain ⟨p, q, hold, hnew, hfront⟩ := order_arrive pkt s
  generalize he : (pkt, s.queued.length) = e at hnew hfront
  have hnum : e.2 = s.queued.length := by rw [← he]
  have hlt {x : Entry} (hx : x ∈ p ++ q) : x.2 < s.queued.length := ha.mem_order (hold ▸ hx)
  have hne {x : Entry} (hx : x ∈ p ++ q) : x ≠ e := by
    rintro rfl
    have := hlt hx
    omega
  have hcases {x : Entry} (hx : x ∈ p ++ e :: q) : x = e ∨ x ∈ p ++ q := by
    simp only [List.mem_append, List.mem_cons] at hx ⊢
    tauto
  refine ⟨by simp [Queue.arrive, hi.length], fun x hx y hy hux huy hxy => ?_⟩
  rw [hnew] at hx hy ⊢
  rcases hcases hy with rfl | hy'
  · -- the new packet is `y`: it stands in front of the pending ones and behind those popped
    obtain ⟨rfl, rfl⟩ := hfront huy
    have hold' := (hcases hx).resolve_left (by rintro rfl; omega)
    have hpopped : y ∉ s.poppedLog := fun h => hne (List.mem_append_left _ h) rfl
    rw [Overtaking.idxOf_lt_inserted _ _ hpopped, pending_new (hnum.trans hi.length.symm)]
    have hnodup := (List.nodup_append.mp ha.nodup_order).2.2
    exact ⟨fun hp hq => hnodup x hp x hq rfl, (List.mem_append.mp hold').resolve_right⟩
  · have hx' := (hcases hx).resolve_left (by rintro rfl; have := hlt hy'; omega)
    rw [Overtaking.idxOf_insert_lt p q (hne hx') (hne hy'), ← hold,
      pending_append (by rw [hi.length]; exact hlt hy')]
    exact hi.urgent x (hold ▸ hx') y (hold ▸ hy') hux huy hxy

/-- Only an arrival queues a packet. -/
theorem step_queued {s s' : State} {a : Action} (ha : ∀ pkt, a ≠ .arrive pkt)
    (h : step s a = some s') : s'.queued = s.queued := by
  cases a with
  | arrive pkt => exact absurd rfl (ha pkt)
  | start | stop =>
    simp only [step, start, stop] at h
    split_ifs at h <;> cases h <;> rfl
  | workerJoined | clientJoined | clientExit | workerTest =>
    simp only [step] at h
    split_ifs at h <;> cases h <;> rfl
  | workerWake =>
    simp only [step] at h
    split_ifs at h
    rcases wake_inv h with ⟨-, -, rfl⟩ | ⟨e, rest, -, rfl⟩ <;> rfl
  | callHandler | handlerDone _ =>
    simp only [step] at h
    split at h <;> cases h
    rfl

theorem Ordered.congr {s s' : State} {w : List (List Entry)} (hi : Ordered s w)
    (ha : s'.queued = s.queued) (ho : s'.order = s.order) : Ordered s' w := by
  refine ⟨by rw [ha]; exact hi.length, ?_⟩
  rw [ho]
  exact hi.urgent

theorem Ordered.step {s s' : State} {a : Action} {w : List (List Entry)} (hl : Lifecycle s)
    (ha : Accounted s) (hi : Ordered s w) (h : step s a = some s') :
    Ordered s' (found s a s' w) := by
  by_cases harrive : ∃ pkt, a = .arrive pkt
  · obtain ⟨pkt, rfl⟩ := harrive
    simp only [Queue.step] at h
    split_ifs at h
    cases h
    exact hi.arrive ha pkt
  · have hnot : ∀ pkt, a ≠ .arrive pkt := fun pkt hpkt => harrive ⟨pkt, hpkt⟩
    have hqueued := step_queued hnot h
    have hfound : found s a s' w = w := by
      cases a with
      | arrive pkt => exact absurd rfl (hnot pkt)
      | _ => rfl
    rw [hfound]
    cases step_moved hl h with
    | same hq _ hp _ => exact hi.congr hqueued (by rw [State.order, State.order, hp, hq])
    | queued pkt hs =>
      have hlen := congrArg List.length hqueued
      rw [hs] at hlen
      simp [Queue.arrive] at hlen
    | popped e _ hq _ hp _ _ =>
      refine hi.congr hqueued ?_
      rw [State.order, State.order, hp, hq, List.append_assoc, List.singleton_append]

theorem foundMachine_inv {p : State × List (List Entry)} (h : foundMachine.Reachable p) :
    (Lifecycle p.1 ∧ Accounted p.1) ∧ Ordered p.1 p.2 := by
  refine h.invariant_history (I := fun p => (Lifecycle p.1 ∧ Accounted p.1) ∧ Ordered p.1 p.2) ?_ ?_
  · rintro s rfl
    exact ⟨⟨lifecycle_initial, accounted_initial⟩, rfl, by simp [State.order, initial]⟩
  · rintro s w a s' ⟨⟨hl, ha⟩, hi⟩ - hstep
    exact ⟨⟨lifecycle_step hl hstep, accounted_step ha (step_moved hl hstep)⟩, hi.step hl ha hstep⟩

/-- In every run, of two stop or reset packets passed to the handler the earlier one comes first
exactly when it was no longer pending as the later one was queued. -/
theorem urgent_order_iff {p : State × List (List Entry)} (h : foundMachine.Reachable p) {x y : Entry}
    (hx : x ∈ p.1.handledLog) (hy : y ∈ p.1.handledLog) (hux : urgent x = true)
    (huy : urgent y = true) (hxy : x.2 < y.2) :
    p.1.handledLog.idxOf x < p.1.handledLog.idxOf y ↔ ¬ Pending p.2 x y := by
  obtain ⟨⟨-, ha⟩, hi⟩ := foundMachine_inv h
  have hsplit : p.1.order = p.1.handledLog ++ (p.1.worker.inHand ++ p.1.commandQueue) := by
    rw [State.order, ha.handled, List.append_assoc]
  have horder := hi.urgent x (by rw [hsplit]; exact List.mem_append_left _ hx) y
    (by rw [hsplit]; exact List.mem_append_left _ hy) hux huy hxy
  rwa [hsplit, List.idxOf_append_of_mem hx, List.idxOf_append_of_mem hy] at horder

/-- Behind a busy worker a stop and then a reset are queued; the reset is handled first. -/
def reversedRun : List Action :=
  [.start, .arrive ⟨0x4001, 0, []⟩, .workerTest, .workerWake, .callHandler,
    .arrive ⟨0x5001, 0, []⟩, .arrive ⟨0x5002, 0, []⟩, .handlerDone false,
    .workerTest, .workerWake, .callHandler, .handlerDone false,
    .workerTest, .workerWake, .callHandler]

theorem urgent_order_iff_reversed :
    ∃ p, foundMachine.Reachable p ∧
      p.1.handledLog.idxOf (⟨0x5002, 0, []⟩, 2) < p.1.handledLog.idxOf (⟨0x5001, 0, []⟩, 1) ∧
      Pending p.2 (⟨0x5001, 0, []⟩, 1) (⟨0x5002, 0, []⟩, 2) := by
  cases hrun : foundMachine.run (initial, []) reversedRun with
  | none => cases hrun
  | some p =>
    have h : foundMachine.Reachable p := Machine.Reach.run (.init (s := (initial, [])) ⟨rfl, rfl⟩) hrun
    have horder := urgent_order_iff h (x := (⟨0x5001, 0, []⟩, 1)) (y := (⟨0x5002, 0, []⟩, 2))
    cases hrun
    have hlate := (horder (by decide) (by decide) rfl rfl (by decide)).not
    exact ⟨_, h, by decide, not_not.mp (hlate.mp (by decide))⟩

/-- An operator's reset after a stop takes effect before it. -/
theorem not_urgent_order :
    ¬ ∀ s, machine.Reachable s → ∀ x ∈ s.handledLog, ∀ y ∈ s.handledLog, urgent x = true →
      urgent y = true → x.2 < y.2 → s.handledLog.idxOf x < s.handledLog.idxOf y := by
  intro h
  obtain ⟨s, hs, hlog⟩ := machine.exists_reachable_of_run initial
    (fun s => s.handledLog = [(⟨0x4001, 0, []⟩, 0), (⟨0x5002, 0, []⟩, 2), (⟨0x5001, 0, []⟩, 1)])
    reversedRun rfl (by decide)
  have hlog := of_decide_eq_true hlog
  have hlt := h s hs (⟨0x5001, 0, []⟩, 1) (by simp [hlog]) (⟨0x5002, 0, []⟩, 2) (by simp [hlog])
    rfl rfl (by decide)
  rw [hlog] at hlt
  exact absurd hlt (by decide)

end GramsTof.CommandClient.Queue
