import GramsTof.Dispatch.Verdicts

/-! Statuses on behalf of the tasks that are registered with `sendCallback = false`. -/

namespace GramsTof.Dispatch

open Lib TOFCommandCode

/-- No task registered with `sendCallback = false` has been given a status. -/
def Ledger.Silent (l : Ledger) : Prop :=
  ∀ v ∈ l.departed, v.1.task.sendCallback = false → Departure.status v = none

/-- `STOP_DAQ` finds no task registered that sends no callback, besides the number of its own
script. -/
def Operation.sparing (tasks : List (Pid × BackgroundTask)) : Operation → Bool
  | interrupt stopPid => (Registry.others tasks stopPid).all (·.2.sendCallback)
  | _ => true

/-- The step sends no status for a task that sends no callback. -/
def Sparing (p : State × Ledger) (b : Action) : Prop :=
  (p.1.operation b).sparing p.1.activeBackgroundTasks = true

instance (p : State × Ledger) (b : Action) : Decidable (Sparing p b) :=
  inferInstanceAs (Decidable (_ = _))

/-- What holds of the ledger in every run. -/
structure Booked (p : State × Ledger) : Prop where
  keys : p.1.registered.Nodup
  faithful : Faithful p.1 p.2
  named : Named p.1 p.2
  attributed : Attributed p.2
  settled : p.2.Settled

section Steps

variable {sequences : TOFCommandCode → MacroSequence} {s s' : State} {l : Ledger}
  {b : Action} {p : State × Ledger}

theorem Booked.step (hi : Booked (s, l)) (h : step sequences s b = some s') :
    Booked (s', Ledger.track s b s' l) where
  keys := by
    rw [State.registered, (step_performed h).effect.tasks]
    exact Operation.nodup_registry hi.keys
  faithful := hi.faithful.step hi.keys (step_performed h).effect
  named := hi.named.step h
  attributed := hi.attributed.step hi.named h
  settled := hi.settled.step

theorem booked (h : (ledgerMachine sequences).Reachable p) : Booked p :=
  h.invariant_history (fun _ h0 => h0 ▸ ⟨List.nodup_nil, initial_audited.faithful,
    initial_named, initial_audited.attributed, initial_audited.settled⟩)
    fun _ _ _ _ hi _ hs => Booked.step hi hs

/-- Only the critical section of `STOP_DAQ` sends a status for a task that sends no callback. -/
theorem Operation.quiet_iff (o : Operation) (m : List (Pid × Owned)) :
    (∀ v ∈ o.departures m, v.1.task.sendCallback = false → Departure.status v = none) ↔
      o.sparing (Registry.mapValues Owned.task m) = true := by
  cases o with
  | idle | report _ _ | fork _ _ | forkWorker _ | waitAny _ =>
    exact iff_of_true (fun v hv => absurd hv List.not_mem_nil) rfl
  | register pid task =>
    refine iff_of_true (fun v hv _ => ?_) rfl
    obtain ⟨e, -, rfl⟩ := List.mem_map.mp hv
    rfl
  | reap pid w =>
    refine iff_of_true (fun v hv hsend => ?_) rfl
    obtain ⟨e, -, rfl⟩ := List.mem_map.mp hv
    cases w with
    | error => rfl
    | exited success =>
      have hnone : (e.2.task).sendCallback = false := hsend
      simp [Departure.status, Wait.departure, Departure.verdict, hnone]
  | interrupt stopPid =>
    rw [sparing, List.all_eq_true]
    constructor
    · intro h x hx
      obtain ⟨hx, hk⟩ := List.mem_filter.mp hx
      obtain ⟨v, hv, hvx⟩ := Registry.mem_mapValues.mp hx
      have hpid : some x.1 ≠ stopPid := by simpa using hk
      by_contra hsend
      rw [← hvx, Bool.not_eq_true] at hsend
      have hnone := h _ (List.mem_map_of_mem hv) hsend
      rw [Departure.status, if_neg hpid] at hnone
      cases hnone
    · intro h v hv hsend
      obtain ⟨e, he, rfl⟩ := List.mem_map.mp hv
      by_cases hpid : some e.1 = stopPid
      · simp only [hpid, if_true]
        rfl
      · have hmem : (e.1, e.2.task) ∈ Registry.mapValues Owned.task m :=
          Registry.mem_mapValues.mpr ⟨e.2, he, rfl⟩
        have hsent := h _ (List.mem_filter.mpr ⟨hmem, by simpa using hpid⟩)
        exact absurd (hsend.symm.trans hsent) Bool.false_ne_true

theorem Ledger.silent_track (hi : Faithful s l) :
    (l.track s b s').Silent ↔ l.Silent ∧ Sparing (s, l) b := by
  have hnew := Operation.quiet_iff (s.operation b) l.entries
  rw [hi.entries] at hnew
  rw [Sparing, ← hnew]
  exact List.forall_mem_append

/-- Only the recorder starts tasks that send no callback. -/
theorem Ledger.Started.sendCallback_iff {v : Owned} (h : l.Started v) :
    v.owner = none ↔ v.task.sendCallback = false := by
  obtain ⟨d, code, hd, -, ⟨-, ht⟩ | ⟨-, ht⟩⟩ | ⟨hd, ht⟩ := h <;> simp [hd, ht, stopScript, reading]

theorem Booked.unsent (hi : Booked p) (hs : p.2.Silent) :
    ∀ st ∈ p.2.sent, st.sender ≠ .process none := by
  intro st hst hsender
  have hmem : st ∈ p.2.sent.filter (·.sender = .process none) :=
    List.mem_filter.mpr ⟨hst, decide_eq_true hsender⟩
  rw [hi.settled none] at hmem
  obtain ⟨v, hv, hstatus⟩ := List.mem_filterMap.mp hmem
  obtain ⟨hv, howner⟩ := List.mem_filter.mp hv
  rw [decide_eq_true_eq] at howner
  have hsend := (hi.attributed.departed v hv).sendCallback_iff.mp howner
  rw [hs v hv hsend] at hstatus
  cases hstatus

/-- The tasks that send no callback are never reported, and no status is sent for a process that
no command has started, in exactly the runs in which `STOP_DAQ` never finds such a task
registered. -/
theorem silent_iff {as : List Action}
    (h : (ledgerMachine sequences).Steps (fun _ _ => True) (initial, .empty) as p) :
    (p.2.Silent ↔ (ledgerMachine sequences).Steps Sparing (initial, .empty) as p) ∧
      p.2.sent.map Status.call = p.1.callbacks ∧
      (p.2.Silent → ∀ st ∈ p.2.sent, st.sender ≠ .process none) := by
  have h0 : (ledgerMachine sequences).init (initial, .empty) := ⟨rfl, rfl⟩
  have hi := booked (h.reachable h0)
  have hempty : Ledger.empty.Silent := fun v hv => absurd hv List.not_mem_nil
  have hstep (t : State × Ledger) (b : Action) (u : State × Ledger)
      (ht : (ledgerMachine sequences).Reachable t)
      (hs : (ledgerMachine sequences).step t b = some u) :
      u.2.Silent ↔ t.2.Silent ∧ Sparing t b := by
    obtain ⟨-, hw⟩ := Machine.step_withHistory.mp hs
    rw [hw]
    exact Ledger.silent_track (booked ht).faithful
  exact ⟨h.keeps_iff (P := fun p => p.2.Silent) h0 hempty hstep, hi.faithful.sent, hi.unsent⟩

end Steps

/-- The worker starts the temperature recorder, which starts the process `pid`. -/
def recorderReading (pid : Pid) : List Action :=
  [.receive startAsicTempRecord [], .worker done, .recorder { done with pid := some pid },
    .recorder done]

theorem silent_iff_exited :
    ∃ p, (ledgerMachine macroSequence).Steps (fun _ _ => True) (initial, .empty)
        (recorderReading 7 ++ [.monitor 7 (.exited false)]) p ∧
      p.1.activeBackgroundTasks = [] ∧
      (p.2.Silent ↔ (ledgerMachine macroSequence).Steps Sparing (initial, .empty)
        (recorderReading 7 ++ [.monitor 7 (.exited false)]) p) := by
  have hend : ((ledgerMachine macroSequence).run (initial, .empty)
      (recorderReading 7 ++ [.monitor 7 (.exited false)])).map (·.1.activeBackgroundTasks) =
      some [] := by decide
  obtain ⟨p, hrun, hp⟩ := Option.map_eq_some_iff.mp hend
  have h := Machine.Steps.of_run hrun
  exact ⟨p, h, hp, (silent_iff h).1⟩

/-- `STOP_DAQ` reports a reading of the temperature recorder with status 2. -/
theorem not_silent : ¬ ∀ p, (ledgerMachine macroSequence).Reachable p → p.2.Silent := by
  intro h
  obtain ⟨p, hp, hsent⟩ := (ledgerMachine macroSequence).exists_reachable_of_run (initial, .empty)
    (fun p => decide ((⟨reading, none⟩, .stopped) ∈ p.2.departed ∧
      p.1.callbacks = [(readTemperatureSensors, 2)]))
    (recorderReading 7 ++ workerStop 8) ⟨rfl, rfl⟩ (by decide)
  cases h p hp _ (of_decide_eq_true hsent).1 rfl

end GramsTof.Dispatch
