import GramsTof.Dispatch.Calls

/-! A ledger kept beside a run: which dispatch started which process, how each task
left the registry, and who sent each status. -/

namespace GramsTof.Dispatch

open Lib TOFCommandCode

/-- How a task leaves the registry. -/
inductive Departure where
  | stopped
  | exited (success : Bool)
  /-- `waitpid` has failed. -/
  | lost
  /-- Its number has been registered again. -/
  | overwritten
  deriving DecidableEq, Repr

/-- The status sent when `task` leaves. -/
def Departure.verdict (task : BackgroundTask) : Departure → Option ℕ
  | stopped => some 2
  | exited success => if task.sendCallback then some (if success then 0 else 1) else none
  | _ => none

def Wait.departure : Wait → Departure
  | exited success => .exited success
  | error => .lost

/-- What leaves the registry `m`, and how. -/
def Operation.departures {ν : Type*} (m : List (Pid × ν)) : Operation → List (ν × Departure)
  | register pid _ => (m.filter (·.1 = pid)).map fun e => (e.2, .overwritten)
  | interrupt stopPid =>
    m.map fun e => (e.2, if some e.1 = stopPid then .overwritten else .stopped)
  | reap pid w => (m.filter (·.1 = pid)).map fun e => (e.2, w.departure)
  | _ => []

/-- A task and the dispatch that started it; the recorder's have none. -/
structure Owned where
  task : BackgroundTask
  owner : Option ℕ
  deriving DecidableEq, Repr

/-- Who calls `sendStatusCallback`. -/
inductive Sender where
  | handler (d : ℕ)
  /-- On behalf of a process. -/
  | process (owner : Option ℕ)
  /-- The macro thread at its end. -/
  | macroThread
  deriving DecidableEq, Repr

/-- The dispatch that a status belongs to. -/
def Sender.dispatch : Sender → Option ℕ
  | handler d => some d
  | process owner => owner
  | macroThread => none

structure Status where
  sender : Sender
  code : TOFCommandCode
  value : ℕ
  deriving DecidableEq, Repr

def Status.call (st : Status) : TOFCommandCode × ℕ := (st.code, st.value)

/-- The status that a departure causes. -/
def Departure.status (v : Owned × Departure) : Option Status :=
  (v.2.verdict v.1.task).map (⟨.process v.1.owner, v.1.task.commandCode, ·⟩)

/-- A status that the handler of a dispatch sends, or the macro thread. -/
def Status.ofHandler (d : Option ℕ) (x : TOFCommandCode × ℕ) : Status :=
  ⟨d.elim .macroThread .handler, x.1, x.2⟩

/-- The step enters a handler. -/
def State.begun (s : State) (b : Action) : Option TOFCommandCode :=
  s.begins .worker b <|> s.begins .macroThread b

structure Ledger where
  /-- The codes of the dispatches, in order. A dispatch is known by its position. -/
  dispatched : List TOFCommandCode
  /-- The dispatch a caller executes. -/
  current : Caller → Option ℕ
  /-- The dispatches whose `fork` has succeeded. -/
  launched : List ℕ
  /-- The registry, with the dispatch of each task. -/
  entries : List (Pid × Owned)
  departed : List (Owned × Departure)
  sent : List Status

namespace Ledger

def empty : Ledger := ⟨[], fun _ => none, [], [], [], []⟩

/-- The dispatch on whose behalf a step is taken. -/
def mark (l : Ledger) : Action → Option ℕ
  | .worker _ => l.current .worker
  | .macroThread _ => l.current .macroThread
  | _ => none

def track (s : State) (b : Action) (s' : State) (l : Ledger) : Ledger where
  dispatched := l.dispatched ++ (s.begun b).toList
  current c := (s'.calls c).bind fun _ =>
    if (s.begins c b).isSome then some l.dispatched.length else l.current c
  launched := match s.operation b with
    | .fork _ _ => (l.mark b).toList ++ l.launched
    | _ => l.launched
  entries := (s.operation b).registry (⟨·, l.mark b⟩) l.entries
  departed := l.departed ++ (s.operation b).departures l.entries
  sent := l.sent ++ ((s.operation b).departures l.entries).filterMap Departure.status ++
    ((s.operation b).own.map (Status.ofHandler (l.mark b))).toList

/-- Some caller executes the dispatch `d`. -/
def executing (l : Ledger) (d : ℕ) : Prop := ∃ c, l.current c = some d

/-- The statuses sent on behalf of the process that `d` started. -/
def verdicts (l : Ledger) (d : ℕ) : List Status := l.sent.filter (·.sender = .process (some d))

/-- The statuses with the code `code` that the dispatch `d` has led to. -/
def answers (l : Ledger) (d : ℕ) (code : TOFCommandCode) : List Status :=
  l.sent.filter fun st => st.sender.dispatch = some d ∧ st.code = code

end Ledger

def ledgerMachine (sequences : TOFCommandCode → MacroSequence) :
    Machine (State × Ledger) Action :=
  (machine sequences).withHistory .empty Ledger.track

/-! ### The ledger agrees with the state -/

section Faithful

theorem Operation.filterMap_departures {ν : Type*} {task : ν → BackgroundTask}
    {m : List (Pid × ν)} (o : Operation) (hm : (Registry.keys m).Nodup) :
    (o.departures m).filterMap (fun v => (v.2.verdict (task v.1)).map (v.1, ·)) =
      o.verdicts task m := by
  cases o with
  | idle | report _ _ | fork _ _ | forkWorker _ | waitAny _ => rfl
  | register pid t =>
    rw [departures, List.filterMap_map]
    exact List.filterMap_eq_nil_iff.mpr fun _ _ => rfl
  | interrupt stopPid =>
    rw [departures, verdicts, Registry.others, List.filterMap_map]
    induction m with
    | nil => rfl
    | cons e m ih =>
      have ih := ih (List.nodup_cons.mp hm).2
      by_cases he : some e.1 = stopPid
      · rw [List.filter_cons_of_neg (by simpa using he), ← ih]
        exact List.filterMap_cons_none (by simp [he, Departure.verdict])
      · rw [List.filter_cons_of_pos (by simpa using he), List.map_cons, ← ih]
        exact List.filterMap_cons_some (by simp [he, Departure.verdict])
  | reap pid w =>
    rw [departures, Registry.filter_key hm, List.map_map, List.filterMap_map]
    cases w with
    | error => cases m.lookup pid <;> rfl
    | exited success =>
      simp only [verdicts]
      cases m.lookup pid with
      | none => rfl
      | some v => cases hsend : (task v).sendCallback <;> simp [hsend, Wait.departure, Departure.verdict]

theorem Operation.mapValues_registry {ν μ : Type*} {f : BackgroundTask → ν} (g : ν → μ)
    {m : List (Pid × ν)} (o : Operation) :
    Registry.mapValues g (o.registry f m) = o.registry (g ∘ f) (Registry.mapValues g m) := by
  cases o with
  | register pid task => exact Registry.mapValues_put
  | interrupt stopPid => cases stopPid <;> rfl
  | reap pid w => exact Registry.mapValues_remove
  | _ => rfl

theorem Operation.verdicts_mapValues {ν : Type*} (g : ν → BackgroundTask) {m : List (Pid × ν)}
    (o : Operation) :
    o.verdicts id (Registry.mapValues g m) = (o.verdicts g m).map (Prod.map g id) := by
  cases o with
  | interrupt stopPid =>
    rw [verdicts, verdicts, ← Registry.mapValues_others, Registry.mapValues, List.map_map,
      List.map_map]
    rfl
  | reap pid w =>
    cases w with
    | error => rfl
    | exited success =>
      rw [verdicts, verdicts, Registry.lookup_mapValues]
      cases m.lookup pid with
      | none => rfl
      | some v => cases hsend : (g v).sendCallback <;> simp [hsend]
  | _ => rfl

theorem Departure.map_status {m : List (Pid × Owned)} (o : Operation)
    (hm : (Registry.keys m).Nodup) :
    ((o.departures m).filterMap Departure.status).map Status.call =
      (o.verdicts Owned.task m).map fun v => (v.1.task.commandCode, v.2) := by
  rw [← Operation.filterMap_departures o hm, List.map_filterMap, List.map_filterMap]
  congr 1
  funext v
  rw [Departure.status, Option.map_map, Option.map_map]
  rfl

/-- The ledger's registry and statuses are the dispatcher's. -/
structure Faithful (s : State) (l : Ledger) : Prop where
  entries : Registry.mapValues Owned.task l.entries = s.activeBackgroundTasks
  sent : l.sent.map Status.call = s.callbacks

theorem Faithful.keys {s : State} {l : Ledger} (hi : Faithful s l) :
    Registry.keys l.entries = s.registered := by
  rw [State.registered, ← hi.entries, Registry.keys_mapValues]

theorem Faithful.step {s s' : State} {l : Ledger} {b : Action} (hi : Faithful s l)
    (hn : s.registered.Nodup) (h : Effect (s.operation b) s s') :
    Faithful s' (Ledger.track s b s' l) := by
  constructor
  · rw [h.tasks, ← hi.entries]
    exact Operation.mapValues_registry Owned.task (s.operation b)
  · rw [h.callbacks, ← hi.sent]
    simp only [Ledger.track, List.map_append, List.append_assoc]
    rw [Departure.map_status _ (hi.keys ▸ hn), Operation.callbacks, ← hi.entries,
      Operation.verdicts_mapValues, List.map_map]
    cases (s.operation b).own <;> rfl

end Faithful

/-! ### Who executes which dispatch -/

/-- Every handler under execution has a dispatch of its own, with its code. -/
structure Named (s : State) (l : Ledger) : Prop where
  inside : ∀ c call, s.calls c = some call →
    ∃ d, l.current c = some d ∧ l.dispatched[d]? = some call.code ∧ call.kind = call.code.kind
  outside : ∀ c, s.calls c = none → l.current c = none
  apart : ∀ d, l.current .worker = some d → l.current .macroThread ≠ some d

section Named

variable {sequences : TOFCommandCode → MacroSequence} {s s' : State} {l : Ledger} {b : Action}
  {c : Caller} {d : ℕ} {code : TOFCommandCode}

theorem State.begun_of_begins (h : s.begins c b = some code) : s.begun b = some code := by
  unfold State.begun
  cases c with
  | worker => rw [h]; rfl
  | macroThread =>
    cases b with
    | macroThread a => rw [h]; rfl
    | _ => cases h

/-- At most one handler is entered. -/
theorem State.begins_unique {c' : Caller} (h : (s.begins c b).isSome) (h' : (s.begins c' b).isSome) :
    c = c' := by
  cases c <;> cases c' <;> first | rfl | (cases b <;> first | cases h | cases h')

theorem Ledger.dispatched_old (h : l.dispatched[d]? = some code) :
    (Ledger.track s b s' l).dispatched[d]? = some code := by
  have hlt : d < l.dispatched.length := (List.getElem?_eq_some_iff.mp h).1
  exact (List.getElem?_append_left hlt).trans h

theorem Ledger.current_track (h : (Ledger.track s b s' l).current c = some d) :
    (s.begins c b).isSome ∧ d = l.dispatched.length ∨ s.begins c b = none ∧ l.current c = some d := by
  obtain ⟨call, -, hd⟩ := Option.bind_eq_some_iff.mp h
  split_ifs at hd with hb
  · exact .inl ⟨hb, (Option.some.inj hd).symm⟩
  · exact .inr ⟨Option.not_isSome_iff_eq_none.mp hb, hd⟩

theorem Ledger.current_kept {call : Call} (hb : s.begins c b = none) (h : s'.calls c = some call) :
    (Ledger.track s b s' l).current c = l.current c := by
  simp [Ledger.track, h, hb]

theorem Ledger.current_ended (h : s'.calls c = none) :
    (Ledger.track s b s' l).current c = none := by
  simp [Ledger.track, h]

theorem Named.lt (hi : Named s l) (h : l.current c = some d) : d < l.dispatched.length := by
  cases hc : s.calls c with
  | none =>
    rw [hi.outside c hc] at h
    cases h
  | some call =>
    obtain ⟨d', hd', hcode, -⟩ := hi.inside c call hc
    rw [h] at hd'
    cases hd'
    exact (List.getElem?_eq_some_iff.mp hcode).1

theorem Named.step (hi : Named s l) (h : step sequences s b = some s') :
    Named s' (Ledger.track s b s' l) := by
  refine ⟨fun c call hc => ?_, fun c hc => ?_, fun d hw hm => ?_⟩
  · cases step_calls h c with
    | @begins code argv call' hb hh _ hafter _ =>
      rw [hafter] at hc
      cases hc
      obtain ⟨hcode, hkind⟩ := handler_code hh
      refine ⟨l.dispatched.length, ?_, ?_, by rw [hkind, hcode]⟩
      · simp [Ledger.track, hafter, hb]
      · simp [Ledger.track, State.begun_of_begins hb, hcode]
    | @steps a call' t r hb _ hbefore hstep _ hafter =>
      cases r with
      | ret v =>
        rw [hafter] at hc
        cases hc
      | next call'' =>
        rw [hafter] at hc
        cases hc
        obtain ⟨d, hd, hcode, hkind⟩ := hi.inside c call' hbefore
        obtain ⟨hcode', hkind'⟩ := Call.step_code hstep
        rw [hcode', hkind']
        exact ⟨d, (Ledger.current_kept hb hafter).trans hd, Ledger.dispatched_old hcode, hkind⟩
    | rests hb hsame _ =>
      obtain ⟨d, hd, hcode, hkind⟩ := hi.inside c call (hsame ▸ hc)
      exact ⟨d, (Ledger.current_kept hb hc).trans hd, Ledger.dispatched_old hcode, hkind⟩
  · exact Ledger.current_ended hc
  · rcases Ledger.current_track hw with ⟨hb, hd⟩ | ⟨-, hold⟩ <;>
      rcases Ledger.current_track hm with ⟨hb', hd'⟩ | ⟨-, hold'⟩
    · cases State.begins_unique hb hb'
    · exact absurd (hi.lt hold') (by omega)
    · exact absurd (hi.lt hold) (by omega)
    · exact hi.apart d hold hold'

/-- A thread outside handlers starts nothing. -/
theorem State.operation_outside (hl : b.launcher = some c.launcher) (hnone : s.calls c = none) :
    (s.operation b).task = none := by
  cases c with
  | worker =>
    cases b <;> cases hl
    rw [State.calls] at hnone
    rw [State.operation, hnone]
    rfl
  | macroThread =>
    cases b <;> cases hl
    rw [State.operation]
    cases hm : s.macroThread with
    | none | finished => rfl
    | running p pc =>
      rw [State.calls, State.macroCall, State.macroPc_eq hm, Option.bind_some] at hnone
      cases pc with
      | notify v => rfl
      | _ => simp only [MacroThread.operation, hnone]; rfl

theorem State.recorderOperation_task {a : Answer} {task : BackgroundTask}
    (h : (s.recorderOperation a).task = some task) : task = reading := by
  unfold State.recorderOperation at h
  split at h
  · split_ifs at h
    · cases hpid : a.pid <;> rw [hpid] at h <;> cases h
      rfl
    · cases h
  · cases h
    rfl
  · cases h

/-- Whoever starts or registers a task executes a dispatch that does so, or is the recorder. -/
theorem Named.actor {task : BackgroundTask} (hi : Named s l)
    (h : Dispatch.step sequences s b = some s') (ho : (s.operation b).task = some task) :
    (∃ c d code, b.launcher = some c.launcher ∧ l.mark b = some d ∧ l.current c = some d ∧
      l.dispatched[d]? = some code ∧ code.Starts task) ∨ l.mark b = none ∧ task = reading := by
  have hcall : ∀ c : Caller, b.launcher = some c.launcher → l.mark b = l.current c →
      ∃ c d code, b.launcher = some c.launcher ∧ l.mark b = some d ∧ l.current c = some d ∧
        l.dispatched[d]? = some code ∧ code.Starts task := by
    intro c hl hmark
    cases step_calls h c with
    | begins _ _ _ _ hidle => rw [hidle] at ho; cases ho
    | steps _ _ hbefore _ hop _ =>
      obtain ⟨d, hd, hcode, hkind⟩ := hi.inside c _ hbefore
      rw [hop] at ho
      have hstarts := Call.operation_task ho
      rw [hkind] at hstarts
      exact ⟨c, d, _, hl, hmark.trans hd, hd, hcode, hstarts⟩
    | rests _ _ hnone =>
      rw [State.operation_outside hl (hnone hl)] at ho
      cases ho
  cases b with
  | worker a => exact .inl (hcall .worker rfl rfl)
  | macroThread a => exact .inl (hcall .macroThread rfl rfl)
  | recorder a => exact .inr ⟨rfl, State.recorderOperation_task ho⟩
  | receive _ _ | monitor _ _ | daq => cases ho

/-- A dispatch ends with a step of its caller, which returns. -/
theorem Named.ended (hi : Named s l) (h : Dispatch.step sequences s b = some s')
    (hold : l.current c = some d) (hout : (l.track s b s').current c ≠ some d) :
    ∃ (a : Answer) (call : Call) (t : State) (v : Bool), b.launcher = some c.launcher ∧ s'.calls c = none ∧
      l.dispatched[d]? = some call.code ∧ call.kind = call.code.kind ∧
      call.step sequences c a s = some (t, .ret v) ∧ s.operation b = call.operation a := by
  have hin : s.calls c ≠ none := fun hnone => by
    rw [hi.outside c hnone] at hold
    cases hold
  cases step_calls h c with
  | begins _ _ hnone _ _ => exact absurd hnone hin
  | rests hb hsame _ =>
    obtain ⟨call, hcall⟩ := Option.ne_none_iff_exists'.mp hin
    exact absurd ((Ledger.current_kept hb (hsame.trans hcall)).trans hold) hout
  | @steps a call t r hb hl hbefore hstep hop hafter =>
    obtain ⟨d', hd', hcode, hkind⟩ := hi.inside c call hbefore
    cases Option.some.inj (hold.symm.trans hd')
    cases r with
    | next call' => exact absurd ((Ledger.current_kept hb hafter).trans hold) hout
    | ret v => exact ⟨a, call, t, v, hl, hafter, hcode, hkind, hstep, hop⟩

/-- A dispatch goes on with a step of its caller, which does not return. -/
theorem Named.continues (hi : Named s l) (h : Dispatch.step sequences s b = some s')
    (hold : l.current c = some d) (hcur : (l.track s b s').current c = some d)
    (hb : b.launcher = some c.launcher) :
    ∃ (a : Answer) (call call' : Call) (t : State), l.dispatched[d]? = some call.code ∧ call.kind = call.code.kind ∧
      call.step sequences c a s = some (t, .next call') ∧ s.operation b = call.operation a := by
  cases step_calls h c with
  | begins _ _ hnone _ _ =>
    rw [hi.outside c hnone] at hold
    cases hold
  | rests _ _ hnone =>
    rw [hi.outside c (hnone hb)] at hold
    cases hold
  | @steps a call t r _ _ hbefore hstep hop hafter =>
    obtain ⟨d', hd', hcode, hkind⟩ := hi.inside c call hbefore
    cases Option.some.inj (hold.symm.trans hd')
    cases r with
    | ret v =>
      rw [Ledger.current_ended hafter] at hcur
      cases hcur
    | next call' => exact ⟨a, call, call', t, hcode, hkind, hstep, hop⟩

end Named

/-! ### Whose tasks are registered -/

/-- The task is of a kind that its dispatch starts; the recorder's send no callback. -/
def Ledger.Started (l : Ledger) (v : Owned) : Prop :=
  (∃ d code, v.owner = some d ∧ l.dispatched[d]? = some code ∧ code.Starts v.task) ∨
    v.owner = none ∧ v.task = reading

structure Attributed (l : Ledger) : Prop where
  entries : ∀ e ∈ l.entries, l.Started e.2
  departed : ∀ v ∈ l.departed, l.Started v.1
  launched : ∀ d ∈ l.launched, d < l.dispatched.length

section Attributed

variable {sequences : TOFCommandCode → MacroSequence} {s s' : State} {l : Ledger} {b : Action}

theorem Operation.mem_departures {ν : Type*} {m : List (Pid × ν)} {o : Operation}
    {v : ν × Departure} (h : v ∈ o.departures m) :
    ∃ pid, (pid, v.1) ∈ m ∧ o.keeps pid = false := by
  cases o with
  | idle | report _ _ | fork _ _ | forkWorker _ | waitAny _ => cases h
  | register p task =>
    obtain ⟨e, he, rfl⟩ := List.mem_map.mp h
    obtain ⟨hmem, hk⟩ := List.mem_filter.mp he
    exact ⟨e.1, hmem, by simpa [keeps] using hk⟩
  | interrupt stopPid =>
    obtain ⟨e, he, rfl⟩ := List.mem_map.mp h
    exact ⟨e.1, he, rfl⟩
  | reap p w =>
    obtain ⟨e, he, rfl⟩ := List.mem_map.mp h
    obtain ⟨hmem, hk⟩ := List.mem_filter.mp he
    exact ⟨e.1, hmem, by simpa [keeps] using hk⟩

theorem Ledger.Started.track {v : Owned} (h : l.Started v) : (l.track s b s').Started v :=
  h.imp_left fun ⟨d, code, hd, hcode, hs⟩ => ⟨d, code, hd, Ledger.dispatched_old hcode, hs⟩

theorem Attributed.step (hi : Attributed l) (hn : Named s l)
    (h : Dispatch.step sequences s b = some s') : Attributed (Ledger.track s b s' l) := by
  refine ⟨fun e he => ?_, fun v hv => ?_, fun d hd => ?_⟩
  · rcases Operation.mem_registry.mp he with ⟨hold, -⟩ | ⟨task, hadd, hv⟩
    · exact (hi.entries e hold).track
    · rw [hv]
      rcases hn.actor h (Operation.task_added hadd) with ⟨c, d, code, -, hmark, -, hcode, hs⟩ | hs
      · exact Ledger.Started.track (.inl ⟨d, code, hmark, hcode, hs⟩)
      · exact .inr hs
  · rcases List.mem_append.mp hv with hv | hv
    · exact (hi.departed v hv).track
    · obtain ⟨pid, hmem, -⟩ := Operation.mem_departures hv
      exact (hi.entries _ hmem).track
  · have hlen : l.dispatched.length ≤ (Ledger.track s b s' l).dispatched.length := by
      simp [Ledger.track]
    refine Nat.lt_of_lt_of_le ?_ hlen
    simp only [Ledger.track] at hd
    split at hd
    · rcases List.mem_append.mp hd with hd | hd
      · cases b with
        | worker a => exact hn.lt (Option.mem_toList.mp hd)
        | macroThread a => exact hn.lt (Option.mem_toList.mp hd)
        | _ => cases hd
      · exact hi.launched d hd
    · exact hi.launched d hd

end Attributed

end GramsTof.Dispatch
