import GramsTof.Dispatch.Ledger

/-! The verdict on a background task: none while it is registered, and exactly one
when it has left the registry. -/

namespace GramsTof.Dispatch

open Lib TOFCommandCode

variable {sequences : TOFCommandCode → MacroSequence} {s s' : State} {l : Ledger} {b : Action}
  {d : ℕ} {code : TOFCommandCode}

/-! ### Where the task of a dispatch is -/

/-- What leaves the registry is added to the departures, and what is registered to the registry. -/
theorem Operation.countP_registry {ν : Type*} {f : BackgroundTask → ν} {m : List (Pid × ν)}
    (o : Operation) (q : ν → Bool) :
    (o.registry f m).countP (q ·.2) + (o.departures m).countP (q ·.1) =
      m.countP (q ·.2) + o.added.elim 0 fun x => if q (f x.2) then 1 else 0 := by
  have hsplit (pid : Pid) : m.countP (q ·.2) =
      (m.filter (·.1 ≠ pid)).countP (q ·.2) + (m.filter (·.1 = pid)).countP (q ·.2) := by
    rw [List.countP_eq_countP_filter_add m (q ·.2) (·.1 ≠ pid)]
    simp
  cases o with
  | idle | report _ _ | fork _ _ | forkWorker _ | waitAny _ => rfl
  | register pid task =>
    rw [registry, departures, Registry.put, List.countP_cons, List.countP_map, hsplit pid]
    simp only [added, Option.elim_some, Registry.remove, Function.comp_def]
    omega
  | interrupt stopPid =>
    rw [registry, departures, List.countP_map, Nat.add_comm]
    cases stopPid <;> simp [added, Function.comp_def, List.countP_cons]
  | reap pid w =>
    rw [registry, departures, List.countP_map, hsplit pid]
    rfl

namespace Ledger

/-- How many tasks of the dispatch `d` are registered or have left. -/
def places (l : Ledger) (d : ℕ) : ℕ :=
  l.entries.countP (·.2.owner = some d) + l.departed.countP (·.1.owner = some d)

theorem places_track : (l.track s b s').places d =
    l.places d + if (s.operation b).added.isSome ∧ l.mark b = some d then 1 else 0 := by
  have hcount := Operation.countP_registry (f := (⟨·, l.mark b⟩)) (m := l.entries) (s.operation b)
    fun v : Owned => v.owner = some d
  unfold places
  simp only [track, List.countP_append]
  cases hadd : (s.operation b).added with
  | none =>
    rw [hadd, Option.elim_none] at hcount
    rw [if_neg (by simp)]
    omega
  | some x =>
    simp only [hadd, Option.elim_some, decide_eq_true_eq] at hcount
    simp only [Option.isSome_some, true_and]
    omega

theorem mem_launched_track : d ∈ (l.track s b s').launched ↔
    d ∈ l.launched ∨ (∃ pid task, s.operation b = .fork pid task) ∧ l.mark b = some d := by
  simp only [track]
  split
  · rename_i pid task ho
    simp [ho, or_comm]
  · rename_i hnot
    refine ⟨.inl, fun h => h.resolve_right ?_⟩
    rintro ⟨⟨pid, task, ho⟩, -⟩
    exact hnot pid task ho

theorem current_of_mark (h : l.mark b = some d) :
    ∃ c : Caller, b.launcher = some c.launcher ∧ l.current c = some d := by
  cases b with
  | worker a => exact ⟨.worker, rfl, h⟩
  | macroThread a => exact ⟨.macroThread, rfl, h⟩
  | _ => cases h

theorem mark_of_current {c : Caller} (hb : b.launcher = some c.launcher) :
    l.mark b = l.current c := by
  cases c <;> cases b <;> first | rfl | cases hb

end Ledger

theorem Named.current_unique (hn : Named s l) {c c' : Caller} (h : l.current c = some d)
    (h' : l.current c' = some d) : c = c' := by
  cases c <;> cases c'
  · rfl
  · exact absurd h' (hn.apart d h)
  · exact absurd h (hn.apart d h')
  · rfl

/-- A process is in the hands of its dispatch, or its task in one place. -/
structure Placed (s : State) (l : Ledger) : Prop where
  unlaunched : ∀ d, d ∉ l.launched →
    l.places d = 0 ∧ ∀ c, l.current c = some d → s.held c.launcher = none
  inside : ∀ d code c, l.dispatched[d]? = some code → code.kind = .background →
    l.current c = some d → l.places d = 0 ∧ (d ∈ l.launched → s.held c.launcher ≠ none)
  outside : ∀ d code, l.dispatched[d]? = some code → code.kind = .background →
    ¬ l.executing d → d ∈ l.launched → l.places d = 1

namespace Placed

theorem unlaunched_step (hi : Placed s l) (h : step sequences s b = some s')
    (hd : d ∉ (l.track s b s').launched) :
    (l.track s b s').places d = 0 ∧
      ∀ c, (l.track s b s').current c = some d → s'.held c.launcher = none := by
  have hp := step_performed h
  rw [Ledger.mem_launched_track, not_or] at hd
  obtain ⟨hzero, hhands⟩ := hi.unlaunched d hd.1
  constructor
  · rw [Ledger.places_track, hzero, if_neg]
    rintro ⟨hadd, hmark⟩
    obtain ⟨x, hadd⟩ := Option.isSome_iff_exists.mp hadd
    obtain ⟨c, hc, hcur⟩ := Ledger.current_of_mark hmark
    obtain ⟨k, hk, -, hheld⟩ := hp.added_held hadd
    cases Option.some.inj (hc.symm.trans hk)
    rw [hhands c hcur] at hheld
    rcases hheld with ⟨hheld, -⟩ | ⟨hheld, -⟩ <;> cases hheld
  · intro c hcur
    rcases Ledger.current_track hcur with ⟨hb, -⟩ | ⟨hb, hold⟩
    · rw [State.held_calls]
      cases step_calls h c with
      | begins _ hh _ hafter _ => rw [hafter]; exact handler_hold hh
      | steps hnone _ _ _ _ _ => rw [hnone] at hb; cases hb
      | rests hnone _ _ => rw [hnone] at hb; cases hb
    · by_cases hc : b.launcher = some c.launcher
      · have hh := hp.hands _ hc
        rw [hhands c hold] at hh
        generalize hop : s.operation b = o at hh
        generalize s'.held c.launcher = after at hh
        cases hh with
        | fork pid task =>
          exact absurd ⟨⟨pid, task, hop⟩, (Ledger.mark_of_current hc).trans hold⟩ hd.2
        | _ => rfl
      · exact (hp.keeps _ hc).trans (hhands c hold)

/-- A thread with a process in its hands can only register it. -/
theorem added_of_held {c : Caller} (hp : Performed b s s') (hc : b.launcher = some c.launcher)
    (hheld : s.held c.launcher ≠ none) : (s.operation b).added.isSome := by
  have hh := hp.hands _ hc
  generalize s.operation b = o at hh
  generalize s.held c.launcher = before at hh hheld
  generalize s'.held c.launcher = after at hh
  cases hh with
  | register _ _ | registerScript _ | interruptScript _ => rfl
  | idle | report _ _ | fork _ _ | interrupt | forkWorker _ | waitAny _ => exact absurd rfl hheld

/-- The handler of a background command goes on only after a `fork`. -/
theorem fork_of_inside {c : Caller} (hn : Named s l) (h : step sequences s b = some s')
    (hcode : l.dispatched[d]? = some code) (hk : code.kind = .background)
    (hold : l.current c = some d) (hcur : (l.track s b s').current c = some d)
    (hb : b.launcher = some c.launcher) : ∃ pid task, s.operation b = .fork pid task := by
  obtain ⟨a, call, call', t, hcode', hkind, hstep, hop⟩ := hn.continues h hold hcur hb
  cases Option.some.inj (hcode.symm.trans hcode')
  rw [hop]
  exact Call.background_next (hkind.trans hk) hstep

theorem inside_step (hi : Placed s l) (hn : Named s l) (ha : Attributed l)
    (h : step sequences s b = some s') {c : Caller}
    (hcode : (l.track s b s').dispatched[d]? = some code) (hk : code.kind = .background)
    (hcur : (l.track s b s').current c = some d) :
    (l.track s b s').places d = 0 ∧
      (d ∈ (l.track s b s').launched → s'.held c.launcher ≠ none) := by
  have hp := step_performed h
  rcases Ledger.current_track hcur with ⟨hb, rfl⟩ | ⟨hb, hold⟩
  · have hnew : l.dispatched.length ∉ l.launched := fun hd => absurd (ha.launched _ hd) (by omega)
    have hidle : s.operation b = .idle := by
      cases step_calls h c with
      | begins _ _ _ _ hidle => exact hidle
      | steps hnone _ _ _ _ _ => rw [hnone] at hb; cases hb
      | rests hnone _ _ => rw [hnone] at hb; cases hb
    rw [Ledger.places_track, Ledger.mem_launched_track, (hi.unlaunched _ hnew).1, hidle,
      Nat.zero_add]
    refine ⟨if_neg (by simp [Operation.added]), fun hd => ?_⟩
    rcases hd with hd | ⟨⟨_, _, ho⟩, -⟩
    · exact absurd hd hnew
    · cases ho
  · have hcode' : l.dispatched[d]? = some code := by
      rw [← hcode]
      exact (List.getElem?_append_left (hn.lt hold)).symm
    obtain ⟨hzero, hhands⟩ := hi.inside d code c hcode' hk hold
    by_cases hc : b.launcher = some c.launcher
    · obtain ⟨pid, task, ho⟩ := fork_of_inside hn h hcode' hk hold hcur hc
      rw [Ledger.places_track, hzero, ho, Nat.zero_add]
      refine ⟨if_neg (by simp [Operation.added]), fun _ => ?_⟩
      have hh := hp.hands _ hc
      rw [ho] at hh
      generalize s.held c.launcher = before at hh
      generalize s'.held c.launcher = after at hh
      cases hh
      exact Option.some_ne_none _
    · have hmark : l.mark b ≠ some d := by
        intro hmark
        obtain ⟨c', hc', hcur'⟩ := Ledger.current_of_mark hmark
        cases hn.current_unique hold hcur'
        exact hc hc'
      rw [Ledger.places_track, hzero, hp.keeps _ hc, Nat.zero_add]
      refine ⟨if_neg fun hadd => hmark hadd.2, fun hd => hhands ?_⟩
      exact (Ledger.mem_launched_track.mp hd).resolve_right fun hd => hmark hd.2

theorem outside_step (hi : Placed s l) (hn : Named s l) (ha : Attributed l)
    (h : step sequences s b = some s') (hcode : (l.track s b s').dispatched[d]? = some code)
    (hk : code.kind = .background) (hout : ¬ (l.track s b s').executing d)
    (hd : d ∈ (l.track s b s').launched) : (l.track s b s').places d = 1 := by
  have hp := step_performed h
  have hlt : d < l.dispatched.length := by
    rcases Ledger.mem_launched_track.mp hd with hd | ⟨-, hmark⟩
    · exact ha.launched d hd
    · obtain ⟨c, -, hcur⟩ := Ledger.current_of_mark hmark
      exact hn.lt hcur
  have hcode' : l.dispatched[d]? = some code := by
    rw [← hcode]
    exact (List.getElem?_append_left hlt).symm
  by_cases hex : l.executing d
  · obtain ⟨c, hold⟩ := hex
    obtain ⟨hzero, hhands⟩ := hi.inside d code c hcode' hk hold
    obtain ⟨a, call, t, v, hl, hafter, -⟩ := hn.ended h hold fun hcur => hout ⟨c, hcur⟩
    have hdead : s'.held c.launcher = none := by rw [State.held_calls, hafter]; rfl
    have hlaunched : d ∈ l.launched := by
      refine (Ledger.mem_launched_track.mp hd).resolve_right ?_
      rintro ⟨⟨pid, task, ho⟩, -⟩
      have hh := hp.hands _ hl
      rw [ho, hdead] at hh
      generalize s.held c.launcher = before at hh
      cases hh
    have hmark : l.mark b = some d := (Ledger.mark_of_current hl).trans hold
    rw [Ledger.places_track, hzero, if_pos ⟨added_of_held hp hl (hhands hlaunched), hmark⟩]
  · have hmark : l.mark b ≠ some d := fun hmark => by
      obtain ⟨c, -, hcur⟩ := Ledger.current_of_mark hmark
      exact hex ⟨c, hcur⟩
    have hlaunched := (Ledger.mem_launched_track.mp hd).resolve_right fun hd => hmark hd.2
    rw [Ledger.places_track, hi.outside d code hcode' hk hex hlaunched,
      if_neg fun hadd => hmark hadd.2]

theorem step (hi : Placed s l) (hn : Named s l) (ha : Attributed l)
    (h : Dispatch.step sequences s b = some s') : Placed s' (l.track s b s') where
  unlaunched _ hd := hi.unlaunched_step h hd
  inside _ _ _ hcode hk hcur := hi.inside_step hn ha h hcode hk hcur
  outside _ _ hcode hk hout hd := hi.outside_step hn ha h hcode hk hout hd

end Placed

/-! ### What was sent on behalf of a task -/

/-- The statuses sent for processes are those of the departures. -/
def Ledger.Settled (l : Ledger) : Prop :=
  ∀ owner, l.sent.filter (·.sender = .process owner) =
    (l.departed.filter (·.1.owner = owner)).filterMap Departure.status

theorem Departure.filter_status (vs : List (Owned × Departure)) (owner : Option ℕ) :
    (vs.filterMap Departure.status).filter (·.sender = .process owner) =
      (vs.filter (·.1.owner = owner)).filterMap Departure.status := by
  rw [List.filter_filterMap, List.filterMap_filter]
  congr 1
  funext v
  cases hv : v.2.verdict v.1.task with
  | none => simp [Departure.status, hv]
  | some value => by_cases ho : v.1.owner = owner <;> simp [Departure.status, hv, ho]

theorem Ledger.Settled.step (hi : l.Settled) : (l.track s b s').Settled := by
  intro owner
  have hown : ((s.operation b).own.map (Status.ofHandler (l.mark b))).toList.filter
      (·.sender = .process owner) = [] := by
    cases (s.operation b).own with
    | none => rfl
    | some x => cases l.mark b <;> simp [Status.ofHandler]
  simp only [Ledger.track, List.filter_append, List.filterMap_append]
  rw [hown, hi owner, Departure.filter_status, List.append_nil]

/-- No task but a stop script leaves by a failing `waitpid` or because its number is reused. -/
def Ledger.Decided (l : Ledger) : Prop :=
  ∀ v ∈ l.departed, v.1.task ≠ stopScript → v.2 = .stopped ∨ ∃ success, v.2 = .exited success

theorem Ledger.Decided.step (hi : l.Decided) (hf : Faithful s l) (hc : Custody s)
    (h : Dispatch.step sequences s b = some s') : (l.track s b s').Decided := by
  have hp := step_performed h
  have hreg {pid : Pid} {v : Owned} (hmem : (pid, v) ∈ l.entries) :
      (pid, v.task) ∈ s.activeBackgroundTasks := by
    rw [← hf.entries]
    exact Registry.mem_mapValues.mpr ⟨v, hmem, rfl⟩
  intro v hv htask
  rcases List.mem_append.mp hv with hv | hv
  · exact hi v hv htask
  · generalize ho : s.operation b = o at hv
    cases o with
    | idle | report _ _ | fork _ _ | forkWorker _ | waitAny _ => cases hv
    | register pid task =>
      obtain ⟨e, he, rfl⟩ := List.mem_map.mp hv
      obtain ⟨hmem, hk⟩ := List.mem_filter.mp he
      rw [decide_eq_true_eq] at hk
      obtain ⟨k, -, -, ⟨hheld, -⟩ | ⟨-, -, ho'⟩⟩ := hp.added_held (by rw [ho]; rfl)
      · refine absurd ?_ (hc.forked k pid task hheld).2
        rw [← hk, ← hf.keys]
        exact Registry.mem_keys_of_mem hmem
      · rw [ho] at ho'
        cases ho'
    | interrupt stopPid =>
      obtain ⟨e, he, rfl⟩ := List.mem_map.mp hv
      by_cases hk : some e.1 = stopPid
      · subst hk
        obtain ⟨k, -, -, ⟨-, ho'⟩ | ⟨hheld, -⟩⟩ := hp.added_held (by rw [ho]; rfl)
        · rw [ho] at ho'
          cases ho'
        · exact absurd (hc.stopping k e.1 _ hheld (hreg he)) htask
      · exact .inl (if_neg hk)
    | reap pid w =>
      obtain ⟨e, he, rfl⟩ := List.mem_map.mp hv
      obtain ⟨hmem, hk⟩ := List.mem_filter.mp he
      rw [decide_eq_true_eq] at hk
      cases w with
      | exited success => exact .inr ⟨success, rfl⟩
      | error =>
        have hen := hp.effect.enabled
        rw [ho] at hen
        have halive := hc.alive e.1 _ (hreg hmem) htask
        rw [hk] at halive
        exact absurd halive (hen.2.mp rfl).1

/-! ### Runs -/

/-- What a run that does not reuse a number too soon keeps. -/
structure Audited (p : State × Ledger) : Prop where
  custody : Custody p.1
  faithful : Faithful p.1 p.2
  named : Named p.1 p.2
  attributed : Attributed p.2
  placed : Placed p.1 p.2
  settled : p.2.Settled
  decided : p.2.Decided

theorem initial_placed : Placed initial .empty where
  unlaunched _ _ := ⟨rfl, nofun⟩
  inside _ _ _ hcode := by simp [Ledger.empty] at hcode
  outside _ _ hcode := by simp [Ledger.empty] at hcode

theorem initial_named : Named initial .empty where
  inside c _ h := by cases c <;> cases h
  outside _ _ := rfl
  apart _ h := by cases h

theorem initial_audited : Audited (initial, .empty) where
  custody := initial_custody
  faithful := ⟨rfl, rfl⟩
  named := initial_named
  attributed := ⟨fun _ h => absurd h List.not_mem_nil, fun _ h => absurd h List.not_mem_nil,
    fun _ h => absurd h List.not_mem_nil⟩
  placed := initial_placed
  settled _ := rfl
  decided _ h := absurd h List.not_mem_nil

def FreshRun (p : State × Ledger) (a : Action) : Prop := Fresh p.1 a

instance (p : State × Ledger) (a : Action) : Decidable (FreshRun p a) :=
  inferInstanceAs (Decidable (Fresh p.1 a))

theorem Audited.step (hi : Audited (s, l)) (hg : FreshRun (s, l) b)
    (h : Dispatch.step sequences s b = some s') : Audited (s', l.track s b s') where
  custody := hi.custody.step hg h
  faithful := hi.faithful.step hi.custody.registered (step_performed h).effect
  named := hi.named.step h
  attributed := hi.attributed.step hi.named h
  placed := hi.placed.step hi.named hi.attributed h
  settled := hi.settled.step
  decided := hi.decided.step hi.faithful hi.custody h

theorem audited {p : State × Ledger} (h : (ledgerMachine sequences).Reach FreshRun p) :
    Audited p :=
  h.invariant_history (fun _ h0 => h0 ▸ initial_audited) fun _ _ _ _ hi hg hs => hi.step hg hs

/-- A background command starts at most one task. -/
theorem Placed.le_one (hi : Placed s l) (hcode : l.dispatched[d]? = some code)
    (hk : code.kind = .background) : l.places d ≤ 1 := by
  by_cases hd : d ∈ l.launched
  · by_cases hex : l.executing d
    · obtain ⟨c, hcur⟩ := hex
      rw [(hi.inside d code c hcode hk hcur).1]
      exact Nat.zero_le 1
    · exact Nat.le_of_eq (hi.outside d code hcode hk hex hd)
  · rw [(hi.unlaunched d hd).1]
    exact Nat.zero_le 1

theorem Ledger.Started.background {v : Owned} (h : l.Started v) (hsend : v.task.sendCallback)
    (hstop : v.task.commandCode ≠ stopDaq) :
    ∃ d code, v.owner = some d ∧ l.dispatched[d]? = some code ∧ code.kind = .background := by
  rcases h with ⟨d, code, hd, hcode, ⟨hk, -⟩ | ⟨-, ht⟩⟩ | ⟨-, ht⟩
  · exact ⟨d, code, hd, hcode, hk⟩
  · rw [ht] at hstop
    exact absurd rfl hstop
  · rw [ht] at hsend
    cases hsend

/-- The departures of a dispatch are none while its task is registered. -/
theorem Ledger.departed_of_registered {e : Pid × Owned} (hle : l.places d ≤ 1)
    (he : e ∈ l.entries) (hd : e.2.owner = some d) :
    l.departed.filter (·.1.owner = some d) = [] := by
  have hpos : 0 < l.entries.countP (·.2.owner = some d) :=
    List.countP_pos_iff.mpr ⟨e, he, by simpa using hd⟩
  rw [← List.length_eq_zero_iff, ← List.countP_eq_length_filter]
  unfold places at hle
  omega

theorem Ledger.departed_of_departed {v : Owned × Departure} (hle : l.places d ≤ 1)
    (hv : v ∈ l.departed) (hd : v.1.owner = some d) :
    l.departed.filter (·.1.owner = some d) = [v] := by
  have hmem : v ∈ l.departed.filter (·.1.owner = some d) :=
    List.mem_filter.mpr ⟨hv, by simpa using hd⟩
  have hlen : (l.departed.filter (·.1.owner = some d)).length ≤ 1 := by
    rw [← List.countP_eq_length_filter]
    unfold places at hle
    omega
  obtain ⟨w, hw⟩ := List.length_eq_one_iff.mp (Nat.le_antisymm hlen (List.length_pos_of_mem hmem))
  rw [hw] at hmem ⊢
  rw [List.mem_singleton.mp hmem]

/-- The statuses sent for the tasks that are not stop scripts. -/
structure OneVerdict (s : State) (l : Ledger) : Prop extends Faithful s l where
  /-- None while the task is registered. -/
  registered : ∀ e ∈ l.entries, e.2.task.sendCallback → e.2.task.commandCode ≠ stopDaq →
    ∃ d, e.2.owner = some d ∧ l.verdicts d = []
  /-- One when it has left. -/
  departed : ∀ v ∈ l.departed, v.1.task.sendCallback → v.1.task.commandCode ≠ stopDaq →
    ∃ d value, v.1.owner = some d ∧
      l.verdicts d = [⟨.process (some d), v.1.task.commandCode, value⟩] ∧
      (v.2 = .stopped ∧ value = 2 ∨
        ∃ success, v.2 = .exited success ∧ value = if success then 0 else 1)
  /-- A dispatch has no other task that its statuses could be for. -/
  single : ∀ d code, l.dispatched[d]? = some code → code.kind = .background → l.places d ≤ 1

theorem Audited.oneVerdict {p : State × Ledger} (hi : Audited p) : OneVerdict p.1 p.2 := by
  refine ⟨hi.faithful, fun e he hsend hstop => ?_, fun v hv hsend hstop => ?_,
    fun d code hcode hk => hi.placed.le_one hcode hk⟩
  · obtain ⟨d, code, hd, hcode, hk⟩ := (hi.attributed.entries e he).background hsend hstop
    refine ⟨d, hd, ?_⟩
    rw [Ledger.verdicts, hi.settled,
      Ledger.departed_of_registered (hi.placed.le_one hcode hk) he hd]
    rfl
  · obtain ⟨d, code, hd, hcode, hk⟩ := (hi.attributed.departed v hv).background hsend hstop
    have htask : v.1.task ≠ stopScript := fun ht => hstop (by rw [ht]; rfl)
    have hverdicts : p.2.verdicts d = [v].filterMap Departure.status := by
      rw [Ledger.verdicts, hi.settled,
        Ledger.departed_of_departed (hi.placed.le_one hcode hk) hv hd]
    rcases hi.decided v hv htask with hcause | ⟨success, hcause⟩
    · refine ⟨d, 2, hd, ?_, .inl ⟨hcause, rfl⟩⟩
      rw [hverdicts]
      simp [Departure.status, hcause, Departure.verdict, hd]
    · refine ⟨d, if success then 0 else 1, hd, ?_, .inr ⟨success, hcause, rfl⟩⟩
      rw [hverdicts]
      simp [Departure.status, hcause, Departure.verdict, hd, hsend]

/-- A background task is reported once: 2 when `STOP_DAQ` has removed it, else 0 or 1 by its exit
status, in every run whose `fork`s return no number that is still registered, and whose
`wait(NULL)`s take no process that is registered or about to be. -/
theorem one_verdict {p : State × Ledger} (h : (ledgerMachine sequences).Reach FreshRun p) :
    OneVerdict p.1 p.2 :=
  (audited h).oneVerdict

/-- One process fails, and `STOP_DAQ` ends the other. -/
theorem one_verdict_stop :
    ∃ p, (ledgerMachine macroSequence).Reach FreshRun p ∧
      p.1.callbacks = [(acquireTdcCalibration, 1), (acquireQdcCalibration, 2)] ∧
      OneVerdict p.1 p.2 := by
  have hend : ((ledgerMachine macroSequence).runIn FreshRun (initial, .empty)
      (workerBackground acquireTdcCalibration 7 ++ workerBackground acquireQdcCalibration 8 ++
        .monitor 7 (.exited false) :: workerStop 9)).map (·.1.callbacks) =
      some [(acquireTdcCalibration, 1), (acquireQdcCalibration, 2)] := by decide
  obtain ⟨p, hrun, hp⟩ := Option.map_eq_some_iff.mp hend
  have h : (ledgerMachine macroSequence).Reach FreshRun p :=
    Machine.Reach.runIn (.init (s := (initial, .empty)) ⟨rfl, rfl⟩) hrun
  exact ⟨p, h, hp, one_verdict h⟩

/-- The stop script 7 is waited for before `STOP_DAQ` registers it again. The next process gets the
number 7, is waited for under the entry of the stop script, and never reported. -/
theorem not_one_verdict :
    ¬ ∀ p, (ledgerMachine macroSequence).Reachable p → OneVerdict p.1 p.2 := by
  intro h
  obtain ⟨p, hp, hlost⟩ := (ledgerMachine macroSequence).exists_reachable_of_run (initial, .empty)
    (fun p => decide ((⟨⟨acquireTdcCalibration, true⟩, some 1⟩, .lost) ∈ p.2.departed))
    ((workerStop 7).take 4 ++ [.monitor 7 (.exited true)] ++ List.replicate 4 (.worker done) ++
      (workerBackground acquireTdcCalibration 7).take 2 ++
      [.monitor 7 (.exited true), .worker done, .monitor 7 .error]) ⟨rfl, rfl⟩ (by decide)
  obtain ⟨d, value, -, -, ⟨hcause, -⟩ | ⟨success, hcause, -⟩⟩ :=
    (h p hp).departed _ (of_decide_eq_true hlost) rfl nofun
  · cases hcause
  · cases hcause

end GramsTof.Dispatch
