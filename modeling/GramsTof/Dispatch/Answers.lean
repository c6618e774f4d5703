import GramsTof.Dispatch.Endings

/-! The statuses that one dispatch of a command leads to, from its handler and from
the process it starts. -/

namespace GramsTof.Dispatch

open Lib TOFCommandCode

variable {sequences : TOFCommandCode → MacroSequence} {s s' : State} {l : Ledger} {b : Action}
  {d : ℕ} {code : TOFCommandCode}

/-! ### The handler's own status -/

namespace Ledger

/-- How often the handler of the dispatch `d` has sent a status with the code `code`. -/
def own (l : Ledger) (d : ℕ) (code : TOFCommandCode) : ℕ :=
  l.sent.countP fun st => st.sender = .handler d ∧ st.code = code

theorem own_departures (vs : List (Owned × Departure)) :
    (vs.filterMap Departure.status).countP
      (fun st => decide (st.sender = .handler d ∧ st.code = code)) = 0 := by
  refine List.countP_eq_zero.mpr fun st hst => ?_
  obtain ⟨v, -, hv⟩ := List.mem_filterMap.mp hst
  obtain ⟨value, -, rfl⟩ := Option.map_eq_some_iff.mp hv
  simp

theorem own_track : (l.track s b s').own d code =
    l.own d code + if l.mark b = some d ∧ (s.operation b).own.map Prod.fst = some code
      then 1 else 0 := by
  unfold own
  simp only [track, List.countP_append]
  rw [own_departures, Nat.add_zero]
  congr 1
  cases (s.operation b).own with
  | none => simp
  | some x =>
    cases l.mark b with
    | none => simp [Status.ofHandler]
    | some d' => simp [List.countP_cons, Status.ofHandler]

end Ledger

theorem Operation.own_map_fst {o : Operation} :
    o.own.map Prod.fst = some code ↔ ∃ value, o.own = some (code, value) := by
  constructor
  · intro h
    obtain ⟨x, hx, rfl⟩ := Option.map_eq_some_iff.mp h
    exact ⟨x.2, hx⟩
  · rintro ⟨value, h⟩
    rw [h]
    rfl

theorem State.begins_of_begun (h : s.begun b = some code) : ∃ c, s.begins c b = some code := by
  unfold State.begun at h
  cases hw : s.begins .worker b with
  | none => rw [hw] at h; exact ⟨.macroThread, h⟩
  | some code' => rw [hw] at h; exact ⟨.worker, hw.trans h⟩

/-- A dispatch that the ledger lists is an old one, or has just begun. -/
theorem Ledger.dispatched_new (h : step sequences s b = some s')
    (hcode : (l.track s b s').dispatched[d]? = some code) :
    l.dispatched[d]? = some code ∨
      d = l.dispatched.length ∧ s.operation b = .idle ∧ (l.track s b s').executing d := by
  by_cases hlt : d < l.dispatched.length
  · exact .inl ((List.getElem?_append_left hlt).symm.trans hcode)
  · right
    have hnew : (s.begun b).toList[d - l.dispatched.length]? = some code :=
      (List.getElem?_append_right (Nat.le_of_not_lt hlt)).symm.trans hcode
    cases hb : s.begun b with
    | none => rw [hb] at hnew; cases hnew
    | some code' =>
      have hd : d = l.dispatched.length := by
        have hlen := (List.getElem?_eq_some_iff.mp hnew).1
        rw [hb] at hlen
        simp at hlen
        omega
      obtain ⟨c, hc⟩ := State.begins_of_begun hb
      cases step_calls h c with
      | begins _ _ _ hafter hidle => exact ⟨hd, hidle, c, by simp [Ledger.track, hafter, hc, hd]⟩
      | steps hnone _ _ _ _ _ => rw [hnone] at hc; cases hc
      | rests hnone _ _ => rw [hnone] at hc; cases hc

/-- The operation of a step taken for a dispatch is its handler's. -/
theorem Named.operation_of_mark (hn : Named s l) (h : Dispatch.step sequences s b = some s')
    (hmark : l.mark b = some d) :
    ∃ (a : Answer) (call : Call), l.dispatched[d]? = some call.code ∧ call.kind = call.code.kind ∧
      s.operation b = call.operation a := by
  obtain ⟨c, hc, hold⟩ := Ledger.current_of_mark hmark
  by_cases hcur : (l.track s b s').current c = some d
  · obtain ⟨a, call, call', t, hcode, hkind, -, hop⟩ := hn.continues h hold hcur hc
    exact ⟨a, call, hcode, hkind, hop⟩
  · obtain ⟨a, call, t, v, -, -, hcode, hkind, -, hop⟩ := hn.ended h hold hcur
    exact ⟨a, call, hcode, hkind, hop⟩

/-- A handler of `executeSimpleCommand` has sent its status when it has returned, the others send
none. -/
structure OwnOnce (l : Ledger) : Prop where
  known : ∀ st ∈ l.sent, ∀ d, st.sender = .handler d → d < l.dispatched.length
  during : ∀ d code, l.dispatched[d]? = some code → code.kind ≠ .other → l.executing d →
    l.own d code = 0
  after : ∀ d code, l.dispatched[d]? = some code → code.kind = .reporting → ¬ l.executing d →
    l.own d code = 1
  background : ∀ d code, l.dispatched[d]? = some code → code.kind = .background →
    l.own d code = 0

namespace OwnOnce

theorem known_step (hi : OwnOnce l) (hn : Named s l) :
    ∀ st ∈ (l.track s b s').sent, ∀ d, st.sender = .handler d →
      d < (l.track s b s').dispatched.length := by
  have hlen : l.dispatched.length ≤ (l.track s b s').dispatched.length := by simp [Ledger.track]
  intro st hst d hd
  refine Nat.lt_of_lt_of_le ?_ hlen
  simp only [Ledger.track, List.mem_append] at hst
  rcases hst with (hst | hst) | hst
  · exact hi.known st hst d hd
  · obtain ⟨v, -, hv⟩ := List.mem_filterMap.mp hst
    obtain ⟨value, -, rfl⟩ := Option.map_eq_some_iff.mp hv
    cases hd
  · obtain ⟨x, -, rfl⟩ := Option.map_eq_some_iff.mp (Option.mem_toList.mp hst)
    cases hm : l.mark b with
    | none => rw [hm] at hd; cases hd
    | some d' =>
      rw [hm] at hd
      cases hd
      obtain ⟨c, -, hcur⟩ := Ledger.current_of_mark hm
      exact hn.lt hcur

theorem new (hi : OwnOnce l) : l.own l.dispatched.length code = 0 := by
  refine List.countP_eq_zero.mpr fun st hst hd => ?_
  have hlt := hi.known st hst l.dispatched.length (of_decide_eq_true hd).1
  omega

theorem idle_step (ho : s.operation b = .idle) : (l.track s b s').own d code = l.own d code := by
  rw [Ledger.own_track, ho, if_neg (by simp [Operation.own]), Nat.add_zero]

/-- Only the caller of a dispatch sends on its behalf. -/
theorem other_step (hmark : l.mark b ≠ some d) : (l.track s b s').own d code = l.own d code := by
  rw [Ledger.own_track, if_neg fun h => hmark h.1, Nat.add_zero]

theorem during_step (hi : OwnOnce l) (hn : Named s l) (h : step sequences s b = some s')
    (hcode : (l.track s b s').dispatched[d]? = some code) (hk : code.kind ≠ .other)
    (hex : (l.track s b s').executing d) : (l.track s b s').own d code = 0 := by
  rcases Ledger.dispatched_new h hcode with hcode | ⟨rfl, ho, -⟩
  · obtain ⟨c, hcur⟩ := hex
    rcases Ledger.current_track hcur with ⟨-, rfl⟩ | ⟨-, hold⟩
    · simp at hcode
    · have hzero := hi.during d code hcode hk ⟨c, hold⟩
      by_cases hb : b.launcher = some c.launcher
      · obtain ⟨a, call, call', t, hcode', hkind, hstep, hop⟩ := hn.continues h hold hcur hb
        cases Option.some.inj (hcode.symm.trans hcode')
        rw [Ledger.own_track, hzero, if_neg, Nat.zero_add]
        rw [hop, Operation.own_map_fst]
        rintro ⟨-, hown⟩
        cases hcall : call.kind with
        | reporting => exact Bool.false_ne_true ((Call.step_own hcall hstep).mp hown)
        | background =>
          obtain ⟨value, hvalue⟩ := hown
          rw [Call.background_own hcall] at hvalue
          cases hvalue
        | other => exact hk (hkind.symm.trans hcall)
      · refine (other_step fun hmark => hb ?_).trans hzero
        obtain ⟨c', hc', hcur'⟩ := Ledger.current_of_mark hmark
        rw [hn.current_unique hold hcur']
        exact hc'
  · rw [idle_step ho, hi.new]

theorem after_step (hi : OwnOnce l) (hn : Named s l) (h : step sequences s b = some s')
    (hcode : (l.track s b s').dispatched[d]? = some code) (hk : code.kind = .reporting)
    (hout : ¬ (l.track s b s').executing d) : (l.track s b s').own d code = 1 := by
  rcases Ledger.dispatched_new h hcode with hcode | ⟨-, -, hex⟩
  · by_cases hex : l.executing d
    · obtain ⟨c, hold⟩ := hex
      obtain ⟨a, call, t, v, hl, -, hcode', hkind, hstep, hop⟩ :=
        hn.ended h hold fun hcur => hout ⟨c, hcur⟩
      cases Option.some.inj (hcode.symm.trans hcode')
      have hown := (Call.step_own (hkind.trans hk) hstep).mpr rfl
      rw [Ledger.own_track, hi.during d _ hcode (by rw [hk]; nofun) ⟨c, hold⟩, if_pos]
      rw [hop, Operation.own_map_fst]
      exact ⟨(Ledger.mark_of_current hl).trans hold, hown⟩
    · refine (other_step fun hmark => hex ?_).trans (hi.after d code hcode hk hex)
      obtain ⟨c, -, hcur⟩ := Ledger.current_of_mark hmark
      exact ⟨c, hcur⟩
  · exact absurd hex hout

theorem background_step (hi : OwnOnce l) (hn : Named s l) (h : step sequences s b = some s')
    (hcode : (l.track s b s').dispatched[d]? = some code) (hk : code.kind = .background) :
    (l.track s b s').own d code = 0 := by
  rcases Ledger.dispatched_new h hcode with hcode | ⟨rfl, ho, -⟩
  · rw [Ledger.own_track, hi.background d code hcode hk, if_neg, Nat.zero_add]
    rintro ⟨hmark, hown⟩
    obtain ⟨a, call, hcode', hkind, hop⟩ := hn.operation_of_mark h hmark
    cases Option.some.inj (hcode.symm.trans hcode')
    rw [hop, Call.background_own (hkind.trans hk)] at hown
    cases hown
  · rw [idle_step ho, hi.new]

theorem step (hi : OwnOnce l) (hn : Named s l) (h : Dispatch.step sequences s b = some s') :
    OwnOnce (l.track s b s') where
  known := hi.known_step hn
  during _ _ hcode hk hex := hi.during_step hn h hcode hk hex
  after _ _ hcode hk hout := hi.after_step hn h hcode hk hout
  background _ _ hcode hk := hi.background_step hn h hcode hk

end OwnOnce

/-! ### The process it starts -/

/-- `STOP_DAQ` or the exit of the process has removed the task of the dispatch `d`. -/
def Ledger.Removed (l : Ledger) (d : ℕ) : Prop :=
  ∃ v ∈ l.departed, v.1.owner = some d ∧ (v.2 = .stopped ∨ ∃ success, v.2 = .exited success)

/-- A process that a dispatch has started is not lost sight of. -/
structure Pursued (s : State) (l : Ledger) : Prop where
  launched : ∀ d ∈ l.launched,
    (∃ c pid task, l.current c = some d ∧ s.held c.launcher = some (.forked pid task)) ∨
    (∃ e ∈ l.entries, e.2.owner = some d ∧ e.1 ∈ s.children) ∨ l.Removed d
  scripts : ∀ c pid v, s.held c.launcher = some (.script pid) → (pid, v) ∈ l.entries →
    v.owner = l.current c

theorem Ledger.Removed.track (h : l.Removed d) : (l.track s b s').Removed d := by
  obtain ⟨v, hv, hd⟩ := h
  exact ⟨v, List.mem_append_left _ hv, hd⟩

/-- Whoever holds a stop script is a caller of `dispatch`. -/
theorem State.caller_of_script {k : Launcher} {pid : Pid} (h : s.held k = some (.script pid)) :
    ∃ c : Caller, c.launcher = k := by
  cases k with
  | worker => exact ⟨.worker, rfl⟩
  | macroThread => exact ⟨.macroThread, rfl⟩
  | recorder =>
    rw [State.held] at h
    cases hr : s.recorder <;> rw [hr] at h <;> cases h

/-- A thread that keeps something in its hands stays in its handler. -/
theorem Ledger.current_of_held {c : Caller} {x y : Hold} (h : step sequences s b = some s')
    (hs : s.held c.launcher = some x) (hs' : s'.held c.launcher = some y) :
    (l.track s b s').current c = l.current c := by
  rw [State.held_calls] at hs hs'
  cases step_calls h c with
  | begins _ _ hnone _ _ => rw [hnone] at hs; cases hs
  | steps hb _ _ _ _ _ | rests hb _ _ =>
    cases hc : s'.calls c with
    | none => rw [hc] at hs'; cases hs'
    | some call => exact Ledger.current_kept hb hc

namespace Pursued

theorem scripts_step (hi : Pursued s l) (hc : Custody s) (h : step sequences s b = some s')
    {c : Caller} {pid : Pid} {v : Owned} (hl : s'.held c.launcher = some (.script pid))
    (hv : (pid, v) ∈ (l.track s b s').entries) : v.owner = (l.track s b s').current c := by
  have hp := step_performed h
  rcases Operation.mem_registry.mp hv with ⟨hold, hkeep⟩ | ⟨task, hadd, rfl⟩ <;>
    rcases hp.script_old hl with hs | ⟨hb, hs, ho⟩
  · rw [Ledger.current_of_held h hs hl]
    exact hi.scripts c pid v hs hold
  · rw [ho] at hkeep
    simp [Operation.keeps] at hkeep
  · obtain ⟨k, hk, hnone, ⟨hk', -⟩ | ⟨hk', -, ho⟩⟩ := hp.added_held hadd
    · exact absurd hs (hc.scripts k c.launcher pid task hk')
    · cases hc.stops c.launcher k pid hs hk'
      have hh := hp.hands _ hk
      rw [ho, hl] at hh
      generalize s.held c.launcher = before at hh
      cases hh
  · rw [Ledger.current_of_held h hs hl]
    exact Ledger.mark_of_current hb

/-- A registered child stays so, or is removed by `STOP_DAQ` or at its exit. -/
theorem registered_step (hi : Pursued s l) (hf : Faithful s l) (hc : Custody s) (hg : Fresh s b)
    (hp : Performed b s s') {e : Pid × Owned} (he : e ∈ l.entries) (hd : e.2.owner = some d)
    (hchild : e.1 ∈ s.children) :
    (∃ e ∈ (l.track s b s').entries, e.2.owner = some d ∧ e.1 ∈ s'.children) ∨
      (l.track s b s').Removed d := by
  have hreg : e.1 ∈ s.registered := hf.keys ▸ Registry.mem_keys_of_mem he
  have hgone (cause : Departure) (hv : (e.2, cause) ∈ (s.operation b).departures l.entries)
      (hcause : cause = .stopped ∨ ∃ success, cause = .exited success) :
      (l.track s b s').Removed d :=
    ⟨(e.2, cause), List.mem_append_right _ hv, hd, hcause⟩
  have hchildren := hp.effect.children
  have hen := hp.effect.enabled
  have hentries (e' : Pid × Owned) : e' ∈ (l.track s b s').entries ↔ _ :=
    Operation.mem_registry (f := (⟨·, l.mark b⟩)) (m := l.entries) (o := s.operation b)
  by_cases hkeep : (s.operation b).keeps e.1
  · refine .inl ⟨e, (hentries e).mpr (.inl ⟨he, hkeep⟩), hd, ?_⟩
    rcases hp.effect.child_kept hchild with hchild' | ⟨success, ho⟩ | ho
    · exact hchild'
    · rw [ho] at hkeep
      simp [Operation.keeps] at hkeep
    · exact absurd hreg (Custody.fresh_waitAny hg ho).1
  · cases ho : s.operation b with
    | idle | report _ _ | fork _ _ | forkWorker _ | waitAny _ =>
      rw [ho] at hkeep
      exact absurd rfl hkeep
    | register pid task =>
      have hpid : e.1 = pid := by simpa [ho, Operation.keeps] using hkeep
      subst hpid
      obtain ⟨k, -, -, ⟨hk, -⟩ | ⟨-, -, ho'⟩⟩ := hp.added_held (by rw [ho]; rfl)
      · exact absurd hreg (hc.forked k e.1 task hk).2
      · cases ho.symm.trans ho'
    | interrupt stopPid =>
      by_cases hk : some e.1 = stopPid
      · subst hk
        obtain ⟨k, hk, -, ⟨-, ho'⟩ | ⟨hheld, -⟩⟩ := hp.added_held (by rw [ho]; rfl)
        · cases ho.symm.trans ho'
        · obtain ⟨c, rfl⟩ := State.caller_of_script hheld
          have howner := hi.scripts c e.1 e.2 hheld he
          rw [ho] at hchildren
          refine .inl ⟨(e.1, ⟨stopScript, l.mark b⟩), (hentries _).mpr (.inr ⟨stopScript, ?_, rfl⟩),
            ?_, hchildren ▸ hchild⟩
          · rw [ho]
            rfl
          · exact (Ledger.mark_of_current hk).trans (howner.symm.trans hd)
      · refine .inr (hgone .stopped ?_ (.inl rfl))
        rw [ho]
        exact List.mem_map.mpr ⟨e, he, by rw [if_neg hk]⟩
    | reap pid w =>
      have hpid : e.1 = pid := by simpa [ho, Operation.keeps] using hkeep
      subst hpid
      rw [ho] at hen
      cases w with
      | error => exact absurd hchild (hen.2.mp rfl).1
      | exited success =>
        refine .inr (hgone (.exited success) ?_ (.inr ⟨success, rfl⟩))
        rw [ho]
        exact List.mem_map.mpr ⟨e, List.mem_filter.mpr ⟨he, by simp⟩, rfl⟩

theorem launched_step (hi : Pursued s l) (hn : Named s l) (hf : Faithful s l) (hc : Custody s)
    (hg : Fresh s b) (h : Dispatch.step sequences s b = some s')
    (hd : d ∈ (l.track s b s').launched) :
    (∃ c pid task, (l.track s b s').current c = some d ∧
      s'.held c.launcher = some (.forked pid task)) ∨
    (∃ e ∈ (l.track s b s').entries, e.2.owner = some d ∧ e.1 ∈ s'.children) ∨
    (l.track s b s').Removed d := by
  have hp := step_performed h
  rcases Ledger.mem_launched_track.mp hd with hd | ⟨⟨pid, task, ho⟩, hmark⟩
  · rcases hi.launched d hd with ⟨c, pid, task, hcur, hl⟩ | ⟨e, he, hd, hchild⟩ | hgone
    · rcases hp.forked_kept hl with hl' | ho
      · exact .inl ⟨c, pid, task,
          (Ledger.current_of_held h hl hl').trans hcur, hl'⟩
      · have hadd : (s.operation b).added = some (pid, task) := by rw [ho]; rfl
        obtain ⟨k, hk, -, ⟨hk', -⟩ | ⟨-, -, ho'⟩⟩ := hp.added_held hadd
        · cases hc.apart c.launcher k pid task task hl hk'
          have hchildren := hp.effect.children
          rw [ho] at hchildren
          refine .inr (.inl ⟨(pid, ⟨task, l.mark b⟩),
            Operation.mem_registry.mpr (.inr ⟨task, hadd, rfl⟩), ?_, ?_⟩)
          · exact (Ledger.mark_of_current hk).trans hcur
          · exact hchildren ▸ (hc.forked _ pid task hl).1
        · rw [ho] at ho'
          cases ho'
    · exact .inr (hi.registered_step hf hc hg hp he hd hchild)
    · exact .inr (.inr hgone.track)
  · obtain ⟨c, hb, hold⟩ := Ledger.current_of_mark hmark
    have hh := hp.hands _ hb
    rw [ho] at hh
    generalize s.held c.launcher = before at hh
    generalize hafter : s'.held c.launcher = after at hh
    cases hh
    refine .inl ⟨c, pid, task, ?_, hafter⟩
    by_contra hout
    obtain ⟨_, _, _, _, -, hdead, -⟩ := hn.ended h hold hout
    rw [State.held_calls, hdead] at hafter
    cases hafter

theorem step (hi : Pursued s l) (hn : Named s l) (hf : Faithful s l) (hc : Custody s) (hg : Fresh s b)
    (h : Dispatch.step sequences s b = some s') : Pursued s' (l.track s b s') where
  launched _ hd := hi.launched_step hn hf hc hg h hd
  scripts _ _ _ hl hv := hi.scripts_step hc h hl hv

end Pursued

/-! ### Runs -/

namespace Ledger

/-- More statuses may follow: the handler is under execution, or a task of the command registered. -/
def Pending (l : Ledger) (d : ℕ) (code : TOFCommandCode) : Prop :=
  l.executing d ∨ ∃ e ∈ l.entries, e.2.owner = some d ∧ e.2.task.commandCode = code

/-- A background command has started its process, a `STOP_DAQ` has not started its script. -/
def Single (l : Ledger) (d : ℕ) (code : TOFCommandCode) : Prop :=
  (code.kind = .background → d ∈ l.launched) ∧ (code = stopDaq → d ∉ l.launched)

/-- The statuses of a dispatch are its handler's and its process's. -/
theorem length_answers (l : Ledger) (d : ℕ) (code : TOFCommandCode) :
    (l.answers d code).length =
      l.own d code + (l.verdicts d).countP (·.code = code) := by
  unfold answers own verdicts
  rw [← List.countP_eq_length_filter, List.countP_filter]
  induction l.sent with
  | nil => rfl
  | cons st sent ih =>
    simp only [List.countP_cons, ih]
    obtain ⟨sender, c, value⟩ := st
    cases sender with
    | handler d' =>
      by_cases hd : d' = d
      · simp [Sender.dispatch, hd]
        omega
      · simp [Sender.dispatch, hd]
    | process owner => simp [Sender.dispatch, and_comm]; omega
    | macroThread => simp [Sender.dispatch]

theorem verdicts_nil (hs : l.Settled) (h : l.departed.countP (·.1.owner = some d) = 0) :
    l.verdicts d = [] := by
  rw [List.countP_eq_length_filter, List.length_eq_zero_iff] at h
  rw [verdicts, hs, h]
  rfl

theorem task_of_verdict (hs : l.Settled) {st : Status} (hst : st ∈ l.verdicts d) :
    ∃ v ∈ l.departed, v.1.owner = some d ∧ v.1.task.commandCode = st.code := by
  rw [verdicts, hs] at hst
  obtain ⟨v, hv, hstatus⟩ := List.mem_filterMap.mp hst
  obtain ⟨hmem, hd⟩ := List.mem_filter.mp hv
  obtain ⟨value, -, rfl⟩ := Option.map_eq_some_iff.mp hstatus
  exact ⟨v, hmem, of_decide_eq_true hd, rfl⟩

theorem Started.starts {v : Owned} (h : l.Started v) (hd : v.owner = some d)
    (hcode : l.dispatched[d]? = some code) : code.Starts v.task := by
  rcases h with ⟨d', code', hd', hcode', hs⟩ | ⟨hnone, -⟩
  · cases Option.some.inj (hd.symm.trans hd')
    cases Option.some.inj (hcode.symm.trans hcode')
    exact hs
  · rw [hd] at hnone
    cases hnone

end Ledger

theorem TOFCommandCode.Starts.reporting {task : BackgroundTask} (h : code.Starts task)
    (hk : code.kind = .reporting) : task = stopScript := by
  rcases h with ⟨hb, -⟩ | ⟨-, ht⟩
  · rw [hk] at hb
    cases hb
  · exact ht

theorem TOFCommandCode.Starts.background {task : BackgroundTask} (h : code.Starts task)
    (hk : code.kind = .background) : task = ⟨code, true⟩ := by
  rcases h with ⟨-, ht⟩ | ⟨rfl | rfl, -⟩
  · exact ht
  · cases hk
  · cases hk

/-- A dispatch has at most the task it starts. -/
theorem Ledger.entry_of_places (h : l.places d = 1) :
    (∃ e ∈ l.entries, e.2.owner = some d) ∧ l.departed.countP (·.1.owner = some d) = 0 ∨
      (∀ e ∈ l.entries, e.2.owner ≠ some d) ∧ ∃ v ∈ l.departed, v.1.owner = some d := by
  unfold places at h
  by_cases he : ∃ e ∈ l.entries, e.2.owner = some d
  · obtain ⟨e, he, hd⟩ := he
    have hpos : 0 < l.entries.countP (·.2.owner = some d) :=
      List.countP_pos_iff.mpr ⟨e, he, by simpa using hd⟩
    exact .inl ⟨⟨e, he, hd⟩, by omega⟩
  · have hzero : l.entries.countP (·.2.owner = some d) = 0 :=
      List.countP_eq_zero.mpr fun e hmem hd => he ⟨e, hmem, of_decide_eq_true hd⟩
    have hpos : 0 < l.departed.countP (·.1.owner = some d) := by omega
    obtain ⟨v, hv, hd⟩ := List.countP_pos_iff.mp hpos
    exact .inr ⟨fun e hmem hd => he ⟨e, hmem, hd⟩, v, hv, of_decide_eq_true hd⟩

/-- The statuses of a dispatch, pending or over. -/
def Ledger.AnswersOnce (l : Ledger) (d : ℕ) (code : TOFCommandCode) : Prop :=
  (l.Pending d code → l.Single d code → l.answers d code = []) ∧
    (¬ l.Pending d code → ((l.answers d code).length = 1 ↔ l.Single d code))

section Cases

variable {p : State × Ledger}

theorem answersOnce_background (hi : Audited p) (ho : OwnOnce p.2)
    (hcode : p.2.dispatched[d]? = some code) (hk : code.kind = .background) :
    p.2.AnswersOnce d code := by
  have hstop : code ≠ stopDaq := by rintro rfl; cases hk
  have hlen := p.2.length_answers d code
  rw [ho.background d code hcode hk, Nat.zero_add] at hlen
  have hnone (h : p.2.departed.countP (·.1.owner = some d) = 0) : p.2.answers d code = [] := by
    rw [← List.length_eq_zero_iff, hlen, Ledger.verdicts_nil hi.settled h]
    rfl
  by_cases hd : d ∈ p.2.launched
  · have hsingle : p.2.Single d code := ⟨fun _ => hd, fun h => absurd h hstop⟩
    by_cases hex : p.2.executing d
    · obtain ⟨c, hcur⟩ := hex
      have hzero := (hi.placed.inside d code c hcode hk hcur).1
      unfold Ledger.places at hzero
      exact ⟨fun _ _ => hnone (by omega), fun hover => absurd (.inl ⟨c, hcur⟩) hover⟩
    · rcases Ledger.entry_of_places (hi.placed.outside d code hcode hk hex hd) with
        ⟨⟨e, he, howner⟩, hzero⟩ | ⟨hentries, v, hv, howner⟩
      · have ht := ((hi.attributed.entries e he).starts howner hcode).background hk
        exact ⟨fun _ _ => hnone hzero, fun hover => absurd (.inr ⟨e, he, howner, by rw [ht]⟩) hover⟩
      · have ht := ((hi.attributed.departed v hv).starts howner hcode).background hk
        obtain ⟨d', value, hd', hverdict, -⟩ :=
          hi.oneVerdict.departed v hv (by rw [ht]) (by rw [ht]; exact hstop)
        cases Option.some.inj (howner.symm.trans hd')
        refine ⟨fun hpending => ?_, fun _ => iff_of_true ?_ hsingle⟩
        · rcases hpending with hex' | ⟨e, he, hd', -⟩
          · exact absurd hex' hex
          · exact absurd hd' (hentries e he)
        · rw [hlen, hverdict, ht]
          simp
  · have hzero := (hi.placed.unlaunched d hd).1
    unfold Ledger.places at hzero
    refine ⟨fun _ hsingle => absurd (hsingle.1 hk) hd, fun _ => iff_of_false ?_ ?_⟩
    · rw [hnone (by omega)]
      nofun
    · exact fun hsingle => hd (hsingle.1 hk)

/-- What a command other than a background command has started is a stop script. -/
theorem code_of_reporting (hi : Audited p) (hcode : p.2.dispatched[d]? = some code)
    (hk : code.kind = .reporting) :
    (∀ e ∈ p.2.entries, e.2.owner = some d → e.2.task.commandCode = stopDaq) ∧
      ∀ st ∈ p.2.verdicts d, st.code = stopDaq := by
  refine ⟨fun e he hd => ?_, fun st hst => ?_⟩
  · rw [((hi.attributed.entries e he).starts hd hcode).reporting hk]
    rfl
  · obtain ⟨v, hv, hd, hst⟩ := Ledger.task_of_verdict hi.settled hst
    rw [← hst, ((hi.attributed.departed v hv).starts hd hcode).reporting hk]
    rfl

theorem answersOnce_reporting (hi : Audited p) (ho : OwnOnce p.2)
    (hcode : p.2.dispatched[d]? = some code) (hk : code.kind = .reporting) (hstop : code ≠ stopDaq) :
    p.2.AnswersOnce d code := by
  obtain ⟨hentries, hverdicts⟩ := code_of_reporting hi hcode hk
  have hsingle : p.2.Single d code := ⟨fun h => by (rw [hk] at h; cases h), fun h => absurd h hstop⟩
  have hlen : (p.2.answers d code).length = p.2.own d code := by
    rw [Ledger.length_answers, List.countP_eq_zero.mpr, Nat.add_zero]
    intro st hst hc
    exact hstop ((of_decide_eq_true hc).symm.trans (hverdicts st hst))
  refine ⟨fun hpending _ => ?_, fun hover => iff_of_true ?_ hsingle⟩
  · rcases hpending with hex | ⟨e, he, hd, hc⟩
    · rw [← List.length_eq_zero_iff, hlen]
      exact ho.during d code hcode (by rw [hk]; nofun) hex
    · exact absurd (hc.symm.trans (hentries e he hd)) hstop
  · rw [hlen]
    exact ho.after d code hcode hk fun hex => hover (.inl hex)

/-- The script of a `STOP_DAQ` that is over has been reported too. -/
theorem verdict_of_stop (hi : Audited p) (hu : Pursued p.1 p.2)
    (hcode : p.2.dispatched[d]? = some stopDaq) (hd : d ∈ p.2.launched)
    (hover : ¬ p.2.Pending d stopDaq) : 0 < (p.2.verdicts d).countP (·.code = stopDaq) := by
  rcases hu.launched d hd with ⟨c, pid, task, hcur, -⟩ | ⟨e, he, howner, -⟩ | ⟨v, hv, howner, hcause⟩
  · exact absurd (.inl ⟨c, hcur⟩) hover
  · exact absurd (.inr ⟨e, he, howner, (code_of_reporting hi hcode rfl).1 e he howner⟩) hover
  · have ht := ((hi.attributed.departed v hv).starts howner hcode).reporting rfl
    have hstatus : ∃ value, Departure.status v = some ⟨.process (some d), stopDaq, value⟩ := by
      rcases hcause with hcause | ⟨success, hcause⟩
      · exact ⟨2, by simp [Departure.status, hcause, Departure.verdict, howner, ht, stopScript]⟩
      · exact ⟨_, by simp [Departure.status, hcause, Departure.verdict, howner, ht, stopScript]; rfl⟩
    obtain ⟨value, hstatus⟩ := hstatus
    rw [Ledger.verdicts, hi.settled]
    refine List.countP_pos_iff.mpr ⟨⟨.process (some d), stopDaq, value⟩, ?_, decide_eq_true rfl⟩
    exact List.mem_filterMap.mpr ⟨v, List.mem_filter.mpr ⟨hv, decide_eq_true howner⟩, hstatus⟩

theorem answersOnce_stop (hi : Audited p) (ho : OwnOnce p.2) (hu : Pursued p.1 p.2)
    (hcode : p.2.dispatched[d]? = some stopDaq) : p.2.AnswersOnce d stopDaq := by
  have hlen := p.2.length_answers d stopDaq
  by_cases hd : d ∈ p.2.launched
  · refine ⟨fun _ hsingle => absurd hd (hsingle.2 rfl), fun hover => iff_of_false ?_ ?_⟩
    · have hown := ho.after d stopDaq hcode rfl fun hex => hover (.inl hex)
      have hpos := verdict_of_stop hi hu hcode hd hover
      omega
    · exact fun hsingle => hsingle.2 rfl hd
  · have hzero := (hi.placed.unlaunched d hd).1
    unfold Ledger.places at hzero
    rw [Ledger.verdicts_nil hi.settled (by omega)] at hlen
    refine ⟨fun hpending _ => ?_, fun hover => iff_of_true ?_ ⟨nofun, fun _ => hd⟩⟩
    · rw [← List.length_eq_zero_iff, hlen]
      rcases hpending with hex | ⟨e, he, howner, -⟩
      · exact ho.during d stopDaq hcode nofun hex
      · have hpos : 0 < p.2.entries.countP (·.2.owner = some d) :=
          List.countP_pos_iff.mpr ⟨e, he, decide_eq_true howner⟩
        omega
    · rw [hlen]
      exact ho.after d stopDaq hcode rfl fun hex => hover (.inl hex)

end Cases

theorem initial_ownOnce : OwnOnce .empty where
  known _ h := absurd h List.not_mem_nil
  during _ _ h := by simp [Ledger.empty] at h
  after _ _ h := by simp [Ledger.empty] at h
  background _ _ h := by simp [Ledger.empty] at h

theorem initial_pursued : Pursued initial .empty where
  launched _ h := absurd h List.not_mem_nil
  scripts _ _ _ _ h := absurd h List.not_mem_nil

theorem answering {p : State × Ledger} (h : (ledgerMachine sequences).Reach FreshRun p) :
    Audited p ∧ OwnOnce p.2 ∧ Pursued p.1 p.2 := by
  refine h.invariant_history (I := fun p => Audited p ∧ OwnOnce p.2 ∧ Pursued p.1 p.2)
    (fun _ h0 => h0 ▸ ⟨initial_audited, initial_ownOnce, initial_pursued⟩) ?_
  rintro s l b s' ⟨hi, ho, hu⟩ hg hs
  exact ⟨hi.step hg hs, ho.step hi.named hs, hu.step hi.named hi.faithful hi.custody hg hs⟩

/-- By the ways in which a command can answer. -/
theorem Audited.answersOnce {p : State × Ledger} (hi : Audited p) (ho : OwnOnce p.2)
    (hu : Pursued p.1 p.2) (hcode : p.2.dispatched[d]? = some code) (hk : code.kind ≠ .other) :
    p.2.AnswersOnce d code := by
  by_cases hstop : code = stopDaq
  · subst hstop
    exact answersOnce_stop hi ho hu hcode
  · cases hkind : code.kind with
    | reporting => exact answersOnce_reporting hi ho hcode hkind hstop
    | background => exact answersOnce_background hi ho hcode hkind
    | other => exact absurd hkind hk

/-- No handler is under execution and nothing registered. -/
def Ledger.Over (l : Ledger) : Prop :=
  l.current .worker = none ∧ l.current .macroThread = none ∧ l.entries = []

instance (l : Ledger) : Decidable l.Over := inferInstanceAs (Decidable (_ ∧ _))

end GramsTof.Dispatch
