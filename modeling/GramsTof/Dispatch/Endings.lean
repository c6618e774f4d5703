import GramsTof.Dispatch.DaqThread
import GramsTof.Dispatch.Verdicts

/-! How a handler comes to its end. Its own steps lead there, whatever the outside answers, unless a
`START_DAQ` waits with `daqMutex_` for a DAQ thread that needs the mutex itself. -/

namespace GramsTof.Dispatch

open Lib TOFCommandCode

/-- Nothing succeeds. -/
def failing : Answer := ⟨false, none, "", 0, 0⟩

/-- A `START_DAQ` waits for a thread that has yet to take the mutex which the `START_DAQ` holds. -/
def State.deadlocked (s : State) : Prop :=
  s.daqThread.alive = true ∧ ∃ c, s.daqPoint c = .joining

/-! ### Handlers that cannot end without the DAQ thread or its mutex -/

def Simple.needsDaq {π : Type} (body : π → Bool) : Simple π → Bool
  | .body pc => body pc
  | .report _ => false

def StartPc.needsDaq : StartPc → Bool
  | lock | join => true
  | initializeDaq => false

/-- Without its script `STOP_DAQ` fails at once. -/
def StopPc.needsDaq : StopPc → Bool
  | cancel | fork => false
  | _ => true

def ResetPc.needsDaq : ResetPc → Bool
  | save | stop _ _ => true
  | start _ pc => pc.needsDaq StartPc.needsDaq
  | restore _ => false

def Call.needsDaq : Call → Bool
  | startDaq pc => pc.needsDaq StartPc.needsDaq
  | stopDaq pc => pc.needsDaq StopPc.needsDaq
  | resetDaq pc => pc.needsDaq ResetPc.needsDaq
  | _ => false

/-- There is no living thread, and the mutex is free. -/
def DaqCell.Clear (d : DaqCell) : Prop := d.thread.alive = false ∧ d.mutex = false

/-! ### The steps left when nothing succeeds -/

def Simple.rank {π : Type} (body : π → ℕ) : Simple π → ℕ
  | .body pc => body pc + 2
  | .report _ => 1

def StartPc.rank : StartPc → ℕ
  | lock => 2
  | join => 1
  | initializeDaq => 0

def StopPc.rank : StopPc → ℕ
  | cancel => 5
  | fork => 4
  | register _ => 3
  | interrupt _ => 2
  | join => 1
  | markStopped => 0

def ResetPc.rank : ResetPc → ℕ
  | save => 14
  | stop _ pc => pc.rank StopPc.rank + 6
  | start _ pc => pc.rank StartPc.rank + 1
  | restore _ => 0

def BodyPc.rank : BodyPc → ℕ
  | run | finish => 0
  | drain _ => 1
  | asics _ _ _ => 2
  | limit _ _ _ => 3

def BackgroundPc.rank : BackgroundPc → ℕ
  | fork => 1
  | register _ => 0

def Call.rank : Call → ℕ
  | startDaq pc => pc.rank StartPc.rank
  | stopDaq pc => pc.rank StopPc.rank
  | resetDaq pc => pc.rank ResetPc.rank
  | simple _ pc => pc.rank BodyPc.rank
  | background _ pc => pc.rank
  | _ => 0

/-- Where each handler is not kept from its end by the DAQ thread. -/
def StartPc.Ready (d : DaqCell) : StartPc → Prop
  | lock => d.Clear
  | join => d.thread.alive = false
  | initializeDaq => True

def StopPc.Ready (d : DaqCell) (pc : StopPc) : Prop := pc.needsDaq = true → d.Clear

def Simple.Ready {π : Type} (body : π → Prop) : Simple π → Prop
  | .body pc => body pc
  | .report _ => True

def ResetPc.Ready (d : DaqCell) : ResetPc → Prop
  | save | stop _ _ => d.Clear
  | start _ pc => pc.Ready (StartPc.Ready d)
  | restore _ => True

def Call.Ready (d : DaqCell) : Call → Prop
  | startDaq pc => pc.Ready (StartPc.Ready d)
  | stopDaq pc => pc.Ready (StopPc.Ready d)
  | resetDaq pc => pc.Ready (ResetPc.Ready d)
  | _ => True

section Handlers

variable {sequences : TOFCommandCode → MacroSequence} {self : Caller} {s s' : State} {d : DaqCell}

/-- A step that is possible, and after which `good` holds and fewer steps are left. -/
def Falls {π : Type} (rank : π → ℕ) (good : State → Progress π → Prop) (pc : π)
    (o : Option (State × Progress π)) : Prop :=
  ∃ t r, o = some (t, r) ∧ good t r ∧ ∀ pc', r = .next pc' → rank pc' < rank pc

/-- What follows the step is ready, if anything does. -/
def ReadyAfter {π : Type} (ready : DaqCell → π → Prop) (t : State) (r : Progress π) : Prop :=
  ∀ pc', r = .next pc' → ready t.daqCell pc'

theorem ReadyAfter.ret {π : Type} {ready : DaqCell → π → Prop} {t : State} {v : Bool} :
    ReadyAfter ready t (.ret v) := by
  rintro _ ⟨⟩

theorem ReadyAfter.next {π : Type} {ready : DaqCell → π → Prop} {t : State} {pc : π}
    (h : ready t.daqCell pc) : ReadyAfter ready t (.next pc) := by
  rintro _ ⟨⟩
  exact h

theorem Falls.ret {π : Type} {rank : π → ℕ} {good : State → Progress π → Prop} {pc : π} {t : State}
    {v : Bool} (h : good t (.ret v)) : Falls rank good pc (some (t, .ret v)) := by
  refine ⟨_, _, rfl, h, ?_⟩
  rintro _ ⟨⟩

theorem Falls.next {π : Type} {rank : π → ℕ} {good : State → Progress π → Prop} {pc q : π} {t : State}
    (h : good t (.next q)) (hlt : rank q < rank pc) : Falls rank good pc (some (t, .next q)) := by
  refine ⟨_, _, rfl, h, ?_⟩
  rintro _ ⟨⟩
  exact hlt

theorem Simple.falls {π : Type} {code : TOFCommandCode} {body : State → π → Option (State × Progress π)}
    {rank : π → ℕ} {good' : State → Progress (Simple π) → Prop} {pc : Simple π}
    (good : State → Progress π → Prop) (hbody : ∀ q, pc = .body q → Falls rank good q (body s q))
    (hnext : ∀ t r, good t r → good' t (r.elim (.next <| .body ·) (.next <| .report ·)))
    (hret : ∀ v, pc = .report v → good' (s.sendStatusCallback code (if v then 0 else 1)) (.ret v)) :
    Falls (Simple.rank rank) good' pc (pc.step code body s) := by
  cases pc with
  | report v => exact .ret (hret v rfl)
  | body q =>
    obtain ⟨t, r, hstep, hgood, hrank⟩ := hbody q rfl
    refine ⟨t, _, by rw [Simple.step, hstep]; rfl, hnext t r hgood, fun pc' hpc => ?_⟩
    cases r with
    | next q' =>
      cases hpc
      exact Nat.add_lt_add_right (hrank q' rfl) 2
    | ret v =>
      cases hpc
      exact Nat.succ_lt_succ (Nat.succ_pos _)

theorem Simple.falls_ready {π : Type} {code : TOFCommandCode}
    {body : State → π → Option (State × Progress π)} {rank : π → ℕ} {ready : DaqCell → π → Prop}
    {pc : Simple π} (h : pc.Ready (ready s.daqCell))
    (hbody : ∀ q, ready s.daqCell q → Falls rank (ReadyAfter ready) q (body s q)) :
    Falls (Simple.rank rank) (ReadyAfter fun d pc => pc.Ready (ready d)) pc (pc.step code body s) := by
  refine Simple.falls (ReadyAfter ready) (fun q hq => ?_) (fun t r hgood => ?_) fun _ _ => .ret
  · subst hq
    exact hbody q h
  · cases r with
    | next q' => exact .next (hgood q' rfl)
    | ret v => exact .next trivial

theorem StartPc.falls {pc : StartPc} (h : pc.Ready s.daqCell) :
    Falls StartPc.rank (ReadyAfter StartPc.Ready) pc (pc.step failing s) := by
  cases pc with
  | lock =>
    have hfree : s.daqMutex = false := h.2
    simp only [StartPc.step, hfree, Bool.false_eq_true, if_false]
    split_ifs
    · exact .ret .ret
    · exact .next (.next h.1) (by decide)
  | join =>
    have hdead : s.daqThread.alive = false := h
    simp only [StartPc.step]
    cases ht : s.daqThread with
    | none | finished => exact .next (.next trivial) (by decide)
    | running | leaving => rw [ht] at hdead; cases hdead
  | initializeDaq => exact .ret .ret

/-- In a clear state every step of `STOP_DAQ` is possible, and leaves it clear. -/
theorem StopPc.falls {pc : StopPc} (h : s.daqCell.Clear) :
    Falls StopPc.rank (fun t _ => t.daqCell.Clear) pc (pc.step failing s) := by
  cases pc with
  | cancel | register _ | interrupt _ => exact .next h (Nat.lt_succ_self _)
  | fork => exact .ret h
  | join =>
    have hdead : s.daqThread.alive = false := h.1
    simp only [StopPc.step]
    cases ht : s.daqThread with
    | none => exact .next h (by decide)
    | finished => exact .next ⟨rfl, h.2⟩ (by decide)
    | running | leaving => rw [ht] at hdead; cases hdead
  | markStopped =>
    have hfree : s.daqMutex = false := h.2
    simp only [StopPc.step, hfree, Bool.false_eq_true, if_false]
    exact .ret ⟨h.1, rfl⟩

theorem StopPc.falls_ready {pc : StopPc} (h : pc.Ready s.daqCell) :
    Falls StopPc.rank (ReadyAfter StopPc.Ready) pc (pc.step failing s) := by
  cases hn : pc.needsDaq with
  | true =>
    obtain ⟨t, r, hstep, hgood, hrank⟩ : Falls StopPc.rank (fun t _ => t.daqCell.Clear) pc
        (pc.step failing s) := StopPc.falls (h hn)
    exact ⟨t, r, hstep, fun _ _ _ => hgood, hrank⟩
  | false =>
    cases pc with
    | cancel =>
      refine .next (.next fun hfork => ?_) (by decide)
      cases hfork
    | fork => exact .ret .ret
    | register _ | interrupt _ | join | markStopped => cases hn

theorem ResetPc.falls {pc : ResetPc} (h : pc.Ready s.daqCell) :
    Falls ResetPc.rank (ReadyAfter ResetPc.Ready) pc (pc.step failing s) := by
  cases pc with
  | save => exact .next (.next h) (Nat.lt_succ_self _)
  | restore was => exact .ret .ret
  | stop was pc =>
    obtain ⟨t, r, hstep, hgood, hrank⟩ : Falls (Simple.rank StopPc.rank) (fun t _ => t.daqCell.Clear) pc
        (pc.step stopDaq (StopPc.step failing) s) :=
      Simple.falls _ (fun _ _ => StopPc.falls h) (fun _ _ hgood => hgood) fun _ _ => h
    have hs : (ResetPc.stop was pc).step failing s = some (t, r.elim (.next <| .stop was ·)
        fun _ => .next (.start was (.body .lock))) := by rw [ResetPc.step, hstep]; rfl
    rw [hs]
    cases r with
    | next q => exact .next (.next hgood) (Nat.add_lt_add_right (hrank q rfl) 6)
    | ret v =>
      refine .next (.next hgood) ?_
      change 5 < pc.rank StopPc.rank + 6
      omega
  | start was pc =>
    obtain ⟨t, r, hstep, hgood, hrank⟩ : Falls (Simple.rank StartPc.rank)
        (ReadyAfter fun d pc => pc.Ready (StartPc.Ready d)) pc
        (pc.step startDaq (StartPc.step failing) s) :=
      Simple.falls_ready h fun _ => StartPc.falls
    have hs : (ResetPc.start was pc).step failing s = some (t, r.elim (.next <| .start was ·)
        fun v => if v then .next (.restore was) else .ret false) := by rw [ResetPc.step, hstep]; rfl
    rw [hs]
    cases r with
    | next q => exact .next (.next (hgood q rfl)) (Nat.add_lt_add_right (hrank q rfl) 1)
    | ret v =>
      cases v with
      | true => exact .next (.next trivial) (Nat.succ_pos _)
      | false => exact .ret .ret

theorem BodyPc.falls {code : TOFCommandCode} {pc : BodyPc} :
    Falls BodyPc.rank (fun _ _ => True) pc (pc.step code failing s) := by
  cases pc with
  | run =>
    simp only [BodyPc.step, failing, Bool.false_eq_true, and_false, if_false]
    exact .ret trivial
  | finish => exact .ret trivial
  | asics left n max =>
    cases left with
    | zero => exact .next trivial (Nat.lt_succ_self _)
    | succ left => exact .ret trivial
  | limit left n max =>
    simp only [BodyPc.step]
    split_ifs
    · exact .next trivial (Nat.lt_succ_self _)
    · exact .ret trivial
  | drain n =>
    cases n with
    | zero => exact .next trivial (by decide)
    | succ n => exact .ret trivial

theorem Falls.map {π ρ : Type} {rank : π → ℕ} {rank' : ρ → ℕ} {good : State → Progress π → Prop}
    {good' : State → Progress ρ → Prop} {pc : π} {o : Option (State × Progress π)} (f : π → ρ)
    (h : Falls rank good pc o) (hrank : ∀ q, rank' (f q) = rank q)
    (hgood : ∀ t r, good t r → good' t (r.map f)) :
    Falls rank' good' (f pc) (o.map fun (s, r) => (s, r.map f)) := by
  obtain ⟨t, r, hstep, hg, hlt⟩ := h
  refine ⟨t, r.map f, by rw [hstep]; rfl, hgood t r hg, fun pc' hpc => ?_⟩
  cases r <;> cases hpc
  rw [hrank, hrank]
  exact hlt _ rfl

theorem ReadyAfter.map {π ρ : Type} {ready : DaqCell → π → Prop} {ready' : DaqCell → ρ → Prop}
    {t : State} {r : Progress π} (f : π → ρ) (h : ReadyAfter ready t r)
    (hready : ∀ d q, ready d q → ready' d (f q)) : ReadyAfter ready' t (r.map f) := by
  cases r with
  | next q => exact .next (hready _ q (h q rfl))
  | ret v => exact .ret

/-- Every step of a handler that the DAQ thread does not keep is possible. -/
theorem Call.falls {call : Call} (hk : call.kind ≠ .other) (h : call.Ready s.daqCell) :
    Falls Call.rank (ReadyAfter Call.Ready) call (call.step sequences self failing s) := by
  cases call with
  | startDaq pc =>
    exact (Simple.falls_ready h fun _ => StartPc.falls).map startDaq (fun _ => rfl)
      fun _ _ hgood => hgood.map startDaq fun _ _ hq => hq
  | stopDaq pc =>
    exact (Simple.falls_ready h fun _ => StopPc.falls_ready).map stopDaq (fun _ => rfl)
      fun _ _ hgood => hgood.map stopDaq fun _ _ hq => hq
  | resetDaq pc =>
    exact (Simple.falls_ready h fun _ => ResetPc.falls).map resetDaq (fun _ => rfl)
      fun _ _ hgood => hgood.map resetDaq fun _ _ hq => hq
  | simple code pc =>
    have hfalls : Falls (Simple.rank BodyPc.rank) (fun _ _ => True) pc
        (pc.step code (BodyPc.step code failing) s) :=
      Simple.falls _ (fun _ _ => BodyPc.falls) (fun _ _ _ => trivial) fun _ _ => trivial
    refine hfalls.map (simple code) (fun _ => rfl) fun t r _ => ?_
    cases r with
    | next q => exact .next trivial
    | ret v => exact .ret
  | background code pc =>
    cases pc with
    | fork | register _ => exact .ret .ret
  | _ => exact absurd rfl hk

end Handlers

section Steps

variable {sequences : TOFCommandCode → MacroSequence} {s s' t : State} {b : Action} {c : Caller}
  {call : Call} {d : DaqCell}

/-- The macro thread is in a handler at two points of a sequence. -/
theorem MacroPc.call_eq {pc : MacroPc} (h : pc.call = some call) :
    (∃ cycle cmd rest, pc = .sequence cycle (.step cmd rest call)) ∨
      ∃ cycle rest, pc = .sequence cycle (.pulse rest call) := by
  cases pc with
  | sequence cycle pc =>
    cases pc <;> cases h
    · exact .inl ⟨_, _, _, rfl⟩
    · exact .inr ⟨_, _, rfl⟩
  | _ => cases h

/-- A step of the handler that a caller is in is one of the dispatcher. -/
theorem State.step_call {a : Answer} {r : Progress Call} (hc : s.calls c = some call)
    (h : call.step sequences c a s = some (t, r)) :
    ∃ b s', step sequences s b = some s' ∧ s.operation b = call.operation a ∧
      s'.calls c = r.elim some (fun _ => none) ∧ s'.daqCell = t.daqCell ∧
      ∀ c', c' ≠ c → s'.calls c' = s.calls c' := by
  cases c with
  | worker =>
    cases hw : s.worker with
    | idle => simp [State.calls, State.workerCall, hw] at hc
    | busy call' =>
      rw [State.calls, State.workerCall_eq hw] at hc
      cases hc
      have hs : step sequences s (.worker a) =
          some { t with worker := r.elim .busy fun _ => .idle } := by
        simp only [step, hw, h, Option.map_some]
      refine ⟨_, _, hs, State.operation_worker hw, by cases r <;> rfl, rfl, fun c' hc' => ?_⟩
      cases c' with
      | worker => exact absurd rfl hc'
      | macroThread => exact step_macroCall hs (by simp)
  | macroThread =>
    cases hm : s.macroThread with
    | none | finished =>
      rw [State.calls, State.macroCall, State.macroPc, hm] at hc
      cases hc
    | running p pc =>
      rw [State.calls, State.macroCall, State.macroPc_eq hm, Option.bind_some] at hc
      have hop : s.operation (.macroThread a) = call.operation a := by
        rw [State.operation, hm]
        rcases MacroPc.call_eq hc with ⟨_, _, _, rfl⟩ | ⟨_, _, rfl⟩ <;> rfl
      have hothers {s' : State} (hs : step sequences s (.macroThread a) = some s') (c' : Caller)
          (hc' : c' ≠ .macroThread) : s'.calls c' = s.calls c' := by
        cases c' with
        | worker =>
          rw [State.calls, State.calls, State.workerCall, State.workerCall,
            step_worker hs (by simp) (by simp)]
        | macroThread => exact absurd rfl hc'
      have hs : ∃ pc', step sequences s (.macroThread a) =
          some { t with macroThread := .running p pc' } ∧ pc'.call = r.elim some fun _ => none := by
        rcases MacroPc.call_eq hc with ⟨cycle, cmd, rest, rfl⟩ | ⟨cycle, rest, rfl⟩
        · refine ⟨.sequence cycle (r.elim (.step cmd rest ·) (.returned · cmd rest)), ?_, ?_⟩
          · simp only [step, hm, MacroPc.step, SequencePc.stepIn, h, Option.map_some]
            rfl
          · cases r <;> rfl
        · refine ⟨.sequence cycle (r.elim (.pulse rest ·) (.pulseReturned · rest)), ?_, ?_⟩
          · simp only [step, hm, MacroPc.step, SequencePc.stepIn, h, Option.map_some]
            rfl
          · cases r <;> rfl
      obtain ⟨pc', hs, hcall⟩ := hs
      exact ⟨_, _, hs, hop, hcall, rfl, hothers hs⟩

theorem Simple.step_body {π : Type} {code : TOFCommandCode}
    {body : State → π → Option (State × Progress π)} {n : π → Bool} {pc : Simple π}
    {r : Progress (Simple π)} (hn : pc.needsDaq n = true) (h : pc.step code body s = some (t, r)) :
    ∃ q r', pc = .body q ∧ n q = true ∧ body s q = some (t, r') ∧
      r = r'.elim (.next <| .body ·) (.next <| .report ·) := by
  cases pc with
  | report _ => cases hn
  | body q =>
    obtain ⟨⟨u, r'⟩, hu, heq⟩ := Option.map_eq_some_iff.mp h
    cases heq
    exact ⟨q, r', rfl, hn, hu, rfl⟩

theorem StartPc.stuck {a : Answer} {pc : StartPc} (ha : s.daqThread.alive = true)
    (hm : s.daqMutex = true) (hn : pc.needsDaq = true) : pc.step a s = none := by
  cases pc with
  | lock => simp only [StartPc.step, hm, if_true]
  | join =>
    simp only [StartPc.step]
    cases ht : s.daqThread with
    | none | finished => rw [ht] at ha; cases ha
    | running | leaving => rfl
  | initializeDaq => cases hn

theorem StopPc.stuck {a : Answer} {pc : StopPc} {r : Progress StopPc} (ha : s.daqThread.alive = true)
    (hm : s.daqMutex = true) (hn : pc.needsDaq = true) (h : pc.step a s = some (t, r)) :
    ∃ pc', r = .next pc' ∧ pc'.needsDaq = true := by
  cases pc with
  | cancel | fork => cases hn
  | register _ | interrupt _ => cases h; exact ⟨_, rfl, rfl⟩
  | join =>
    simp only [StopPc.step] at h
    cases ht : s.daqThread with
    | none | finished => rw [ht] at ha; cases ha
    | running | leaving => rw [ht] at h; cases h
  | markStopped => simp [StopPc.step, hm] at h

theorem Simple.start_stuck {code : TOFCommandCode} {a : Answer} {pc : Simple StartPc}
    {r : Progress (Simple StartPc)} (ha : s.daqThread.alive = true) (hm : s.daqMutex = true)
    (hn : pc.needsDaq StartPc.needsDaq = true) : pc.step code (StartPc.step a) s ≠ some (t, r) := by
  intro h
  obtain ⟨q, r', -, hq, hu, -⟩ := Simple.step_body hn h
  rw [StartPc.stuck ha hm hq] at hu
  cases hu

/-- A handler that needs the living thread, or the mutex it waits for, goes on to need it. -/
theorem Call.stuck {a : Answer} {r : Progress Call} (ha : s.daqThread.alive = true)
    (hm : s.daqMutex = true) (hn : call.needsDaq = true)
    (h : call.step sequences c a s = some (t, r)) : ∃ call', r = .next call' ∧ call'.needsDaq = true := by
  cases call with
  | startDaq pc =>
    obtain ⟨⟨u, q⟩, hu, -⟩ := Option.map_eq_some_iff.mp h
    exact absurd hu (Simple.start_stuck ha hm hn)
  | stopDaq pc =>
    obtain ⟨⟨u, q⟩, hu, heq⟩ := Option.map_eq_some_iff.mp h
    cases heq
    obtain ⟨pc, r, -, hpc, hbody, rfl⟩ := Simple.step_body hn hu
    obtain ⟨pc', rfl, hpc'⟩ := StopPc.stuck ha hm hpc hbody
    exact ⟨_, rfl, hpc'⟩
  | resetDaq pc =>
    obtain ⟨⟨u, q⟩, hu, heq⟩ := Option.map_eq_some_iff.mp h
    cases heq
    obtain ⟨pc, r, -, hpc, hbody, rfl⟩ := Simple.step_body hn hu
    cases pc with
    | save => cases hbody; exact ⟨_, rfl, rfl⟩
    | stop was pc =>
      obtain ⟨⟨v, q⟩, -, heq⟩ := Option.map_eq_some_iff.mp hbody
      cases heq
      cases q <;> exact ⟨_, rfl, rfl⟩
    | start was pc =>
      obtain ⟨⟨v, q⟩, hv, -⟩ := Option.map_eq_some_iff.mp hbody
      exact absurd hv (Simple.start_stuck ha hm hpc)
    | restore _ => cases hpc
  | _ => cases hn

theorem State.deadlocked.mutex (hi : Locked s.daqCell s.daqPoint) (hd : s.deadlocked) :
    s.daqMutex = true := by
  obtain ⟨-, c, hc⟩ := hd
  exact hi.holder c (by rw [hc]; rfl)

/-- Nothing ends the deadlock. -/
theorem State.deadlocked.step (hi : Locked s.daqCell s.daqPoint) (hd : s.deadlocked)
    (h : step sequences s b = some s') : s'.deadlocked := by
  have hm := hd.mutex hi
  obtain ⟨halive, k, hk⟩ := hd
  cases step_daq h with
  | handler c _ hchange ho =>
    by_cases hck : c = k
    · subst hck
      rw [hk] at hchange
      generalize s'.daqPoint c = q, s'.daqCell = d at hchange
      cases hchange with
      | join hdead => exact absurd (hdead.symm.trans halive) Bool.false_ne_true
    · have hfree : (s.daqPoint c).holds ≠ true := fun hc =>
        hck (hi.single c k hc (by rw [hk]; rfl))
      have hcell : s'.daqCell = s.daqCell := by
        generalize s'.daqPoint c = q, s.daqPoint c = p, s'.daqCell = d at hchange hfree
        cases hchange with
        | keep => rfl
        | lock hm' _ | mark hm' => exact absurd (hm'.symm.trans hm) Bool.false_ne_true
        | join _ | launch | fail => exact absurd rfl hfree
        | collect hdead => exact absurd (hdead.symm.trans halive) Bool.false_ne_true
      have hthread : s'.daqThread = s.daqThread := congrArg DaqCell.thread hcell
      exact ⟨hthread ▸ halive, k, (ho k (Ne.symm hck)).trans hk⟩
  | leave _ _ hs =>
    subst hs
    exact ⟨rfl, k, hk⟩
  | finish _ hm' _ => exact absurd (hm'.symm.trans hm) Bool.false_ne_true
  | rest _ hcell hp =>
    have hthread : s'.daqThread = s.daqThread := congrArg DaqCell.thread hcell
    exact ⟨hthread ▸ halive, k, (hp k).trans hk⟩

end Steps

/-! ### Runs -/

/-- The handler of the dispatch needs the DAQ thread of a deadlock, or its mutex. -/
def Caught (p : State × Ledger) (d : ℕ) : Prop :=
  p.1.deadlocked ∧
    ∃ c call, p.2.current c = some d ∧ p.1.calls c = some call ∧ call.needsDaq = true

section Runs

variable {sequences : TOFCommandCode → MacroSequence} {s s' : State} {l : Ledger} {b : Action}
  {d : ℕ} {code : TOFCommandCode}

theorem Caught.step (hi : Locked s.daqCell s.daqPoint) (hd : Caught (s, l) d)
    (h : step sequences s b = some s') : Caught (s', l.track s b s') d := by
  obtain ⟨hdead, c, call, hcur, hcall, hn⟩ := hd
  refine ⟨hdead.step hi h, c, ?_⟩
  cases step_calls h c with
  | begins _ _ hnone _ _ => exact absurd (hcall.symm.trans hnone) nofun
  | steps hb _ hbefore hstep _ hafter =>
    cases hcall.symm.trans hbefore
    obtain ⟨call', rfl, hn'⟩ := Call.stuck hdead.1 (hdead.mutex hi) hn hstep
    exact ⟨call', (Ledger.current_kept hb hafter).trans hcur, hafter, hn'⟩
  | rests hb hsame _ =>
    have hafter := hsame.trans hcall
    exact ⟨call, (Ledger.current_kept hb hafter).trans hcur, hafter, hn⟩

theorem locked {G : State × Ledger → Action → Prop} {p : State × Ledger}
    (h : (ledgerMachine sequences).Reach G p) : Locked p.1.daqCell p.1.daqPoint := by
  refine h.invariant_history (I := fun p => Locked p.1.daqCell p.1.daqPoint) ?_ ?_
  · rintro s rfl
    exact .initial
  · exact fun s l b s' hi _ hs => hi.step hs

/-- A dispatch caught in the deadlock is under execution for ever. -/
theorem Caught.executing {p p' : State × Ledger} {as : List Action}
    (h : (ledgerMachine sequences).Reach FreshRun p) (hd : Caught p d)
    (hrun : (ledgerMachine sequences).Steps (fun _ _ => True) p as p') : p'.2.executing d := by
  have hcaught := hrun.keeps (I := fun p => Locked p.1.daqCell p.1.daqPoint ∧ Caught p d)
    ⟨locked h, hd⟩ fun q b q' hi hs => by
      obtain ⟨hs, hl⟩ := Machine.step_withHistory.mp hs
      obtain ⟨s, l⟩ := q
      obtain ⟨s', l'⟩ := q'
      obtain rfl : l' = l.track s b s' := hl
      exact ⟨hi.1.step hs, hi.2.step hi.1 hs⟩
  obtain ⟨-, -, c, -, hcur, -⟩ := hcaught
  exact ⟨c, hcur⟩

theorem Ledger.current_old {c : Caller} (hcode : l.dispatched[d]? = some code)
    (h : (l.track s b s').current c = some d) : l.current c = some d := by
  rcases Ledger.current_track h with ⟨-, rfl⟩ | ⟨-, hold⟩
  · simp at hcode
  · exact hold

/-- A dispatch in the course of a run, and callers that do not execute it. -/
structure Ending (sequences : TOFCommandCode → MacroSequence) (d : ℕ) (code : TOFCommandCode)
    (others : Caller → Prop) (p : State × Ledger) : Prop where
  reach : (ledgerMachine sequences).Reach FreshRun p
  code : p.2.dispatched[d]? = some code
  others : ∀ c, others c → p.2.current c ≠ some d

theorem Ending.step {others : Caller → Prop} (hi : Ending sequences d code others (s, l))
    (hg : Fresh s b) (h : step sequences s b = some s') :
    Ending sequences d code others (s', l.track s b s') where
  reach := .step (a := b) hi.reach hg (Machine.step_withHistory.mpr ⟨h, rfl⟩)
  code := Ledger.dispatched_old hi.code
  others c hc hcur := hi.others c hc (Ledger.current_old hi.code hcur)

end Runs

end GramsTof.Dispatch
