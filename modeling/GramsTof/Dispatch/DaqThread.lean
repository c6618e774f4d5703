import GramsTof.Dispatch.Calls
import GramsTof.Dispatch.Stop

/-! The DAQ thread, `daqRunning_` and `daqMutex_`: `START_DAQ` holds the mutex while
it joins the thread it replaces, and the thread takes the mutex before it ends. Both
threads that execute commands may be in a `START_DAQ` or `STOP_DAQ` at once. -/

namespace GramsTof.Dispatch

open Lib TOFCommandCode

/-- Spawned, and not yet through the critical section at its end. -/
def DaqThread.alive : DaqThread → Bool
  | running | leaving => true
  | _ => false

/-- The members that the DAQ thread shares with the handlers. -/
structure DaqCell where
  running : Bool
  thread : DaqThread
  mutex : Bool

/-- Where a handler is, as far as the DAQ thread is concerned. -/
inductive DaqPoint where
  | away
  /-- `START_DAQ` with `daqMutex_`, at its join. -/
  | joining
  /-- `START_DAQ` with `daqMutex_`, the old thread joined. -/
  | initializing
  /-- `STOP_DAQ` at `daqRunning_ = false`. -/
  | marking
  deriving DecidableEq, Repr

/-- With `daqMutex_`. -/
def DaqPoint.holds : DaqPoint → Bool
  | joining | initializing => true
  | _ => false

def StartPc.daqPoint : StartPc → DaqPoint
  | lock => .away
  | join => .joining
  | initializeDaq => .initializing

def StopPc.daqPoint : StopPc → DaqPoint
  | markStopped => .marking
  | _ => .away

def Simple.daqPoint {π : Type} (body : π → DaqPoint) : Simple π → DaqPoint
  | .body pc => body pc
  | .report _ => .away

def ResetPc.daqPoint : ResetPc → DaqPoint
  | stop _ pc => pc.daqPoint StopPc.daqPoint
  | start _ pc => pc.daqPoint StartPc.daqPoint
  | _ => .away

def Call.daqPoint : Call → DaqPoint
  | startDaq pc => pc.daqPoint StartPc.daqPoint
  | stopDaq pc => pc.daqPoint StopPc.daqPoint
  | resetDaq pc => pc.daqPoint ResetPc.daqPoint
  | _ => .away

namespace State

def daqCell (s : State) : DaqCell := ⟨s.daqRunning, s.daqThread, s.daqMutex⟩

def daqPoint (s : State) (c : Caller) : DaqPoint := (s.calls c).elim .away Call.daqPoint

end State

/-- What a handler's step from `p` to `q` does to the members. -/
inductive DaqChange : DaqPoint → DaqPoint → DaqCell → DaqCell → Prop where
  | keep {d : DaqCell} : DaqChange .away .away d d
  | lock {d : DaqCell} : d.mutex = false → d.running = false →
      DaqChange .away .joining d { d with mutex := true }
  | join {d : DaqCell} : d.thread.alive = false →
      DaqChange .joining .initializing d { d with thread := .none }
  | launch {d : DaqCell} : DaqChange .initializing .away d ⟨true, .running, false⟩
  | fail {d : DaqCell} : DaqChange .initializing .away d { d with mutex := false }
  | collect {d : DaqCell} : d.thread.alive = false →
      DaqChange .away .marking d { d with thread := .none }
  | mark {d : DaqCell} : d.mutex = false → DaqChange .marking .away d { d with running := false }

section Handlers

variable {sequences : TOFCommandCode → MacroSequence} {self : Caller} {s s' : State}
  {a : Answer}

theorem DaqChange.rest (h : s'.daqCell = s.daqCell) :
    DaqChange .away .away s.daqCell s'.daqCell := by
  rw [h]
  exact .keep

/-- A join that finds no thread. -/
theorem DaqChange.join_none {p q : DaqPoint} (ht : s.daqThread = .none)
    (h : s.daqCell.thread.alive = false →
      DaqChange p q s.daqCell { s.daqCell with thread := .none }) :
    DaqChange p q s.daqCell s.daqCell := by
  have hcell : { s.daqCell with thread := .none } = s.daqCell := by
    rw [State.daqCell, ht]
  rw [hcell] at h
  exact h (by rw [State.daqCell, ht]; rfl)

/-- Where a handler is after a step. -/
def Progress.daqPoint {π : Type} (point : π → DaqPoint) (r : Progress π) : DaqPoint :=
  r.elim point fun _ => .away

theorem Progress.daqPoint_map {π π' : Type} (f : π → π') (point : π' → DaqPoint) (r : Progress π) :
    (r.map f).daqPoint point = r.daqPoint fun pc => point (f pc) := by
  cases r <;> rfl

theorem Simple.step_daq {π : Type} {code : TOFCommandCode}
    {body : State → π → Option (State × Progress π)} (point : π → DaqPoint)
    (hbody : ∀ pc s' r, body s pc = some (s', r) →
      DaqChange (point pc) (r.daqPoint point) s.daqCell s'.daqCell)
    {pc : Simple π} {r : Progress (Simple π)} (h : pc.step code body s = some (s', r)) :
    DaqChange (pc.daqPoint point) (r.daqPoint (Simple.daqPoint point)) s.daqCell s'.daqCell := by
  cases pc with
  | body pc =>
    obtain ⟨⟨t, q⟩, ht, heq⟩ := Option.map_eq_some_iff.mp h
    cases heq
    have hchange := hbody pc _ _ ht
    cases q <;> exact hchange
  | report success =>
    cases h
    exact .keep

theorem StartPc.step_daq {pc : StartPc} {r : Progress StartPc}
    (h : pc.step a s = some (s', r)) :
    DaqChange pc.daqPoint (r.daqPoint StartPc.daqPoint) s.daqCell s'.daqCell := by
  cases pc with
  | lock =>
    simp only [StartPc.step] at h
    split_ifs at h with hm hr <;> cases h
    · exact .keep
    · exact .lock (Bool.eq_false_iff.mpr hm) (Bool.eq_false_iff.mpr hr)
  | join =>
    simp only [StartPc.step] at h
    split at h
    · rename_i ht
      cases h
      exact .join_none ht fun hdead => .join hdead
    · rename_i ht
      cases h
      exact .join (by simp [State.daqCell, ht, DaqThread.alive])
    · cases h
  | initializeDaq =>
    simp only [StartPc.step] at h
    split_ifs at h <;> cases h
    · exact .launch
    · exact .fail

theorem State.forked_daqCell {pid : Pid} (h : s.forked pid = some s') : s'.daqCell = s.daqCell := by
  unfold State.forked at h
  split at h <;> cases h
  rfl

theorem StopPc.step_daq {pc : StopPc} {r : Progress StopPc} (h : pc.step a s = some (s', r)) :
    DaqChange pc.daqPoint (r.daqPoint StopPc.daqPoint) s.daqCell s'.daqCell := by
  cases pc with
  | cancel | register pid | interrupt stopPid => cases h; exact .keep
  | fork =>
    simp only [StopPc.step] at h
    split_ifs at h
    · split at h
      · obtain ⟨t, ht, heq⟩ := Option.map_eq_some_iff.mp h
        cases heq
        exact .rest (State.forked_daqCell ht)
      · cases h; exact .keep
    · cases h; exact .keep
  | join =>
    simp only [StopPc.step] at h
    split at h
    · rename_i ht
      cases h
      exact .join_none ht fun hdead => .collect hdead
    · rename_i ht
      cases h
      exact .collect (by simp [State.daqCell, ht, DaqThread.alive])
    · cases h
  | markStopped =>
    simp only [StopPc.step] at h
    split_ifs at h with hm
    cases h
    exact .mark (Bool.eq_false_iff.mpr hm)

theorem ResetPc.step_daq {pc : ResetPc} {r : Progress ResetPc} (h : pc.step a s = some (s', r)) :
    DaqChange pc.daqPoint (r.daqPoint ResetPc.daqPoint) s.daqCell s'.daqCell := by
  cases pc with
  | save => cases h; exact .keep
  | stop was pc =>
    obtain ⟨⟨t, q⟩, ht, heq⟩ := Option.map_eq_some_iff.mp h
    cases heq
    have hchange := Simple.step_daq _ (fun _ _ _ => StopPc.step_daq) ht
    cases q <;> exact hchange
  | start was pc =>
    obtain ⟨⟨t, q⟩, ht, heq⟩ := Option.map_eq_some_iff.mp h
    cases heq
    have hchange := Simple.step_daq _ (fun _ _ _ => StartPc.step_daq) ht
    cases q with
    | next pc' => exact hchange
    | ret v => cases v <;> exact hchange
  | restore was => cases was <;> (cases h; exact .keep)

/-- The handlers of the other commands. -/
def Call.handlesDaq : Call → Bool
  | startDaq _ | stopDaq _ | resetDaq _ => true
  | _ => false

theorem Call.daqPoint_away {call : Call} (hcall : call.handlesDaq = false) :
    call.daqPoint = .away := by
  cases call with
  | startDaq pc | stopDaq pc | resetDaq pc => cases hcall
  | _ => rfl

theorem BackgroundPc.step_daqCell {code : TOFCommandCode} {pc : BackgroundPc}
    {r : Progress BackgroundPc} (h : pc.step code a s = some (s', r)) : s'.daqCell = s.daqCell := by
  cases pc with
  | fork =>
    simp only [BackgroundPc.step] at h
    split at h
    · obtain ⟨t, ht, heq⟩ := Option.map_eq_some_iff.mp h
      cases heq
      exact State.forked_daqCell ht
    · cases h; rfl
  | register pid => cases h; rfl

theorem AdmitPc.step_daqCell {code : TOFCommandCode} {argv : CommandArgs} {pc : AdmitPc}
    {r : Progress AdmitPc} (h : pc.step sequences self code argv s = some (s', r)) :
    s'.daqCell = s.daqCell := by
  cases pc with
  | test | reject | configure | arm => cases h; rfl
  | join =>
    simp only [AdmitPc.step] at h
    split at h <;> cases h <;> rfl
  | spawn =>
    simp only [AdmitPc.step] at h
    split at h <;> cases h
    rfl

theorem Call.step_daqCell {call : Call} {r : Progress Call} (hcall : call.handlesDaq = false)
    (h : call.step sequences self a s = some (s', r)) : s'.daqCell = s.daqCell := by
  cases call with
  | startDaq pc | stopDaq pc | resetDaq pc => cases hcall
  | simple code pc =>
    obtain ⟨⟨t, q⟩, ht, heq⟩ := Option.map_eq_some_iff.mp h
    cases heq
    cases pc with
    | body pc =>
      obtain ⟨⟨u, q⟩, hu, heq⟩ := Option.map_eq_some_iff.mp ht
      cases heq
      rw [BodyPc.step_frame hu]
      rfl
    | report success => cases ht; rfl
  | background code pc =>
    obtain ⟨⟨t, q⟩, ht, heq⟩ := Option.map_eq_some_iff.mp h
    cases heq
    exact BackgroundPc.step_daqCell ht
  | sendPulseTrain pc =>
    obtain ⟨⟨t, q⟩, ht, heq⟩ := Option.map_eq_some_iff.mp h
    cases heq
    cases pc <;> (cases ht; rfl)
  | startAsicTempRecord =>
    simp only [Call.step] at h
    split_ifs at h <;> cases h <;> rfl
  | stopAsicTempRecord joining =>
    cases joining with
    | false =>
      simp only [Call.step] at h
      split_ifs at h <;> cases h <;> rfl
    | true =>
      simp only [Call.step] at h
      split at h <;> cases h <;> rfl
  | macroCommand code argv pc =>
    obtain ⟨⟨t, q⟩, ht, heq⟩ := Option.map_eq_some_iff.mp h
    cases heq
    exact AdmitPc.step_daqCell ht
  | heartBeat => cases h; rfl

/-- No step leads into the handlers of the DAQ. -/
theorem Call.step_handlesDaq {call call' : Call}
    (h : call.step sequences self a s = some (s', .next call')) :
    call'.handlesDaq = call.handlesDaq := by
  cases Call.step_continues h <;> rfl

theorem Call.step_daq {call : Call} {r : Progress Call}
    (h : call.step sequences self a s = some (s', r)) :
    DaqChange call.daqPoint (r.daqPoint Call.daqPoint) s.daqCell s'.daqCell := by
  cases hcall : call.handlesDaq with
  | false =>
    have hafter : r.daqPoint Call.daqPoint = .away := by
      cases r with
      | ret v => rfl
      | next call' => exact Call.daqPoint_away ((Call.step_handlesDaq h).trans hcall)
    rw [Call.daqPoint_away hcall, hafter]
    exact .rest (Call.step_daqCell hcall h)
  | true =>
    cases call with
    | startDaq pc =>
      obtain ⟨⟨t, q⟩, ht, heq⟩ := Option.map_eq_some_iff.mp h
      cases heq
      rw [Progress.daqPoint_map]
      exact Simple.step_daq _ (fun _ _ _ => StartPc.step_daq) ht
    | stopDaq pc =>
      obtain ⟨⟨t, q⟩, ht, heq⟩ := Option.map_eq_some_iff.mp h
      cases heq
      rw [Progress.daqPoint_map]
      exact Simple.step_daq _ (fun _ _ _ => StopPc.step_daq) ht
    | resetDaq pc =>
      obtain ⟨⟨t, q⟩, ht, heq⟩ := Option.map_eq_some_iff.mp h
      cases heq
      rw [Progress.daqPoint_map]
      exact Simple.step_daq _ (fun _ _ _ => ResetPc.step_daq) ht
    | _ => cases hcall

theorem handler_daqPoint {code : TOFCommandCode} {argv : CommandArgs} {call : Call}
    (h : code.handler argv = some call) : call.daqPoint = .away := by
  cases code <;> cases h <;> rfl

end Handlers

/-! ### A step of the dispatcher -/

/-- What a step does to the members and to where the handlers are. -/
inductive DaqMove (b : Action) (s s' : State) : Prop where
  | handler (c : Caller) (hb : b.launcher = some c.launcher)
      (hc : DaqChange (s.daqPoint c) (s'.daqPoint c) s.daqCell s'.daqCell)
      (ho : ∀ c', c' ≠ c → s'.daqPoint c' = s.daqPoint c')
  | leave (hb : b = .daq) (ht : s.daqThread = .running) (hs : s' = { s with daqThread := .leaving })
  | finish (hb : b = .daq) (hm : s.daqMutex = false)
      (hs : s' = { s with daqThread := .finished, daqRunning := false })
  | rest (hb : ∀ c : Caller, b.launcher ≠ some c.launcher) (hd : s'.daqCell = s.daqCell)
      (hp : ∀ c, s'.daqPoint c = s.daqPoint c)

section Steps

variable {sequences : TOFCommandCode → MacroSequence} {s s' : State} {a : Answer} {b : Action}

theorem State.daqPoint_worker {t : State} (h : t.worker = s.worker) :
    t.daqPoint .worker = s.daqPoint .worker := by
  unfold State.daqPoint State.calls State.workerCall
  rw [h]

theorem State.daqPoint_macroThread {t : State} (h : t.macroCall = s.macroCall) :
    t.daqPoint .macroThread = s.daqPoint .macroThread := by
  unfold State.daqPoint State.calls
  rw [h]

theorem step_daq_worker {a : Answer} (h : step sequences s (.worker a) = some s') :
    DaqMove (.worker a) s s' := by
  have hmacro := step_macroCall h (by simp)
  cases hw : s.worker with
  | idle => simp [step, hw] at h
  | busy call =>
    simp only [step, hw] at h
    obtain ⟨⟨t, r⟩, ht, heq⟩ := Option.map_eq_some_iff.mp h
    cases heq
    refine .handler .worker rfl ?_ fun c hc => ?_
    · have hat : s.daqPoint .worker = call.daqPoint := by
        rw [State.daqPoint, State.calls, State.workerCall_eq hw, Option.elim_some]
      rw [hat]
      have hchange := Call.step_daq ht
      cases r <;> exact hchange
    · cases c with
      | worker => exact absurd rfl hc
      | macroThread => exact State.daqPoint_macroThread hmacro

theorem State.clearVaultPath_daqCell (s : State) (sub : String) :
    (s.clearVaultPath sub).daqCell = s.daqCell := by
  unfold State.clearVaultPath
  split_ifs <;> rfl

/-- Where the macro thread is. -/
def MacroPc.daqPoint (pc : MacroPc) : DaqPoint := pc.call.elim .away Call.daqPoint

theorem SequenceMove.daq {sub : String} {sequence : List TOFCommandCode} (cycle : ℕ)
    {pc : SequencePc} {r : Progress SequencePc} (h : SequenceMove sequences sub sequence a s pc s' r) :
    DaqChange (MacroPc.sequence cycle pc).daqPoint
      (r.daqPoint fun pc => (MacroPc.sequence cycle pc).daqPoint) s.daqCell s'.daqCell := by
  cases h with
  | @call _ _ call hcall =>
    change DaqChange .away call.daqPoint _ _
    rw [handler_daqPoint hcall]
    exact .keep
  | @step _ _ _ _ r hcall | @pulse _ _ _ r hcall =>
    have hchange := Call.step_daq hcall
    cases r <;> exact hchange
  | finish | abort _ | fail => exact .rest (State.clearVaultPath_daqCell s sub)
  | _ => exact .keep

theorem MacroPc.step_daq {p : Program} {pc : MacroPc} {m : MacroThread}
    (h : pc.step sequences p a s = some (s', m)) :
    DaqChange pc.daqPoint (m.pc.elim .away MacroPc.daqPoint) s.daqCell s'.daqCell := by
  cases pc with
  | loopArm | loopBreak | clear _ | notify _ => cases h; exact .keep
  | loopTest cycle =>
    simp only [MacroPc.step] at h
    split_ifs at h <;> (cases h; exact .keep)
  | sequence cycle pc =>
    obtain ⟨⟨u, r⟩, hu, heq⟩ := Option.map_eq_some_iff.mp h
    cases heq
    have hchange := (SequencePc.stepIn_move hu).daq cycle
    cases r with
    | next pc' => exact hchange
    | ret success =>
      have hret : (p.afterSequence cycle success).daqPoint = .away := by
        rw [MacroPc.daqPoint, Program.call_afterSequence, Option.elim_none]
      change DaqChange _ (p.afterSequence cycle success).daqPoint _ _
      rw [hret]
      exact hchange

theorem step_daq_macroThread {a : Answer} (h : step sequences s (.macroThread a) = some s') :
    DaqMove (.macroThread a) s s' := by
  have hworker := step_worker h (by simp) (by simp)
  cases hm : s.macroThread with
  | none | finished => simp [step, hm] at h
  | running p pc =>
    simp only [step, hm] at h
    obtain ⟨⟨t, m⟩, ht, heq⟩ := Option.map_eq_some_iff.mp h
    cases heq
    have hat (u : State) (pc : MacroPc) (hu : u.macroPc = some pc) :
        u.daqPoint .macroThread = pc.daqPoint := by
      rw [State.daqPoint, State.calls, State.macroCall, hu]
      rfl
    refine .handler .macroThread rfl ?_ fun c hc => ?_
    · rw [hat s pc (State.macroPc_eq hm)]
      have hchange := MacroPc.step_daq ht
      cases m <;> exact hchange
    · cases c with
      | worker => exact State.daqPoint_worker hworker
      | macroThread => exact absurd rfl hc

theorem step_daqPoint (h : step sequences s b = some s') (hb : b.launcher = none ∨ b.launcher = some .recorder)
    (hr : ∀ code argv, b ≠ .receive code argv) (c : Caller) : s'.daqPoint c = s.daqPoint c := by
  cases c with
  | worker =>
    exact State.daqPoint_worker (step_worker h (by rintro a rfl; simp [Action.launcher] at hb) hr)
  | macroThread =>
    exact State.daqPoint_macroThread (step_macroCall h (by rintro a rfl; simp [Action.launcher] at hb))

theorem State.reap_daqCell {pid : Pid} {w : Wait} (h : s.reap pid w = some s') :
    s'.daqCell = s.daqCell := by
  unfold State.reap at h
  split at h
  · split_ifs at h <;> cases h <;> rfl
  · split_ifs at h
    cases h
    rfl
  · cases h

theorem State.recorderStep_daqCell (h : s.recorderStep a = some s') : s'.daqCell = s.daqCell := by
  unfold State.recorderStep at h
  split at h
  · split_ifs at h
    · split at h
      · obtain ⟨t, ht, heq⟩ := Option.map_eq_some_iff.mp h
        cases heq
        have hcell := State.forked_daqCell ht
        exact hcell
      · cases h; rfl
    · cases h; rfl
  · cases h; rfl
  · cases h

theorem step_daq_receive {code : TOFCommandCode} {argv : CommandArgs}
    (h : step sequences s (.receive code argv) = some s') : DaqMove (.receive code argv) s s' := by
  have hmacro := State.daqPoint_macroThread (step_macroCall h (by simp))
  cases hw : s.worker with
  | busy call => simp [step, hw] at h
  | idle =>
    cases hc : code.handler argv with
    | none =>
      simp only [step, hw, hc] at h
      cases h
      exact .rest (fun _ hb => by cases hb) rfl fun _ => rfl
    | some call =>
      simp only [step, hw, hc] at h
      cases h
      refine .rest (fun _ hb => by cases hb) rfl fun c => ?_
      cases c with
      | worker =>
        have hidle : s.daqPoint .worker = .away := by
          rw [State.daqPoint, State.calls, State.workerCall, hw]
          rfl
        rw [hidle]
        exact handler_daqPoint hc
      | macroThread => exact hmacro

theorem step_daq (h : step sequences s b = some s') : DaqMove b s s' := by
  cases b with
  | receive code argv => exact step_daq_receive h
  | worker a => exact step_daq_worker h
  | macroThread a => exact step_daq_macroThread h
  | monitor pid w =>
    exact .rest (fun _ hb => by cases hb) (State.reap_daqCell h) (step_daqPoint h (.inl rfl) (by simp))
  | recorder a =>
    exact .rest (fun c hb => by cases c <;> cases hb) (State.recorderStep_daqCell h)
      (step_daqPoint h (.inr rfl) (by simp))
  | daq =>
    change s.daqStep = some s' at h
    unfold State.daqStep at h
    split at h
    · cases h
      exact .leave rfl ‹_› rfl
    · split_ifs at h with hm
      cases h
      exact .finish rfl (Bool.eq_false_iff.mpr hm) rfl
    · cases h

end Steps

/-! ### The flag covers the thread -/

/-- `daqRunning_` holds while the thread is in `run`, and no `START_DAQ` waits for a living thread
with the mutex that the thread needs. -/
structure Covered (s : State) : Prop where
  flag : s.daqThread = .running → s.daqRunning = true
  join : ∀ c, s.daqPoint c = .joining → s.daqThread.alive = false

/-- The step is the `daqRunning_ = false` of a `STOP_DAQ`. -/
def State.marks (s : State) : Action → Bool
  | .worker _ => s.daqPoint .worker = .marking
  | .macroThread _ => s.daqPoint .macroThread = .marking
  | _ => false

/-- `STOP_DAQ` does not clear the flag of a thread started since its own join. -/
def MarksDead (s : State) (a : Action) : Prop := s.marks a = true → s.daqThread.alive = false

instance (s : State) (a : Action) : Decidable (MarksDead s a) :=
  inferInstanceAs (Decidable (_ → _))

/-- `daqMutex_` is taken exactly when a handler has it, and at most one has. -/
structure Locked (d : DaqCell) (point : Caller → DaqPoint) : Prop where
  holder : ∀ c, (point c).holds = true → d.mutex = true
  held : d.mutex = true → ∃ c, (point c).holds = true
  single : ∀ c c', (point c).holds = true → (point c').holds = true → c = c'

namespace Locked

variable {d d' : DaqCell} {point point' : Caller → DaqPoint} {c : Caller}

theorem initial : Locked initial.daqCell initial.daqPoint where
  holder c h := by cases c <;> cases h
  held h := by cases h
  single c c' h := by cases c <;> cases h

/-- A step that takes or gives back nothing. -/
theorem frame (hi : Locked d point) (ho : ∀ c', c' ≠ c → point' c' = point c')
    (hc : (point' c).holds = (point c).holds) (hm : d'.mutex = d.mutex) : Locked d' point' := by
  have hsame (c' : Caller) : (point' c').holds = (point c').holds := by
    by_cases h : c' = c
    · rw [h, hc]
    · rw [ho c' h]
  refine ⟨fun c' h => ?_, fun h => ?_, fun c₁ c₂ h₁ h₂ => ?_⟩
  · rw [hsame] at h
    exact hm.trans (hi.holder c' h)
  · obtain ⟨c', h⟩ := hi.held (hm.symm.trans h)
    exact ⟨c', (hsame c').trans h⟩
  · rw [hsame] at h₁ h₂
    exact hi.single c₁ c₂ h₁ h₂

/-- The handler with the mutex gives it back. -/
theorem release (hi : Locked d point) (ho : ∀ c', c' ≠ c → point' c' = point c')
    (hp : (point c).holds = true) (hq : (point' c).holds = false) (hm : d'.mutex = false) :
    Locked d' point' := by
  have hnone (c' : Caller) : (point' c').holds ≠ true := by
    intro h
    by_cases hc : c' = c
    · rw [hc, hq] at h
      cases h
    · rw [ho c' hc] at h
      exact hc (hi.single c' c h hp)
  refine ⟨fun c' h => absurd h (hnone c'), fun h => ?_, fun c₁ _ h₁ _ => absurd h₁ (hnone c₁)⟩
  rw [hm] at h
  cases h

/-- A handler takes the free mutex. -/
theorem acquire (hi : Locked d point) (ho : ∀ c', c' ≠ c → point' c' = point c')
    (hfree : d.mutex = false) (hq : (point' c).holds = true) (hm : d'.mutex = true) :
    Locked d' point' := by
  have hself {c' : Caller} (h : (point' c').holds = true) : c' = c := by
    by_contra hc
    rw [ho c' hc] at h
    rw [hi.holder c' h] at hfree
    cases hfree
  exact ⟨fun _ _ => hm, fun _ => ⟨c, hq⟩, fun c₁ c₂ h₁ h₂ => (hself h₁).trans (hself h₂).symm⟩

theorem change (hi : Locked d point) (h : DaqChange (point c) (point' c) d d')
    (ho : ∀ c', c' ≠ c → point' c' = point c') : Locked d' point' := by
  generalize hp : point c = p at h
  generalize hq : point' c = q at h
  cases h with
  | keep => exact hi.frame ho (by rw [hp, hq]) rfl
  | join _ | collect _ | mark _ => exact hi.frame ho (by rw [hp, hq]; rfl) rfl
  | lock hm _ => exact hi.acquire ho hm (by rw [hq]; rfl) rfl
  | launch | fail => exact hi.release ho (by rw [hp]; rfl) (by rw [hq]; rfl) rfl

theorem step {sequences : TOFCommandCode → MacroSequence} {s s' : State} {b : Action}
    (hi : Locked s.daqCell s.daqPoint) (h : step sequences s b = some s') :
    Locked s'.daqCell s'.daqPoint := by
  cases step_daq h with
  | handler c _ hc ho => exact hi.change hc ho
  | leave _ _ hs | finish _ _ hs =>
    subst hs
    exact ⟨hi.holder, hi.held, hi.single⟩
  | rest _ hd hp =>
    rw [hd, funext hp]
    exact hi

end Locked

/-- What carries the argument: the mutex is taken only with the flag down, and no thread outlives
the flag. -/
structure Sheltered (d : DaqCell) (point : Caller → DaqPoint) : Prop extends Locked d point where
  alive : d.thread.alive = true → d.running = true
  taken : d.mutex = true → d.running = false

namespace Sheltered

variable {d d' : DaqCell} {point point' : Caller → DaqPoint} {c : Caller}

theorem covered {s : State} (h : Sheltered s.daqCell s.daqPoint) : Covered s where
  flag ht := h.alive (by rw [State.daqCell, ht]; rfl)
  join c hc := by
    have hdown : s.daqRunning = false := h.taken (h.holder c (by rw [hc]; rfl))
    by_contra halive
    have hup : s.daqRunning = true := h.alive (by simpa [State.daqCell] using halive)
    rw [hdown] at hup
    cases hup

theorem initial : Sheltered initial.daqCell initial.daqPoint where
  toLocked := .initial
  alive h := by cases h
  taken h := by cases h

theorem change (hi : Sheltered d point) (hg : point c = .marking → d.thread.alive = false)
    (h : DaqChange (point c) (point' c) d d') (ho : ∀ c', c' ≠ c → point' c' = point c') :
    Sheltered d' point' := by
  refine ⟨hi.toLocked.change h ho, ?_, ?_⟩ <;> generalize point c = p at hg h <;>
    generalize point' c = q at h
  · cases h with
    | keep | lock _ _ | fail => exact hi.alive
    | join _ | collect _ => exact nofun
    | launch => exact fun _ => rfl
    | mark _ =>
      intro halive
      rw [hg rfl] at halive
      cases halive
  · cases h with
    | keep | join _ | collect _ => exact hi.taken
    | lock _ hr => exact fun _ => hr
    | launch | fail => exact nofun
    | mark _ => exact fun _ => rfl

variable {sequences : TOFCommandCode → MacroSequence} {s s' : State} {b : Action}

theorem marks_iff : s.marks b = true ↔
    ∃ c : Caller, b.launcher = some c.launcher ∧ s.daqPoint c = .marking := by
  constructor
  · intro h
    cases b with
    | worker a => exact ⟨.worker, rfl, of_decide_eq_true h⟩
    | macroThread a => exact ⟨.macroThread, rfl, of_decide_eq_true h⟩
    | receive _ _ | monitor _ _ | daq | recorder _ => cases h
  · rintro ⟨c, hb, hc⟩
    cases b with
    | worker a => cases c <;> first | exact decide_eq_true hc | cases hb
    | macroThread a => cases c <;> first | exact decide_eq_true hc | cases hb
    | recorder a => cases c <;> cases hb
    | receive _ _ | monitor _ _ | daq => cases hb

theorem step (hi : Sheltered s.daqCell s.daqPoint) (hg : MarksDead s b)
    (h : step sequences s b = some s') : Sheltered s'.daqCell s'.daqPoint := by
  cases step_daq h with
  | handler c hb hc ho => exact hi.change (fun hp => hg (marks_iff.mpr ⟨c, hb, hp⟩)) hc ho
  | leave _ ht hs =>
    subst hs
    exact ⟨hi.toLocked.step h, fun _ => hi.alive (by rw [State.daqCell, ht]; rfl), hi.taken⟩
  | finish _ hm hs =>
    subst hs
    exact ⟨hi.toLocked.step h, nofun, fun _ => rfl⟩
  | rest _ hd hp =>
    rw [hd, funext hp]
    exact hi

end Sheltered

theorem Caller.launcher_injective {c c' : Caller} (h : c.launcher = c'.launcher) : c = c' := by
  cases c <;> cases c' <;> first | rfl | cases h

/-- Clearing the flag leaves the thread where it is. -/
theorem step_marks {sequences : TOFCommandCode → MacroSequence} {s s' : State} {b : Action}
    (hb : s.marks b = true) (h : step sequences s b = some s') :
    s'.daqCell = { s.daqCell with running := false } := by
  obtain ⟨c, hc, hp⟩ := Sheltered.marks_iff.mp hb
  cases step_daq h with
  | handler c' hc' hchange _ =>
    cases Caller.launcher_injective (Option.some.inj (hc.symm.trans hc'))
    rw [hp] at hchange
    generalize s'.daqPoint c = q, s'.daqCell = d at hchange
    cases hchange
    rfl
  | leave hdaq _ _ | finish hdaq _ _ => subst hdaq; cases hc
  | rest hrest _ _ => exact absurd hc (hrest c)

/-- In every run in which no `STOP_DAQ` clears the flag of a thread younger than its join, the flag
covers the thread and no `START_DAQ` joins a living thread; clearing the flag of a thread in `run`
uncovers it. -/
theorem daqRunning_covers_thread (sequences : TOFCommandCode → MacroSequence) :
    (∀ s, (machine sequences).Reach MarksDead s → Covered s) ∧
    ∀ s b s', (machine sequences).step s b = some s' → s.marks b = true →
      s.daqThread = .running → ¬ Covered s' := by
  refine ⟨fun s h => ?_, fun s b s' h hb ht hcov => ?_⟩
  · refine (h.invariant (I := fun s => Sheltered s.daqCell s.daqPoint) ?_ ?_).covered
    · rintro s rfl
      exact .initial
    · exact fun s b s' hi hg hs => hi.step hg hs
  · have hcell : s'.daqCell = { s.daqCell with running := false } := step_marks hb h
    have hup := hcov.flag ((congrArg DaqCell.thread hcell).trans ht)
    rw [show s'.daqRunning = false from congrArg DaqCell.running hcell] at hup
    cases hup

theorem daqRunning_covers_thread_reset :
    ∃ s, (machine macroSequence).Reach MarksDead s ∧ s.daqThread = .running ∧
      s.daqRunning = true := by
  have hend : ((machine macroSequence).runIn MarksDead initial resetRun).map (·.daqThread) =
      some .running := by decide
  obtain ⟨s, hrun, ht⟩ := Option.map_eq_some_iff.mp hend
  have h : (machine macroSequence).Reach MarksDead s := Machine.Reach.runIn (.init rfl) hrun
  exact ⟨s, h, ht, ((daqRunning_covers_thread macroSequence).1 s h).flag ht⟩

/-- The worker's `STOP_DAQ` has found no thread to join when the macro's `RESET_DAQ` starts one; it
then clears the flag, and the next `START_DAQ` joins that thread with `daqMutex_`. -/
def lateStopRun : List Action :=
  .receive macroStage1UnbiasedTdc [] :: (List.replicate 5 (Action.worker done) ++
    List.replicate 11 (Action.macroThread done)) ++
  .receive stopDaq [] :: (List.replicate 4 (Action.worker done) ++
    List.replicate 3 (Action.macroThread done) ++ List.replicate 2 (Action.worker done)) ++
  [.receive startDaq [], .worker done]

theorem not_daqRunning_covers_thread :
    ¬ ∀ s, (machine macroSequence).Reachable s → Covered s := by
  intro h
  obtain ⟨s, hs, hlate⟩ := (machine macroSequence).exists_reachable_of_run initial
    (fun s => s.daqThread = .running && s.daqPoint .worker = .joining) lateStopRun rfl (by decide)
  simp only [Bool.and_eq_true, decide_eq_true_eq] at hlate
  have hdead := (h s hs).join .worker hlate.2
  rw [hlate.1] at hdead
  cases hdead

end GramsTof.Dispatch
