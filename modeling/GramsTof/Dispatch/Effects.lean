import GramsTof.Dispatch.System

/-! What a step of either thread does to `macroLoopRunning_`, and that it leaves
the other thread where it was. -/

namespace GramsTof.Dispatch

open Lib TOFCommandCode

/-! ### The value the next step stores to `macroLoopRunning_` -/

def StopPc.writes : StopPc → Option Bool
  | cancel => some false
  | _ => none

def Simple.writes {π : Type} (body : π → Option Bool) : Simple π → Option Bool
  | .body pc => body pc
  | .report _ => none

def ResetPc.writes : ResetPc → Option Bool
  | stop _ pc => pc.writes StopPc.writes
  | restore true => some true
  | _ => none

def AdmitPc.writes : AdmitPc → Option Bool
  | arm => some true
  | _ => none

def Call.writes : Call → Option Bool
  | stopDaq pc => pc.writes StopPc.writes
  | resetDaq pc => pc.writes ResetPc.writes
  | macroCommand _ _ pc => pc.writes
  | _ => none

/-- The macro thread's own stores, outside the handlers it dispatches. -/
def SequencePc.ownWrites : SequencePc → Option Bool
  | arm => some true
  | rearm _ => some true
  | vaultFailed => some false
  | failed => some false
  | _ => none

def MacroPc.ownWrites : MacroPc → Option Bool
  | loopArm => some true
  | sequence _ pc => pc.ownWrites
  | loopBreak => some false
  | clear _ => some false
  | _ => none

/-- The handler the macro thread is in. -/
def MacroPc.call : MacroPc → Option Call
  | sequence _ (.step _ _ call) => some call
  | sequence _ (.pulse _ call) => some call
  | _ => none

def MacroPc.writes (pc : MacroPc) : Option Bool := pc.ownWrites <|> pc.call.bind Call.writes

/-- Where the thread is. -/
def MacroThread.pc : MacroThread → Option MacroPc
  | running _ pc => some pc
  | _ => Option.none

namespace State

/-- The macro thread has not yet returned. -/
def live (s : State) : Prop := ∃ p pc, s.macroThread = .running p pc

/-- The handler the worker is in. -/
def workerCall (s : State) : Option Call :=
  match s.worker with
  | .idle => none
  | .busy call => some call

def macroPc (s : State) : Option MacroPc := s.macroThread.pc

/-- The value the step `a` stores to `macroLoopRunning_`. -/
def writes (s : State) : Action → Option Bool
  | .worker _ => s.workerCall.bind Call.writes
  | .macroThread _ => s.macroPc.bind MacroPc.writes
  | _ => none

end State

namespace State

variable {s : State}

theorem live_iff : s.live ↔ s.macroPc.isSome := by
  unfold live macroPc
  cases s.macroThread <;> simp [MacroThread.pc]

theorem macroPc_eq {p : Program} {pc : MacroPc} (h : s.macroThread = .running p pc) :
    s.macroPc = some pc := by
  rw [macroPc, h]
  rfl

theorem macroPc_none (h : s.macroThread = .none) : s.macroPc = none := by
  rw [macroPc, h]
  rfl

theorem not_live (h : s.macroThread = .none) : ¬ s.live := by
  rw [live_iff, macroPc_none h]
  exact Bool.false_ne_true

theorem workerCall_eq {call : Call} (h : s.worker = .busy call) : s.workerCall = some call := by
  rw [workerCall, h]

end State

/-- From `s` to `s'` both threads stay where they are, and `w` is stored to
`macroLoopRunning_`. -/
structure Stores (w : Option Bool) (s s' : State) : Prop where
  flag : s'.macroLoopRunning = w.getD s.macroLoopRunning
  worker : s'.worker = s.worker
  macroThread : s'.macroThread = s.macroThread

namespace Stores

variable {w : Option Bool} {s s' : State} {pid : Pid}

theorem refl (s : State) : Stores none s s := ⟨rfl, rfl, rfl⟩

theorem forked (h : s.forked pid = some s') : Stores none s s' := by
  unfold State.forked at h
  split at h <;> cases h
  exact ⟨rfl, rfl, rfl⟩

theorem live (h : Stores w s s') : s'.live ↔ s.live := by
  unfold State.live
  rw [h.macroThread]

theorem macroPc (h : Stores w s s') : s'.macroPc = s.macroPc := by
  unfold State.macroPc
  rw [h.macroThread]

end Stores

section Handlers

variable {s s' : State} {a : Answer}

theorem Simple.step_stores {π : Type} {code : TOFCommandCode}
    {body : State → π → Option (State × Progress π)} (writes : π → Option Bool)
    (hbody : ∀ pc s' r, body s pc = some (s', r) → Stores (writes pc) s s') {pc : Simple π}
    {r : Progress (Simple π)} (h : pc.step code body s = some (s', r)) :
    Stores (pc.writes writes) s s' := by
  cases pc with
  | body pc =>
    obtain ⟨⟨t, q⟩, ht, heq⟩ := Option.map_eq_some_iff.mp h
    cases heq
    exact hbody pc _ _ ht
  | report success =>
    cases h
    exact ⟨rfl, rfl, rfl⟩

theorem StartPc.step_stores {pc : StartPc} {r : Progress StartPc}
    (h : pc.step a s = some (s', r)) : Stores none s s' := by
  cases pc with
  | lock =>
    simp only [StartPc.step] at h
    split_ifs at h <;> cases h <;> exact ⟨rfl, rfl, rfl⟩
  | join =>
    simp only [StartPc.step] at h
    split at h <;> cases h <;> exact ⟨rfl, rfl, rfl⟩
  | initializeDaq =>
    simp only [StartPc.step] at h
    split_ifs at h <;> cases h <;> exact ⟨rfl, rfl, rfl⟩

theorem StopPc.step_stores {pc : StopPc} {r : Progress StopPc}
    (h : pc.step a s = some (s', r)) : Stores pc.writes s s' := by
  cases pc with
  | cancel => cases h; exact ⟨rfl, rfl, rfl⟩
  | fork =>
    simp only [StopPc.step] at h
    split_ifs at h
    · split at h
      · obtain ⟨t, ht, heq⟩ := Option.map_eq_some_iff.mp h
        cases heq
        exact Stores.forked ht
      · cases h; exact Stores.refl s
    · cases h; exact Stores.refl s
  | register pid => cases h; exact ⟨rfl, rfl, rfl⟩
  | interrupt stopPid => cases h; exact ⟨rfl, rfl, rfl⟩
  | join =>
    simp only [StopPc.step] at h
    split at h <;> cases h <;> exact ⟨rfl, rfl, rfl⟩
  | markStopped =>
    simp only [StopPc.step] at h
    split at h <;> cases h
    exact ⟨rfl, rfl, rfl⟩

theorem ResetPc.step_stores {pc : ResetPc} {r : Progress ResetPc}
    (h : pc.step a s = some (s', r)) : Stores pc.writes s s' := by
  cases pc with
  | save => cases h; exact Stores.refl s
  | stop was pc =>
    obtain ⟨⟨t, q⟩, ht, heq⟩ := Option.map_eq_some_iff.mp h
    cases heq
    exact Simple.step_stores _ (fun _ _ _ => StopPc.step_stores) ht
  | start was pc =>
    obtain ⟨⟨t, q⟩, ht, heq⟩ := Option.map_eq_some_iff.mp h
    cases heq
    have hs := Simple.step_stores (fun _ => none) (fun _ _ _ => StartPc.step_stores) ht
    cases pc <;> exact hs
  | restore was => cases was <;> (cases h; exact ⟨rfl, rfl, rfl⟩)

/-- A child that the step of a body forks or waits for. -/
inductive BodyChild where
  | forked (pid : Pid)
  | waited (pid : Pid)
  deriving DecidableEq, Repr

def BodyPc.child (a : Answer) : BodyPc → Option BodyChild
  | asics (_ + 1) _ _ => if a.ok then a.pid.map .forked else none
  | limit _ nWorkers maxWorkers => if nWorkers < maxWorkers then none else a.pid.map .waited
  | drain (_ + 1) => a.pid.map .waited
  | _ => none

/-- What the step of a body does to the children. -/
inductive BodyMove (s : State) : Option BodyChild → State → Prop where
  | idle : BodyMove s none s
  | forked {pid : Pid} {s' : State} : s.forkedWorker pid = some s' → BodyMove s (some (.forked pid)) s'
  | waited (pid : Pid) : BodyMove s (some (.waited pid)) (s.waited pid)

theorem BodyMove.waitAny {w : WaitAny} (h : s.waitAny a = some (s', w)) :
    BodyMove s (a.pid.map .waited) s' := by
  unfold State.waitAny at h
  cases hpid : a.pid with
  | some pid =>
    rw [hpid] at h
    cases h
    exact .waited pid
  | none =>
    rw [hpid] at h
    dsimp only at h
    split_ifs at h <;> cases h <;> exact .idle

theorem BodyPc.step_move {code : TOFCommandCode} {pc : BodyPc} {r : Progress BodyPc}
    (h : pc.step code a s = some (s', r)) : BodyMove s (pc.child a) s' := by
  cases pc with
  | run | finish => cases h; exact .idle
  | asics left n max =>
    cases left with
    | zero => cases h; exact .idle
    | succ left =>
      simp only [BodyPc.step] at h
      simp only [BodyPc.child]
      split_ifs at h ⊢
      · cases hpid : a.pid with
        | none => rw [hpid] at h; cases h; exact .idle
        | some pid =>
          rw [hpid] at h
          obtain ⟨t, ht, heq⟩ := Option.map_eq_some_iff.mp h
          cases heq
          exact .forked ht
      · cases h; exact .idle
  | limit left n max =>
    simp only [BodyPc.step] at h
    simp only [BodyPc.child]
    split_ifs at h ⊢
    · cases h; exact .idle
    · obtain ⟨⟨t, w⟩, ht, heq⟩ := Option.map_eq_some_iff.mp h
      cases heq
      exact .waitAny ht
  | drain n =>
    cases n with
    | zero => cases h; exact .idle
    | succ n =>
      obtain ⟨⟨t, w⟩, ht, heq⟩ := Option.map_eq_some_iff.mp h
      cases heq
      exact .waitAny ht

/-- A body changes nothing but the lists of children. -/
theorem BodyPc.step_frame {code : TOFCommandCode} {pc : BodyPc} {r : Progress BodyPc}
    (h : pc.step code a s = some (s', r)) :
    s' = { s with children := s'.children, workers := s'.workers } := by
  have hmove := BodyPc.step_move h
  generalize pc.child a = child at hmove
  cases hmove with
  | idle | waited _ => rfl
  | forked hf =>
    unfold State.forkedWorker at hf
    split_ifs at hf
    cases hf
    rfl

theorem BodyPc.step_stores {code : TOFCommandCode} {pc : BodyPc} {r : Progress BodyPc}
    (h : pc.step code a s = some (s', r)) : Stores none s s' := by
  rw [BodyPc.step_frame h]
  exact ⟨rfl, rfl, rfl⟩

theorem BackgroundPc.step_stores {code : TOFCommandCode} {pc : BackgroundPc}
    {r : Progress BackgroundPc} (h : pc.step code a s = some (s', r)) : Stores none s s' := by
  cases pc with
  | fork =>
    simp only [BackgroundPc.step] at h
    split at h
    · obtain ⟨t, ht, heq⟩ := Option.map_eq_some_iff.mp h
      cases heq
      exact Stores.forked ht
    · cases h; exact Stores.refl s
  | register pid => cases h; exact ⟨rfl, rfl, rfl⟩

theorem PulsePc.step_stores {pc : PulsePc} {r : Progress PulsePc}
    (h : pc.step a s = some (s', r)) : Stores none s s' := by
  cases pc <;> (cases h; exact ⟨rfl, rfl, rfl⟩)

variable {sequences : TOFCommandCode → MacroSequence} {self : Caller}

/-- The steps of a macro handler that touch `macroLoopThread_`. -/
def AdmitPc.touchesThread : AdmitPc → Bool
  | join | spawn => true
  | _ => false

theorem AdmitPc.step_stores {code : TOFCommandCode} {argv : CommandArgs} {pc : AdmitPc}
    {r : Progress AdmitPc} (hpc : pc.touchesThread = false)
    (h : pc.step sequences self code argv s = some (s', r)) : Stores pc.writes s s' := by
  cases pc with
  | test | reject | configure | arm => cases h; exact ⟨rfl, rfl, rfl⟩
  | join | spawn => cases hpc

/-- A macro handler that the macro thread itself is in never touches its thread. -/
theorem AdmitPc.step_in_macro_thread {code : TOFCommandCode} {argv : CommandArgs} {pc : AdmitPc}
    {r : Progress AdmitPc} (hlive : s.live)
    (h : pc.step sequences .macroThread code argv s = some (s', r)) : Stores pc.writes s s' := by
  cases pc with
  | test | reject | configure | arm => cases h; exact ⟨rfl, rfl, rfl⟩
  | join => cases h; exact Stores.refl s
  | spawn =>
    obtain ⟨p, pc, hs⟩ := hlive
    simp [AdmitPc.step, hs] at h

def Call.touchesThread : Call → Bool
  | macroCommand _ _ pc => pc.touchesThread
  | _ => false

theorem Call.step_stores {call : Call} {r : Progress Call}
    (hcall : self = .worker ∧ call.touchesThread = false ∨ self = .macroThread ∧ s.live)
    (h : call.step sequences self a s = some (s', r)) : Stores call.writes s s' := by
  cases call with
  | startDaq pc =>
    obtain ⟨⟨t, q⟩, ht, heq⟩ := Option.map_eq_some_iff.mp h
    cases heq
    have hs := Simple.step_stores (fun _ => none) (fun _ _ _ => StartPc.step_stores) ht
    cases pc <;> exact hs
  | stopDaq pc =>
    obtain ⟨⟨t, q⟩, ht, heq⟩ := Option.map_eq_some_iff.mp h
    cases heq
    exact Simple.step_stores _ (fun _ _ _ => StopPc.step_stores) ht
  | resetDaq pc =>
    obtain ⟨⟨t, q⟩, ht, heq⟩ := Option.map_eq_some_iff.mp h
    cases heq
    exact Simple.step_stores _ (fun _ _ _ => ResetPc.step_stores) ht
  | simple code pc =>
    obtain ⟨⟨t, q⟩, ht, heq⟩ := Option.map_eq_some_iff.mp h
    cases heq
    have hs := Simple.step_stores (fun _ => none) (fun _ _ _ => BodyPc.step_stores) ht
    cases pc <;> exact hs
  | background code pc =>
    obtain ⟨⟨t, q⟩, ht, heq⟩ := Option.map_eq_some_iff.mp h
    cases heq
    exact BackgroundPc.step_stores ht
  | sendPulseTrain pc =>
    obtain ⟨⟨t, q⟩, ht, heq⟩ := Option.map_eq_some_iff.mp h
    cases heq
    exact PulsePc.step_stores ht
  | startAsicTempRecord =>
    simp only [Call.step] at h
    split_ifs at h <;> cases h <;> exact ⟨rfl, rfl, rfl⟩
  | stopAsicTempRecord joining =>
    cases joining with
    | false =>
      simp only [Call.step] at h
      split_ifs at h <;> cases h <;> exact ⟨rfl, rfl, rfl⟩
    | true =>
      simp only [Call.step] at h
      split at h <;> cases h <;> exact ⟨rfl, rfl, rfl⟩
  | macroCommand code argv pc =>
    obtain ⟨⟨t, q⟩, ht, heq⟩ := Option.map_eq_some_iff.mp h
    cases heq
    rcases hcall with ⟨-, hpc⟩ | ⟨rfl, hlive⟩
    · exact AdmitPc.step_stores hpc ht
    · exact AdmitPc.step_in_macro_thread hlive ht
  | heartBeat => cases h; exact Stores.refl s

end Handlers

/-! ### The macro thread and the other threads -/

section Threads

variable {sequences : TOFCommandCode → MacroSequence} {s s' : State} {a : Answer}

theorem Stores.clearVaultPath (s : State) (sub : String) : Stores none s (s.clearVaultPath sub) := by
  unfold State.clearVaultPath
  split_ifs <;> exact ⟨rfl, rfl, rfl⟩

/-- What a step of `executeMacroSequence` does. -/
inductive SequenceMove (sequences : TOFCommandCode → MacroSequence) (sub : String)
    (sequence : List TOFCommandCode) (a : Answer) (s : State) :
    SequencePc → State → Progress SequencePc → Prop where
  | arm : SequenceMove sequences sub sequence a s .arm { s with macroLoopRunning := true }
      (.next .vault)
  | vaultNone : sub = "" →
      SequenceMove sequences sub sequence a s .vault s (.next (.test sequence))
  | vault : sub ≠ "" → SequenceMove sequences sub sequence a s .vault
      { s with vaultPath := "/vault/" ++ sub ++ "/run_" ++ a.time } (.next (.test sequence))
  | vaultError : sub ≠ "" →
      SequenceMove sequences sub sequence a s .vault s (.next .vaultFailed)
  | vaultFailed : SequenceMove sequences sub sequence a s .vaultFailed
      { s with macroLoopRunning := false } (.ret false)
  | finish : SequenceMove sequences sub sequence a s (.test []) (s.clearVaultPath sub) (.ret true)
  | go {cmd : TOFCommandCode} {rest : List TOFCommandCode} : s.macroLoopRunning = true →
      SequenceMove sequences sub sequence a s (.test (cmd :: rest)) s (.next (.dispatch cmd rest))
  | abort {cmd : TOFCommandCode} {rest : List TOFCommandCode} : s.macroLoopRunning = false →
      SequenceMove sequences sub sequence a s (.test (cmd :: rest)) (s.clearVaultPath sub)
        (.ret false)
  | call {cmd : TOFCommandCode} {rest : List TOFCommandCode} {call : Call} :
      cmd.handler [] = some call →
      SequenceMove sequences sub sequence a s (.dispatch cmd rest) s (.next (.step cmd rest call))
  | unknown {cmd : TOFCommandCode} {rest : List TOFCommandCode} : cmd.handler [] = none →
      SequenceMove sequences sub sequence a s (.dispatch cmd rest) s
        (.next (.returned false cmd rest))
  | step {cmd : TOFCommandCode} {rest : List TOFCommandCode} {call : Call} {t : State}
      {r : Progress Call} : call.step sequences .macroThread a s = some (t, r) →
      SequenceMove sequences sub sequence a s (.step cmd rest call) t
        (.next (r.elim (.step cmd rest ·) (.returned · cmd rest)))
  | fail {cmd : TOFCommandCode} {rest : List TOFCommandCode} :
      SequenceMove sequences sub sequence a s (.returned false cmd rest) (s.clearVaultPath sub)
        (.next .failed)
  | reset {rest : List TOFCommandCode} :
      SequenceMove sequences sub sequence a s (.returned true resetDaq rest) s
        (.next (.rearm rest))
  | pulseDue {rest : List TOFCommandCode} :
      SequenceMove sequences sub sequence a s
        (.returned true acquireSipmData (sendPulseTrain :: rest)) s (.next (.pulseTest rest))
  | succeed {cmd : TOFCommandCode} {rest : List TOFCommandCode} : cmd ≠ resetDaq →
      ¬ (cmd = acquireSipmData ∧ rest.head? = some sendPulseTrain) →
      SequenceMove sequences sub sequence a s (.returned true cmd rest) s (.next (.wait cmd rest))
  | rearm {rest : List TOFCommandCode} :
      SequenceMove sequences sub sequence a s (.rearm rest) { s with macroLoopRunning := true }
        (.next (.wait resetDaq rest))
  | pulseGo {rest : List TOFCommandCode} : s.macroLoopRunning = true →
      SequenceMove sequences sub sequence a s (.pulseTest rest) s (.next (.pulseDispatch rest))
  | pulseSkip {rest : List TOFCommandCode} : s.macroLoopRunning = false →
      SequenceMove sequences sub sequence a s (.pulseTest rest) s
        (.next (.wait acquireSipmData rest))
  | pulseDispatch {rest : List TOFCommandCode} :
      SequenceMove sequences sub sequence a s (.pulseDispatch rest) s
        (.next (.pulse rest (.sendPulseTrain .access)))
  | pulse {rest : List TOFCommandCode} {call : Call} {t : State} {r : Progress Call} :
      call.step sequences .macroThread a s = some (t, r) →
      SequenceMove sequences sub sequence a s (.pulse rest call) t
        (.next (r.elim (.pulse rest ·) (.pulseReturned · rest)))
  | pulseReturned {success : Bool} {rest : List TOFCommandCode} :
      SequenceMove sequences sub sequence a s (.pulseReturned success rest) s
        (.next (.wait acquireSipmData rest))
  | waitOn {cmd : TOFCommandCode} {rest : List TOFCommandCode} : s.macroLoopRunning = true →
      SequenceMove sequences sub sequence a s (.wait cmd rest) s (.next (.poll cmd rest))
  | waitStop {cmd : TOFCommandCode} {rest : List TOFCommandCode} : s.macroLoopRunning = false →
      SequenceMove sequences sub sequence a s (.wait cmd rest) s (.next (.test rest))
  | pollAgain {cmd : TOFCommandCode} {rest : List TOFCommandCode} : s.isRunning cmd = true →
      SequenceMove sequences sub sequence a s (.poll cmd rest) s (.next (.wait cmd rest))
  | pollDone {cmd : TOFCommandCode} {rest : List TOFCommandCode} : s.isRunning cmd = false →
      SequenceMove sequences sub sequence a s (.poll cmd rest) s (.next (.test rest))
  | failed : SequenceMove sequences sub sequence a s .failed { s with macroLoopRunning := false }
      (.ret false)

theorem sequenceMove_after {sub : String} {sequence rest : List TOFCommandCode}
    {cmd : TOFCommandCode} (hreset : cmd ≠ resetDaq) :
    SequenceMove sequences sub sequence a s (.returned true cmd rest) s
      (.next (.after cmd rest)) := by
  unfold SequencePc.after
  split
  · exact .pulseDue
  · rename_i hnot
    refine .succeed hreset fun ⟨hcmd, hrest⟩ => ?_
    cases rest with
    | nil => cases hrest
    | cons next rest => cases hrest; exact hnot rest hcmd rfl

/-- Every step of `executeMacroSequence` is one of these. -/
theorem SequencePc.stepIn_move {sub : String} {sequence : List TOFCommandCode} {pc : SequencePc}
    {r : Progress SequencePc} (h : pc.stepIn sequences sub sequence a s = some (s', r)) :
    SequenceMove sequences sub sequence a s pc s' r := by
  cases pc with
  | arm => cases h; exact .arm
  | vault =>
    simp only [SequencePc.stepIn] at h
    split_ifs at h with hsub <;> cases h
    · exact .vaultNone hsub
    · exact .vault hsub
    · exact .vaultError hsub
  | vaultFailed => cases h; exact .vaultFailed
  | test rest =>
    cases rest with
    | nil => cases h; exact .finish
    | cons cmd rest =>
      simp only [SequencePc.stepIn] at h
      split_ifs at h with hup <;> cases h
      · exact .go hup
      · exact .abort (Bool.eq_false_iff.mpr hup)
  | dispatch cmd rest =>
    simp only [SequencePc.stepIn] at h
    split at h <;> cases h
    · exact .call ‹_›
    · exact .unknown ‹_›
  | step cmd rest call =>
    obtain ⟨⟨u, q⟩, hu, heq⟩ := Option.map_eq_some_iff.mp h
    cases heq
    exact .step hu
  | returned success cmd rest =>
    cases success with
    | false => cases h; exact .fail
    | true =>
      simp only [SequencePc.stepIn] at h
      split_ifs at h with hreset <;> cases h
      · subst hreset
        exact .reset
      · exact sequenceMove_after hreset
  | rearm rest => cases h; exact .rearm
  | pulseTest rest =>
    simp only [SequencePc.stepIn] at h
    split_ifs at h with hup <;> cases h
    · exact .pulseGo hup
    · exact .pulseSkip (Bool.eq_false_iff.mpr hup)
  | pulseDispatch rest => cases h; exact .pulseDispatch
  | pulse rest call =>
    obtain ⟨⟨u, q⟩, hu, heq⟩ := Option.map_eq_some_iff.mp h
    cases heq
    exact .pulse hu
  | pulseReturned success rest => cases h; exact .pulseReturned
  | wait cmd rest =>
    simp only [SequencePc.stepIn] at h
    split_ifs at h with hup <;> cases h
    · exact .waitOn hup
    · exact .waitStop (Bool.eq_false_iff.mpr hup)
  | poll cmd rest =>
    simp only [SequencePc.stepIn] at h
    split_ifs at h with hrun <;> cases h
    · exact .pollAgain hrun
    · exact .pollDone (Bool.eq_false_iff.mpr hrun)
  | failed => cases h; exact .failed

/-- Where the thread goes on after a call of `executeMacroSequence`. -/
theorem Program.afterSequence_cases (p : Program) (cycle : ℕ) (success : Bool) :
    p.cycles = none ∧ p.afterSequence cycle success = .clear success ∨
    p.cycles ≠ none ∧ success = true ∧ p.afterSequence cycle success = .loopTest cycle ∨
    p.cycles ≠ none ∧ p.afterSequence cycle success = .loopBreak := by
  unfold Program.afterSequence
  cases hcycles : p.cycles with
  | none => exact .inl ⟨rfl, rfl⟩
  | some n =>
    right
    dsimp only
    split_ifs with hgo
    · exact .inl ⟨nofun, hgo.1, rfl⟩
    · exact .inr ⟨nofun, rfl⟩

theorem SequenceMove.stores {sub : String} {sequence : List TOFCommandCode} {cycle : ℕ}
    {pc : SequencePc} {r : Progress SequencePc} (hlive : s.live)
    (h : SequenceMove sequences sub sequence a s pc s' r) :
    Stores (MacroPc.sequence cycle pc).writes s s' := by
  cases h with
  | step hcall | pulse hcall => exact Call.step_stores (.inr ⟨rfl, hlive⟩) hcall
  | finish | abort _ | fail => exact Stores.clearVaultPath s sub
  | _ => exact ⟨rfl, rfl, rfl⟩

theorem MacroPc.step_stores {p : Program} {pc : MacroPc} {m : MacroThread} (hlive : s.live)
    (h : pc.step sequences p a s = some (s', m)) : Stores pc.writes s s' := by
  cases pc with
  | loopArm | loopTest _ | loopBreak | clear _ | notify _ => cases h; exact ⟨rfl, rfl, rfl⟩
  | sequence cycle pc =>
    obtain ⟨⟨t, q⟩, ht, heq⟩ := Option.map_eq_some_iff.mp h
    cases heq
    exact (SequencePc.stepIn_move ht).stores hlive

theorem State.reap_stores {pid : Pid} {w : Wait} (h : s.reap pid w = some s') :
    Stores none s s' := by
  unfold State.reap at h
  split at h
  · split_ifs at h <;> cases h <;> exact ⟨rfl, rfl, rfl⟩
  · split_ifs at h
    cases h
    exact ⟨rfl, rfl, rfl⟩
  · cases h

theorem State.daqStep_stores (h : s.daqStep = some s') : Stores none s s' := by
  unfold State.daqStep at h
  split at h
  · cases h; exact ⟨rfl, rfl, rfl⟩
  · split_ifs at h
    cases h
    exact ⟨rfl, rfl, rfl⟩
  · cases h

theorem State.recorderStep_stores (h : s.recorderStep a = some s') : Stores none s s' := by
  unfold State.recorderStep at h
  split at h
  · split_ifs at h
    · split at h
      · obtain ⟨t, ht, heq⟩ := Option.map_eq_some_iff.mp h
        cases heq
        have hs := Stores.forked ht
        exact ⟨hs.flag, hs.worker, hs.macroThread⟩
      · cases h; exact Stores.refl s
    · cases h; exact ⟨rfl, rfl, rfl⟩
  · cases h; exact ⟨rfl, rfl, rfl⟩
  · cases h

/-- What a step of the dispatcher does to the two threads. -/
inductive Move (sequences : TOFCommandCode → MacroSequence) (s : State) :
    Action → State → Prop where
  | receive {code : TOFCommandCode} {argv : CommandArgs} {call : Call} :
      s.worker = .idle → code.handler argv = some call →
      Move sequences s (.receive code argv) { s with worker := .busy call }
  /-- The worker takes a step that leaves the macro thread alone. -/
  | worker {a : Answer} {call : Call} {t : State} {r : Progress Call} :
      s.worker = .busy call → call.touchesThread = false → Stores call.writes s t →
      call.step sequences .worker a s = some (t, r) →
      Move sequences s (.worker a) { t with worker := r.elim .busy fun _ => .idle }
  | join {a : Answer} {code : TOFCommandCode} {argv : CommandArgs} {pc : AdmitPc} :
      s.worker = .busy (.macroCommand code argv .join) → ¬ s.live →
      pc = (if code = macroAutoRunCycle then .spawn else .arm) →
      Move sequences s (.worker a)
        { s with macroThread := .none, worker := .busy (.macroCommand code argv pc) }
  | spawn {a : Answer} {code : TOFCommandCode} {argv : CommandArgs} {p : Program} :
      s.worker = .busy (.macroCommand code argv .spawn) → s.macroThread = .none →
      p = program sequences code argv →
      Move sequences s (.worker a) { s with macroThread := .running p p.start, worker := .idle }
  | macroThread {a : Answer} {p : Program} {pc : MacroPc} {t : State} {m : MacroThread} :
      s.macroThread = .running p pc → Stores pc.writes s t →
      pc.step sequences p a s = some (t, m) → Move sequences s (.macroThread a) { t with macroThread := m }
  /-- The other threads, and a command that has no handler. -/
  | other {a : Action} {t : State} :
      (∀ b, a ≠ .worker b) → (∀ b, a ≠ .macroThread b) →
      (∀ code argv, a = .receive code argv → code.handler argv = none) → Stores none s t →
      Move sequences s a t

theorem move_join {code : TOFCommandCode} {argv : CommandArgs} {t : State} {r : Progress Call}
    (hw : s.worker = .busy (.macroCommand code argv .join))
    (h : (Call.macroCommand code argv .join).step sequences .worker a s = some (t, r)) :
    Move sequences s (.worker a) { t with worker := r.elim .busy fun _ => .idle } := by
  obtain ⟨⟨u, q⟩, hu, heq⟩ := Option.map_eq_some_iff.mp h
  cases heq
  cases hm : s.macroThread with
  | none =>
    simp only [AdmitPc.step, hm] at hu
    cases hu
    have hnone (w : Worker) : { s with macroThread := .none, worker := w } =
        { s with worker := w } := by rw [← hm]
    have hlive : ¬ s.live := by rintro ⟨p, pc, hp⟩; rw [hm] at hp; cases hp
    exact hnone _ ▸ Move.join hw hlive rfl
  | finished =>
    simp only [AdmitPc.step, hm] at hu
    cases hu
    exact .join hw (by rintro ⟨p, pc, hp⟩; rw [hm] at hp; cases hp) rfl
  | running p pc => simp [AdmitPc.step, hm] at hu

theorem move_spawn {code : TOFCommandCode} {argv : CommandArgs} {t : State} {r : Progress Call}
    (hw : s.worker = .busy (.macroCommand code argv .spawn))
    (h : (Call.macroCommand code argv .spawn).step sequences .worker a s = some (t, r)) :
    Move sequences s (.worker a) { t with worker := r.elim .busy fun _ => .idle } := by
  obtain ⟨⟨u, q⟩, hu, heq⟩ := Option.map_eq_some_iff.mp h
  cases heq
  cases hm : s.macroThread with
  | none =>
    simp only [AdmitPc.step, hm] at hu
    cases hu
    exact .spawn hw hm rfl
  | finished => simp [AdmitPc.step, hm] at hu
  | running p pc => simp [AdmitPc.step, hm] at hu

theorem move_worker {call : Call} {t : State} {r : Progress Call} (hw : s.worker = .busy call)
    (h : call.step sequences .worker a s = some (t, r)) :
    Move sequences s (.worker a) { t with worker := r.elim .busy fun _ => .idle } := by
  cases ht : call.touchesThread with
  | false => exact .worker hw ht (Call.step_stores (.inl ⟨rfl, ht⟩) h) h
  | true =>
    cases call with
    | macroCommand code argv pc =>
      cases pc with
      | join => exact move_join hw h
      | spawn => exact move_spawn hw h
      | test | reject | configure | arm => cases ht
    | _ => cases ht

theorem Move.environment {b : Action} (hw : ∀ a, b ≠ .worker a) (hm : ∀ a, b ≠ .macroThread a)
    (hr : ∀ code argv, b ≠ .receive code argv) (h : Stores none s s') : Move sequences s b s' :=
  .other hw hm (fun code argv hb => absurd hb (hr code argv)) h

/-- Every step is one of these moves. -/
theorem step_move {b : Action} (h : step sequences s b = some s') : Move sequences s b s' := by
  cases b with
  | receive code argv =>
    simp only [step] at h
    split at h
    · cases h; exact .receive ‹_› ‹_›
    · cases h
      exact .other nofun nofun
        (fun _ _ hb => by cases hb; assumption) (Stores.refl s)
    · cases h
  | worker a =>
    simp only [step] at h
    split at h
    · cases h
    · obtain ⟨⟨t, r⟩, ht, heq⟩ := Option.map_eq_some_iff.mp h
      cases heq
      exact move_worker ‹_› ht
  | macroThread a =>
    simp only [step] at h
    split at h
    · obtain ⟨⟨t, m⟩, ht, heq⟩ := Option.map_eq_some_iff.mp h
      cases heq
      exact .macroThread ‹_› (MacroPc.step_stores ⟨_, _, ‹_›⟩ ht) ht
    · cases h
  | monitor pid w => exact .environment nofun nofun nofun (State.reap_stores h)
  | daq => exact .environment nofun nofun nofun (State.daqStep_stores h)
  | recorder a => exact .environment nofun nofun nofun (State.recorderStep_stores h)

end Threads

/-! ### Handlers keep to their own program points -/

section Points

variable {sequences : TOFCommandCode → MacroSequence} {s s' : State} {a : Answer}
  {self : Caller} {call : Call}

/-- Two program points of one call. -/
inductive Call.Continues : Call → Call → Prop where
  | startDaq (pc pc' : Simple StartPc) : Continues (.startDaq pc) (.startDaq pc')
  | stopDaq (pc pc' : Simple StopPc) : Continues (.stopDaq pc) (.stopDaq pc')
  | resetDaq (pc pc' : Simple ResetPc) : Continues (.resetDaq pc) (.resetDaq pc')
  | simple (code : TOFCommandCode) (pc pc' : Simple BodyPc) :
      Continues (.simple code pc) (.simple code pc')
  | background (code : TOFCommandCode) (pc pc' : BackgroundPc) :
      Continues (.background code pc) (.background code pc')
  | sendPulseTrain (pc pc' : PulsePc) : Continues (.sendPulseTrain pc) (.sendPulseTrain pc')
  | stopAsicTempRecord : Continues (.stopAsicTempRecord false) (.stopAsicTempRecord true)
  | macroCommand (code : TOFCommandCode) (argv : CommandArgs) (pc pc' : AdmitPc) :
      Continues (.macroCommand code argv pc) (.macroCommand code argv pc')

/-- A handler that goes on stays the handler it is, with its arguments. -/
theorem Call.step_continues {call' : Call}
    (h : call.step sequences self a s = some (s', .next call')) : call.Continues call' := by
  cases call with
  | startDaq pc | stopDaq pc | resetDaq pc | simple _ pc | background _ pc | sendPulseTrain pc
  | macroCommand _ _ pc =>
    obtain ⟨⟨t, q⟩, ht, heq⟩ := Option.map_eq_some_iff.mp h
    cases q <;> cases heq
    constructor
  | startAsicTempRecord =>
    simp only [Call.step] at h
    split_ifs at h <;> cases h
  | stopAsicTempRecord joining =>
    cases joining with
    | false =>
      simp only [Call.step] at h
      split_ifs at h <;> cases h
      exact .stopAsicTempRecord
    | true =>
      simp only [Call.step] at h
      split at h <;> cases h
  | heartBeat => cases h

/-- A macro handler's step comes from a step of the same handler. -/
theorem Call.step_macroCommand {code : TOFCommandCode} {argv : CommandArgs} {pc' : AdmitPc}
    (h : call.step sequences self a s = some (s', .next (.macroCommand code argv pc'))) :
    ∃ pc : AdmitPc, call = .macroCommand code argv pc ∧
      pc.step sequences self code argv s = some (s', .next pc') := by
  cases Call.step_continues h with
  | macroCommand _ _ pc =>
    obtain ⟨⟨t, q⟩, ht, heq⟩ := Option.map_eq_some_iff.mp h
    cases q <;> cases heq
    exact ⟨pc, rfl, ht⟩

end Points

end GramsTof.Dispatch
