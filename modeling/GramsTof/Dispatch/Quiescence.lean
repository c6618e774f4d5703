import GramsTof.Dispatch.Activity
import GramsTof.Dispatch.Calls

/-! States in which nothing but a new command starts a process: no handler is about
to, the macro thread would find its flag lowered first, the recorder is off. -/

namespace GramsTof.Dispatch

open Lib TOFCommandCode

/-- The rest of the body forks no process. -/
def BodyPc.passive (code : TOFCommandCode) : BodyPc → Bool
  | run => !code.calibratesAsics
  | asics left _ _ | limit left _ _ => left = 0
  | drain _ | finish => true

/-- The rest of the handler starts no process and does not raise `macroLoopRunning_`. -/
def Call.passive : Call → Bool
  | simple code (.body pc) => pc.passive code
  | startDaq _ | simple _ (.report _) | sendPulseTrain _ | stopAsicTempRecord _ | heartBeat => true
  | stopDaq (.body .join) | stopDaq (.body .markStopped) | stopDaq (.report _) => true
  -- after a failed reset the macro ends, after one that succeeded it sets the flag
  | resetDaq (.report success) => !success
  | _ => false

/-- With the flag lowered, nothing is started before the flag is tested. -/
def SequencePc.passive : SequencePc → Bool
  | arm | rearm _ => false
  | dispatch cmd _ => (cmd.handler []).all Call.passive
  | step cmd _ call => call.passive && (cmd ≠ resetDaq || call = .resetDaq (.report false))
  | returned success cmd _ => !success || cmd ≠ resetDaq
  | pulse _ call => call.passive
  | _ => true

def MacroPc.passive : MacroPc → Bool
  | loopArm => false
  | sequence _ pc => pc.passive
  | _ => true

/-- The temperature recorder is off, or about to leave its loop. -/
def State.recorderOff (s : State) : Prop :=
  s.recorder = .none ∨ s.recorder = .finished ∨ s.recorder = .looping ∧ s.tempRecordRunning = false

instance (s : State) : Decidable s.recorderOff := inferInstanceAs (Decidable (_ ∨ _))

/-- No process is started, registered or signalled. -/
def Operation.silent : Operation → Bool
  | idle | report _ _ | reap _ _ | waitAny _ => true
  | _ => false

section Handlers

variable {sequences : TOFCommandCode → MacroSequence} {self : Caller} {s s' : State}
  {a : Answer} {call : Call} {r : Progress Call}

theorem Simple.operation_silent {π : Type} {code : TOFCommandCode} {op : π → Operation}
    {pc : Simple π} (hbody : ∀ q, pc = .body q → (op q).silent) :
    (pc.operation code op).silent := by
  cases pc with
  | body q => exact hbody q rfl
  | report v => rfl

theorem BodyPc.passive_operation {code : TOFCommandCode} {pc : BodyPc} (hp : pc.passive code) :
    (pc.operation a).silent := by
  have hchild (pid : Pid) : pc.child a ≠ some (.forked pid) := by
    have hwaited : a.pid.map BodyChild.waited ≠ some (.forked pid) := by cases a.pid <;> simp
    cases pc with
    | asics left n max =>
      cases of_decide_eq_true hp
      exact (Option.some_ne_none _).symm
    | limit left n max =>
      simp only [BodyPc.child]
      split_ifs
      · exact (Option.some_ne_none _).symm
      · exact hwaited
    | drain n =>
      cases n with
      | zero => exact (Option.some_ne_none _).symm
      | succ n => exact hwaited
    | run | finish => exact (Option.some_ne_none _).symm
  unfold BodyPc.operation
  split
  · rfl
  · exact absurd ‹_› (hchild _)
  · rfl

/-- A passive body stays passive. -/
theorem BodyPc.passive_next {code : TOFCommandCode} {pc pc' : BodyPc} (hp : pc.passive code)
    (h : pc.step code a s = some (s', .next pc')) : pc'.passive code := by
  cases pc with
  | run =>
    have hcode : code.calibratesAsics = false := by simpa [BodyPc.passive] using hp
    simp [BodyPc.step, hcode] at h
  | asics left n max =>
    cases of_decide_eq_true hp
    cases h
    rfl
  | limit left n max =>
    cases of_decide_eq_true hp
    simp only [BodyPc.step] at h
    split_ifs at h
    · cases h; rfl
    · obtain ⟨⟨t, w⟩, -, heq⟩ := Option.map_eq_some_iff.mp h
      cases w <;> cases heq
      rfl
  | drain n =>
    cases n with
    | zero => cases h; rfl
    | succ n =>
      obtain ⟨⟨t, w⟩, -, heq⟩ := Option.map_eq_some_iff.mp h
      cases w <;> cases heq <;> rfl
  | finish => cases h

/-- A passive handler starts nothing. -/
theorem Call.passive_operation (hp : call.passive) : (call.operation a).silent := by
  cases call with
  | startDaq pc => exact Simple.operation_silent fun _ _ => rfl
  | simple code pc =>
    refine Simple.operation_silent fun q hq => ?_
    subst hq
    exact BodyPc.passive_operation hp
  | stopDaq pc =>
    cases pc with
    | body pc => cases pc <;> first | rfl | cases hp
    | report v => rfl
  | resetDaq pc =>
    cases pc with
    | body pc => cases hp
    | report v => rfl
  | sendPulseTrain pc => cases pc <;> rfl
  | background _ _ | macroCommand _ _ _ | startAsicTempRecord => cases hp
  | stopAsicTempRecord _ | heartBeat => rfl

theorem Call.passive_hold (hp : call.passive) : call.hold = none := by
  cases call with
  | stopDaq pc =>
    cases pc with
    | body pc => cases pc <;> first | rfl | cases hp
    | report v => rfl
  | resetDaq pc =>
    cases pc with
    | body pc => cases hp
    | report v => rfl
  | background _ _ => cases hp
  | _ => rfl

theorem Call.passive_writes (hp : call.passive) : call.writes ≠ some true := by
  intro h
  rcases Call.writes_true h with ⟨code, argv, rfl⟩ | rfl <;> cases hp

/-- A passive handler stays passive. -/
theorem Call.passive_next {call' : Call} (hp : call.passive)
    (h : call.step sequences self a s = some (s', .next call')) : call'.passive := by
  cases call with
  | startDaq pc | sendPulseTrain pc =>
    obtain ⟨⟨t, q⟩, ht, heq⟩ := Option.map_eq_some_iff.mp h
    cases q <;> cases heq
    rfl
  | simple code pc =>
    obtain ⟨⟨t, q⟩, ht, heq⟩ := Option.map_eq_some_iff.mp h
    cases pc with
    | report v => cases ht; cases heq
    | body pc =>
      obtain ⟨⟨u, q'⟩, hu, heq'⟩ := Option.map_eq_some_iff.mp ht
      cases q' <;> cases heq' <;> cases heq
      · exact BodyPc.passive_next hp hu
      · rfl
  | stopDaq pc =>
    cases pc with
    | report v => cases h
    | body pc =>
      cases pc with
      | cancel | fork | register _ | interrupt _ => cases hp
      | join =>
        simp only [Call.step, Simple.step, StopPc.step] at h
        split at h <;> cases h <;> rfl
      | markStopped =>
        simp only [Call.step, Simple.step, StopPc.step] at h
        split at h <;> cases h
        rfl
  | resetDaq pc =>
    cases pc with
    | body pc => cases hp
    | report v => cases h
  | background _ _ | macroCommand _ _ _ | startAsicTempRecord => cases hp
  | stopAsicTempRecord joining =>
    cases joining with
    | false =>
      simp only [Call.step] at h
      split_ifs at h <;> cases h
      rfl
    | true =>
      simp only [Call.step] at h
      split at h <;> cases h
  | heartBeat => cases h

theorem SameRecorder.off (h : SameRecorder s s') (hoff : s.recorderOff) : s'.recorderOff := by
  unfold State.recorderOff
  rw [h.1, h.2]
  exact hoff

theorem Simple.step_recorder {π : Type} {code : TOFCommandCode}
    {body : State → π → Option (State × Progress π)} {pc : Simple π} {r : Progress (Simple π)}
    (hbody : ∀ q t r, pc = .body q → body s q = some (t, r) → SameRecorder s t)
    (h : pc.step code body s = some (s', r)) : SameRecorder s s' := by
  cases pc with
  | body q =>
    obtain ⟨⟨t, q'⟩, ht, heq⟩ := Option.map_eq_some_iff.mp h
    cases heq
    exact hbody q _ _ rfl ht
  | report success => cases h; exact ⟨rfl, rfl⟩

theorem StartPc.step_recorder {pc : StartPc} {r : Progress StartPc}
    (h : pc.step a s = some (s', r)) : SameRecorder s s' := by
  cases pc with
  | lock =>
    simp only [StartPc.step] at h
    split_ifs at h <;> cases h <;> exact ⟨rfl, rfl⟩
  | join =>
    simp only [StartPc.step] at h
    split at h <;> cases h <;> exact ⟨rfl, rfl⟩
  | initializeDaq =>
    simp only [StartPc.step] at h
    split_ifs at h <;> cases h <;> exact ⟨rfl, rfl⟩

/-- A passive handler leaves the recorder off. -/
theorem Call.passive_recorder (hp : call.passive) (hoff : s.recorderOff)
    (h : call.step sequences self a s = some (s', r)) : s'.recorderOff := by
  cases call with
  | startDaq pc =>
    obtain ⟨⟨t, q⟩, ht, heq⟩ := Option.map_eq_some_iff.mp h
    cases heq
    exact (Simple.step_recorder (fun _ _ _ _ => StartPc.step_recorder) ht).off hoff
  | simple code pc =>
    obtain ⟨⟨t, q⟩, ht, heq⟩ := Option.map_eq_some_iff.mp h
    cases heq
    exact (Simple.step_recorder
      (fun _ _ _ _ hb => by rw [BodyPc.step_frame hb]; exact ⟨rfl, rfl⟩) ht).off hoff
  | stopDaq pc =>
    obtain ⟨⟨t, q⟩, ht, heq⟩ := Option.map_eq_some_iff.mp h
    cases heq
    refine (Simple.step_recorder (fun q t r hq hb => ?_) ht).off hoff
    subst hq
    cases q with
    | cancel | fork | register _ | interrupt _ => cases hp
    | join =>
      simp only [StopPc.step] at hb
      split at hb <;> cases hb <;> exact ⟨rfl, rfl⟩
    | markStopped =>
      simp only [StopPc.step] at hb
      split at hb <;> cases hb
      exact ⟨rfl, rfl⟩
  | resetDaq pc =>
    cases pc with
    | body pc => cases hp
    | report v => cases h; exact hoff
  | sendPulseTrain pc =>
    obtain ⟨⟨t, q⟩, ht, heq⟩ := Option.map_eq_some_iff.mp h
    cases heq
    cases pc <;> (cases ht; exact hoff)
  | background _ _ | macroCommand _ _ _ | startAsicTempRecord => cases hp
  | stopAsicTempRecord joining =>
    cases joining with
    | false =>
      simp only [Call.step] at h
      split_ifs at h <;> cases h
      · exact hoff.imp_right fun hoff => hoff.imp_right fun hloop => ⟨hloop.1, rfl⟩
      · exact hoff
    | true =>
      simp only [Call.step] at h
      split at h <;> cases h
      · exact hoff
      · exact .inl rfl
  | heartBeat => cases h; exact hoff

end Handlers

/-! ### The threads -/

/-- Nothing is under way that starts a process or raises the flag of a macro. -/
structure Quiet (s : State) : Prop where
  worker : ∀ call, s.workerCall = some call → call.passive
  macroThread : ∀ pc, s.macroPc = some pc → pc.passive ∧ s.macroLoopRunning = false
  recorder : s.recorderOff

/-- The step receives a command that may start a process. -/
def Action.startsWork : Action → Bool
  | receive code argv => !(code.handler argv).all Call.passive
  | _ => false

section Threads

variable {sequences : TOFCommandCode → MacroSequence} {s s' : State} {a : Answer} {b : Action}

theorem State.clearVaultPath_off {sub : String} (hoff : s.recorderOff) :
    (s.clearVaultPath sub).recorderOff := by
  unfold State.clearVaultPath
  split_ifs <;> exact hoff

theorem MacroPc.passive_afterSequence (p : Program) (cycle : ℕ) (success : Bool) :
    (p.afterSequence cycle success).passive := by
  obtain ⟨-, hp⟩ | ⟨-, -, hp⟩ | ⟨-, hp⟩ := p.afterSequence_cases cycle success <;> rw [hp] <;> rfl

theorem MacroPc.passive_call {pc : MacroPc} {call : Call} (hp : pc.passive)
    (h : pc.call = some call) : call.passive := by
  cases pc with
  | sequence cycle pc =>
    cases pc with
    | step cmd rest call' =>
      cases h
      exact (Bool.and_eq_true_iff.mp hp).1
    | pulse rest call' => cases h; exact hp
    | _ => cases h
  | _ => cases h

theorem MacroPc.passive_operation {pc : MacroPc} (p : Program) (hp : pc.passive) :
    ((MacroThread.running p pc).operation a).silent := by
  have hcall : (pc.operation a).silent := by
    unfold MacroPc.operation
    cases hc : pc.call with
    | none => rfl
    | some call => exact Call.passive_operation (passive_call hp hc)
  cases pc with
  | notify v => rfl
  | _ => exact hcall

theorem MacroPc.passive_writes {pc : MacroPc} (hp : pc.passive) : pc.writes ≠ some true := by
  have hcall : pc.call.bind Call.writes ≠ some true := by
    cases hc : pc.call with
    | none => simp
    | some call => exact Call.passive_writes (passive_call hp hc)
  have hown : pc.ownWrites = none ∨ pc.ownWrites = some false := by
    cases pc with
    | loopArm => cases hp
    | sequence cycle pc =>
      cases pc with
      | arm | rearm _ => cases hp
      | vaultFailed | failed => exact .inr rfl
      | _ => exact .inl rfl
    | loopTest _ | notify _ => exact .inl rfl
    | loopBreak | clear _ => exact .inr rfl
  unfold MacroPc.writes
  rcases hown with hown | hown
  · rw [hown]
    exact hcall
  · rw [hown]
    simp

/-- A sequence whose flag is down leaves the recorder off. -/
theorem SequenceMove.passive_recorder {sub : String} {sequence : List TOFCommandCode}
    {pc : SequencePc} {r : Progress SequencePc} (hp : pc.passive) (hoff : s.recorderOff)
    (h : SequenceMove sequences sub sequence a s pc s' r) : s'.recorderOff := by
  cases h with
  | step hcall => exact Call.passive_recorder (Bool.and_eq_true_iff.mp hp).1 hoff hcall
  | pulse hcall => exact Call.passive_recorder hp hoff hcall
  | finish | abort _ | fail => exact State.clearVaultPath_off hoff
  | _ => exact hoff

theorem SequencePc.passive_dispatch {cmd : TOFCommandCode} {rest : List TOFCommandCode} {call : Call}
    (hcall : cmd.handler [] = some call) (hp : (dispatch cmd rest).passive) :
    (step cmd rest call).passive := by
  have hpassive : call.passive := by simpa [SequencePc.passive, hcall] using hp
  have hne : cmd ≠ resetDaq := by
    rintro rfl
    cases hcall
    cases hpassive
  simp [SequencePc.passive, hpassive, hne]

theorem SequencePc.passive_step {self : Caller} {cmd : TOFCommandCode} {rest : List TOFCommandCode}
    {call : Call} {r : Progress Call} (hcall : call.step sequences self a s = some (s', r))
    (hp : (step cmd rest call).passive) :
    (r.elim (step cmd rest ·) (returned · cmd rest)).passive := by
  simp only [SequencePc.passive, Bool.and_eq_true, Bool.or_eq_true, decide_eq_true_eq] at hp
  obtain ⟨hpassive, hreset⟩ := hp
  cases r with
  | next call' =>
    have hnext := Call.passive_next hpassive hcall
    rcases hreset with hne | rfl
    · simp [Progress.elim, SequencePc.passive, hnext, hne]
    · cases hcall
  | ret v =>
    rcases hreset with hne | rfl
    · simp [Progress.elim, SequencePc.passive, hne]
    · cases hcall
      rfl

/-- A sequence whose flag is down stays passive. -/
theorem SequenceMove.passive_next {sub : String} {sequence : List TOFCommandCode}
    {pc pc' : SequencePc} (hp : pc.passive) (hdown : s.macroLoopRunning = false)
    (h : SequenceMove sequences sub sequence a s pc s' (.next pc')) : pc'.passive := by
  generalize hr : Progress.next pc' = r at h
  cases h with
  | arm | rearm | reset => cases hp
  | vaultFailed | finish | abort _ | failed => cases hr
  | go hup | pulseGo hup | waitOn hup => rw [hdown] at hup; cases hup
  | call hcall => cases hr; exact SequencePc.passive_dispatch hcall hp
  | step hcall => cases hr; exact SequencePc.passive_step hcall hp
  | @pulse _ _ _ r hcall =>
    cases hr
    cases r with
    | next call' => exact Call.passive_next hp hcall
    | ret v => rfl
  | _ => cases hr; rfl

theorem MacroPc.step_passive {p : Program} {pc : MacroPc} {m : MacroThread} (hp : pc.passive)
    (hdown : s.macroLoopRunning = false) (hoff : s.recorderOff)
    (h : pc.step sequences p a s = some (s', m)) :
    s'.recorderOff ∧ ∀ pc', m.pc = some pc' → pc'.passive := by
  cases pc with
  | loopArm => cases hp
  | loopTest cycle =>
    simp only [MacroPc.step, hdown] at h
    cases h
    exact ⟨hoff, fun _ h => by cases h; rfl⟩
  | loopBreak | clear _ => cases h; exact ⟨hoff, fun _ h => by cases h; rfl⟩
  | notify v => cases h; exact ⟨hoff, fun _ h => by cases h⟩
  | sequence cycle pc =>
    obtain ⟨⟨t, r⟩, ht, heq⟩ := Option.map_eq_some_iff.mp h
    cases heq
    have hmove := SequencePc.stepIn_move ht
    refine ⟨hmove.passive_recorder hp hoff, fun pc' hpc => ?_⟩
    cases r with
    | next pc'' => cases hpc; exact hmove.passive_next hp hdown
    | ret v =>
      cases hpc
      exact passive_afterSequence p cycle v

/-- In a quiet state the next step starts no process. -/
theorem Quiet.silent (hi : Quiet s) (b : Action) : (s.operation b).silent := by
  cases b with
  | receive _ _ | daq | monitor _ _ => rfl
  | worker a =>
    rw [State.operation]
    cases hc : s.workerCall with
    | none => rfl
    | some call => exact Call.passive_operation (hi.worker call hc)
  | macroThread a =>
    rw [State.operation]
    cases hm : s.macroThread with
    | none | finished => rfl
    | running p pc => exact MacroPc.passive_operation p (hi.macroThread pc (State.macroPc_eq hm)).1
  | recorder a =>
    rw [State.operation, State.recorderOperation]
    rcases hi.recorder with hr | hr | ⟨hr, hdown⟩
    · rw [hr]; rfl
    · rw [hr]; rfl
    · rw [hr, hdown]; rfl

theorem Stores.lowered {w : Option Bool} (h : Stores w s s') (hw : w ≠ some true)
    (hdown : s.macroLoopRunning = false) : s'.macroLoopRunning = false := by
  rw [h.flag]
  cases w with
  | none => exact hdown
  | some v =>
    cases v with
    | false => rfl
    | true => exact absurd rfl hw

theorem Quiet.worker_step {call : Call} {t : State} {r : Progress Call} (hi : Quiet s)
    (hw : s.worker = .busy call) (hs : Stores call.writes s t)
    (h : call.step sequences .worker a s = some (t, r)) :
    Quiet { t with worker := r.elim .busy fun _ => .idle } := by
  have hp : call.passive := hi.worker call (State.workerCall_eq hw)
  have hoff : t.recorderOff := Call.passive_recorder hp hi.recorder h
  refine ⟨fun call' hc => ?_, fun pc hpc => ?_, hoff⟩
  · cases r with
    | next call'' => cases hc; exact Call.passive_next hp h
    | ret v => cases hc
  · obtain ⟨hpassive, hdown⟩ := hi.macroThread pc (hs.macroPc.symm.trans hpc)
    exact ⟨hpassive, hs.lowered (Call.passive_writes hp) hdown⟩

theorem Quiet.macro_step {p : Program} {pc : MacroPc} {t : State} {m : MacroThread} (hi : Quiet s)
    (hm : s.macroThread = .running p pc) (hs : Stores pc.writes s t)
    (h : pc.step sequences p a s = some (t, m)) : Quiet { t with macroThread := m } := by
  obtain ⟨hp, hdown⟩ := hi.macroThread pc (State.macroPc_eq hm)
  obtain ⟨hoff, hnext⟩ := MacroPc.step_passive hp hdown hi.recorder h
  refine ⟨fun call hc => hi.worker call ?_, fun pc' hpc => ?_, hoff⟩
  · rw [← hc]
    unfold State.workerCall
    rw [hs.worker]
  · exact ⟨hnext pc' hpc, hs.lowered (MacroPc.passive_writes hp) hdown⟩

theorem Quiet.other_step (hi : Quiet s) (hs : Stores none s s') (hoff : s'.recorderOff) :
    Quiet s' := by
  refine ⟨fun call hc => hi.worker call ?_, fun pc hpc => ?_, hoff⟩
  · rw [← hc]
    unfold State.workerCall
    rw [hs.worker]
  · obtain ⟨hpassive, hdown⟩ := hi.macroThread pc (hs.macroPc.symm.trans hpc)
    exact ⟨hpassive, hs.lowered nofun hdown⟩

theorem State.recorderStep_off (hoff : s.recorderOff) (h : s.recorderStep a = some s') :
    s'.recorderOff := by
  unfold State.recorderStep at h
  rcases hoff with hr | hr | ⟨hr, hdown⟩
  · rw [hr] at h; cases h
  · rw [hr] at h; cases h
  · rw [hr, hdown] at h
    cases h
    exact .inr (.inl rfl)

/-- A quiet state stays so until a command comes that may start something. -/
theorem Quiet.step (hi : Quiet s) (hb : b.startsWork = false)
    (h : Dispatch.step sequences s b = some s') : Quiet s' := by
  cases step_move h with
  | receive _ hcall =>
    refine ⟨fun call hc => ?_, hi.macroThread, hi.recorder⟩
    cases hc
    simpa [Action.startsWork, hcall] using hb
  | worker hw _ hs hcall => exact hi.worker_step hw hs hcall
  | join hw _ _ | spawn hw _ _ => cases hi.worker _ (State.workerCall_eq hw)
  | macroThread hm hs hpc => exact hi.macro_step hm hs hpc
  | other hnw hnm hnr hs =>
    refine hi.other_step hs ?_
    cases b with
    | receive code argv =>
      cases hw : s.worker with
      | idle =>
        simp only [Dispatch.step, hw, hnr code argv rfl] at h
        cases h
        exact hi.recorder
      | busy call => simp [Dispatch.step, hw] at h
    | worker a => exact absurd rfl (hnw a)
    | macroThread a => exact absurd rfl (hnm a)
    | monitor pid w => exact (State.reap_effect h).2.off hi.recorder
    | daq => exact (State.daqStep_effect h).2.off hi.recorder
    | recorder a => exact State.recorderStep_off hi.recorder h

end Threads

end GramsTof.Dispatch
