import GramsTof.Dispatch.Frames
import GramsTof.Dispatch.Success

/-! The temperature recorder at the end of `executeMacroSequence`. -/

namespace GramsTof.Dispatch

open Lib TOFCommandCode

namespace TOFCommandCode

def isRecorder : TOFCommandCode → Bool
  | startAsicTempRecord | stopAsicTempRecord => true
  | _ => false

end TOFCommandCode

/-- Every `START_ASIC_TEMP_RECORD` is later followed by a `STOP_ASIC_TEMP_RECORD`. -/
def Paired : List TOFCommandCode → Prop
  | [] => True
  | cmd :: rest => (cmd = startAsicTempRecord → stopAsicTempRecord ∈ rest) ∧ Paired rest

/-- What has been done to the recorder since a call of `executeMacroSequence` began. -/
structure Session where
  /-- `tempRecordRunning_` then. -/
  found : Bool
  /-- The commands carried out since, oldest first. -/
  commands : List (Caller × TOFCommandCode)
  deriving DecidableEq, Repr

namespace Session

/-- By whomever. -/
def codes (w : Session) : List TOFCommandCode := w.commands.map Prod.snd

/-- By the sequence itself. -/
def own (w : Session) : List TOFCommandCode :=
  (w.commands.filter (·.1 = .macroThread)).map Prod.snd

def track (s : State) (b : Action) (_ : State) (w : Session) : Session :=
  match b, s.macroPc with
  | .macroThread _, some (.sequence _ .arm) => ⟨s.tempRecordRunning, []⟩
  | _, _ => { w with commands := w.commands ++ (s.recorderCommand b).toList }

end Session

def sessionMachine (sequences : TOFCommandCode → MacroSequence) :
    Machine (State × Session) Action :=
  (machine sequences).withHistory ⟨false, []⟩ Session.track

/-- The sequence has carried out `own`, and `rest` is left. -/
def Done (sequence own rest : List TOFCommandCode) : Prop :=
  ∃ ran, sequence = ran ++ rest ∧ own = ran.filter isRecorder

/-- What a call of `executeMacroSequence` has done to the recorder at a program point. -/
def SequencePc.Ran (sequence own : List TOFCommandCode) : SequencePc → Prop
  | arm => True
  | vault | vaultFailed => own = []
  | dispatch cmd rest => Done sequence own (cmd :: rest)
  | step _ rest call | pulse rest call => Done sequence own (call.recorderCommand.toList ++ rest)
  | test rest | returned _ _ rest | rearm rest | pulseTest rest | pulseDispatch rest
  | pulseReturned _ rest | wait _ rest | poll _ rest => Done sequence own rest
  | failed => ∃ rest, Done sequence own rest

/-- The record agrees with `tempRecordRunning_` and with the sequence. -/
def Kept (p : State × Session) : Prop :=
  ∀ q cycle pc, p.1.macroThread = .running q (.sequence cycle pc) → pc ≠ .arm →
    p.1.tempRecordRunning = p.2.codes.foldl recording p.2.found ∧ pc.Ran q.sequence p.2.own

section Pairs

variable {sequence own rest : List TOFCommandCode} {cmd : TOFCommandCode}

theorem recording_eq (running : Bool) (cmd : TOFCommandCode) :
    recording running cmd =
      if cmd = startAsicTempRecord then true
      else if cmd = stopAsicTempRecord then false else running := by
  cases cmd <;> rfl

theorem paired_iff (l : List TOFCommandCode) (running : Bool) :
    l.foldl recording running = false ↔ Paired l ∧ (running = true → stopAsicTempRecord ∈ l) := by
  induction l generalizing running with
  | nil => cases running <;> simp [Paired]
  | cons cmd rest ih =>
    rw [List.foldl_cons, ih, recording_eq, Paired, List.mem_cons]
    split_ifs with hstart hstop
    · simp only [hstart, reduceCtorEq, false_or, forall_const]
      exact ⟨fun h => ⟨⟨h.2, h.1⟩, fun _ => h.2⟩, fun h => ⟨h.1.2, h.1.1⟩⟩
    · simp [hstop]
    · simp [hstart, Ne.symm hstop]

theorem foldl_recording_filter (l : List TOFCommandCode) (running : Bool) :
    (l.filter isRecorder).foldl recording running = l.foldl recording running := by
  induction l generalizing running with
  | nil => rfl
  | cons cmd rest ih => cases cmd <;> exact ih _

theorem paired_filter (l : List TOFCommandCode) : Paired (l.filter isRecorder) ↔ Paired l := by
  have hl := paired_iff l false
  have hf := paired_iff (l.filter isRecorder) false
  rw [foldl_recording_filter] at hf
  simpa using hf.symm.trans hl

theorem Done.take (h : Done sequence own (cmd :: rest)) (hcmd : cmd.isRecorder = true) :
    Done sequence (own ++ [cmd]) rest := by
  obtain ⟨ran, rfl, rfl⟩ := h
  exact ⟨ran ++ [cmd], by simp, by simp [List.filter_append, hcmd]⟩

theorem Done.skip (h : Done sequence own (cmd :: rest)) (hcmd : cmd.isRecorder = false) :
    Done sequence own rest := by
  obtain ⟨ran, rfl, rfl⟩ := h
  exact ⟨ran ++ [cmd], by simp, by simp [List.filter_append, hcmd]⟩

theorem Call.recorderCommand_isRecorder {call : Call} (h : call.recorderCommand = some cmd) :
    cmd.isRecorder = true := by
  cases call with
  | startAsicTempRecord => cases h; rfl
  | stopAsicTempRecord joining => cases joining <;> cases h; rfl
  | _ => cases h

theorem handler_recorderCommand {call : Call} {argv : CommandArgs}
    (h : cmd.handler argv = some call) :
    call.recorderCommand = if cmd.isRecorder then some cmd else none := by
  cases cmd <;> cases h <;> rfl

end Pairs

section Steps

variable {sequences : TOFCommandCode → MacroSequence} {s s' : State} {a : Answer}
  {sequence own rest : List TOFCommandCode} {cmd : TOFCommandCode} {w : Session}

/-- A handler that a sequence is in, one step later. -/
theorem Done.step {call : Call}
    (h : Done sequence own (call.recorderCommand.toList ++ rest)) :
    Done sequence (own ++ call.recorderCommand.toList) rest := by
  cases hcall : call.recorderCommand with
  | none => simpa [hcall] using h
  | some cmd =>
    rw [hcall] at h
    exact h.take (Call.recorderCommand_isRecorder hcall)

/-- Outside its handlers a sequence does nothing to the recorder. -/
theorem SequencePc.Ran.quiet {pc : MacroPc} {pc' : SequencePc} (hcall : pc.call = none)
    (h : pc'.Ran sequence own) :
    pc'.Ran sequence (own ++ (pc.call.bind Call.recorderCommand).toList) := by
  rw [hcall, Option.bind_none, Option.toList_none, List.append_nil]
  exact h

theorem SequenceMove.ran {sub : String} {pc pc' : SequencePc} (cycle : ℕ) (hpc : pc ≠ .arm)
    (h : SequenceMove sequences sub sequence a s pc s' (.next pc')) (hi : pc.Ran sequence own) :
    pc'.Ran sequence (own ++ ((MacroPc.sequence cycle pc).call.bind
      Call.recorderCommand).toList) := by
  generalize hr : Progress.next pc' = r at h
  cases h with
  | arm => exact absurd rfl hpc
  | vaultFailed | finish | abort _ | failed => cases hr
  | vaultNone _ | vault _ =>
    cases hr
    cases hi
    exact .quiet rfl ⟨[], rfl, rfl⟩
  | @call cmd rest call hcall =>
    cases hr
    refine .quiet rfl ?_
    rw [SequencePc.Ran, handler_recorderCommand hcall]
    cases hrec : cmd.isRecorder with
    | true => exact hi
    | false => exact Done.skip hi hrec
  | @unknown cmd rest hnone =>
    cases hr
    have hcmd : cmd.isRecorder = false := by cases cmd <;> first | rfl | cases hnone
    exact .quiet rfl (Done.skip hi hcmd)
  | @step _ rest call _ r hcall | @pulse rest call _ r hcall =>
    cases hr
    have hnext : Done sequence (own ++ call.recorderCommand.toList) rest := Done.step hi
    cases r with
    | next call' =>
      rw [Progress.elim, SequencePc.Ran, Call.step_recorderCommand hcall]
      exact hnext
    | ret v => exact hnext
  | fail => cases hr; exact .quiet rfl ⟨_, hi⟩
  | pulseDue => cases hr; exact .quiet rfl (Done.skip hi rfl)
  | vaultError _ | go _ | reset | succeed _ _ | rearm | pulseGo _ | pulseSkip _ | pulseDispatch
  | pulseReturned | waitOn _ | waitStop _ | pollAgain _ | pollDone _ =>
    cases hr
    exact .quiet rfl hi

/-- When `executeMacroSequence` returns, the recorder commands of a beginning of the sequence have
been carried out, and all of them when it returns `true`. -/
theorem SequenceMove.ran_ret {sub : String} {pc : SequencePc} {v : Bool} (hpc : pc ≠ .arm)
    (h : SequenceMove sequences sub sequence a s pc s' (.ret v)) (hi : pc.Ran sequence own) :
    ∃ ran, ran <+: sequence ∧ (v = true → ran = sequence) ∧ own = ran.filter isRecorder := by
  cases h with
  | vaultFailed => cases hi; exact ⟨[], List.nil_prefix, nofun, rfl⟩
  | finish =>
    obtain ⟨ran, rfl, hown⟩ := hi
    exact ⟨ran, List.prefix_append _ _, fun _ => (List.append_nil ran).symm, hown⟩
  | abort _ =>
    obtain ⟨ran, rfl, hown⟩ := hi
    exact ⟨ran, List.prefix_append _ _, nofun, hown⟩
  | failed =>
    obtain ⟨rest, ran, rfl, hown⟩ := hi
    exact ⟨ran, List.prefix_append _ _, nofun, hown⟩

theorem Session.codes_append (w : Session) (o : Option (Caller × TOFCommandCode)) :
    Session.codes { w with commands := w.commands ++ o.toList } =
      w.codes ++ (o.map Prod.snd).toList := by
  cases o <;> simp [Session.codes]

/-- A step outside the macro thread. -/
theorem Kept.aside {b : Action} {q : Program} {cycle : ℕ} {pc : SequencePc} (hi : Kept (s, w))
    (hb : ∀ a, b ≠ .macroThread a) (h : step sequences s b = some s')
    (hm : s.macroThread = .running q (.sequence cycle pc)) (hpc : pc ≠ .arm) :
    s'.tempRecordRunning = (Session.track s b s' w).codes.foldl recording w.found ∧
      pc.Ran q.sequence (Session.track s b s' w).own ∧
        (Session.track s b s' w).found = w.found := by
  obtain ⟨hrunning, hran⟩ := hi q cycle pc hm hpc
  have htrack : Session.track s b s' w =
      { w with commands := w.commands ++ (s.recorderCommand b).toList } := by
    cases b with
    | macroThread a => exact absurd rfl (hb a)
    | _ => rfl
  have hown : (Session.track s b s' w).own = w.own := by
    rw [htrack]
    cases b with
    | macroThread a => exact absurd rfl (hb a)
    | worker a =>
      rw [State.recorderCommand]
      cases s.workerCall.bind Call.recorderCommand <;> simp [Session.own]
    | _ => simp [Session.own, State.recorderCommand]
  refine ⟨?_, hown ▸ hran, by rw [htrack]⟩
  rw [htrack, Session.codes_append, List.foldl_append, (step_leaves hb h).running, hrunning]

/-- A step of the sequence. -/
theorem Kept.within {q : Program} {cycle : ℕ} {pc pc' : SequencePc} (hi : Kept (s, w))
    (hm : s.macroThread = .running q (.sequence cycle pc))
    (h : SequenceMove sequences (q.subDir cycle) q.sequence a s pc s' (.next pc')) :
    s'.tempRecordRunning =
        (Session.track s (.macroThread a) s' w).codes.foldl recording
          (Session.track s (.macroThread a) s' w).found ∧
      pc'.Ran q.sequence (Session.track s (.macroThread a) s' w).own := by
  have hpcs : s.macroPc = some (.sequence cycle pc) := State.macroPc_eq hm
  have hrunning := h.running cycle
  by_cases harm : pc = .arm
  · subst harm
    cases h
    unfold Session.track
    rw [hpcs]
    exact ⟨rfl, rfl⟩
  · obtain ⟨hold, hran⟩ := hi q cycle pc hm harm
    have hcommand : s.recorderCommand (.macroThread a) =
        ((MacroPc.sequence cycle pc).call.bind Call.recorderCommand).map (.macroThread, ·) := by
      rw [State.recorderCommand, hpcs, Option.bind_some]
    have htrack : Session.track s (.macroThread a) s' w =
        { w with commands := w.commands ++ (s.recorderCommand (.macroThread a)).toList } := by
      unfold Session.track
      rw [hpcs]
      cases pc <;> first | rfl | exact absurd rfl harm
    rw [htrack, Session.codes_append, List.foldl_append, hcommand, Option.map_map]
    refine ⟨?_, ?_⟩
    · rw [← hold, hrunning]
      congr 2
      cases (MacroPc.sequence cycle pc).call.bind Call.recorderCommand <;> rfl
    · have hnew := h.ran cycle harm hran
      convert hnew using 1
      cases (MacroPc.sequence cycle pc).call.bind Call.recorderCommand <;> simp [Session.own]

theorem Kept.step {b : Action} (hi : Kept (s, w)) (h : step sequences s b = some s') :
    Kept (s', Session.track s b s' w) := by
  intro q cycle pc' hm' hpc'
  have hother (hb : ∀ a, b ≠ .macroThread a)
      (hm : s.macroThread = .running q (.sequence cycle pc')) :
      s'.tempRecordRunning =
          (Session.track s b s' w).codes.foldl recording (Session.track s b s' w).found ∧
        pc'.Ran q.sequence (Session.track s b s' w).own := by
    obtain ⟨hrunning, hran, hfound⟩ := hi.aside hb h hm hpc'
    exact ⟨hfound ▸ hrunning, hran⟩
  cases step_move h with
  | join _ _ _ => cases hm'
  | spawn _ _ _ =>
    unfold Program.start at hm'
    split_ifs at hm' <;> cases hm'
    exact absurd rfl hpc'
  | receive _ _ => exact hother nofun hm'
  | worker _ _ hs hcall => exact hother nofun (hs.macroThread.symm.trans hm')
  | other _ hnm _ hs => exact hother hnm (hs.macroThread.symm.trans hm')
  | @macroThread a p pc t m hm hs hpc =>
    dsimp only at hm'
    subst hm'
    cases pc with
    | loopArm | loopBreak | clear _ | notify _ => cases hpc
    | loopTest k =>
      simp only [MacroPc.step] at hpc
      split_ifs at hpc <;> cases hpc
      exact absurd rfl hpc'
    | sequence k pc =>
      obtain ⟨⟨u, r⟩, hu, heq⟩ := Option.map_eq_some_iff.mp hpc
      cases r with
      | next pc'' =>
        cases heq
        have hnew := hi.within hm (SequencePc.stepIn_move hu)
        exact hnew
      | ret v =>
        obtain ⟨-, hp⟩ | ⟨-, -, hp⟩ | ⟨-, hp⟩ := p.afterSequence_cases k v <;>
          (simp only [Progress.elim, hp] at heq; cases heq)

theorem kept {p : State × Session} (h : (sessionMachine sequences).Reachable p) : Kept p :=
  h.invariant_history (fun s h0 q cycle pc hm => by cases h0; cases hm)
    fun _ _ _ _ hi _ hs => Kept.step hi hs

/-- A sequence that finds the recorder off leaves it off exactly when every
`START_ASIC_TEMP_RECORD` carried out meanwhile has been followed by a `STOP_ASIC_TEMP_RECORD`. The
sequence itself has carried out those of a beginning of its steps, and all of them when it returns
`true`. -/
theorem recorder_left {p : State × Session} {q : Program} {cycle : ℕ} {pc : SequencePc} {t : State}
    {v : Bool} (h : (sessionMachine sequences).Reachable p)
    (hm : p.1.macroThread = .running q (.sequence cycle pc))
    (hret : pc.stepIn sequences (q.subDir cycle) q.sequence a p.1 = some (t, .ret v))
    (hfound : p.2.found = false) :
    (t.tempRecordRunning = false ↔ Paired p.2.codes) ∧
      ∃ ran, ran <+: q.sequence ∧ (v = true → ran = q.sequence) ∧
        p.2.own = ran.filter isRecorder ∧
        ((∀ x ∈ p.2.commands, x.1 = .macroThread) → (t.tempRecordRunning = false ↔ Paired ran)) := by
  have hmove := SequencePc.stepIn_move hret
  have harm : pc ≠ .arm := fun harm => by subst harm; cases hmove
  obtain ⟨hrunning, hran⟩ := kept h q cycle pc hm harm
  have hsame : t.tempRecordRunning = p.1.tempRecordRunning := by
    cases hmove with
    | finish | abort _ => exact p.1.clearVaultPath_running _
    | vaultFailed | failed => rfl
  have hiff : t.tempRecordRunning = false ↔ Paired p.2.codes := by
    rw [hsame, hrunning, hfound, paired_iff]
    simp
  obtain ⟨ran, hprefix, hall, hown⟩ := hmove.ran_ret harm hran
  refine ⟨hiff, ran, hprefix, hall, hown, fun halone => ?_⟩
  have hcodes : p.2.codes = p.2.own := by
    rw [Session.own, List.filter_eq_self.mpr fun x hx => decide_eq_true (halone x hx),
      Session.codes]
  rw [hiff, hcodes, hown, paired_filter]

end Steps

/-- `MACRO_STAGE3_OPERATIONAL_D` up to the failure of its data acquisition: the recorder has been
started, and `fork` fails. -/
def failedAcquisitionRun : List Action :=
  .receive macroStage3OperationalD [] :: List.replicate 5 (.worker done) ++
    List.replicate 21 (.macroThread done) ++ backgroundStep 7 true ++ backgroundStep 8 true ++
    List.replicate 10 (.macroThread done)

theorem exists_failedAcquisition : ∃ p, (sessionMachine macroSequence).Reachable p ∧
    p.1.macroThread = .running (program macroSequence macroStage3OperationalD [])
      (.sequence 0 .failed) ∧
    p.1.tempRecordRunning = true ∧ p.2.found = false := by
  have hend : (((sessionMachine macroSequence).run (initial, ⟨false, []⟩)
      failedAcquisitionRun).map fun p => (p.1.macroThread, p.1.tempRecordRunning, p.2.found)) =
      some (.running (program macroSequence macroStage3OperationalD []) (.sequence 0 .failed),
        true, false) := by decide
  obtain ⟨p, hrun, hp⟩ := Option.map_eq_some_iff.mp hend
  have h : (sessionMachine macroSequence).Reachable p :=
    Machine.Reach.run (.init (s := (initial, ⟨false, []⟩)) ⟨rfl, rfl⟩) hrun
  rw [Prod.mk.injEq, Prod.mk.injEq] at hp
  exact ⟨p, h, hp⟩

theorem paired_stage3 : Paired (macroSteps macroStage3OperationalD) := by
  simp [Paired, macroSteps]

theorem recorder_left_failedAcquisition :
    ∃ p, (sessionMachine macroSequence).Reachable p ∧ ¬ Paired p.2.codes := by
  obtain ⟨p, h, hm, hrunning, hfound⟩ := exists_failedAcquisition
  have hleft := (recorder_left (a := done) h hm rfl hfound).1
  refine ⟨p, h, fun hpaired => ?_⟩
  have hoff : p.1.tempRecordRunning = false := hleft.mpr hpaired
  exact absurd (hrunning.symm.trans hoff) nofun

/-- A step that fails between the two commands leaves the recorder running. -/
theorem not_recorder_left :
    ¬ ∀ (p : State × Session) (q : Program) (cycle : ℕ) (pc : SequencePc) (a : Answer) (t : State)
        (v : Bool), (sessionMachine macroSequence).Reachable p → Paired q.sequence →
        p.1.macroThread = .running q (.sequence cycle pc) →
        pc.stepIn macroSequence (q.subDir cycle) q.sequence a p.1 = some (t, .ret v) →
        p.2.found = false → t.tempRecordRunning = false := by
  intro hall
  obtain ⟨p, h, hm, hrunning, hfound⟩ := exists_failedAcquisition
  have hoff : p.1.tempRecordRunning = false :=
    hall p _ 0 .failed done { p.1 with macroLoopRunning := false } false h paired_stage3 hm rfl
      hfound
  exact absurd (hrunning.symm.trans hoff) nofun

end GramsTof.Dispatch
