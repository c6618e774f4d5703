import GramsTof.Dispatch.Effects

/-! What a step does to `tempRecordRunning_`, and that a handler leaves the vault
path alone. -/

namespace GramsTof.Dispatch

open Lib TOFCommandCode

/-- The command of the temperature recorder that the next step of a handler carries out. -/
def Call.recorderCommand : Call → Option TOFCommandCode
  | startAsicTempRecord => some .startAsicTempRecord
  | stopAsicTempRecord false => some .stopAsicTempRecord
  | _ => none

/-- `tempRecordRunning_` after a command. -/
def recording (running : Bool) : TOFCommandCode → Bool
  | startAsicTempRecord => true
  | stopAsicTempRecord => false
  | _ => running

/-- From `s` to `s'` the vault path stays, and `cmd` is done to the recorder. -/
structure Leaves (cmd : Option TOFCommandCode) (s s' : State) : Prop where
  vaultPath : s'.vaultPath = s.vaultPath
  running : s'.tempRecordRunning = cmd.toList.foldl recording s.tempRecordRunning

section Handlers

variable {s s' : State} {a : Answer}

theorem Leaves.refl (s : State) : Leaves none s s := ⟨rfl, rfl⟩

theorem Leaves.forked {pid : Pid} (h : s.forked pid = some s') : Leaves none s s' := by
  unfold State.forked at h
  split_ifs at h
  cases h
  exact ⟨rfl, rfl⟩

theorem Simple.step_leaves {π : Type} {code : TOFCommandCode}
    {body : State → π → Option (State × Progress π)} {pc : Simple π} {r : Progress (Simple π)}
    (hbody : ∀ pc s' r, body s pc = some (s', r) → Leaves none s s')
    (h : pc.step code body s = some (s', r)) : Leaves none s s' := by
  cases pc with
  | body pc =>
    obtain ⟨⟨t, q⟩, ht, heq⟩ := Option.map_eq_some_iff.mp h
    cases heq
    exact hbody pc _ _ ht
  | report success => cases h; exact ⟨rfl, rfl⟩

theorem StartPc.step_leaves {pc : StartPc} {r : Progress StartPc}
    (h : pc.step a s = some (s', r)) : Leaves none s s' := by
  cases pc with
  | lock | initializeDaq =>
    simp only [StartPc.step] at h
    split_ifs at h <;> cases h <;> exact ⟨rfl, rfl⟩
  | join =>
    simp only [StartPc.step] at h
    split at h <;> cases h <;> exact ⟨rfl, rfl⟩

theorem StopPc.step_leaves {pc : StopPc} {r : Progress StopPc}
    (h : pc.step a s = some (s', r)) : Leaves none s s' := by
  cases pc with
  | cancel | register _ | interrupt _ => cases h; exact ⟨rfl, rfl⟩
  | fork =>
    simp only [StopPc.step] at h
    split_ifs at h
    · split at h
      · obtain ⟨t, ht, heq⟩ := Option.map_eq_some_iff.mp h
        cases heq
        exact Leaves.forked ht
      · cases h; exact Leaves.refl s
    · cases h; exact Leaves.refl s
  | join =>
    simp only [StopPc.step] at h
    split at h <;> cases h <;> exact ⟨rfl, rfl⟩
  | markStopped =>
    simp only [StopPc.step] at h
    split_ifs at h
    cases h
    exact ⟨rfl, rfl⟩

theorem ResetPc.step_leaves {pc : ResetPc} {r : Progress ResetPc}
    (h : pc.step a s = some (s', r)) : Leaves none s s' := by
  cases pc with
  | save => cases h; exact Leaves.refl s
  | stop was pc =>
    obtain ⟨⟨t, q⟩, ht, heq⟩ := Option.map_eq_some_iff.mp h
    cases heq
    exact Simple.step_leaves (fun _ _ _ => StopPc.step_leaves) ht
  | start was pc =>
    obtain ⟨⟨t, q⟩, ht, heq⟩ := Option.map_eq_some_iff.mp h
    cases heq
    exact Simple.step_leaves (fun _ _ _ => StartPc.step_leaves) ht
  | restore was => cases was <;> (cases h; exact ⟨rfl, rfl⟩)

theorem BackgroundPc.step_leaves {code : TOFCommandCode} {pc : BackgroundPc}
    {r : Progress BackgroundPc} (h : pc.step code a s = some (s', r)) : Leaves none s s' := by
  cases pc with
  | fork =>
    simp only [BackgroundPc.step] at h
    split at h
    · obtain ⟨t, ht, heq⟩ := Option.map_eq_some_iff.mp h
      cases heq
      exact Leaves.forked ht
    · cases h; exact Leaves.refl s
  | register pid => cases h; exact ⟨rfl, rfl⟩

variable {sequences : TOFCommandCode → MacroSequence} {self : Caller}

theorem AdmitPc.step_leaves {code : TOFCommandCode} {argv : CommandArgs} {pc : AdmitPc}
    {r : Progress AdmitPc} (h : pc.step sequences self code argv s = some (s', r)) :
    Leaves none s s' := by
  cases pc with
  | test | reject | configure | arm => cases h; exact ⟨rfl, rfl⟩
  | join | spawn =>
    simp only [AdmitPc.step] at h
    split at h <;> cases h <;> exact ⟨rfl, rfl⟩

theorem Call.step_leaves {call : Call} {r : Progress Call}
    (h : call.step sequences self a s = some (s', r)) : Leaves call.recorderCommand s s' := by
  cases call with
  | startDaq pc =>
    obtain ⟨⟨t, q⟩, ht, heq⟩ := Option.map_eq_some_iff.mp h
    cases heq
    exact Simple.step_leaves (fun _ _ _ => StartPc.step_leaves) ht
  | stopDaq pc =>
    obtain ⟨⟨t, q⟩, ht, heq⟩ := Option.map_eq_some_iff.mp h
    cases heq
    exact Simple.step_leaves (fun _ _ _ => StopPc.step_leaves) ht
  | resetDaq pc =>
    obtain ⟨⟨t, q⟩, ht, heq⟩ := Option.map_eq_some_iff.mp h
    cases heq
    exact Simple.step_leaves (fun _ _ _ => ResetPc.step_leaves) ht
  | simple code pc =>
    obtain ⟨⟨t, q⟩, ht, heq⟩ := Option.map_eq_some_iff.mp h
    cases heq
    exact Simple.step_leaves
      (fun _ _ _ hb => by rw [BodyPc.step_frame hb]; exact ⟨rfl, rfl⟩) ht
  | background code pc =>
    obtain ⟨⟨t, q⟩, ht, heq⟩ := Option.map_eq_some_iff.mp h
    cases heq
    exact BackgroundPc.step_leaves ht
  | sendPulseTrain pc =>
    obtain ⟨⟨t, q⟩, ht, heq⟩ := Option.map_eq_some_iff.mp h
    cases heq
    cases pc <;> (cases ht; exact ⟨rfl, rfl⟩)
  | startAsicTempRecord =>
    simp only [Call.step] at h
    split_ifs at h with hrunning <;> cases h
    · exact ⟨rfl, hrunning⟩
    · exact ⟨rfl, rfl⟩
  | stopAsicTempRecord joining =>
    cases joining with
    | false =>
      simp only [Call.step] at h
      split_ifs at h with hrunning <;> cases h
      · exact ⟨rfl, rfl⟩
      · exact ⟨rfl, Bool.eq_false_iff.mpr hrunning⟩
    | true =>
      simp only [Call.step] at h
      split at h <;> cases h <;> exact ⟨rfl, rfl⟩
  | macroCommand code argv pc =>
    obtain ⟨⟨t, q⟩, ht, heq⟩ := Option.map_eq_some_iff.mp h
    cases heq
    exact AdmitPc.step_leaves ht
  | heartBeat => cases h; exact Leaves.refl s

/-- A handler's command to the recorder is its first step. -/
theorem Call.step_recorderCommand {call call' : Call}
    (h : call.step sequences self a s = some (s', .next call')) : call'.recorderCommand = none := by
  cases Call.step_continues h <;> rfl

end Handlers

section Threads

variable {sequences : TOFCommandCode → MacroSequence} {s s' : State} {a : Answer}

/-- The command to the recorder that a step carries out, and who does. -/
def State.recorderCommand (s : State) : Action → Option (Caller × TOFCommandCode)
  | .worker _ => (s.workerCall.bind Call.recorderCommand).map (.worker, ·)
  | .macroThread _ =>
    ((s.macroPc.bind MacroPc.call).bind Call.recorderCommand).map (.macroThread, ·)
  | _ => none

theorem State.reap_leaves {pid : Pid} {w : Wait} (h : s.reap pid w = some s') :
    Leaves none s s' := by
  unfold State.reap at h
  split at h
  · split_ifs at h <;> cases h <;> exact ⟨rfl, rfl⟩
  · split_ifs at h
    cases h
    exact ⟨rfl, rfl⟩
  · cases h

theorem State.daqStep_leaves (h : s.daqStep = some s') : Leaves none s s' := by
  unfold State.daqStep at h
  split at h
  · cases h; exact ⟨rfl, rfl⟩
  · split_ifs at h
    cases h
    exact ⟨rfl, rfl⟩
  · cases h

theorem State.recorderStep_leaves (h : s.recorderStep a = some s') : Leaves none s s' := by
  unfold State.recorderStep at h
  split at h
  · split_ifs at h
    · split at h
      · obtain ⟨t, ht, heq⟩ := Option.map_eq_some_iff.mp h
        cases heq
        exact ⟨(Leaves.forked ht).vaultPath, (Leaves.forked ht).running⟩
      · cases h; exact Leaves.refl s
    · cases h; exact ⟨rfl, rfl⟩
  · cases h; exact ⟨rfl, rfl⟩
  · cases h

/-- The steps outside the macro thread. -/
theorem step_leaves {b : Action} (hm : ∀ a, b ≠ .macroThread a)
    (h : step sequences s b = some s') :
    Leaves ((s.recorderCommand b).map Prod.snd) s s' := by
  cases b with
  | receive code argv =>
    simp only [step] at h
    split at h <;> cases h <;> exact ⟨rfl, rfl⟩
  | worker a =>
    simp only [step] at h
    split at h
    · cases h
    · rename_i call hw
      obtain ⟨⟨t, r⟩, ht, heq⟩ := Option.map_eq_some_iff.mp h
      cases heq
      have hl := Call.step_leaves ht
      rw [State.recorderCommand, State.workerCall_eq hw, Option.bind_some, Option.map_map]
      change Leaves (call.recorderCommand.map id) s _
      rw [Option.map_id_fun, id_eq]
      exact ⟨hl.vaultPath, hl.running⟩
  | macroThread a => exact absurd rfl (hm a)
  | monitor pid w => exact State.reap_leaves h
  | daq => exact State.daqStep_leaves h
  | recorder a => exact State.recorderStep_leaves h

theorem State.clearVaultPath_running (s : State) (sub : String) :
    (s.clearVaultPath sub).tempRecordRunning = s.tempRecordRunning := by
  unfold State.clearVaultPath
  split_ifs <;> rfl

theorem SequenceMove.running {sub : String} {sequence : List TOFCommandCode} {pc : SequencePc}
    {r : Progress SequencePc} (cycle : ℕ) (h : SequenceMove sequences sub sequence a s pc s' r) :
    s'.tempRecordRunning = ((MacroPc.sequence cycle pc).call.bind
      Call.recorderCommand).toList.foldl recording s.tempRecordRunning := by
  cases h with
  | step hcall | pulse hcall => exact (Call.step_leaves hcall).running
  | finish | abort _ | fail => exact s.clearVaultPath_running sub
  | _ => rfl

end Threads

end GramsTof.Dispatch
