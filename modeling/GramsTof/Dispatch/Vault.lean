import GramsTof.Config.Directories
import GramsTof.Dispatch.Frames
import GramsTof.Dispatch.Success

/-! The vault path during a macro, and after it. -/

namespace GramsTof.Dispatch

open Lib TOFCommandCode

/-- `vaultDir`, below the data directory. -/
def vaultDir (vaultSubDir timestamp : String) : String :=
  "/vault/" ++ vaultSubDir ++ "/run_" ++ timestamp

/-- The configuration `c` with the vault path of the dispatcher's state. -/
def State.config (s : State) (c : Config) : Config :=
  if s.vaultPath = "" then c.clearVaultPath
  else c.setVaultPath (c.getTOFDataDir ++ s.vaultPath)

/-- The vault directory of the present call of `executeMacroSequence`. -/
def vaultTrack (s : State) (b : Action) (_ : State) (own : String) : String :=
  match b, s.macroThread with
  | .macroThread a, .running p (.sequence cycle .vault) => vaultDir (p.subDir cycle) a.time
  | _, _ => own

def vaultMachine (sequences : TOFCommandCode → MacroSequence) :
    Machine (State × String) Action :=
  (machine sequences).withHistory "" vaultTrack

/-- The vault path at a program point of a sequence with the sub-directory `sub`. -/
def SequencePc.Vaulted (sub path own : String) : SequencePc → Prop
  | arm | vault | vaultFailed | failed => path = ""
  | _ => (sub = "" → path = "") ∧ (sub ≠ "" → path = own ∧ ∃ time, own = vaultDir sub time)

/-- Outside `executeMacroSequence` there is none. -/
def MacroPc.Vaulted (p : Program) (path own : String) : MacroPc → Prop
  | sequence cycle pc => pc.Vaulted (p.subDir cycle) path own
  | _ => path = ""

def Vaulted (x : State × String) : Prop :=
  (¬ x.1.live → x.1.vaultPath = "") ∧
    ∀ q pc, x.1.macroThread = .running q pc → pc.Vaulted q x.1.vaultPath x.2

section Steps

variable {sequences : TOFCommandCode → MacroSequence} {s s' : State} {a : Answer}
  {own : String}

theorem State.clearVaultPath_vaultPath (s : State) (sub : String)
    (h : sub = "" → s.vaultPath = "") : (s.clearVaultPath sub).vaultPath = "" := by
  unfold State.clearVaultPath
  split_ifs with hsub
  · exact h hsub
  · rfl

theorem vaultDir_ne (sub timestamp : String) : vaultDir sub timestamp ≠ "" := by
  intro h
  have hlen := congrArg String.length h
  simp [vaultDir] at hlen

/-- One step inside `executeMacroSequence`. -/
theorem SequenceMove.vaulted {q : Program} {cycle : ℕ} {pc pc' : SequencePc}
    (hm : s.macroThread = .running q (.sequence cycle pc))
    (h : SequenceMove sequences (q.subDir cycle) q.sequence a s pc s' (.next pc'))
    (hi : pc.Vaulted (q.subDir cycle) s.vaultPath own) :
    pc'.Vaulted (q.subDir cycle) s'.vaultPath (vaultTrack s (.macroThread a) s' own) := by
  unfold vaultTrack
  rw [hm]
  generalize hr : Progress.next pc' = r at h
  cases h with
  | vaultFailed | finish | abort _ | failed => cases hr
  | vaultNone hsub => cases hr; exact ⟨fun _ => hi, fun hne => absurd hsub hne⟩
  | vault hsub => cases hr; exact ⟨fun he => absurd he hsub, fun _ => ⟨rfl, a.time, rfl⟩⟩
  | @step _ _ _ _ r hcall | @pulse _ _ _ r hcall =>
    cases hr
    rw [← (Call.step_leaves hcall).vaultPath] at hi
    cases r <;> exact hi
  | fail => cases hr; exact s.clearVaultPath_vaultPath _ hi.1
  | _ => cases hr; exact hi

/-- Every return of `executeMacroSequence` leaves no vault path. -/
theorem SequenceMove.vaulted_ret {sub : String} {sequence : List TOFCommandCode} {pc : SequencePc}
    {v : Bool} (h : SequenceMove sequences sub sequence a s pc s' (.ret v))
    (hi : pc.Vaulted sub s.vaultPath own) : s'.vaultPath = "" := by
  cases h with
  | finish | abort _ => exact s.clearVaultPath_vaultPath _ hi.1
  | vaultFailed | failed => exact hi

/-- The macro thread ends with its status. -/
theorem MacroPc.step_pc_none {p : Program} {pc : MacroPc} {m : MacroThread}
    (h : pc.step sequences p a s = some (s', m)) (hend : m.pc = none) :
    s'.vaultPath = s.vaultPath ∧ ∃ v, pc = .notify v := by
  cases pc with
  | notify v => cases h; exact ⟨rfl, v, rfl⟩
  | loopArm | loopBreak | clear _ => cases h; cases hend
  | loopTest k => cases h; cases hend
  | sequence cycle pc =>
    obtain ⟨⟨t, r⟩, -, heq⟩ := Option.map_eq_some_iff.mp h
    cases heq
    cases hend

theorem MacroPc.step_vaulted {p q : Program} {pc pc' : MacroPc}
    (hm : s.macroThread = .running p pc) (h : pc.step sequences p a s = some (s', .running q pc'))
    (hi : pc.Vaulted p s.vaultPath own) :
    pc'.Vaulted q s'.vaultPath (vaultTrack s (.macroThread a) s' own) := by
  cases pc with
  | loopArm | loopBreak | clear _ => cases h; exact hi
  | notify v => cases h
  | loopTest k =>
    simp only [MacroPc.step] at h
    split_ifs at h <;> cases h <;> exact hi
  | sequence cycle pc =>
    obtain ⟨⟨t, r⟩, ht, heq⟩ := Option.map_eq_some_iff.mp h
    cases r with
    | next pc' => cases heq; exact (SequencePc.stepIn_move ht).vaulted hm hi
    | ret v =>
      have hempty := (SequencePc.stepIn_move ht).vaulted_ret hi
      obtain ⟨-, hp⟩ | ⟨-, -, hp⟩ | ⟨-, hp⟩ := p.afterSequence_cases cycle v <;>
        (simp only [Progress.elim, hp] at heq; cases heq; exact hempty)

theorem Vaulted.step {b : Action} (hi : Vaulted (s, own)) (h : step sequences s b = some s') :
    Vaulted (s', vaultTrack s b s' own) := by
  have haside (hb : ∀ a, b ≠ .macroThread a) :
      s'.vaultPath = s.vaultPath ∧ vaultTrack s b s' own = own := by
    refine ⟨(step_leaves hb h).vaultPath, ?_⟩
    cases b with
    | macroThread a => exact absurd rfl (hb a)
    | _ => rfl
  have hsame (hb : ∀ a, b ≠ .macroThread a) (hm : s'.macroThread = s.macroThread) :
      Vaulted (s', vaultTrack s b s' own) := by
    obtain ⟨hpath, hown⟩ := haside hb
    rw [Vaulted, State.live, hm, hpath, hown]
    exact hi
  cases step_move h with
  | receive _ _ => exact hsame nofun rfl
  | worker _ _ hs _ => exact hsame nofun hs.macroThread
  | other _ hnm _ hs => exact hsame hnm hs.macroThread
  | join _ hdead _ => exact ⟨fun _ => hi.1 hdead, fun q pc hq => by cases hq⟩
  | @spawn _ _ _ p hw hnone _ =>
    have hempty := hi.1 (State.not_live hnone)
    refine ⟨fun _ => hempty, fun q pc hq => ?_⟩
    cases hq
    unfold Program.start
    split_ifs <;> exact hempty
  | @macroThread a p pc t m hm _ hpc =>
    have hold := hi.2 p pc hm
    refine ⟨fun hlive => ?_, fun q pc' hq => ?_⟩
    · rw [State.live_iff, Bool.not_eq_true, Option.isSome_eq_false_iff, Option.isNone_iff_eq_none]
        at hlive
      obtain ⟨hpath, v, rfl⟩ := MacroPc.step_pc_none hpc hlive
      exact hpath.trans hold
    · dsimp only at hq
      subst hq
      have hnew := MacroPc.step_vaulted hm hpc hold
      exact hnew

theorem vaulted {x : State × String} (h : (vaultMachine sequences).Reachable x) : Vaulted x :=
  h.invariant_history (fun s h0 => by cases h0; exact ⟨fun _ => rfl, fun q pc hq => by cases hq⟩)
    fun _ _ _ _ hi _ hs => Vaulted.step hi hs

/-- There is no vault path when `executeMacroSequence` or `executeMacroLoop` is entered nor when it
returns; in a handler that a sequence with a sub-directory has dispatched it is the vault directory
of that sequence. -/
theorem vault_confined {x : State × String} (h : (vaultMachine sequences).Reachable x) :
    (¬ x.1.live → x.1.vaultPath = "") ∧
    ∀ q pc, x.1.macroThread = .running q pc →
      ((∀ cycle spc, pc = .sequence cycle spc → spc = .arm) → x.1.vaultPath = "") ∧
      ∀ cycle spc, pc = .sequence cycle spc →
        (∀ a t v, spc.stepIn sequences (q.subDir cycle) q.sequence a x.1 = some (t, .ret v) →
          t.vaultPath = "") ∧
        (pc.call.isSome → q.subDir cycle ≠ "" →
          x.1.vaultPath = x.2 ∧ ∃ time, x.2 = vaultDir (q.subDir cycle) time) := by
  obtain ⟨hdead, hi⟩ := vaulted h
  refine ⟨hdead, fun q pc hm => ⟨fun hout => ?_, ?_⟩⟩
  · have hpc := hi q pc hm
    cases pc with
    | sequence cycle spc =>
      cases hout cycle spc rfl
      exact hpc
    | _ => exact hpc
  · rintro cycle spc rfl
    refine ⟨fun a t v hret => (SequencePc.stepIn_move hret).vaulted_ret (hi q _ hm),
      fun hcall => ?_⟩
    cases spc with
    | step cmd rest call | pulse rest call => exact (hi q _ hm).2
    | _ => cases hcall

/-- The getters of the directories in a state of the dispatcher. -/
theorem State.get_config {name : String} {get : Config → Bool → String} (c : Config)
    (hget : (name, get) ∈ Config.directories) (useVault : Bool) :
    get (s.config c) useVault =
      c.getTOFDataDir ++ if useVault ∧ s.vaultPath ≠ "" then s.vaultPath else name := by
  unfold State.config
  by_cases hempty : s.vaultPath = ""
  · rw [if_pos hempty, if_neg fun h => h.2 hempty]
    exact Config.get_clearVaultPath hget
  · have hne : c.getTOFDataDir ++ s.vaultPath ≠ "" := fun h =>
      hempty (String.append_eq_empty_iff.mp h).2
    rw [if_neg hempty, Config.get_setVaultPath hget hne]
    cases useVault with
    | true => rw [if_pos rfl, if_pos ⟨rfl, hempty⟩]
    | false => rw [if_neg Bool.false_ne_true, if_neg fun h => Bool.false_ne_true h.1]

/-- A handler that a sequence with a sub-directory has dispatched gets the directory of its vault
from all of the getters, and without a macro each gives its own. -/
theorem get_config_vaulted {x : State × String} {name : String} {get : Config → Bool → String}
    (c : Config) (hget : (name, get) ∈ Config.directories)
    (h : (vaultMachine sequences).Reachable x) :
    (¬ x.1.live → ∀ useVault, get (x.1.config c) useVault = c.getTOFDataDir ++ name) ∧
    ∀ q cycle cmd rest call, x.1.macroThread = .running q (.sequence cycle (.step cmd rest call)) →
      q.subDir cycle ≠ "" → get (x.1.config c) true = c.getTOFDataDir ++ x.2 := by
  obtain ⟨hdead, hi⟩ := vaulted h
  refine ⟨fun hlive useVault => ?_, fun q cycle cmd rest call hm hsub => ?_⟩
  · rw [State.get_config c hget, hdead hlive, if_neg fun hv => hv.2 rfl]
  · obtain ⟨hpath, time, hown⟩ := (hi q _ hm).2 hsub
    rw [State.get_config c hget, hpath, if_pos ⟨rfl, hown ▸ vaultDir_ne _ _⟩]

end Steps

/-- A macro in the handler of its first step. -/
theorem vault_confined_reset : ∃ x, (vaultMachine macroSequence).Reachable x ∧
    x.1.vaultPath = "/vault/stage1_unbiased_tdc/run_" ∧
    x.1.vaultPath = x.2 ∧ ∃ time, x.2 = vaultDir "stage1_unbiased_tdc" time := by
  have hend : (((vaultMachine macroSequence).run (initial, "")
      (.receive macroStage1UnbiasedTdc [] :: List.replicate 5 (.worker done) ++
        List.replicate 4 (.macroThread done))).map fun x => (x.1.macroThread, x.1.vaultPath)) =
      some (.running (program macroSequence macroStage1UnbiasedTdc [])
        (.sequence 0 (.step resetDaq ((macroSteps macroStage1UnbiasedTdc).drop 1)
          (.resetDaq (.body .save)))), "/vault/stage1_unbiased_tdc/run_") := by decide
  obtain ⟨x, hrun, hx⟩ := Option.map_eq_some_iff.mp hend
  rw [Prod.mk.injEq] at hx
  have h : (vaultMachine macroSequence).Reachable x :=
    Machine.Reach.run (.init (s := (initial, "")) ⟨rfl, rfl⟩) hrun
  exact ⟨x, h, hx.2, ((((vault_confined h).2 _ _ hx.1).2 0 _ rfl).2 rfl (by decide))⟩

end GramsTof.Dispatch
