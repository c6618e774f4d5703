import GramsTof.Dispatch.Effects

/-! How often `executeMacroLoop` calls `executeMacroSequence`, and what it returns. -/

namespace GramsTof.Dispatch

open Lib TOFCommandCode

/-- What has happened since the first store of `executeMacroLoop`. -/
structure Cycles where
  /-- The calls of `executeMacroSequence`. -/
  calls : ℕ
  /-- What they have returned, oldest first. -/
  outcomes : List Bool
  /-- `STOP_DAQ` has lowered the flag, other than within a `RESET_DAQ` step of the sequence. -/
  stopped : Bool
  /-- A test of the loop has found the flag down. -/
  lowered : Bool
  deriving DecidableEq, Repr

/-- The value `executeMacroSequence` returns with its next step. -/
def SequencePc.result (s : State) : SequencePc → Option Bool
  | vaultFailed | failed => some false
  | test [] => some true
  | test (_ :: _) => if s.macroLoopRunning then none else some false
  | _ => none

/-- A handler the sequence has dispatched lowers the flag, for good. -/
def SequencePc.stops : SequencePc → Bool
  | step cmd _ call => cmd ≠ resetDaq ∧ call.writes = some false
  | pulse _ call => call.writes = some false
  | _ => false

def MacroPc.count (s : State) (w : Cycles) : MacroPc → Cycles
  | loopArm => ⟨0, [], false, false⟩
  | loopTest _ =>
    if s.macroLoopRunning then { w with calls := w.calls + 1 } else { w with lowered := true }
  | sequence _ pc =>
    { w with outcomes := w.outcomes ++ (pc.result s).toList, stopped := w.stopped || pc.stops }
  | _ => w

def Cycles.track (s : State) (a : Action) (_ : State) (w : Cycles) : Cycles :=
  match a with
  | .worker _ =>
    if s.workerCall.bind Call.writes = some false then { w with stopped := true } else w
  | .macroThread _ => s.macroPc.elim w (·.count s w)
  | _ => w

def cycleMachine (sequences : TOFCommandCode → MacroSequence) :
    Machine (State × Cycles) Action :=
  (machine sequences).withHistory ⟨0, [], false, false⟩ Cycles.track

/-- The flag is up, unless a step is about to raise it or the cycle has failed. -/
def SequencePc.Upheld (up : Bool) : SequencePc → Prop
  | arm | vaultFailed | failed | rearm _ | returned false _ _ => True
  | step cmd _ _ | returned true cmd _ => cmd ≠ resetDaq → up = true
  | _ => up = true

/-- The three ways the loop of `n` cycles is left. -/
inductive Cycles.Ended (n : ℕ) : Cycles → Prop where
  | counted (stopped : Bool) : Ended n ⟨n, List.replicate n true, stopped, false⟩
  | failed {k : ℕ} (stopped : Bool) :
      k < n → Ended n ⟨k + 1, List.replicate k true ++ [false], stopped, false⟩
  | halted {k : ℕ} : k < n → Ended n ⟨k, List.replicate k true, true, true⟩

/-- What the history says of a loop of `n` cycles at a program point. -/
def MacroPc.Counted (n : ℕ) (up : Bool) (w : Cycles) : MacroPc → Prop
  | loopArm => True
  | loopTest k =>
    k < n ∧ w = ⟨k, List.replicate k true, w.stopped, false⟩ ∧ (w.stopped = false → up = true)
  | sequence cycle pc =>
    ∃ k < n, cycle = k + 1 ∧ w = ⟨k + 1, List.replicate k true, w.stopped, false⟩ ∧
      (w.stopped = false → pc.Upheld up)
  | loopBreak => w.Ended n
  | clear v | notify v => v = true ∧ w.Ended n

def Counted (p : State × Cycles) : Prop :=
  ∀ q pc n, p.1.macroThread = .running q pc → q.cycles = some n → 0 < n → n < UInt32.size →
    pc.Counted n p.1.macroLoopRunning p.2

section Steps

variable {sequences : TOFCommandCode → MacroSequence} {s s' : State} {a : Answer}
  {w : Cycles} {n : ℕ} {up : Bool}

theorem SequencePc.Upheld.mono {up' : Bool} {pc : SequencePc} (h : pc.Upheld up)
    (hup : up = true → up' = true) : pc.Upheld up' := by
  cases pc with
  | step cmd rest call => exact fun hcmd => hup (h hcmd)
  | returned success cmd rest =>
    cases success with
    | false => trivial
    | true => exact fun hcmd => hup (h hcmd)
  | arm | vaultFailed | failed | rearm _ => trivial
  | _ => exact hup h

theorem MacroPc.Counted.mono {up' : Bool} {pc : MacroPc} (h : pc.Counted n up w)
    (hup : up = true → up' = true) : pc.Counted n up' w := by
  cases pc with
  | loopTest k => exact ⟨h.1, h.2.1, fun hs => hup (h.2.2 hs)⟩
  | sequence cycle pc =>
    obtain ⟨k, hk, hcycle, hw, hpc⟩ := h
    exact ⟨k, hk, hcycle, hw, fun hs => (hpc hs).mono hup⟩
  | _ => exact h

theorem Cycles.Ended.stop (h : w.Ended n) : Cycles.Ended n { w with stopped := true } := by
  cases h with
  | counted _ => exact .counted true
  | failed _ hk => exact .failed true hk
  | halted hk => exact .halted hk

/-- Once stopped, nothing is said of the flag. -/
theorem MacroPc.Counted.stop {up' : Bool} {pc : MacroPc} (h : pc.Counted n up w) :
    pc.Counted n up' { w with stopped := true } := by
  cases pc with
  | loopArm => trivial
  | loopTest k =>
    obtain ⟨hk, hw, -⟩ := h
    rw [hw]
    exact ⟨hk, rfl, nofun⟩
  | sequence cycle pc =>
    obtain ⟨k, hk, hcycle, hw, -⟩ := h
    rw [hw]
    exact ⟨k, hk, hcycle, rfl, nofun⟩
  | loopBreak => exact Cycles.Ended.stop h
  | clear v | notify v => exact ⟨h.1, Cycles.Ended.stop h.2⟩

/-- A handler that does not lower the flag leaves it up. -/
theorem up_of_writes {v : Option Bool} (hv : v ≠ some false) (hup : up = true) :
    v.getD up = true := by
  rcases v with _ | _ | _
  · exact hup
  · exact absurd rfl hv
  · rfl

theorem SequenceMove.result {sub : String} {sequence : List TOFCommandCode} {pc : SequencePc}
    {r : Progress SequencePc} (h : SequenceMove sequences sub sequence a s pc s' r) :
    pc.result s = r.elim (fun _ => none) some := by
  cases h with
  | go hup | abort hup => simp only [SequencePc.result, hup]; rfl
  | _ => rfl

/-- Between the steps of a sequence that nobody stops, the flag is up. -/
theorem SequenceMove.upheld {sub : String} {sequence : List TOFCommandCode} {pc pc' : SequencePc}
    (hlive : s.live) (h : SequenceMove sequences sub sequence a s pc s' (.next pc'))
    (hstop : pc.stops = false) (hi : pc.Upheld s.macroLoopRunning) :
    pc'.Upheld s'.macroLoopRunning := by
  generalize hr : Progress.next pc' = r at h
  cases h with
  | vaultFailed | finish | abort _ | failed => cases hr
  | arm | rearm => cases hr; rfl
  | vaultError _ | unknown _ | fail | reset => cases hr; trivial
  | vaultNone _ | vault _ | go _ | pulseDispatch | pulseGo _ | pulseSkip _ | pulseReturned
  | waitOn _ | waitStop _ | pollAgain _ | pollDone _ => cases hr; exact hi
  | call _ => cases hr; exact fun _ => hi
  | pulseDue => cases hr; exact hi nofun
  | succeed hreset _ => cases hr; exact hi hreset
  | @step cmd rest call _ r hcall =>
    cases hr
    have hup (hcmd : cmd ≠ resetDaq) : s'.macroLoopRunning = true := by
      rw [(Call.step_stores (.inr ⟨rfl, hlive⟩) hcall).flag]
      have hwrites : call.writes ≠ some false := fun hw => by
        simp [SequencePc.stops, hcmd, hw] at hstop
      exact up_of_writes hwrites (hi hcmd)
    rcases r with call' | _ | _
    · exact hup
    · trivial
    · exact hup
  | @pulse rest call _ r hcall =>
    cases hr
    have hup : s'.macroLoopRunning = true := by
      rw [(Call.step_stores (.inr ⟨rfl, hlive⟩) hcall).flag]
      exact up_of_writes (of_decide_eq_false hstop) hi
    cases r <;> exact hup

/-- A cycle that returns `true` leaves the flag up, unless the loop has been stopped. -/
theorem SequenceMove.upheld_ret {sub : String} {sequence : List TOFCommandCode} {pc : SequencePc}
    (h : SequenceMove sequences sub sequence a s pc s' (.ret true))
    (hi : pc.Upheld s.macroLoopRunning) : s'.macroLoopRunning = true := by
  cases h with
  | finish => exact (Stores.clearVaultPath s sub).flag.trans hi

theorem MacroPc.step_counted {p q : Program} {pc pc' : MacroPc} (hlive : s.live)
    (hn : p.cycles = some n) (hpos : 0 < n) (hlt : n < UInt32.size)
    (h : pc.step sequences p a s = some (s', .running q pc'))
    (hi : pc.Counted n s.macroLoopRunning w) :
    pc'.Counted n s'.macroLoopRunning (pc.count s w) := by
  cases pc with
  | loopArm => cases h; exact ⟨hpos, rfl, fun _ => rfl⟩
  | loopTest k =>
    obtain ⟨hk, hw, hup⟩ := hi
    cases h
    cases hflag : s.macroLoopRunning with
    | true =>
      have hmod : (k + 1) % UInt32.size = k + 1 := Nat.mod_eq_of_lt (by omega)
      simp only [MacroPc.count, hflag, if_true, hmod]
      rw [hw]
      exact ⟨k, hk, rfl, rfl, fun _ => trivial⟩
    | false =>
      have hstop : w.stopped = true := by
        by_contra hns
        exact absurd (hflag.symm.trans (hup (Bool.eq_false_iff.mpr hns))) nofun
      simp only [MacroPc.count, hflag]
      rw [hw, hstop]
      exact ⟨rfl, .halted hk⟩
  | loopBreak => cases h; exact ⟨rfl, hi⟩
  | clear v => cases h; exact hi
  | notify v => cases h
  | sequence cycle pc =>
    obtain ⟨⟨t, r⟩, ht, heq⟩ := Option.map_eq_some_iff.mp h
    obtain ⟨k, hk, rfl, hw, hup⟩ := hi
    cases heq
    have hmove := SequencePc.stepIn_move ht
    simp only [MacroPc.count, hmove.result]
    rw [hw]
    rcases r with pc' | _ | _
    · -- the cycle goes on
      refine ⟨k, hk, rfl, by simp [Progress.elim], fun hs => ?_⟩
      obtain ⟨hs, hpc⟩ : w.stopped = false ∧ pc.stops = false := by simpa using hs
      exact hmove.upheld hlive hpc (hup hs)
    · -- it has failed
      simp only [Progress.elim, Program.afterSequence, hn]
      exact .failed _ hk
    · -- it has succeeded, and may be the last one
      have hlist : List.replicate k true ++ [true] = List.replicate (k + 1) true :=
        List.replicate_succ'.symm
      simp only [Progress.elim, Program.afterSequence, hn, hpos, true_and]
      by_cases hgo : k + 1 ≥ n
      · obtain rfl : n = k + 1 := by omega
        simp only [hgo, not_true_eq_false, if_false, Option.toList_some, hlist]
        exact Cycles.Ended.counted _
      · simp only [hgo, not_false_eq_true, if_true, Option.toList_some, hlist]
        refine ⟨by omega, rfl, fun hs => ?_⟩
        obtain ⟨hs, -⟩ : w.stopped = false ∧ pc.stops = false := by simpa using hs
        exact hmove.upheld_ret (hup hs)

theorem Counted.step {b : Action} (hi : Counted (s, w)) (h : step sequences s b = some s') :
    Counted (s', Cycles.track s b s' w) := by
  intro q pc' n hm' hn hpos hlt
  cases step_move h with
  | receive _ _ => exact hi q pc' n hm' hn hpos hlt
  | @worker _ call t _ hbusy _ hs _ =>
    have hold := hi q pc' n (hs.macroThread.symm.trans hm') hn hpos hlt
    simp only [Cycles.track, State.workerCall_eq hbusy, Option.bind_some]
    split_ifs with hw
    · exact hold.stop
    · refine hold.mono fun hup => ?_
      rw [hs.flag]
      exact up_of_writes hw hup
  | join _ _ _ => cases hm'
  | @spawn _ code argv _ _ _ hp =>
    cases hm'
    have hstart : q.start = .loopArm := by simp [Program.start, hn]
    rw [hstart]
    trivial
  | @macroThread _ p pc t m hm _ hpc =>
    dsimp only at hm'
    subst hm'
    have hprogram : q = p := by
      cases pc with
      | loopArm | loopTest _ | loopBreak | clear _ => cases hpc; rfl
      | notify _ => cases hpc
      | sequence cycle pc =>
        obtain ⟨⟨u, r⟩, -, heq⟩ := Option.map_eq_some_iff.mp hpc
        cases heq
        rfl
    subst hprogram
    rw [Cycles.track, State.macroPc_eq hm]
    have hold := hi _ _ n hm hn hpos hlt
    have hnew := MacroPc.step_counted ⟨_, _, hm⟩ hn hpos hlt hpc hold
    exact hnew
  | @other b _ hnw hnm _ hs =>
    have hkeep : Cycles.track s b s' w = w := by
      cases b with
      | worker a => exact absurd rfl (hnw a)
      | macroThread a => exact absurd rfl (hnm a)
      | _ => rfl
    rw [hkeep]
    refine (hi q pc' n (hs.macroThread.symm.trans hm') hn hpos hlt).mono fun hup => ?_
    rw [hs.flag]
    exact hup

theorem initial_counted (w : Cycles) : Counted (initial, w) := by
  intro q pc n hm
  cases hm

theorem counted {p : State × Cycles} (h : (cycleMachine sequences).Reachable p) : Counted p :=
  h.invariant_history (fun _ h0 => h0 ▸ initial_counted _) fun _ _ _ _ hi _ hs => Counted.step hi hs

/-- The condition for the value of `executeMacroLoop`, which is always `true`, to be right. -/
theorem Cycles.Ended.all_iff (h : w.Ended n) :
    w.outcomes = List.replicate n true ↔ false ∉ w.outcomes ∧ w.lowered = false := by
  cases h with
  | counted _ => simp
  | @failed k _ hk =>
    refine iff_of_false (fun heq => ?_) (by simp)
    have hmem : false ∈ List.replicate n true := heq ▸ (by simp)
    exact absurd (List.eq_of_mem_replicate hmem) nofun
  | @halted k hk =>
    refine iff_of_false (fun heq => ?_) (by simp)
    have hlen := congrArg List.length heq
    simp only [List.length_replicate] at hlen
    omega

theorem Cycles.Ended.calls_le (h : w.Ended n) : w.calls ≤ n := by
  cases h with
  | counted _ => exact Nat.le_refl _
  | failed _ hk => exact hk
  | halted hk => exact Nat.le_of_lt hk

theorem Cycles.Ended.calls_eq (h : w.Ended n) (hstop : w.stopped = false)
    (hall : false ∉ w.outcomes) : w.calls = n := by
  cases h with
  | counted _ => rfl
  | failed _ _ => simp at hall
  | halted _ => cases hstop

theorem MacroPc.Counted.calls_le {pc : MacroPc} (h : pc.Counted n up w) (hpc : pc ≠ .loopArm) :
    w.calls ≤ n := by
  cases pc with
  | loopArm => exact absurd rfl hpc
  | loopTest k => obtain ⟨hk, hw, -⟩ := h; rw [hw]; exact Nat.le_of_lt hk
  | sequence cycle pc => obtain ⟨k, hk, -, hw, -⟩ := h; rw [hw]; exact hk
  | loopBreak => exact Cycles.Ended.calls_le h
  | clear v | notify v => exact h.2.calls_le

/-- `executeMacroLoop` calls `executeMacroSequence` at most `n` times, and `n` times when no cycle
fails and nothing stops it. It returns `true` if and only if `n` cycles have returned `true`,
exactly when no cycle has failed and no test of its loop has found the flag down. -/
theorem cycles_reported {p : State × Cycles} {q : Program} {pc : MacroPc}
    (h : (cycleMachine sequences).Reachable p) (hm : p.1.macroThread = .running q pc)
    (hn : q.cycles = some n) (hpos : 0 < n) (hlt : n < UInt32.size) :
    (pc ≠ .loopArm → p.2.calls ≤ n) ∧
    ∀ v, pc = .clear v ∨ pc = .notify v →
      (p.2.stopped = false → false ∉ p.2.outcomes → p.2.calls = n) ∧
      ((v = true ↔ p.2.outcomes = List.replicate n true) ↔
        false ∉ p.2.outcomes ∧ p.2.lowered = false) ∧
      ∀ a s', pc = .notify v → step sequences p.1 (.macroThread a) = some s' →
        s'.callbacks = p.1.callbacks ++ [(q.code, if v then 0 else 1)] := by
  have hi := counted h q pc n hm hn hpos hlt
  refine ⟨hi.calls_le, fun v hv => ?_⟩
  obtain ⟨rfl, hend⟩ : v = true ∧ p.2.Ended n := by
    rcases hv with rfl | rfl <;> exact hi
  refine ⟨hend.calls_eq, ?_, fun a s' hpc hs => ?_⟩
  · rw [← hend.all_iff]
    exact ⟨fun h => h.mp rfl, fun h => iff_of_true rfl h⟩
  · subst hpc
    simp only [Dispatch.step, hm] at hs
    cases hs
    rfl

end Steps

/-- `MACRO_AUTO_RUN_CYCLE` with two cycles, up to its status callback. The directory of the first
one cannot be created. -/
def failedVaultRun : List Action :=
  .receive macroAutoRunCycle [2] :: List.replicate 4 (.worker done) ++
    List.replicate 3 (.macroThread done) ++ .macroThread { done with ok := false } ::
    List.replicate 3 (.macroThread done)

theorem exists_failedVault : ∃ p, (cycleMachine macroSequence).Reachable p ∧
    p.1.macroThread = .running (program macroSequence macroAutoRunCycle [2]) (.notify true) ∧
    p.2 = ⟨1, [false], false, false⟩ := by
  have hend : (((cycleMachine macroSequence).run (initial, ⟨0, [], false, false⟩)
      failedVaultRun).map fun p => (p.1.macroThread, p.2)) =
      some (.running (program macroSequence macroAutoRunCycle [2]) (.notify true),
        ⟨1, [false], false, false⟩) := by decide
  obtain ⟨p, hrun, hp⟩ := Option.map_eq_some_iff.mp hend
  have h : (cycleMachine macroSequence).Reachable p :=
    Machine.Reach.run (.init (s := (initial, ⟨0, [], false, false⟩)) ⟨rfl, rfl⟩) hrun
  exact ⟨p, h, congrArg Prod.fst hp, congrArg Prod.snd hp⟩

theorem cycles_reported_failedVault : ∃ p, (cycleMachine macroSequence).Reachable p ∧
    ¬ (true = true ↔ p.2.outcomes = List.replicate 2 true) := by
  obtain ⟨p, h, hm, hw⟩ := exists_failedVault
  have hloop := (cycles_reported h hm rfl (by decide) (by decide)).2 true (.inr rfl)
  refine ⟨p, h, fun hv => ?_⟩
  have hall := (hloop.2.1.mp hv).1
  rw [hw] at hall
  exact hall (by decide)

/-- The macro reports status 0 after a cycle that has failed. -/
theorem not_cycles_reported :
    ¬ ∀ (p : State × Cycles) (q : Program) (n : ℕ) (v : Bool),
      (cycleMachine macroSequence).Reachable p → p.1.macroThread = .running q (.notify v) →
      q.cycles = some n → 0 < n → n < UInt32.size →
      (v = true ↔ p.2.outcomes = List.replicate n true) := by
  intro hall
  obtain ⟨p, h, hm, hw⟩ := exists_failedVault
  have hv := (hall p _ 2 true h hm rfl (by decide) (by decide)).mp rfl
  rw [hw] at hv
  exact absurd hv (by decide)

end GramsTof.Dispatch
