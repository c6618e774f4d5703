import GramsTof.Dispatch.Effects

/-! `macroLoopRunning_` as a report of whether a macro is active. -/

namespace GramsTof.Dispatch

open Lib TOFCommandCode

/-- The last store to `macroLoopRunning_`, as far as the present macro thread is concerned. -/
inductive LastStore where
  | raised
  /-- The thread has been started with the flag down and nothing has been stored since. -/
  | unarmed
  /-- `STOP_DAQ` has lowered the flag, on its own or within `RESET_DAQ`. -/
  | stopped
  /-- The macro thread itself has lowered it. -/
  | ended
  deriving DecidableEq, Repr

namespace LastStore

/-- After the store of `w`, where `lowered` is by whom if it is `false`. -/
def after (l lowered : LastStore) : Option Bool → LastStore
  | some true => raised
  | some false => lowered
  | none => l

def track (s : State) (a : Action) (_ : State) (l : LastStore) : LastStore :=
  match a with
  | .worker _ =>
    match s.workerCall with
    | some (.macroCommand _ _ .spawn) => if s.macroLoopRunning then raised else unarmed
    | some call => l.after stopped call.writes
    | none => l
  | .macroThread _ =>
    s.macroPc.elim l fun pc => l.after (if pc.ownWrites.isSome then ended else stopped) pc.writes
  | _ => l

end LastStore

/-- The thread has nothing left but to end. -/
def MacroPc.closing : MacroPc → Bool
  | loopBreak | clear _ | notify _ => true
  | _ => false

/-- The thread has not yet made its last store to the flag. -/
def MacroPc.executing : MacroPc → Bool
  | notify _ => false
  | _ => true

def State.executing (s : State) : Bool := s.macroPc.any MacroPc.executing

/-- No handler is executing, neither on the worker nor on the macro thread. -/
def State.quiet (s : State) : Prop := s.worker = .idle ∧ s.macroPc.bind MacroPc.call = none

instance (s : State) : Decidable s.quiet := inferInstanceAs (Decidable (_ ∧ _))

def flagMachine (sequences : TOFCommandCode → MacroSequence) :
    Machine (State × LastStore) Action :=
  (machine sequences).withHistory .ended LastStore.track

variable {sequences : TOFCommandCode → MacroSequence} {s s' : State} {a : Answer}
  {l : LastStore}

namespace LastStore

theorem after_agrees {lowered : LastStore} {w : Option Bool} {flag : Bool} (hl : lowered ≠ raised)
    (h : flag = true ↔ l = raised) : w.getD flag = true ↔ l.after lowered w = raised := by
  rcases w with _ | _ | _
  · exact h
  · exact ⟨nofun, fun h => absurd h hl⟩
  · exact ⟨fun _ => rfl, fun _ => rfl⟩

/-- A value that this store does not leave was there before. -/
theorem eq_of_after {lowered x : LastStore} {w : Option Bool} (h : l.after lowered w = x)
    (hr : x ≠ raised) (hx : x ≠ lowered) : w = none ∧ l = x := by
  rcases w with _ | _ | _
  · exact ⟨rfl, h⟩
  · exact absurd h.symm hx
  · exact absurd h.symm hr

theorem track_worker {call : Call} (hw : s.worker = .busy call) (ht : call.touchesThread = false) :
    track s (.worker a) s' l = l.after stopped call.writes := by
  rw [track, State.workerCall_eq hw]
  cases call with
  | macroCommand code argv pc => cases pc <;> first | rfl | cases ht
  | _ => rfl

theorem track_other {b : Action} (hw : ∀ a, b ≠ .worker a) (hm : ∀ a, b ≠ .macroThread a) :
    track s b s' l = l := by
  cases b with
  | worker a => exact absurd rfl (hw a)
  | macroThread a => exact absurd rfl (hm a)
  | _ => rfl

theorem track_macroThread {p : Program} {pc : MacroPc} (hm : s.macroThread = .running p pc) :
    track s (.macroThread a) s' l =
      l.after (if pc.ownWrites.isSome then ended else stopped) pc.writes := by
  rw [track, State.macroPc_eq hm]
  rfl

end LastStore

/-- What the history says of the flag, and what a macro handler has made sure of. -/
structure Tracked (p : State × LastStore) : Prop where
  flag : p.1.live → (p.1.macroLoopRunning = true ↔ p.2 = .raised)
  unarmed : p.2 = .unarmed → p.1.live → p.1.macroPc = some .loopArm
  ended : p.2 = .ended → p.1.live → ∃ pc, p.1.macroPc = some pc ∧ pc.closing = true
  vacant : ∀ code argv, p.1.worker = .busy (.macroCommand code argv .arm) ∨
    p.1.worker = .busy (.macroCommand code argv .spawn) → p.1.macroThread = .none
  armed : ∀ code argv, p.1.worker = .busy (.macroCommand code argv .spawn) → code ≠ macroAutoRunCycle →
    p.1.macroLoopRunning = true

theorem handler_macroCommand {code c : TOFCommandCode} {argv v : CommandArgs} {pc : AdmitPc}
    (h : code.handler argv = some (.macroCommand c v pc)) : pc = .test := by
  cases code <;> cases h <;> rfl

theorem Tracked.receive {code : TOFCommandCode} {argv : CommandArgs} {call : Call}
    (hi : Tracked (s, l)) (hcall : code.handler argv = some call) :
    Tracked ({ s with worker := .busy call }, l) := by
  refine ⟨hi.flag, hi.unarmed, hi.ended, fun c v hw => ?_, fun c v hw _ => ?_⟩
  · rcases hw with hw | hw <;> (cases hw; cases handler_macroCommand hcall)
  · cases hw
    cases handler_macroCommand hcall

/-- A handler reaches the store of `true` and the start of the thread in its own course. -/
theorem AdmitPc.step_arm_spawn {self : Caller} {code : TOFCommandCode} {argv : CommandArgs}
    {pc pc' : AdmitPc} (hpc : pc.touchesThread = false)
    (h : pc.step sequences self code argv s = some (s', .next pc')) :
    pc' ≠ .arm ∧ (pc' = .spawn → pc = .arm) := by
  cases pc with
  | test =>
    simp only [AdmitPc.step] at h
    split_ifs at h <;> (cases h; simp)
  | configure => cases h; simp
  | arm => cases h; simp
  | reject => cases h
  | join | spawn => cases hpc

theorem Tracked.worker_step {call : Call} {r : Progress Call} (hi : Tracked (s, l))
    (hw : s.worker = .busy call) (ht : call.touchesThread = false) (hs : Stores call.writes s s')
    (h : call.step sequences .worker a s = some (s', r)) :
    Tracked ({ s' with worker := r.elim .busy fun _ => .idle }, l.after .stopped call.writes) := by
  have hspawn (code : TOFCommandCode) (argv : CommandArgs) (pc : AdmitPc)
      (hr : r.elim Worker.busy (fun _ => .idle) = .busy (.macroCommand code argv pc)) :
      pc ≠ .arm ∧ (pc = .spawn → call = .macroCommand code argv .arm) := by
    cases r with
    | ret v => cases hr
    | next call' =>
      cases hr
      obtain ⟨pc', rfl, hpc⟩ := Call.step_macroCommand h
      obtain ⟨harm, hsp⟩ := AdmitPc.step_arm_spawn ht hpc
      exact ⟨harm, fun hp => by rw [hsp hp]⟩
  refine ⟨fun hlive => ?_, fun hl hlive => ?_, fun hl hlive => ?_, fun code argv hr => ?_,
    fun code argv hr _ => ?_⟩
  · rw [show ({ s' with worker := r.elim .busy fun _ => .idle } : State).macroLoopRunning =
      call.writes.getD s.macroLoopRunning from hs.flag]
    exact LastStore.after_agrees nofun (hi.flag (hs.live.mp hlive))
  · obtain ⟨-, hold⟩ := LastStore.eq_of_after hl nofun nofun
    exact hs.macroPc.trans (hi.unarmed hold (hs.live.mp hlive))
  · obtain ⟨-, hold⟩ := LastStore.eq_of_after hl nofun nofun
    obtain ⟨pc, hpc, hcl⟩ := hi.ended hold (hs.live.mp hlive)
    exact ⟨pc, hs.macroPc.trans hpc, hcl⟩
  · rcases hr with hr | hr
    · exact absurd rfl (hspawn _ _ _ hr).1
    · have hcall := (hspawn _ _ _ hr).2 rfl
      rw [hcall] at hw
      exact hs.macroThread.trans (hi.vacant code argv (.inl hw))
  · have hcall := (hspawn _ _ _ hr).2 rfl
    rw [hcall] at hs
    exact hs.flag

theorem Program.afterSequence_closing (p : Program) (cycle : ℕ) :
    (p.afterSequence cycle false).closing := by
  obtain ⟨-, hp⟩ | ⟨-, hnot, -⟩ | ⟨-, hp⟩ := p.afterSequence_cases cycle false
  · rw [hp]
    rfl
  · cases hnot
  · rw [hp]
    rfl

/-- Once the macro thread has lowered the flag itself, it only ends. -/
theorem MacroPc.step_closing {p : Program} {pc pc' : MacroPc} {m : MacroThread}
    (h : pc.step sequences p a s = some (s', m)) (hm : m.pc = some pc')
    (hpc : pc.ownWrites = some false ∨ pc.closing = true) : pc'.closing = true := by
  cases pc with
  | loopArm | loopTest _ => rcases hpc with hpc | hpc <;> cases hpc
  | loopBreak | clear _ => cases h; cases hm; rfl
  | notify _ => cases h; cases hm
  | sequence cycle pc =>
    rcases hpc with hpc | hpc
    · cases pc <;> cases hpc <;> (cases h; cases hm; exact p.afterSequence_closing cycle)
    · cases hpc

theorem Tracked.macro_step {p : Program} {pc : MacroPc} {m : MacroThread} (hi : Tracked (s, l))
    (hm : s.macroThread = .running p pc) (hs : Stores pc.writes s s')
    (h : pc.step sequences p a s = some (s', m)) :
    Tracked ({ s' with macroThread := m },
      l.after (if pc.ownWrites.isSome then .ended else .stopped) pc.writes) := by
  have hlive : s.live := ⟨p, pc, hm⟩
  have hat : s.macroPc = some pc := State.macroPc_eq hm
  have hbusy : s.macroThread ≠ .none := by rw [hm]; nofun
  refine ⟨fun _ => ?_, fun hl _ => ?_, fun hl hlive' => ?_, fun code argv hr => ?_,
    fun code argv hr _ => ?_⟩
  · rw [show ({ s' with macroThread := m } : State).macroLoopRunning =
      pc.writes.getD s.macroLoopRunning from hs.flag]
    exact LastStore.after_agrees (by split_ifs <;> nofun) (hi.flag hlive)
  · obtain ⟨hnone, hold⟩ := LastStore.eq_of_after hl nofun (by split_ifs <;> nofun)
    rw [hi.unarmed hold hlive] at hat
    cases hat
    cases hnone
  · have hend : pc.ownWrites = some false ∨ pc.closing = true := by
      by_cases hown : pc.ownWrites.isSome
      · obtain ⟨v, hv⟩ := Option.isSome_iff_exists.mp hown
        have hw : pc.writes = some v := by rw [MacroPc.writes, hv]; rfl
        cases v with
        | false => exact .inl hv
        | true => rw [hw] at hl; cases hl
      · rw [if_neg hown] at hl
        obtain ⟨-, hold⟩ := LastStore.eq_of_after hl nofun nofun
        obtain ⟨pc₁, hpc₁, hcl⟩ := hi.ended hold hlive
        rw [hat] at hpc₁
        cases hpc₁
        exact .inr hcl
    obtain ⟨p', pc', hm'⟩ := hlive'
    have hpc' : m.pc = some pc' := by
      rw [show m = .running p' pc' from hm']
      rfl
    exact ⟨pc', hpc', MacroPc.step_closing h hpc' hend⟩
  · exact absurd (hi.vacant code argv (hs.worker ▸ hr)) hbusy
  · exact absurd (hi.vacant code argv (.inr (hs.worker ▸ hr))) hbusy

theorem Tracked.spawn {code : TOFCommandCode} {argv : CommandArgs} (hi : Tracked (s, l))
    (hw : s.worker = .busy (.macroCommand code argv .spawn)) :
    Tracked ({ s with
      macroThread := .running (program sequences code argv) (program sequences code argv).start
      worker := .idle }, if s.macroLoopRunning then .raised else .unarmed) := by
  refine ⟨fun _ => ?_, fun hl _ => ?_, fun hl _ => ?_, nofun, nofun⟩
  · cases hf : s.macroLoopRunning with
    | true => exact ⟨fun _ => rfl, fun _ => rfl⟩
    | false => exact ⟨nofun, nofun⟩
  · by_cases hcode : code = macroAutoRunCycle
    · subst hcode
      rfl
    · rw [hi.armed code argv hw hcode] at hl
      cases hl
  · cases hf : s.macroLoopRunning <;> (rw [hf] at hl; cases hl)

theorem Tracked.join {code : TOFCommandCode} {argv : CommandArgs} {pc : AdmitPc}
    (hpc : pc = if code = macroAutoRunCycle then .spawn else .arm) :
    Tracked ({ s with macroThread := .none, worker := .busy (.macroCommand code argv pc) }, l) := by
  have hdead := State.not_live (s := { s with
    macroThread := .none, worker := .busy (.macroCommand code argv pc) }) rfl
  refine ⟨fun hl => absurd hl hdead, fun _ hl => absurd hl hdead, fun _ hl => absurd hl hdead,
    fun _ _ _ => rfl, fun c v hw hc => ?_⟩
  cases hw
  rw [if_neg hc] at hpc
  cases hpc

theorem Tracked.step {b : Action} (hi : Tracked (s, l)) (h : step sequences s b = some s') :
    Tracked (s', LastStore.track s b s' l) := by
  cases step_move h with
  | receive _ hcall => exact hi.receive hcall
  | worker hw ht hs hcall =>
    rw [LastStore.track_worker hw ht]
    exact hi.worker_step hw ht hs hcall
  | join hw _ hpc =>
    rw [LastStore.track, State.workerCall_eq hw]
    exact Tracked.join hpc
  | spawn hw _ hp =>
    rw [LastStore.track, State.workerCall_eq hw]
    subst hp
    exact hi.spawn hw
  | macroThread hm hs hpc =>
    rw [LastStore.track_macroThread hm]
    exact hi.macro_step hm hs hpc
  | other hnw hnm _ hs =>
    rw [LastStore.track_other hnw hnm]
    refine ⟨fun hl => ?_, fun hu hl => ?_, fun he hl => ?_, fun c v hw => ?_, fun c v hw hc => ?_⟩
    · rw [hs.flag]
      exact hi.flag (hs.live.mp hl)
    · exact hs.macroPc.trans (hi.unarmed hu (hs.live.mp hl))
    · obtain ⟨pc, hpc, hcl⟩ := hi.ended he (hs.live.mp hl)
      exact ⟨pc, hs.macroPc.trans hpc, hcl⟩
    · rw [hs.worker] at hw
      exact hs.macroThread.trans (hi.vacant c v hw)
    · rw [hs.worker] at hw
      exact hs.flag.trans (hi.armed c v hw hc)

theorem initial_tracked : Tracked (initial, .ended) := by
  have hdead : ¬ initial.live := State.not_live rfl
  exact ⟨fun hl => absurd hl hdead, fun _ hl => absurd hl hdead, fun _ hl => absurd hl hdead,
    fun _ _ _ => rfl, nofun⟩

/-- Past its `join`, a macro handler finds no macro thread. -/
theorem macroThread_vacant {code : TOFCommandCode} {argv : CommandArgs}
    (h : (machine sequences).Reachable s)
    (hw : s.worker = .busy (.macroCommand code argv .arm) ∨
      s.worker = .busy (.macroCommand code argv .spawn)) : s.macroThread = .none := by
  obtain ⟨l, hl⟩ := h.exists_history .ended LastStore.track
  have hi : Tracked (s, l) :=
    hl.invariant_history (fun _ h0 => h0 ▸ initial_tracked) fun _ _ _ _ hi _ hs => hi.step hs
  exact hi.vacant code argv hw

/-- A macro handler does not assign to a joinable `macroLoopThread_`, which would end the
program. -/
theorem spawn_not_joinable {code : TOFCommandCode} {argv : CommandArgs}
    (h : (machine sequences).Reachable s) (hw : s.worker = .busy (.macroCommand code argv .spawn)) :
    s.joinable = false := by
  have hnone : s.macroThread = .none := macroThread_vacant h (.inr hw)
  simp [State.joinable, hnone]

end GramsTof.Dispatch
