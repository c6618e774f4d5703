import GramsTof.Dispatch.Custody

/-! Children that nobody will wait for: `STOP_DAQ` drops a process from the registry
before it has been waited for. -/

namespace GramsTof.Dispatch

open Lib TOFCommandCode

/-- Some thread has forked `pid` and not yet registered it. -/
def State.launching (s : State) (pid : Pid) : Prop := ∃ l task, s.held l = some (.forked pid task)

/-- Every child is registered, or about to be. -/
def Accounted (s : State) : Prop := ∀ pid ∈ s.children, s.launching pid ∨ pid ∈ s.registered

/-- `STOP_DAQ` finds no registered child but its own script. -/
def Operation.spares (s : State) : Operation → Bool
  | interrupt stopPid => s.children.all fun pid => pid ∉ s.registered || some pid = stopPid
  | _ => true

def Spares (s : State) (a : Action) : Prop := (s.operation a).spares s = true

instance (s : State) (a : Action) : Decidable (Spares s a) := inferInstanceAs (Decidable (_ = true))

variable {sequences : TOFCommandCode → MacroSequence} {s s' : State}

theorem Operation.spares_interrupt {stopPid : Option Pid} {pid : Pid}
    (h : (interrupt stopPid).spares s) (hc : pid ∈ s.children) (hr : pid ∈ s.registered) :
    some pid = stopPid := by
  have hpid := List.all_eq_true.mp h pid hc
  simpa [hr] using hpid

theorem State.launching_kept {b : Action} {pid : Pid} (h : Performed b s s') (hl : s.launching pid) :
    s'.launching pid ∨ pid ∈ s'.registered := by
  obtain ⟨l, task, hl⟩ := hl
  rcases h.forked_kept hl with hl | ho
  · exact .inl ⟨l, task, hl⟩
  · right
    unfold State.registered
    rw [h.effect.tasks, ho]
    exact List.mem_cons_self

theorem Accounted.step {b : Action} (hi : Accounted s) (hn : s.children.Nodup) (hg : Spares s b)
    (h : step sequences s b = some s') : Accounted s' := by
  have hp := step_performed h
  intro pid hc
  rcases hp.effect.child_old hc with hold | ⟨task, ho⟩
  · rcases hi pid hold with hl | hr
    · exact State.launching_kept hp hl
    · rcases hp.effect.registered_kept hn hc hr with hr | ⟨stopPid, ho, hne⟩
      · exact .inr hr
      · unfold Spares at hg
        rw [ho] at hg
        exact absurd (Operation.spares_interrupt hg hold hr) hne
  · obtain ⟨l, hl⟩ := hp.fork_held ho
    exact .inl ⟨l, task, hl⟩

theorem State.reap_isSome {pid : Pid} (success : Bool) (hr : pid ∈ s.registered)
    (hc : pid ∈ s.children) : (s.reap pid (.exited success)).isSome := by
  obtain ⟨task, hl⟩ := Option.isSome_iff_exists.mp (Registry.lookup_isSome hr)
  simp [State.reap, hl, hc]

/-- A child that its thread has registered is still registered, and once it is over the monitor
thread waits for it, in every run whose `STOP_DAQ`s find no other child in the registry. -/
theorem children_accounted (h : (machine sequences).Reach Spares s) :
    ∀ pid ∈ s.children, s.launching pid ∨
      pid ∈ s.registered ∧ ∀ success, (s.reap pid (.exited success)).isSome := by
  have hi : s.children.Nodup ∧ Accounted s :=
    h.invariant (I := fun s => s.children.Nodup ∧ Accounted s)
      (fun _ h0 => h0 ▸ ⟨List.nodup_nil, nofun⟩) fun s a s' hi hg hs =>
        ⟨(step_performed hs).effect.nodup_children hi.1, hi.2.step hi.1 hg hs⟩
  intro pid hc
  refine (hi.2 pid hc).imp_right fun hr => ⟨hr, fun success => State.reap_isSome success hr hc⟩

/-- A process has ended and been waited for before `STOP_DAQ` comes. -/
theorem children_accounted_stop :
    ∃ s, (machine macroSequence).Reach Spares s ∧ s.children = [8] ∧ s.registered = [8] ∧
      ∀ pid ∈ s.children, s.launching pid ∨
        pid ∈ s.registered ∧ ∀ success, (s.reap pid (.exited success)).isSome := by
  have hend : ((machine macroSequence).runIn Spares initial (workerBackground acquireTdcCalibration 7 ++
      .monitor 7 (.exited true) :: workerStop 8)).map (fun s => (s.children, s.registered)) =
      some ([8], [8]) := by decide
  obtain ⟨s, hrun, hs⟩ := Option.map_eq_some_iff.mp hend
  obtain ⟨hc, hr⟩ := Prod.mk.inj hs
  have h : (machine macroSequence).Reach Spares s := Machine.Reach.runIn (.init rfl) hrun
  exact ⟨s, h, hc, hr, children_accounted h⟩

/-- `STOP_DAQ` finds a process running, signals it and drops it: nobody waits for it any more. -/
theorem not_children_accounted :
    ¬ ∀ s, (machine macroSequence).Reachable s →
      ∀ pid ∈ s.children, s.launching pid ∨ pid ∈ s.registered := by
  intro h
  obtain ⟨s, hs, hp⟩ := (machine macroSequence).exists_reachable_of_run initial
    (fun s => decide (s.children = [8, 7] ∧ s.registered = [8] ∧ s.held .worker = none ∧
      s.held .macroThread = none ∧ s.held .recorder = none))
    (workerBackground acquireTdcCalibration 7 ++ workerStop 8) rfl (by decide)
  obtain ⟨hc, hr, hw, hm, ht⟩ := of_decide_eq_true hp
  rcases h s hs 7 (by simp [hc]) with ⟨l, task, hl⟩ | hreg
  · cases l with
    | worker => rw [hw] at hl; cases hl
    | macroThread => rw [hm] at hl; cases hl
    | recorder => rw [ht] at hl; cases hl
  · simp [hr] at hreg

end GramsTof.Dispatch
