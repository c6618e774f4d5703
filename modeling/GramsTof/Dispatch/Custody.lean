import GramsTof.Dispatch.Processes

/-! Who answers for a child process: the registry, or a thread that has forked it and
not yet registered it. -/

namespace GramsTof.Dispatch

open Lib TOFCommandCode

/-- The registered processes. -/
def State.registered (s : State) : List Pid := Registry.keys s.activeBackgroundTasks

namespace Operation

/-- The entry of `pid` stays as it is. -/
def keeps (pid : Pid) : Operation → Bool
  | register p _ => pid ≠ p
  | interrupt _ => false
  | reap p _ => pid ≠ p
  | _ => true

/-- The entry made. -/
def added : Operation → Option (Pid × BackgroundTask)
  | register pid task => some (pid, task)
  | interrupt stopPid => stopPid.map (·, stopScript)
  | _ => none

theorem mem_registry {ν : Type*} {f : BackgroundTask → ν} {m : List (Pid × ν)} {o : Operation}
    {e : Pid × ν} :
    e ∈ o.registry f m ↔ e ∈ m ∧ o.keeps e.1 ∨ ∃ task, o.added = some (e.1, task) ∧ e.2 = f task := by
  cases o with
  | idle | report _ _ | fork _ _ | forkWorker _ | waitAny _ => simp [registry, keeps, added]
  | register pid task =>
    rw [registry, Registry.mem_put, or_comm, keeps, decide_eq_true_eq]
    refine or_congr_right ⟨?_, ?_⟩
    · rintro rfl
      exact ⟨task, rfl, rfl⟩
    · rintro ⟨t, hadd, hv⟩
      cases hadd
      exact Prod.ext rfl hv
  | interrupt stopPid =>
    cases stopPid with
    | none => simp [registry, keeps, added]
    | some pid =>
      constructor
      · intro h
        cases List.mem_singleton.mp h
        exact .inr ⟨stopScript, rfl, rfl⟩
      · rintro (⟨-, hkeep⟩ | ⟨t, hadd, hv⟩)
        · cases hkeep
        · cases hadd
          exact List.mem_singleton.mpr (Prod.ext rfl hv)
  | reap pid w => simp [registry, Registry.mem_remove, keeps, added]

end Operation

section Steps

variable {s s' : State} {o : Operation} {b : Action} {pid : Pid} {task : BackgroundTask}
  {l : Launcher}

/-- A child is old, or forked just now. -/
theorem Effect.child_old (h : Effect o s s') (hc : pid ∈ s'.children) :
    pid ∈ s.children ∨ ∃ task, o = .fork pid task := by
  rw [h.children] at hc
  cases o with
  | fork p task =>
    rcases List.mem_cons.mp hc with rfl | hc
    · exact .inr ⟨task, rfl⟩
    · exact .inl hc
  | reap p w =>
    cases w with
    | exited success => exact .inl (List.mem_of_mem_erase hc)
    | error => exact .inl hc
  | waitAny p => exact .inl (List.mem_of_mem_erase hc)
  | _ => exact .inl hc

/-- A child stays, or is waited for just now. -/
theorem Effect.child_kept (h : Effect o s s') (hc : pid ∈ s.children) :
    pid ∈ s'.children ∨ (∃ success, o = .reap pid (.exited success)) ∨ o = .waitAny pid := by
  rw [h.children]
  cases o with
  | fork p task => exact .inl (List.mem_cons_of_mem _ hc)
  | reap p w =>
    cases w with
    | exited success =>
      by_cases hp : pid = p
      · exact .inr (.inl ⟨success, by rw [hp]⟩)
      · exact .inl ((List.mem_erase_of_ne hp).mpr hc)
    | error => exact .inl hc
  | waitAny p =>
    by_cases hp : pid = p
    · exact .inr (.inr (by rw [hp]))
    · exact .inl ((List.mem_erase_of_ne hp).mpr hc)
  | _ => exact .inl hc

theorem Effect.nodup_children (h : Effect o s s') (hn : s.children.Nodup) :
    s'.children.Nodup := by
  rw [h.children]
  cases o with
  | fork p task => exact List.nodup_cons.mpr ⟨h.enabled.1, hn⟩
  | reap p w =>
    cases w with
    | exited success => exact hn.erase p
    | error => exact hn
  | waitAny p => exact hn.erase p
  | _ => exact hn

theorem Operation.nodup_registry {ν : Type*} {f : BackgroundTask → ν} {m : List (Pid × ν)}
    (hn : (Registry.keys m).Nodup) : (Registry.keys (o.registry f m)).Nodup := by
  cases o with
  | register p task => exact Registry.nodup_put hn
  | interrupt stopPid =>
    cases stopPid with
    | none => exact List.nodup_nil
    | some p => exact List.nodup_singleton p
  | reap p w => exact Registry.nodup_remove hn
  | _ => exact hn

/-- A registered child stays registered, unless `STOP_DAQ` drops it. -/
theorem Effect.registered_kept (h : Effect o s s') (hn : s.children.Nodup) (hc : pid ∈ s'.children)
    (hr : pid ∈ s.registered) :
    pid ∈ s'.registered ∨ ∃ stopPid, o = .interrupt stopPid ∧ some pid ≠ stopPid := by
  unfold State.registered at hr ⊢
  have hchildren := h.children
  rw [h.tasks]
  obtain ⟨task, hmem⟩ := Registry.mem_keys.mp hr
  cases o with
  | idle | report _ _ | fork _ _ | forkWorker _ | waitAny _ => exact .inl hr
  | register p task' =>
    left
    by_cases hp : pid = p
    · subst hp
      exact List.mem_cons_self
    · exact Registry.mem_keys.mpr ⟨task, Registry.mem_put.mpr (.inr ⟨hmem, hp⟩)⟩
  | interrupt stopPid =>
    by_cases hp : some pid = stopPid
    · subst hp
      exact .inl List.mem_cons_self
    · exact .inr ⟨stopPid, rfl, hp⟩
  | reap p w =>
    have hp : pid ≠ p := by
      rintro rfl
      cases w with
      | exited success =>
        rw [hchildren] at hc
        exact hn.not_mem_erase hc
      | error =>
        rw [hchildren] at hc
        exact (h.enabled.2.mp rfl).1 hc
    exact .inl (Registry.mem_keys.mpr ⟨task, Registry.mem_remove.mpr ⟨hmem, hp⟩⟩)

/-- A thread that holds a process keeps it until it registers it. -/
theorem Performed.forked_kept (h : Performed b s s') (hl : s.held l = some (.forked pid task)) :
    s'.held l = some (.forked pid task) ∨ s.operation b = .register pid task := by
  by_cases hb : b.launcher = some l
  · have hh := h.hands l hb
    rw [hl] at hh
    generalize s.operation b = o at hh
    generalize s'.held l = after at hh
    cases hh <;> exact .inr rfl
  · exact .inl ((h.keeps l hb).trans hl)

/-- A thread gets a process by forking it. -/
theorem Performed.forked_old (h : Performed b s s') (hl : s'.held l = some (.forked pid task)) :
    s.held l = some (.forked pid task) ∨ b.launcher = some l ∧ s.operation b = .fork pid task := by
  by_cases hb : b.launcher = some l
  · have hh := h.hands l hb
    rw [hl] at hh
    generalize s.operation b = o at hh
    generalize s.held l = before at hh
    cases hh
    exact .inr ⟨hb, rfl⟩
  · exact .inl ((h.keeps l hb).symm.trans hl)

theorem Performed.script_old (h : Performed b s s') (hl : s'.held l = some (.script pid)) :
    s.held l = some (.script pid) ∨ b.launcher = some l ∧
      s.held l = some (.forked pid stopScript) ∧ s.operation b = .register pid stopScript := by
  by_cases hb : b.launcher = some l
  · have hh := h.hands l hb
    rw [hl] at hh
    generalize s.held l = before at hh
    generalize s.operation b = o at hh
    cases hh
    exact .inr ⟨hb, rfl, rfl⟩
  · exact .inl ((h.keeps l hb).symm.trans hl)

/-- Only a thread that starts processes forks. -/
theorem State.launcher_of_fork (h : s.operation b = .fork pid task) :
    ∃ l, b.launcher = some l := by
  cases b with
  | worker a => exact ⟨.worker, rfl⟩
  | macroThread a => exact ⟨.macroThread, rfl⟩
  | recorder a => exact ⟨.recorder, rfl⟩
  | receive _ _ | monitor _ _ | daq => cases h

theorem Performed.fork_held (h : Performed b s s') (ho : s.operation b = .fork pid task) :
    ∃ l, s'.held l = some (.forked pid task) := by
  obtain ⟨l, hl⟩ := State.launcher_of_fork ho
  have hh := h.hands l hl
  rw [ho] at hh
  generalize s.held l = before at hh
  generalize hafter : s'.held l = after at hh
  cases hh
  exact ⟨l, hafter⟩

/-- What is registered is in the hands of the thread that takes the step, and leaves them. -/
theorem Performed.added_held (h : Performed b s s')
    (ho : (s.operation b).added = some (pid, task)) :
    ∃ l, b.launcher = some l ∧ (∀ p t, s'.held l ≠ some (.forked p t)) ∧
      (s.held l = some (.forked pid task) ∧ s.operation b = .register pid task ∨
        s.held l = some (.script pid) ∧ task = stopScript ∧
          s.operation b = .interrupt (some pid)) := by
  have hl : ∃ l, b.launcher = some l := by
    cases b with
    | worker a => exact ⟨.worker, rfl⟩
    | macroThread a => exact ⟨.macroThread, rfl⟩
    | recorder a => exact ⟨.recorder, rfl⟩
    | receive _ _ | monitor _ _ | daq => cases ho
  obtain ⟨l, hl⟩ := hl
  have hh := h.hands l hl
  refine ⟨l, hl, ?_⟩
  generalize s.operation b = o at ho hh
  generalize s.held l = before at hh
  generalize s'.held l = after at hh
  cases hh with
  | idle | report _ _ | fork _ _ | interrupt | forkWorker _ | waitAny _ => cases ho
  | register p t => cases ho; exact ⟨nofun, .inl ⟨rfl, rfl⟩⟩
  | registerScript p => cases ho; exact ⟨nofun, .inl ⟨rfl, rfl⟩⟩
  | interruptScript p => cases ho; exact ⟨nofun, .inr ⟨rfl, rfl, rfl⟩⟩

theorem Effect.registered_iff (h : Effect o s s') (pid : Pid) :
    pid ∈ s'.registered ↔ pid ∈ s.registered ∧ o.keeps pid ∨ ∃ task, o.added = some (pid, task) := by
  simp only [State.registered, Registry.mem_keys, h.tasks, Operation.mem_registry]
  constructor
  · rintro ⟨v, ⟨hv, hk⟩ | ⟨task, ho, -⟩⟩
    · exact .inl ⟨⟨v, hv⟩, hk⟩
    · exact .inr ⟨task, ho⟩
  · rintro (⟨⟨v, hv⟩, hk⟩ | ⟨task, ho⟩)
    · exact ⟨v, .inl ⟨hv, hk⟩⟩
    · exact ⟨task, .inr ⟨task, ho, rfl⟩⟩

end Steps

/-! ### Runs in which no number is reused too soon -/

def Launcher.all : List Launcher := [.worker, .macroThread, .recorder]

/-- The process that is held. -/
def Hold.pid : Hold → Pid
  | forked pid _ => pid
  | script pid => pid

/-- A `fork` does not return the number of an entry of the registry, or of a stop script between
its two registrations, and a `wait(NULL)` takes no process that is registered or about to be. -/
def Operation.fresh (s : State) : Operation → Bool
  | fork pid _ | forkWorker pid =>
    pid ∉ s.registered && Launcher.all.all fun l => s.held l ≠ some (.script pid)
  | waitAny pid =>
    pid ∉ s.registered && Launcher.all.all fun l => (s.held l).map Hold.pid ≠ some pid
  | _ => true

def Fresh (s : State) (a : Action) : Prop := (s.operation a).fresh s = true

instance (s : State) (a : Action) : Decidable (Fresh s a) := inferInstanceAs (Decidable (_ = true))

/-- Every registered task but a stop script is a child, and no two hold one process. -/
structure Custody (s : State) : Prop where
  children : s.children.Nodup
  registered : s.registered.Nodup
  forked : ∀ l pid task, s.held l = some (.forked pid task) →
    pid ∈ s.children ∧ pid ∉ s.registered
  apart : ∀ l l' pid task task', s.held l = some (.forked pid task) →
    s.held l' = some (.forked pid task') → l = l'
  scripts : ∀ l l' pid task, s.held l = some (.forked pid task) → s.held l' ≠ some (.script pid)
  stops : ∀ l l' pid, s.held l = some (.script pid) → s.held l' = some (.script pid) → l = l'
  stopping : ∀ l pid task, s.held l = some (.script pid) → (pid, task) ∈ s.activeBackgroundTasks →
    task = stopScript
  alive : ∀ pid task, (pid, task) ∈ s.activeBackgroundTasks → task ≠ stopScript →
    pid ∈ s.children

theorem initial_custody : Custody initial where
  children := List.nodup_nil
  registered := List.nodup_nil
  forked l _ _ h := by cases l <;> cases h
  apart l _ _ _ _ h := by cases l <;> cases h
  scripts l _ _ _ h := by cases l <;> cases h
  stops l _ _ h := by cases l <;> cases h
  stopping l _ _ h := by cases l <;> cases h
  alive := nofun

namespace Custody

variable {sequences : TOFCommandCode → MacroSequence} {s s' : State} {b : Action} {pid : Pid}
  {task : BackgroundTask} {l : Launcher}

theorem fresh_fork (hg : Fresh s b) (ho : s.operation b = .fork pid task) :
    pid ∉ s.registered ∧ ∀ l, s.held l ≠ some (.script pid) := by
  unfold Fresh at hg
  rw [ho] at hg
  simp only [Operation.fresh, Bool.and_eq_true, decide_eq_true_eq, List.all_eq_true] at hg
  exact ⟨hg.1, fun l => hg.2 l (by cases l <;> decide)⟩

theorem fresh_waitAny (hg : Fresh s b) (ho : s.operation b = .waitAny pid) :
    pid ∉ s.registered ∧ ∀ l, (s.held l).map Hold.pid ≠ some pid := by
  unfold Fresh at hg
  rw [ho] at hg
  simp only [Operation.fresh, Bool.and_eq_true, decide_eq_true_eq, List.all_eq_true] at hg
  exact ⟨hg.1, fun l => hg.2 l (by cases l <;> decide)⟩

/-- A process that a thread has forked is a child and not registered. -/
theorem forked_step (hi : Custody s) (hg : Fresh s b) (hp : Performed b s s')
    (hl : s'.held l = some (.forked pid task)) : pid ∈ s'.children ∧ pid ∉ s'.registered := by
  rcases hp.forked_old hl with hold | ⟨-, ho⟩
  · obtain ⟨hc, hr⟩ := hi.forked l pid task hold
    constructor
    · rcases hp.effect.child_kept hc with hc | ⟨success, ho⟩ | ho
      · exact hc
      · have hen := hp.effect.enabled
        rw [ho] at hen
        obtain ⟨t, ht⟩ := Option.isSome_iff_exists.mp hen.1
        exact absurd (Registry.mem_keys.mpr ⟨t, Registry.mem_of_lookup ht⟩) hr
      · exact absurd (by rw [hold]; rfl) ((fresh_waitAny hg ho).2 l)
    · rw [hp.effect.registered_iff]
      rintro (⟨hreg, -⟩ | ⟨t, hadd⟩)
      · exact hr hreg
      · obtain ⟨l', -, hnone, ⟨hl', -⟩ | ⟨hl', -, -⟩⟩ := hp.added_held hadd
        · cases hi.apart l l' pid task t hold hl'
          exact hnone pid task hl
        · exact hi.scripts l l' pid task hold hl'
  · have hnew := (fresh_fork hg ho).1
    have hc := hp.effect.children
    have hr := hp.effect.registered_iff pid
    rw [ho] at hc hr
    refine ⟨hc ▸ List.mem_cons_self, fun hreg => ?_⟩
    rcases hr.mp hreg with ⟨hreg, -⟩ | ⟨t, hadd⟩
    · exact hnew hreg
    · cases hadd

theorem apart_step (hi : Custody s) (hp : Performed b s s') {l' : Launcher} {task' : BackgroundTask}
    (hl : s'.held l = some (.forked pid task)) (hl' : s'.held l' = some (.forked pid task')) :
    l = l' := by
  have hnot : ∀ {k t u}, s.held k = some (.forked pid t) → s.operation b ≠ .fork pid u := by
    intro k t u hk ho
    have hen := hp.effect.enabled
    rw [ho] at hen
    exact hen.1 (hi.forked k pid t hk).1
  rcases hp.forked_old hl with hold | ⟨hb, ho⟩ <;> rcases hp.forked_old hl' with hold' | ⟨hb', ho'⟩
  · exact hi.apart l l' pid task task' hold hold'
  · exact absurd ho' (hnot hold)
  · exact absurd ho (hnot hold')
  · exact Option.some.inj (hb.symm.trans hb')

theorem scripts_step (hi : Custody s) (hg : Fresh s b) (hp : Performed b s s') {l' : Launcher}
    (hl : s'.held l = some (.forked pid task)) : s'.held l' ≠ some (.script pid) := by
  intro hl'
  rcases hp.forked_old hl with hold | ⟨-, ho⟩ <;>
    rcases hp.script_old hl' with hold' | ⟨-, hold', ho'⟩
  · exact hi.scripts l l' pid task hold hold'
  · cases hi.apart l l' pid task stopScript hold hold'
    rw [hl] at hl'
    cases hl'
  · exact (fresh_fork hg ho).2 l' hold'
  · rw [ho] at ho'
    cases ho'

theorem stops_step (hi : Custody s) (hp : Performed b s s') {l' : Launcher}
    (hl : s'.held l = some (.script pid)) (hl' : s'.held l' = some (.script pid)) : l = l' := by
  rcases hp.script_old hl with hold | ⟨hb, hold, -⟩ <;>
    rcases hp.script_old hl' with hold' | ⟨hb', hold', -⟩
  · exact hi.stops l l' pid hold hold'
  · exact absurd hold (hi.scripts l' l pid stopScript hold')
  · exact absurd hold' (hi.scripts l l' pid stopScript hold)
  · exact Option.some.inj (hb.symm.trans hb')

theorem stopping_step (hi : Custody s) (hp : Performed b s s') (hl : s'.held l = some (.script pid))
    (hmem : (pid, task) ∈ s'.activeBackgroundTasks) : task = stopScript := by
  rw [hp.effect.tasks, Operation.mem_registry] at hmem
  rcases hmem with ⟨hold, hkeep⟩ | ⟨t, hadd, rfl⟩
  · rcases hp.script_old hl with hl | ⟨-, -, ho⟩
    · exact hi.stopping l pid task hl hold
    · rw [ho] at hkeep
      simp [Operation.keeps] at hkeep
  · obtain ⟨l', -, -, ⟨hl', ho⟩ | ⟨-, rfl, -⟩⟩ := hp.added_held hadd
    · rcases hp.script_old hl with hl | ⟨-, -, ho'⟩
      · exact absurd hl (hi.scripts l' l pid task hl')
      · rw [ho] at ho'
        cases ho'
        rfl
    · rfl

theorem alive_step (hi : Custody s) (hg : Fresh s b) (hp : Performed b s s')
    (hmem : (pid, task) ∈ s'.activeBackgroundTasks) (htask : task ≠ stopScript) :
    pid ∈ s'.children := by
  rw [hp.effect.tasks, Operation.mem_registry] at hmem
  rcases hmem with ⟨hold, hkeep⟩ | ⟨t, hadd, rfl⟩
  · rcases hp.effect.child_kept (hi.alive pid task hold htask) with hc | ⟨success, ho⟩ | ho
    · exact hc
    · rw [ho] at hkeep
      simp [Operation.keeps] at hkeep
    · exact absurd (Registry.mem_keys.mpr ⟨task, hold⟩) (fresh_waitAny hg ho).1
  · obtain ⟨l, -, -, ⟨hl, ho⟩ | ⟨-, rfl, -⟩⟩ := hp.added_held hadd
    · have hc := hp.effect.children
      rw [ho] at hc
      exact hc ▸ (hi.forked l pid task hl).1
    · exact absurd rfl htask

theorem step (hi : Custody s) (hg : Fresh s b) (h : step sequences s b = some s') : Custody s' := by
  have hp := step_performed h
  refine ⟨hp.effect.nodup_children hi.children, ?_, fun _ _ _ hl => hi.forked_step hg hp hl,
    fun _ _ _ _ _ hl hl' => hi.apart_step hp hl hl', fun _ _ _ _ hl => hi.scripts_step hg hp hl,
    fun _ _ _ hl hl' => hi.stops_step hp hl hl', fun _ _ _ hl hmem => hi.stopping_step hp hl hmem,
    fun _ _ hmem ht => hi.alive_step hg hp hmem ht⟩
  unfold State.registered
  rw [hp.effect.tasks]
  exact Operation.nodup_registry hi.registered

end Custody

/-- The worker starts the background process `pid`. -/
def workerBackground (code : TOFCommandCode) (pid : Pid) : List Action :=
  [.receive code [], .worker { done with pid := some pid }, .worker done]

/-- The worker's `STOP_DAQ`, up to the end of its critical section. -/
def workerStop (stopPid : Pid) : List Action :=
  [.receive stopDaq [], .worker done, .worker { done with pid := some stopPid }, .worker done,
    .worker done]

end GramsTof.Dispatch
