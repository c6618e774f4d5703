import GramsTof.Daq.Manager
import GramsTof.Lib.Machine

/-! `globalUserStop` between the DAQ thread and those that stop it. The thread resets
the flag at the beginning of `run`, after `START_DAQ` has reported success. -/

namespace GramsTof.Daq

open Lib

/-- Where the DAQ thread is. -/
inductive Runner where
  /-- There is none, or it has been joined. -/
  | absent
  /-- At `if (!frameServer_)`. -/
  | entry
  /-- At `globalUserStop.store(false)`. -/
  | clearing
  /-- In `pollSocket`, at `epoll_create` and `epoll_ctl`. -/
  | setup
  /-- At `while (!globalUserStop.load())`. -/
  | check
  | iterating
  | closing
  | returned
  deriving DecidableEq, Repr

/-- Joining the thread does not wait. -/
def Runner.gone : Runner → Bool
  | absent | returned => true
  | _ => false

structure State where
  manager : Manager
  userStop : Bool
  runner : Runner
  deriving DecidableEq, Repr

inductive Action where
  /-- `START_DAQ` from its join on. -/
  | start (a : Answers)
  /-- `DAQManager::stop`. -/
  | stop
  /-- `catchUserStop`. -/
  | signal
  /-- The DAQ thread takes a step; `ok` when the epoll set is ready. -/
  | thread (ok : Bool)

def State.threadStep (s : State) (ok : Bool) : Option State :=
  match s.runner with
  | .absent | .returned => none
  | .entry =>
    some { s with runner := if s.manager.frameServer.isSome then .clearing else .returned }
  | .clearing => some { s with userStop := false, runner := .setup }
  | .setup => some { s with runner := if ok then .check else .returned }
  | .check => some { s with runner := if s.userStop then .closing else .iterating }
  | .iterating => some { s with runner := .check }
  | .closing => some { s with runner := .returned }

def State.start (s : State) (a : Answers) : State :=
  { s with
    manager := (s.manager.initializeDaq a).1
    runner := if (s.manager.initializeDaq a).2 = .returned true then .entry else .absent }

def step (s : State) : Action → Option State
  | .start a => if s.runner.gone then some (s.start a) else none
  | .stop | .signal => some { s with userStop := true }
  | .thread ok => s.threadStep ok

def machine : Machine State Action where
  init s := ∃ daqType daqCards, s = ⟨.new daqType daqCards, false, .absent⟩
  step := step

/-- Since the last `START_DAQ` that succeeded. -/
structure Since where
  /-- `stop` has been called. -/
  stopped : Bool
  /-- Iterations that the poll loop has begun after that. -/
  iterations : ℕ
  deriving DecidableEq, Repr

def Since.track (s : State) (a : Action) (s' : State) (w : Since) : Since :=
  match a with
  | .start _ => if s'.runner = .entry then ⟨false, 0⟩ else w
  | .stop => { w with stopped := true }
  | .signal => w
  | .thread _ =>
    if w.stopped ∧ s.runner = .check ∧ s'.runner = .iterating then
      { w with iterations := w.iterations + 1 }
    else w

def stopMachine : Machine (State × Since) Action := machine.withHistory ⟨false, 0⟩ Since.track

/-- The DAQ thread runs alone for as many steps as `oks` has. -/
def State.runThread (s : State) : List Bool → State
  | [] => s
  | ok :: oks => ((s.threadStep ok).getD s).runThread oks

/-- A stop since the last start stands: the loop reads it at its next check, begins no iteration,
and the thread is gone after at most three steps of its own. -/
structure StopKept (p : State × Since) : Prop where
  seen : p.2.stopped = true → p.1.userStop = true
  last : p.2.iterations = 0
  joins : p.2.stopped = true → ∀ oks : List Bool, 3 ≤ oks.length → (p.1.runThread oks).runner.gone

/-- The thread has yet to reset the flag. -/
def Runner.pending : Runner → Bool
  | entry | clearing => true
  | _ => false

/-- No `stop` comes between the return of `START_DAQ` and the thread's reset of the flag. -/
def Heard (p : State × Since) : Action → Prop
  | .stop => p.1.runner.pending = false
  | _ => True

instance (p : State × Since) (a : Action) : Decidable (Heard p a) := by
  cases a <;> unfold Heard <;> infer_instance

/-! ### The thread alone -/

/-- The steps of its own that the thread has left once the flag is set. -/
def Runner.rest : Runner → ℕ
  | absent | returned => 0
  | closing => 1
  | check => 2
  | _ => 3

theorem Runner.gone_of_rest {r : Runner} (h : r.rest = 0) : r.gone = true := by
  cases r <;> first | rfl | cases h

section Steps

variable {s s' : State} {w : Since} {ok : Bool}

theorem threadStep_stopped (hs : s.userStop = true) (hp : s.runner.pending = false)
    (h : s.threadStep ok = some s') :
    s'.userStop = true ∧ s'.runner.pending = false ∧ s'.runner.rest + 1 ≤ s.runner.rest ∧
      ¬ (s.runner = .check ∧ s'.runner = .iterating) := by
  unfold State.threadStep at h
  split at h <;> cases h
  all_goals rename_i hr; rw [hr] at hp ⊢
  · cases hp
  · cases hp
  · cases ok <;> simp [hs, Runner.pending, Runner.rest]
  · simp [hs, Runner.pending, Runner.rest]
  · simp [hs, Runner.pending, Runner.rest]
  · simp [hs, Runner.pending, Runner.rest]

theorem threadStep_none (h : s.threadStep ok = none) : s.runner.gone = true := by
  unfold State.threadStep at h
  split at h <;> cases h
  all_goals rename_i hr; rw [hr]; rfl

theorem runThread_gone (hr : s.runner.gone = true) (oks : List Bool) :
    (s.runThread oks).runner.gone = true := by
  have hstay (ok : Bool) : (s.threadStep ok).getD s = s := by
    unfold State.threadStep
    cases hs : s.runner <;> rw [hs] at hr <;> first | rfl | cases hr
  induction oks with
  | nil => exact hr
  | cons ok oks ih => rw [State.runThread, hstay]; exact ih

/-- With the flag set and its reset behind it, the thread is gone after the steps it has left. -/
theorem runThread_stopped {oks : List Bool} (hs : s.userStop = true)
    (hp : s.runner.pending = false) (hn : s.runner.rest ≤ oks.length) :
    (s.runThread oks).runner.gone = true := by
  induction oks generalizing s with
  | nil => exact Runner.gone_of_rest (Nat.le_zero.mp hn)
  | cons ok oks ih =>
    rw [State.runThread]
    cases hstep : s.threadStep ok with
    | none => exact runThread_gone (threadStep_none hstep) oks
    | some s' =>
      obtain ⟨hs', hp', hrest, -⟩ := threadStep_stopped hs hp hstep
      rw [List.length_cons] at hn
      exact ih hs' hp' (by rw [Option.getD_some]; omega)

end Steps

/-! ### Stops and starts -/

/-- Once heard, a stop stands until the next start. -/
structure Standing (p : State × Since) : Prop where
  seen : p.2.stopped = true → p.1.userStop = true
  behind : p.2.stopped = true → p.1.runner.pending = false
  last : p.2.iterations = 0

theorem Standing.kept {p : State × Since} (h : Standing p) : StopKept p where
  seen := h.seen
  last := h.last
  joins hs oks hn := by
    refine runThread_stopped (h.seen hs) (h.behind hs) (Nat.le_trans ?_ hn)
    cases p.1.runner <;> decide

theorem Standing.step {s s' : State} {w : Since} {a : Action} (hi : Standing (s, w))
    (hg : Heard (s, w) a) (h : step s a = some s') : Standing (s', Since.track s a s' w) := by
  cases a with
  | start a =>
    simp only [Daq.step] at h
    split_ifs at h
    cases h
    simp only [Since.track]
    split_ifs with hentry
    · exact ⟨nofun, nofun, rfl⟩
    · refine ⟨hi.seen, fun _ => ?_, hi.last⟩
      simp only [State.start] at hentry ⊢
      split_ifs at hentry ⊢
      · exact absurd rfl hentry
      · rfl
  | stop =>
    cases h
    exact ⟨fun _ => rfl, fun _ => hg, hi.last⟩
  | signal =>
    cases h
    exact ⟨fun _ => rfl, hi.behind, hi.last⟩
  | thread ok =>
    simp only [Since.track]
    cases hw : w.stopped with
    | false =>
      rw [if_neg (by simp)]
      exact ⟨fun hs => by simp [hw] at hs, fun hs => by simp [hw] at hs, hi.last⟩
    | true =>
      obtain ⟨hs', hp', -, hnot⟩ := threadStep_stopped (hi.seen hw) (hi.behind hw) h
      rw [if_neg fun hc => hnot hc.2]
      exact ⟨fun _ => hs', fun _ => hp', hi.last⟩

theorem initializeDaq_frameServer {m m' : Manager} {a : Answers}
    (h : m.initializeDaq a = (m', .returned true)) : m'.frameServer.isSome = true := by
  obtain ⟨-, hbuild⟩ := Manager.initializeDaq_returned h
  rcases Manager.buildServer_returned hbuild with ⟨-, rfl⟩ | ⟨-, m₁, -, rfl⟩
  · rfl
  · rfl

theorem threadStep_entry {s s' : State} {ok : Bool} (h : s.threadStep ok = some s') :
    s'.runner ≠ .entry := by
  unfold State.threadStep at h
  split at h <;> cases h
  · cases hf : s.manager.frameServer <;> simp
  · simp
  · cases ok <;> simp
  · cases hu : s.userStop <;> simp
  · simp
  · simp

/-- A started thread finds its frame server. -/
theorem entry_frameServer {s : State} (h : machine.Reachable s) (he : s.runner = .entry) :
    s.manager.frameServer.isSome = true := by
  refine h.invariant (I := fun s => s.runner = .entry → s.manager.frameServer.isSome = true)
    ?_ ?_ he
  · rintro s ⟨daqType, daqCards, rfl⟩ h
    cases h
  · intro s a s' hi _ hstep
    cases a with
    | start a =>
      simp only [machine, step] at hstep
      split_ifs at hstep
      cases hstep
      intro hentry
      simp only [State.start] at hentry
      split_ifs at hentry with hok
      exact initializeDaq_frameServer (Prod.ext rfl hok)
    | stop | signal => cases hstep; exact hi
    | thread ok => exact fun he => absurd he (threadStep_entry hstep)

/-- A stop that comes too early: the thread's next steps take it back. -/
theorem stop_lost {p : State × Since} (h : stopMachine.Reachable p)
    (hp : p.1.runner.pending = true) :
    ∃ as q, stopMachine.run p (.stop :: as) = some q ∧ q.2.stopped = true ∧
      q.1.userStop = false := by
  obtain ⟨⟨m, u, r⟩, w⟩ := p
  cases r with
  | entry =>
    have hserver : m.frameServer.isSome = true := entry_frameServer h.of_history rfl
    refine ⟨[.thread true, .thread true], (⟨m, false, .setup⟩, { w with stopped := true }), ?_, rfl,
      rfl⟩
    simp [Machine.run, stopMachine, Machine.withHistory, machine, step, State.threadStep,
      Since.track, hserver]
  | clearing =>
    exact ⟨[.thread true], (⟨m, false, .setup⟩, { w with stopped := true }), rfl, rfl, rfl⟩
  | _ => cases hp

/-- In every run in which no stop comes before the thread's reset of the flag, every stop stands
until the next start; a stop that does come before it is taken back by the thread. -/
theorem stop_kept (p : State × Since) :
    (stopMachine.Reach Heard p → StopKept p) ∧
    (stopMachine.Reachable p → p.1.runner.pending = true →
      ∃ as q, stopMachine.run p (.stop :: as) = some q ∧ ¬ StopKept q) := by
  refine ⟨fun h => ?_, fun h hp => ?_⟩
  · refine (h.invariant_history (I := Standing) ?_ fun s w a s' hi hg hs => hi.step hg hs).kept
    exact fun s _ => ⟨nofun, nofun, rfl⟩
  · obtain ⟨as, q, hrun, hstopped, hdown⟩ := stop_lost h hp
    refine ⟨as, q, hrun, fun hkept => ?_⟩
    rw [hkept.seen hstopped] at hdown
    cases hdown

/-- A start, the thread up to its first check, and a stop. -/
def heardRun : List Action :=
  [.start allDone, .thread true, .thread true, .thread true, .stop]

theorem stop_kept_gbe :
    ∃ p, stopMachine.Reach Heard p ∧ p.2.stopped = true ∧ p.1.userStop = true := by
  have hend : (stopMachine.runIn Heard (⟨.new "GBE" [], false, .absent⟩, ⟨false, 0⟩) heardRun).map
      (·.2.stopped) = some true := by decide
  obtain ⟨p, hrun, hs⟩ := Option.map_eq_some_iff.mp hend
  have h : stopMachine.Reach Heard p :=
    Machine.Reach.runIn (.init (s := (⟨.new "GBE" [], false, .absent⟩, ⟨false, 0⟩))
      ⟨⟨"GBE", [], rfl⟩, rfl⟩) hrun
  exact ⟨p, h, hs, ((stop_kept p).1 h).seen hs⟩

/-- The stop comes right after the start: the thread goes on polling. -/
theorem not_stop_kept : ¬ ∀ p, stopMachine.Reachable p → StopKept p := by
  intro h
  obtain ⟨p, hp, hlost⟩ := stopMachine.exists_reachable_of_run
    (⟨.new "GBE" [], false, .absent⟩, ⟨false, 0⟩) (fun p => p.2.iterations = 1)
    [.start allDone, .stop, .thread true, .thread true, .thread true, .thread true]
    ⟨⟨"GBE", [], rfl⟩, rfl⟩ (by decide)
  have hone := of_decide_eq_true hlost
  rw [(h p hp).last] at hone
  cases hone

end GramsTof.Daq
