import GramsTof.Descriptor.Ownership

/-! Connection attempts of one hub client while the rest of the process opens and
closes descriptors of its own. `serverFDs_` keeps the number of a connection that
was closed through `hubConnection_`; when `socket()` returns this number again,
`setServerFD` closes the new socket. -/

namespace GramsTof.Descriptor

open Lib Net

/-- Only this client and the rest of the process act, and descriptors that the client gets have the
lowest free number. -/
def Alone (h : Hub) (s : State) : Action → Prop
  | .hub g (.runNext (.fd n)) => g = h ∧ s.shared.fds.IsLowestFree n
  | .hub g _ => g = h
  | .daq _ => False
  | .otherOpen _ => True
  | .otherClose _ => True

instance (h : Hub) (s : State) (a : Action) : Decidable (Alone h s a) := by
  unfold Alone
  split <;> infer_instance

/-- From `socket` to `connect`. -/
def Run.connecting : Run → Bool
  | .socket => true
  | .register _ => true
  | .attempt _ => true
  | _ => false

variable {h : Hub} {sh sh' : Shared} {c c' : HubClient} {s s' : State}

/-- The steps that lead to or along an attempt. -/
inductive Connects (h : Hub) (sh : Shared) (c : HubClient) : Outcome → Shared → HubClient → Prop where
  | outer (sh' : Shared) (fd : ℤ) (hrun : c.run = .outer) (hrunning : c.running = true) :
      Connects h sh c .ok sh' { c with hub := false, fd := fd, run := .socket }
  | socket (n : ℤ) (hrun : c.run = .socket) (hfree : sh.fds.IsFree n) :
      Connects h sh c (.fd n) { sh with fds := sh.fds.openFD (.hub h) n } { c with run := .register n }
  | register (n : ℤ) (hrun : c.run = .register n) :
      Connects h sh c .ok (sh.managed (.hub h) (sh.manager.setServerFD h.kind n))
        { c with run := .attempt n }

theorem runStep_connects {o : Outcome} (hstep : runStep h sh c o = some (sh', c'))
    (hc : c'.run.connecting = true) : Connects h sh c o sh' c' := by
  obtain ⟨running, run, stop, hub, fd⟩ := c
  cases run with
  | outer =>
    cases o <;> simp only [runStep, reduceCtorEq] at hstep
    split_ifs at hstep with hrun hlock hhub
    · obtain ⟨sh₁, fd₁, heq, -, -⟩ := closeConnection_spec h sh ⟨running, .outer, stop, hub, fd⟩
      rw [heq] at hstep
      cases hstep
      exact .outer sh₁ fd₁ rfl hrun
    · cases hstep
      obtain rfl : hub = false := by simpa using hhub
      exact .outer sh fd rfl hrun
    · cases hstep
      cases hc
  | socket =>
    cases o <;> simp only [runStep, reduceCtorEq, Option.map_eq_some_iff] at hstep
    · cases hstep
      cases hc
    · obtain ⟨_, hopen, hpair⟩ := hstep
      cases hpair
      obtain ⟨hfree, rfl⟩ := opening_eq_some hopen
      exact .socket _ rfl hfree
  | register n =>
    cases o <;> simp only [runStep, reduceCtorEq] at hstep
    cases hstep
    exact .register n rfl
  | _ =>
    exfalso
    cases h <;> cases o <;> simp only [runStep, reduceCtorEq, Option.map_eq_some_iff] at hstep
    all_goals first
      | (cases hstep; cases hc)
      | (obtain ⟨_, _, hpair⟩ := hstep; cases hpair; cases hc)
      | (split_ifs at hstep <;> cases hstep <;> cases hc)

/-- While an attempt is made there is no connection object and `stop` holds nothing to close. -/
structure Quiet (c : HubClient) : Prop where
  hub : c.run.connecting = true → c.hub = false
  stop : c.run.connecting = true → c.stop ≠ .unregister ∧ ∀ n, c.stop ≠ .remove n

theorem quiet_run {o : Outcome} (hset : Settled h c) (hq : Quiet c)
    (hstep : runStep h sh c o = some (sh', c')) : Quiet c' := by
  by_cases hc : c'.run.connecting = true
  · cases runStep_connects hstep hc with
    | outer _ fd hrun hrunning =>
      refine ⟨fun _ => rfl, fun _ => ?_⟩
      rw [hset.idle hrunning]
      simp
    | socket n hrun hfree =>
      have hcon : c.run.connecting = true := by rw [hrun]; rfl
      exact ⟨fun _ => hq.hub hcon, fun _ => hq.stop hcon⟩
    | register n hrun =>
      have hcon : c.run.connecting = true := by rw [hrun]; rfl
      exact ⟨fun _ => hq.hub hcon, fun _ => hq.stop hcon⟩
  · exact ⟨fun h => absurd h hc, fun h => absurd h hc⟩

/-- While an attempt is made, `start` and `stop` change nothing that it depends on. -/
theorem control_quiet {a : HubAction} (ha : ∀ o, a ≠ .runNext o) (hq : Quiet c)
    (hstep : hubStep h sh c a = some (sh', c')) :
    Quiet c' ∧ (c'.run.connecting = true → sh' = sh ∧ c'.run = c.run) := by
  obtain ⟨running, run, stop, hub, fd⟩ := c
  cases a with
  | start =>
    simp only [hubStep] at hstep
    split_ifs at hstep <;> cases hstep
    · exact ⟨hq, fun _ => ⟨rfl, rfl⟩⟩
    · exact ⟨⟨fun hc => (by cases hc), fun hc => (by cases hc)⟩, fun hc => (by cases hc)⟩
  | stop =>
    simp only [hubStep] at hstep
    split_ifs at hstep <;> cases hstep
    · exact ⟨⟨hq.hub, fun _ => by simp⟩, fun _ => ⟨rfl, rfl⟩⟩
    · exact ⟨hq, fun _ => ⟨rfl, rfl⟩⟩
  | stopNext =>
    by_cases hc : run.connecting = true
    · have hhub : hub = false := hq.hub hc
      obtain ⟨hun, hrem⟩ := hq.stop hc
      cases stop with
      | idle => cases hstep
      | detach =>
        simp only [hubStep, stopStep, hhub, Bool.false_eq_true, if_false] at hstep
        cases hstep
        exact ⟨⟨fun _ => rfl, fun _ => by simp⟩, fun _ => ⟨rfl, rfl⟩⟩
      | remove n => exact absurd rfl (hrem n)
      | join =>
        simp only [hubStep, stopStep] at hstep
        split_ifs at hstep with hoff
        rw [hoff] at hc
        cases hc
      | unregister => exact absurd rfl hun
    · have hrun : c'.run = run := by
        cases stop <;> simp only [hubStep, stopStep, eraseConnection] at hstep
        · cases hstep
        · split_ifs at hstep <;> cases hstep <;> rfl
        · cases hstep; rfl
        · split_ifs at hstep; cases hstep; rfl
        · cases hstep; rfl
      rw [← hrun] at hc
      exact ⟨⟨fun h => absurd h hc, fun h => absurd h hc⟩, fun h => absurd h hc⟩
  | runNext o => exact absurd rfl (ha o)

/-- The client between its steps, its fresh socket open until it is registered. -/
structure Reconnecting (h : Hub) (s : State) : Prop where
  settled : Settled h (s.client h)
  quiet : Quiet (s.client h)
  fresh : ∀ n, (s.client h).run = .register n → s.shared.fds.owner n = some (.hub h)

/-- The descriptor passed to `connect` is the client's open socket. -/
def ConnectOpen (h : Hub) (s : State) : Prop :=
  ∀ n, (s.client h).run = .attempt n → s.shared.fds.owner n = some (.hub h)

/-- `setServerFD` does not find the number it is to store. -/
def NotStale (h : Hub) (s : State) (a : Action) : Prop :=
  ∀ n, a = .hub h (.runNext .ok) → (s.client h).run = .register n →
    ¬ (2 < n ∧ s.shared.server h.kind = n)

theorem reconnecting_initial (h : Hub) : Reconnecting h initial :=
  ⟨settled_initial h, ⟨fun hc => (by cases hc), fun hc => (by cases hc)⟩,
    fun n hn => (by cases hn)⟩

/-- The rest of the process leaves the client's descriptors alone. -/
theorem other_step {a : Action} (ha : ∀ a', a ≠ .hub h a') (halone : Alone h s a)
    (hstep : step s a = some s') :
    s'.client = s.client ∧
      ∀ n, s.shared.fds.owner n = some (.hub h) → s'.shared.fds.owner n = some (.hub h) := by
  cases a with
  | hub g a =>
    have hg : g = h := by
      cases a with
      | runNext o => cases o <;> first | exact halone | exact halone.1
      | _ => exact halone
    exact absurd rfl (hg ▸ ha a)
  | daq a => cases halone
  | otherOpen m =>
    obtain ⟨sh, hopen, rfl⟩ := Option.map_eq_some_iff.mp hstep
    obtain ⟨hfree, rfl⟩ := opening_eq_some hopen
    refine ⟨rfl, fun n hn => ?_⟩
    have hne : n ≠ m := by
      rintro rfl
      rw [hfree.2] at hn
      cases hn
    exact (Descriptors.openFD_of_ne _ _ hne).trans hn
  | otherClose m =>
    simp only [step] at hstep
    split_ifs at hstep with hm
    cases hstep
    refine ⟨rfl, fun n hn => ?_⟩
    have hne : n ≠ m := by
      rintro rfl
      rw [hm] at hn
      cases hn
    exact (Descriptors.closeFD_of_ne _ _ hne).trans hn

/-- After `setServerFD` the socket is open unless its number was already registered. -/
theorem register_owner {n : ℤ} (hn : sh.fds.owner n = some (.hub h)) :
    (sh.managed (.hub h) (sh.manager.setServerFD h.kind n)).fds.owner n = some (.hub h) ↔
      ¬ (2 < n ∧ sh.server h.kind = n) := by
  have hfds : (sh.managed (.hub h) (sh.manager.setServerFD h.kind n)).fds =
      sh.fds.closeAny (.hub h) (SafeFD.closing (sh.server h.kind)) := rfl
  rw [hfds]
  by_cases hold : 2 < sh.server h.kind
  · rw [closeAny_closing _ _ hold]
    by_cases heq : sh.server h.kind = n
    · rw [heq, Descriptors.closeFD_self]
      rw [heq] at hold
      simp [hold]
    · rw [Descriptors.closeFD_of_ne _ _ (Ne.symm heq)]
      simp [hn, heq]
  · rw [closeAny_standard _ _ (not_lt.mp hold)]
    simp only [hn, true_iff]
    rintro ⟨hlt, heq⟩
    exact hold (heq ▸ hlt)

theorem reconnecting_step {a : Action} (hs : Reconnecting h s) (halone : Alone h s a)
    (hstep : step s a = some s') :
    Reconnecting h s' ∧ (ConnectOpen h s → NotStale h s a → ConnectOpen h s') := by
  by_cases ha : ∃ a', a = .hub h a'
  · obtain ⟨a, rfl⟩ := ha
    obtain ⟨⟨sh, c⟩, hhub, rfl⟩ := Option.map_eq_some_iff.mp hstep
    have hset : Settled h c := settled_hubStep hs.settled hhub
    by_cases hrun : ∃ o, a = .runNext o
    · obtain ⟨o, rfl⟩ := hrun
      have hq := quiet_run hs.settled hs.quiet hhub
      refine ⟨⟨by simpa using hset, by simpa using hq, fun n hn => ?_⟩, fun hopen hstale n hn => ?_⟩
      · simp only [Function.update_self] at hn
        cases runStep_connects hhub (by rw [hn]; rfl) with
        | outer => cases hn
        | socket m hrun hfree =>
          cases hn
          exact Descriptors.openFD_self _ _ _
        | register => cases hn
      · simp only [Function.update_self] at hn
        cases runStep_connects hhub (by rw [hn]; rfl) with
        | outer => cases hn
        | socket => cases hn
        | register m hrun =>
          cases hn
          exact (register_owner (hs.fresh n hrun)).mpr (hstale n rfl hrun)
    · obtain ⟨hq, hkeep⟩ := control_quiet (fun o ho => hrun ⟨o, ho⟩) hs.quiet hhub
      refine ⟨⟨by simpa using hset, by simpa using hq, fun n hn => ?_⟩, fun hopen hstale n hn => ?_⟩
      · simp only [Function.update_self] at hn
        obtain ⟨rfl, hsame⟩ := hkeep (by rw [hn]; rfl)
        exact hs.fresh n (hsame ▸ hn)
      · simp only [Function.update_self] at hn
        obtain ⟨rfl, hsame⟩ := hkeep (by rw [hn]; rfl)
        exact hopen n (hsame ▸ hn)
  · obtain ⟨hclient, howner⟩ := other_step (fun a' h' => ha ⟨a', h'⟩) halone hstep
    refine ⟨⟨?_, ?_, fun n hn => ?_⟩, fun hopen _ n hn => ?_⟩
    · rw [hclient]; exact hs.settled
    · rw [hclient]; exact hs.quiet
    · rw [hclient] at hn; exact howner n (hs.fresh n hn)
    · rw [hclient] at hn; exact howner n (hopen n hn)

theorem reconnecting_steps {as : List Action} (h : Hub) (hsteps : machine.Steps (Alone h) initial as s) :
    Reconnecting h s := by
  induction hsteps with
  | nil => exact reconnecting_initial h
  | snoc _ halone hstep ih => exact (reconnecting_step ih halone hstep).1

theorem connectOpen_steps {as p : List Action} (h : Hub)
    (hstale : ∀ p a t u, p ++ [a] <+: as → machine.Steps (Alone h) initial p t → Alone h t a →
      machine.step t a = some u → NotStale h t a)
    (hp : p <+: as) (hsteps : machine.Steps (Alone h) initial p s) : ConnectOpen h s := by
  induction hsteps with
  | nil => exact fun n hn => by cases hn
  | snoc hprev halone hstep ih =>
    have hopen := ih ((List.prefix_append _ _).trans hp)
    exact (reconnecting_step (reconnecting_steps h hprev) halone hstep).2 hopen
      (hstale _ _ _ _ hp hprev halone hstep)

/-- Registering a number found in `serverFDs_` leaves the descriptor passed to `connect` closed. -/
theorem notStale_of_connectOpen {a : Action} (hs : Reconnecting h s) (hstep : step s a = some s')
    (hopen : ConnectOpen h s') : NotStale h s a := by
  intro n ha hrun
  subst ha
  simp only [step, hubStep, runStep, hrun, Option.map_some, Option.some.injEq] at hstep
  subst hstep
  exact (register_owner (hs.fresh n hrun)).mp (hopen n (by simp))

/-- The number that `socket` hands out is the one found by `setServerFD` exactly when this was the
lowest free one. -/
theorem stale_iff_lowestFree {n : ℤ} (halone : Alone h s (.hub h (.runNext (.fd n))))
    (hrun : (s.client h).run = .socket) (hstep : step s (.hub h (.runNext (.fd n))) = some s') :
    (2 < n ∧ s'.shared.server h.kind = n) ↔
      2 < s.shared.server h.kind ∧ s.shared.fds.IsLowestFree (s.shared.server h.kind) := by
  have hlow : s.shared.fds.IsLowestFree n := halone.2
  have hserver : s'.shared.server h.kind = s.shared.server h.kind := by
    obtain ⟨⟨sh, c⟩, hhub, rfl⟩ := Option.map_eq_some_iff.mp hstep
    simp only [hubStep, runStep, hrun, Option.map_eq_some_iff] at hhub
    obtain ⟨sh₁, hopen, hpair⟩ := hhub
    cases hpair
    obtain ⟨-, rfl⟩ := opening_eq_some hopen
    rfl
  rw [hserver]
  constructor
  · rintro ⟨hlt, rfl⟩
    exact ⟨hlt, hlow⟩
  · rintro ⟨hlt, hlow'⟩
    have heq := hlow'.unique hlow
    exact ⟨heq ▸ hlt, heq⟩

/-- In a history of one client, the descriptor passed to each `connect` is open exactly when no
`setServerFD` finds the number it is to store, that is, when no `socket` is called while the number
left in `serverFDs_` is the lowest free one. -/
theorem connectOpen_iff_not_stale (h : Hub) :
    (∀ as : List Action,
      (∀ p t, p <+: as → machine.Steps (Alone h) initial p t → ConnectOpen h t) ↔
        ∀ p a t u, p ++ [a] <+: as → machine.Steps (Alone h) initial p t → Alone h t a →
          machine.step t a = some u → NotStale h t a) ∧
    ∀ (s s' : State) (n : ℤ), Alone h s (.hub h (.runNext (.fd n))) → (s.client h).run = .socket →
      machine.step s (.hub h (.runNext (.fd n))) = some s' →
      ((2 < n ∧ s'.shared.server h.kind = n) ↔
        2 < s.shared.server h.kind ∧ s.shared.fds.IsLowestFree (s.shared.server h.kind)) := by
  refine ⟨fun as => ⟨fun hopen p a t u hp hsteps halone hstep => ?_, fun hstale p t hp hsteps => ?_⟩,
    fun s s' n halone hrun hstep => stale_iff_lowestFree halone hrun hstep⟩
  · exact notStale_of_connectOpen (reconnecting_steps h hsteps) hstep
      (hopen _ _ hp (.snoc hsteps halone hstep))
  · exact connectOpen_steps h hstale hp hsteps

/-- The event client loses its connection on descriptor 3 and tries again. -/
def reconnectRun : List Action :=
  [.otherOpen 0, .otherOpen 1, .otherOpen 2] ++ lossRun ++
    [.hub .event (.runNext .ok), .hub .event (.runNext (.fd 3)), .hub .event (.runNext .ok)]

theorem not_connectOpen :
    ¬ ∀ s, machine.Reach (Alone .event) s → ConnectOpen .event s := by
  intro h
  have hend : (machine.runIn (Alone .event) initial reconnectRun).map
      (fun s => ((s.client .event).run, s.shared.fds.owner 3)) = some (.attempt 3, none) := by decide
  obtain ⟨s, hrun, hs⟩ := Option.map_eq_some_iff.mp hend
  cases hs' : (s.client .event).run <;> simp [hs'] at hs
  obtain ⟨rfl, hclosed⟩ := hs
  have hopen := h s (Machine.Reach.runIn (.init rfl) hrun) 3 hs'
  rw [hclosed] at hopen
  cases hopen

end GramsTof.Descriptor
