import GramsTof.Descriptor.System

/-! Which closes of the components are of their own descriptors. A number above 2
that is registered with the manager has two holders, `serverFDs_` and the
connection object or a raw `::close`; the first to give it up closes it, the
second closes whatever has the number by then. -/

namespace GramsTof.Descriptor

open Lib Net

/-- The number that the next step of `run` takes out of a `SafeFD`. -/
def givenUpByRun (h : Hub) (sh : Shared) (c : HubClient) : Option ℤ :=
  match c.run with
  | .register _ => some (sh.server h.kind)
  | .unregister => some (sh.server h.kind)
  | .final => some (sh.server h.kind)
  | .outer => if c.running && c.hub then some c.fd else none
  | .drop => if c.hub then some c.fd else none
  | .erase n _ => some n
  | _ => none

/-- The number that the next step of `stop` takes out of a `SafeFD`. -/
def givenUpByStop (h : Hub) (sh : Shared) (c : HubClient) : Option ℤ :=
  match c.stop with
  | .remove n => some n
  | .unregister => some (sh.server h.kind)
  | _ => none

/-- A number that a `SafeFD` would not close, or that the connection object and `serverFDs_` both
still hold. -/
def StillHeld (h : Hub) (sh : Shared) (c : HubClient) (n : ℤ) : Prop :=
  n ≤ 2 ∨ c.fd = n ∧ sh.server h.kind = n

/-- The `epoll_fd` that the next step of `run` closes. -/
def Run.epollClosed : Run → Option ℤ
  | .closeEpollDrop e => some e
  | .closeEpoll e => some e
  | _ => none

/-- No step gives a number up a second time, and no `epoll_fd` closed is `-1`. -/
def Guard (s : State) : Action → Prop
  | .hub h (.runNext _) =>
    (∀ n ∈ givenUpByRun h s.shared (s.client h), StillHeld h s.shared (s.client h) n) ∧
      ∀ e ∈ (s.client h).run.epollClosed, 0 ≤ e
  | .hub h .stopNext =>
    ∀ n ∈ givenUpByStop h s.shared (s.client h), StillHeld h s.shared (s.client h) n
  | .daq (.next .ok) => s.daq = .removeServer → s.shared.server .daq ≤ 2
  | _ => True

instance (s : State) (a : Action) : Decidable (Guard s a) := by
  unfold Guard StillHeld
  split <;> infer_instance

/-! ### Live numbers -/

/-- A local `epoll_fd`. -/
def epollLive (e : ℤ) : List ℤ := if 0 ≤ e then [e] else []

/-- The command client keeps `connected_fd` to itself until epoll is set up. -/
def rawLive (h : Hub) (n : ℤ) : List ℤ :=
  match h with
  | .command => [n]
  | .event => []

/-- The numbers open in local variables of `run` only. -/
def Run.live (h : Hub) : Run → List ℤ
  | .register n => [n]
  | .attempt n => [n]
  | .giveUp n => [n]
  | .connected n => [n]
  | .epollCreate n => rawLive h n
  | .epollAdd n e => rawLive h n ++ epollLive e
  | .adopt n e => n :: epollLive e
  | .abandon n e => n :: epollLive e
  | .closeEpollDrop e => epollLive e
  | .read e => epollLive e
  | .hangUp e => epollLive e
  | .erase _ e => epollLive e
  | .reset e => epollLive e
  | .closeEpoll e => epollLive e
  | _ => []

/-- The number of an established connection while both holders have it. -/
def connectionLive (fd server : ℤ) : List ℤ := if 2 < fd ∧ server = fd then [fd] else []

def HubClient.live (h : Hub) (server : ℤ) (c : HubClient) : List ℤ :=
  c.run.live h ++ connectionLive c.fd server

def Daq.locals : Daq → List ℤ
  | .bind n => [n]
  | .closeSocket n => [n]
  | .register n => [n]
  | .epollAdd e => [e]
  | .quit e => [e]
  | .poll e cs => e :: cs
  | .accepted e cs n => n :: e :: cs
  | .refuse e cs n => n :: e :: cs
  | .clear e cs => e :: cs
  | .closeEpoll e => [e]
  | _ => []

/-- The registered listening socket. -/
def serverHeld (server : ℤ) : List ℤ := if 0 ≤ server then [server] else []

def Daq.live (server : ℤ) (d : Daq) : List ℤ :=
  d.locals ++ if d = .removeServer then [] else serverHeld server

def live (s : State) : Component → List ℤ
  | .hub h => (s.client h).live h (s.shared.server h.kind)
  | .daq => s.daq.live (s.shared.server .daq)
  | .other => []

/-! ### What a step of a hub client does -/

/-- `run` has no open connection object: it is making a connection, or has just closed one. -/
def Run.bare (h : Hub) : Run → Bool
  | .socket => true
  | .register _ => true
  | .attempt _ => true
  | .giveUp _ => true
  | .unregister => true
  | .connected _ => true
  | .epollCreate _ => h == .command
  | .epollAdd _ _ => h == .command
  | .adopt _ _ => h == .command
  | .abandon _ _ => h == .command
  | .reset _ => true
  | _ => false

/-- The number `n` is given up by a `SafeFD`, if a client is registered under it. -/
structure Released (h : Hub) (sh sh' : Shared) (n : ℤ) : Prop where
  server : ∀ k, sh'.server k = sh.server k
  fds : sh'.fds = sh.fds ∨ sh'.fds = sh.fds.closeAny (.hub h) (SafeFD.closing n)

/-- `serverFDs_[kind]` gives its number up for `new`. -/
structure Replaced (h : Hub) (sh sh' : Shared) (new : ℤ) : Prop where
  server : ∀ k, sh'.server k = if k = h.kind then new else sh.server k
  fds : sh'.fds = sh.fds.closeAny (.hub h) (SafeFD.closing (sh.server h.kind))

/-- The kinds of steps of `run`. -/
inductive RunMove (h : Hub) (sh : Shared) (c : HubClient) : Shared → HubClient → Prop where
  | goto (r : Run) (hlive : (r.live h).Subperm (c.run.live h))
      (hbare : r.bare h = true →
        c.run.bare h = true ∨ c.fd < 0 ∨ c.running = true ∧ c.hub = false) :
      RunMove h sh c sh { c with run := r }
  | opens (n : ℤ) (r : Run) (hfree : sh.fds.IsFree n)
      (hlive : (r.live h).Subperm (n :: c.run.live h))
      (hbare : r.bare h = true → c.run.bare h = true) :
      RunMove h sh c { sh with fds := sh.fds.openFD (.hub h) n } { c with run := r }
  | closes (n : ℤ) (r : Run)
      (hlive : (∀ e ∈ c.run.epollClosed, 0 ≤ e) → (n :: r.live h).Subperm (c.run.live h))
      (hbare : r.bare h = true → c.run.bare h = true) :
      RunMove h sh c (sh.closing (.hub h) n) { c with run := r }
  | adopts (sh' : Shared) (n : ℤ) (r : Run) (hfds : sh'.fds = sh.fds)
      (hserver : ∀ k, sh'.server k = sh.server k) (hlive : (n :: r.live h).Subperm (c.run.live h))
      (hbare : r.bare h = false) :
      RunMove h sh c sh' { c with hub := true, fd := n, run := r }
  | releases (sh' : Shared) (n fd : ℤ) (hub : Bool) (r : Run)
      (hgive : givenUpByRun h sh c = some n) (hrel : Released h sh sh' n) (hfd : fd < 0)
      (hlive : (r.live h).Subperm (c.run.live h)) :
      RunMove h sh c sh' { c with hub := hub, fd := fd, run := r }
  | resets (r : Run) (hrun : c.run.bare h = true) (hlive : (r.live h).Subperm (c.run.live h))
      (hbare : r.bare h = false) : RunMove h sh c sh { c with hub := false, run := r }
  | replaces (sh' : Shared) (new : ℤ) (r : Run) (hgive : givenUpByRun h sh c = some (sh.server h.kind))
      (hrep : Replaced h sh sh' new) (hnew : new = -1 ∨ c.run.bare h = true)
      (hlive : (r.live h).Subperm (c.run.live h))
      (hbare : r.bare h = true → c.run.bare h = true) :
      RunMove h sh c sh' { c with run := r }

variable {h : Hub} {sh sh' : Shared} {c c' : HubClient}

theorem released_remove (h : Hub) (sh : Shared) (n : ℤ) :
    Released h sh (sh.managed (.hub h) (sh.manager.removeClientFD n)) n := by
  refine ⟨fun k => ?_, ?_⟩
  · simp [Shared.managed, Shared.server]
  · rcases sh.manager.removeClientFD_closed n with hnone | hsome
    · exact .inl (by simp [Shared.managed, hnone, Descriptors.closeAny])
    · exact .inr (by simp only [Shared.managed, hsome])

theorem closeConnection_spec (h : Hub) (sh : Shared) (c : HubClient) :
    ∃ sh' fd, closeConnection h sh c = (sh', { c with fd := fd }) ∧ fd < 0 ∧
      Released h sh sh' c.fd := by
  simp only [closeConnection, Client.closeFD]
  split_ifs with hfd
  · exact ⟨_, _, rfl, neg_one_lt_zero, released_remove h sh c.fd⟩
  · exact ⟨_, _, rfl, not_le.mp hfd, fun _ => rfl, .inl rfl⟩

theorem adoptConnection_spec (sh : Shared) (c : HubClient) (n : ℤ) :
    ∃ sh', adoptConnection sh c n = (sh', { c with hub := true, fd := n }) ∧ sh'.fds = sh.fds ∧
      ∀ k, sh'.server k = sh.server k := by
  simp only [adoptConnection, Client.new]
  split_ifs with hn
  · exact ⟨_, rfl, rfl, fun k => by simp [Shared.server]⟩
  · exact ⟨_, rfl, rfl, fun _ => rfl⟩

theorem replaced_remove (h : Hub) (sh : Shared) :
    Replaced h sh (sh.managed (.hub h) (sh.manager.removeServerFD h.kind)) (-1) :=
  ⟨sh.manager.removeServerFD_server h.kind, rfl⟩

theorem replaced_set (h : Hub) (sh : Shared) (n : ℤ) :
    Replaced h sh (sh.managed (.hub h) (sh.manager.setServerFD h.kind n)) n :=
  ⟨fun k => sh.manager.setServerFD_server h.kind k n, rfl⟩

theorem opening_eq_some {who : Component} {n : ℤ} (hopen : sh.opening who n = some sh') :
    sh.fds.IsFree n ∧ sh' = { sh with fds := sh.fds.openFD who n } := by
  rw [Shared.opening] at hopen
  split_ifs at hopen with hfree
  cases hopen
  exact ⟨hfree, rfl⟩

theorem epollLive_subperm (e : ℤ) : (epollLive e).Subperm [e] := by
  rw [epollLive]
  split_ifs
  · exact List.Subperm.refl _
  · exact List.nil_subperm

theorem runStep_move {o : Outcome} (hstep : runStep h sh c o = some (sh', c')) :
    RunMove h sh c sh' c' := by
  have hsub : ∀ {l l' : List ℤ}, l.Sublist l' → l.Subperm l' := List.Sublist.subperm
  obtain ⟨running, run, stop, hub, fd⟩ := c
  cases run with
  | off => cases hstep
  | outer =>
    cases o <;> simp only [runStep, reduceCtorEq] at hstep
    split_ifs at hstep with hrun hlock hhub
    · obtain ⟨sh₁, fd₁, heq, hfd, hrel⟩ := closeConnection_spec h sh ⟨running, .outer, stop, hub, fd⟩
      rw [heq] at hstep
      cases hstep
      exact .releases _ _ _ _ _ (by simp [givenUpByRun, hrun, hhub]) hrel hfd (hsub (by simp [Run.live]))
    · cases hstep
      exact .goto _ (hsub (by simp [Run.live])) fun _ => .inr (.inr ⟨hrun, by simpa using hhub⟩)
    · cases hstep
      exact .goto _ (hsub (by simp [Run.live])) (by simp [Run.bare])
  | socket =>
    cases o <;> simp only [runStep, reduceCtorEq, Option.map_eq_some_iff] at hstep
    · cases hstep
      exact .goto _ (hsub (by simp [Run.live])) (by simp [Run.bare])
    · obtain ⟨_, hopen, hpair⟩ := hstep
      cases hpair
      obtain ⟨hfree, rfl⟩ := opening_eq_some hopen
      exact .opens _ _ hfree (hsub (by simp [Run.live])) (by simp [Run.bare])
  | register n =>
    cases o <;> simp only [runStep, reduceCtorEq] at hstep
    cases hstep
    exact .replaces _ n _ rfl (replaced_set h sh n) (.inr rfl) (hsub (by simp [Run.live]))
      (by simp [Run.bare])
  | attempt n =>
    cases o <;> simp only [runStep, reduceCtorEq] at hstep <;> cases hstep <;>
      exact .goto _ (hsub (by simp [Run.live])) (by simp [Run.bare])
  | giveUp n =>
    cases o <;> simp only [runStep, reduceCtorEq] at hstep
    cases hstep
    exact .closes n _ (fun _ => hsub (by simp [Run.live])) (by simp [Run.bare])
  | unregister =>
    cases o <;> simp only [runStep, reduceCtorEq] at hstep
    cases hstep
    exact .replaces _ (-1) _ rfl (replaced_remove h sh) (.inl rfl) (hsub (by simp [Run.live]))
      (by simp [Run.bare])
  | connected n =>
    cases o <;> simp only [runStep, reduceCtorEq] at hstep
    cases h with
    | command =>
      cases hstep
      exact .goto _ (hsub (by simp [Run.live, rawLive])) (by simp [Run.bare])
    | event =>
      simp only at hstep
      split_ifs at hstep
      obtain ⟨sh₁, heq, hfds, hserver⟩ := adoptConnection_spec sh ⟨running, .connected n, stop, hub, fd⟩ n
      rw [heq] at hstep
      cases hstep
      exact .adopts _ _ _ hfds hserver (hsub (by simp [Run.live, rawLive])) rfl
  | epollCreate n =>
    cases o <;> simp only [runStep, reduceCtorEq, Option.map_eq_some_iff] at hstep
    · cases h <;> cases hstep
      · exact .goto _ (hsub (by simp [Run.live, epollLive])) (by simp [Run.bare])
      · exact .goto _ (hsub (by simp [Run.live])) (by simp [Run.bare])
    · obtain ⟨_, hopen, hpair⟩ := hstep
      cases hpair
      obtain ⟨hfree, rfl⟩ := opening_eq_some hopen
      refine .opens _ _ hfree ?_ (by simp [Run.bare])
      exact (List.Subperm.append (List.Subperm.refl _) (epollLive_subperm _)).trans
        (List.perm_append_singleton _ _).subperm
  | epollAdd n e =>
    cases o <;> simp only [runStep, reduceCtorEq] at hstep
    · split_ifs at hstep
      cases h <;> cases hstep <;> exact .goto _ (hsub (by simp [Run.live, rawLive])) (by simp [Run.bare])
    · cases h <;> cases hstep <;> exact .goto _ (hsub (by simp [Run.live, rawLive])) (by simp [Run.bare])
  | adopt n e =>
    cases o <;> simp only [runStep, reduceCtorEq] at hstep
    split_ifs at hstep
    obtain ⟨sh₁, heq, hfds, hserver⟩ := adoptConnection_spec sh ⟨running, .adopt n e, stop, hub, fd⟩ n
    rw [heq] at hstep
    cases hstep
    exact .adopts _ _ _ hfds hserver (hsub (by simp [Run.live])) rfl
  | abandon n e =>
    cases o <;> simp only [runStep, reduceCtorEq] at hstep
    cases hstep
    exact .closes n _ (fun _ => hsub (by simp [Run.live])) (by simp [Run.bare])
  | closeEpollDrop e =>
    cases o <;> simp only [runStep, reduceCtorEq] at hstep
    cases hstep
    refine .closes e _ (fun hpos => hsub ?_) (by simp [Run.bare])
    simp [Run.live, epollLive, hpos e rfl]
  | drop =>
    cases o <;> simp only [runStep, reduceCtorEq] at hstep
    split_ifs at hstep with hlock hhub
    · obtain ⟨sh₁, fd₁, heq, hfd, hrel⟩ := closeConnection_spec h sh ⟨running, .drop, stop, hub, fd⟩
      rw [heq] at hstep
      cases hstep
      exact .releases _ _ _ _ _ (by simp [givenUpByRun, hhub]) hrel hfd (hsub (by simp [Run.live]))
    · cases hstep
      exact .goto _ (hsub (by simp [Run.live])) (by simp [Run.bare])
  | read e =>
    cases o <;> simp only [runStep, reduceCtorEq] at hstep <;> cases hstep <;>
      refine .goto _ (hsub ?_) ?_ <;> split_ifs <;> simp [Run.live, Run.bare]
  | hangUp e =>
    cases o <;> simp only [runStep, reduceCtorEq] at hstep
    cases hstep
    refine .goto _ (hsub ?_) ?_ <;> split_ifs with hfd <;> simp [Run.live, Run.bare]
    exact .inl (not_le.mp hfd)
  | erase n e =>
    cases o <;> simp only [runStep, reduceCtorEq] at hstep
    cases hstep
    exact .releases _ n (-1) hub _ rfl (released_remove h sh n) (by decide) (hsub (by simp [Run.live]))
  | reset e =>
    cases o <;> simp only [runStep, reduceCtorEq] at hstep
    split_ifs at hstep
    cases hstep
    exact .resets _ rfl (hsub (by simp [Run.live])) rfl
  | closeEpoll e =>
    cases o <;> simp only [runStep, reduceCtorEq] at hstep
    cases hstep
    refine .closes e _ (fun hpos => hsub ?_) (by simp [Run.bare])
    simp [Run.live, epollLive, hpos e rfl]
  | final =>
    cases o <;> simp only [runStep, reduceCtorEq] at hstep
    cases hstep
    exact .replaces _ (-1) _ rfl (replaced_remove h sh) (.inl rfl) (hsub (by simp [Run.live]))
      (by simp [Run.bare])

/-! ### Hub clients keep the discipline -/

structure Settled (h : Hub) (c : HubClient) : Prop where
  stopping : c.stop ≠ .idle → c.running = false
  detached : c.hub = false → c.fd < 0 ∨ ∃ n, c.stop = .remove n
  bare : c.run.bare h = true → c.fd < 0

theorem settled_initial (h : Hub) : Settled h .initial :=
  ⟨fun _ => rfl, fun _ => .inl neg_one_lt_zero, fun hb => by cases hb⟩

theorem Settled.idle (hc : Settled h c) (hrun : c.running = true) : c.stop = .idle := by
  by_contra hs
  rw [hc.stopping hs] at hrun
  cases hrun

theorem settled_run (hc : Settled h c) (hmove : RunMove h sh c sh' c') : Settled h c' := by
  cases hmove with
  | goto r hlive hbare =>
    refine ⟨hc.stopping, hc.detached, fun hr => ?_⟩
    rcases hbare hr with hb | hfd | ⟨hrun, hhub⟩
    · exact hc.bare hb
    · exact hfd
    · refine (hc.detached hhub).resolve_right ?_
      rintro ⟨n, hn⟩
      rw [hc.idle hrun] at hn
      cases hn
  | opens n r hfree hlive hbare => exact ⟨hc.stopping, hc.detached, fun hr => hc.bare (hbare hr)⟩
  | closes n r hlive hbare => exact ⟨hc.stopping, hc.detached, fun hr => hc.bare (hbare hr)⟩
  | adopts _ n r hfds hserver hlive hbare =>
    exact ⟨hc.stopping, fun hhub => (by cases hhub), fun hr => by rw [hbare] at hr; cases hr⟩
  | releases _ n fd hub r hgive hrel hfd hlive =>
    exact ⟨hc.stopping, fun _ => .inl hfd, fun _ => hfd⟩
  | resets r hrun hlive hbare =>
    exact ⟨hc.stopping, fun _ => .inl (hc.bare hrun), fun hr => by rw [hbare] at hr; cases hr⟩
  | replaces _ new r hgive hrep hnew hlive hbare =>
    exact ⟨hc.stopping, hc.detached, fun hr => hc.bare (hbare hr)⟩

theorem settled_stop (hc : Settled h c) (hstep : stopStep h sh c = some (sh', c')) :
    Settled h c' := by
  obtain ⟨running, run, stop, hub, fd⟩ := c
  cases stop with
  | idle => cases hstep
  | detach =>
    have hrun : running = false := hc.stopping (by simp)
    simp only [stopStep] at hstep
    split_ifs at hstep with hhub hfd <;> cases hstep
    · exact ⟨fun _ => hrun, fun _ => .inr ⟨fd, rfl⟩, hc.bare⟩
    · exact ⟨fun _ => hrun, fun _ => .inl (not_le.mp hfd), hc.bare⟩
    · exact ⟨fun _ => hrun, fun _ => .inl ((hc.detached (by simpa using hhub)).resolve_right (by simp)),
        hc.bare⟩
  | remove n =>
    cases hstep
    exact ⟨fun _ => hc.stopping (by simp), fun _ => .inl neg_one_lt_zero, fun _ => neg_one_lt_zero⟩
  | join =>
    simp only [stopStep] at hstep
    split_ifs at hstep
    cases hstep
    exact ⟨fun _ => hc.stopping (by simp), fun hhub => .inl ((hc.detached hhub).resolve_right (by simp)),
      hc.bare⟩
  | unregister =>
    cases hstep
    exact ⟨fun hs => absurd rfl hs, fun hhub => .inl ((hc.detached hhub).resolve_right (by simp)),
      hc.bare⟩

theorem settled_hubStep {a : HubAction} (hc : Settled h c) (hstep : hubStep h sh c a = some (sh', c')) :
    Settled h c' := by
  cases a with
  | start =>
    simp only [hubStep] at hstep
    split_ifs at hstep with hs hr hoff <;> cases hstep
    · exact hc
    · exact ⟨fun hne => absurd hs hne, hc.detached, fun hb => by cases hb⟩
  | stop =>
    simp only [hubStep] at hstep
    split_ifs at hstep with hs hr <;> cases hstep
    · refine ⟨fun _ => rfl, fun hhub => .inl ((hc.detached hhub).resolve_right ?_), hc.bare⟩
      rw [hs]
      simp
    · exact hc
  | stopNext => exact settled_stop hc hstep
  | runNext o => exact settled_run hc (runStep_move hstep)

theorem closeAny_standard (t : Descriptors Component) (who : Component) {n : ℤ} (hn : n ≤ 2) :
    t.closeAny who (SafeFD.closing n) = t := by
  rw [SafeFD.closing, if_neg (not_lt.mpr hn)]
  rfl

theorem closeAny_closing (t : Descriptors Component) (who : Component) {n : ℤ} (hn : 2 < n) :
    t.closeAny who (SafeFD.closing n) = t.closeFD who n := by
  rw [SafeFD.closing, if_pos hn]
  rfl

/-- `SafeFD` closing a number that is held twice uses up the live connection number. -/
theorem effect_closing {t t' : Descriptors Component} {who : Component} {l l' : List ℤ} {fd server n : ℤ}
    (ht : t' = t ∨ t' = t.closeAny who (SafeFD.closing n)) (hheld : n ≤ 2 ∨ fd = n ∧ server = n)
    (hl : l'.Subperm l) : Descriptors.Effect t t' who (l ++ connectionLive fd server) l' := by
  have hkept : l'.Subperm (l ++ connectionLive fd server) :=
    hl.trans (List.sublist_append_left _ _).subperm
  rcases ht with rfl | rfl
  · exact .kept rfl hkept
  · by_cases hn : 2 < n
    · obtain ⟨hfd, hserver⟩ := hheld.resolve_left (by omega)
      refine .closed n (closeAny_closing t who hn) ?_
      rw [connectionLive, hfd, hserver, if_pos ⟨hn, rfl⟩]
      exact ((List.subperm_cons n).mpr hl).trans (List.perm_append_singleton n l).symm.subperm
    · exact .kept (closeAny_standard t who (not_lt.mp hn)) hkept

theorem connectionLive_eq_nil {fd server : ℤ} (hfd : fd < 0 ∨ server = -1) :
    connectionLive fd server = [] := by
  rw [connectionLive, if_neg (by omega)]

theorem connectionLive_subperm (fd server : ℤ) : (connectionLive fd server).Subperm [fd] := by
  rw [connectionLive]
  split_ifs
  · exact List.Subperm.refl _
  · exact List.nil_subperm

theorem run_effect (hc : Settled h c) (hmove : RunMove h sh c sh' c')
    (hgive : ∀ n ∈ givenUpByRun h sh c, StillHeld h sh c n) (hepoll : ∀ e ∈ c.run.epollClosed, 0 ≤ e) :
    Descriptors.Effect sh.fds sh'.fds (.hub h) (c.live h (sh.server h.kind))
      (c'.live h (sh'.server h.kind)) := by
  cases hmove with
  | goto r hlive hbare => exact .kept rfl (hlive.append (List.Subperm.refl _))
  | opens n r hfree hlive hbare => exact .opened n hfree rfl (hlive.append (List.Subperm.refl _))
  | closes n r hlive hbare => exact .closed n rfl ((hlive hepoll).append (List.Subperm.refl _))
  | adopts _ n r hfds hserver hlive hbare =>
    rw [hfds, hserver]
    refine .kept rfl ?_
    have hconn : (r.live h ++ connectionLive n (sh.server h.kind)).Subperm (n :: r.live h) :=
      ((List.Subperm.refl _).append (connectionLive_subperm _ _)).trans
        (List.perm_append_singleton _ _).subperm
    exact hconn.trans (hlive.trans (List.sublist_append_left _ _).subperm)
  | releases _ n fd hub r hg hrel hfd hlive =>
    rw [hrel.server]
    simp only [HubClient.live, connectionLive_eq_nil (.inl hfd), List.append_nil]
    exact effect_closing hrel.fds (hgive n hg) hlive
  | resets r hrun hlive hbare => exact .kept rfl (hlive.append (List.Subperm.refl _))
  | replaces _ new r hg hrep hnew hlive hbare =>
    have hnil : connectionLive c.fd (sh'.server h.kind) = [] := by
      rw [hrep.server, if_pos rfl]
      exact connectionLive_eq_nil (hnew.symm.imp_left hc.bare)
    simp only [HubClient.live, hnil, List.append_nil]
    exact effect_closing (.inr hrep.fds) (hgive _ hg) hlive

theorem stop_effect (hstep : stopStep h sh c = some (sh', c'))
    (hgive : ∀ n ∈ givenUpByStop h sh c, StillHeld h sh c n) :
    Descriptors.Effect sh.fds sh'.fds (.hub h) (c.live h (sh.server h.kind))
      (c'.live h (sh'.server h.kind)) := by
  obtain ⟨running, run, stop, hub, fd⟩ := c
  cases stop with
  | idle => cases hstep
  | detach =>
    simp only [stopStep] at hstep
    split_ifs at hstep <;> cases hstep <;> exact .kept rfl (List.Subperm.refl _)
  | remove n =>
    have hrel := released_remove h sh n
    cases hstep
    rw [hrel.server]
    simp only [HubClient.live, connectionLive_eq_nil (.inl neg_one_lt_zero), List.append_nil]
    exact effect_closing hrel.fds (hgive n rfl) (List.Subperm.refl _)
  | join =>
    simp only [stopStep] at hstep
    split_ifs at hstep
    cases hstep
    exact .kept rfl (List.Subperm.refl _)
  | unregister =>
    have hrep := replaced_remove h sh
    cases hstep
    rw [hrep.server, if_pos rfl]
    simp only [HubClient.live, connectionLive_eq_nil (.inr rfl), List.append_nil]
    exact effect_closing (.inr hrep.fds) (hgive _ rfl) (List.Subperm.refl _)

theorem hubStep_effect {s : State} {a : HubAction} (hc : Settled h (s.client h))
    (hguard : Guard s (.hub h a)) (hstep : hubStep h s.shared (s.client h) a = some (sh', c')) :
    Descriptors.Effect s.shared.fds sh'.fds (.hub h) (live s (.hub h)) (c'.live h (sh'.server h.kind)) := by
  cases a with
  | start =>
    simp only [hubStep] at hstep
    split_ifs at hstep with hs hr hoff <;> cases hstep
    · exact .kept rfl (List.Subperm.refl _)
    · refine .kept rfl ?_
      simp only [live, HubClient.live, hoff, Run.live]
      exact List.Subperm.refl _
  | stop =>
    simp only [hubStep] at hstep
    split_ifs at hstep <;> cases hstep <;> exact .kept rfl (List.Subperm.refl _)
  | stopNext => exact stop_effect hstep hguard
  | runNext o => exact run_effect hc (runStep_move hstep) hguard.1 hguard.2

/-- A hub client leaves the other entries of `serverFDs_` alone. -/
theorem hubStep_server {a : HubAction} (hstep : hubStep h sh c a = some (sh', c')) {k : ServerKind}
    (hk : k ≠ h.kind) : sh'.server k = sh.server k := by
  cases a with
  | start => simp only [hubStep] at hstep; split_ifs at hstep <;> cases hstep <;> rfl
  | stop => simp only [hubStep] at hstep; split_ifs at hstep <;> cases hstep <;> rfl
  | stopNext =>
    obtain ⟨running, run, stop, hub, fd⟩ := c
    cases stop with
    | idle => cases hstep
    | detach => simp only [hubStep, stopStep] at hstep; split_ifs at hstep <;> cases hstep <;> rfl
    | remove n => cases hstep; exact (released_remove h sh n).server k
    | join => simp only [hubStep, stopStep] at hstep; split_ifs at hstep; cases hstep; rfl
    | unregister => cases hstep; rw [(replaced_remove h sh).server, if_neg hk]
  | runNext o =>
    cases runStep_move hstep with
    | goto r hlive hbare => rfl
    | opens n r hfree hlive hbare => rfl
    | closes n r hlive hbare => rfl
    | adopts _ n r hfds hserver hlive hbare => exact hserver k
    | releases _ n fd hub r hg hrel hfd hlive => exact hrel.server k
    | resets r hrun hlive hbare => rfl
    | replaces _ new r hg hrep hnew hlive hbare => rw [hrep.server, if_neg hk]

/-! ### The DAQ manager keeps the discipline -/

variable {d d' : Daq}

theorem Daq.live_of_ne {server : ℤ} (hd : d ≠ .removeServer) :
    d.live server = d.locals ++ serverHeld server := by
  rw [Daq.live, if_neg hd]

theorem serverHeld_subperm (server : ℤ) : (serverHeld server).Subperm [server] := by
  rw [serverHeld]
  split_ifs
  · exact List.Subperm.refl _
  · exact List.nil_subperm

theorem daq_kept (sh : Shared) (hd : d ≠ .removeServer) (hd' : d' ≠ .removeServer)
    (hl : d'.locals.Subperm d.locals) :
    Descriptors.Effect sh.fds sh.fds .daq (d.live (sh.server .daq)) (d'.live (sh.server .daq)) := by
  rw [Daq.live_of_ne hd, Daq.live_of_ne hd']
  exact .kept rfl (hl.append (List.Subperm.refl _))

theorem daq_opened {n : ℤ} (hopen : sh.opening .daq n = some sh') (hd : d ≠ .removeServer)
    (hd' : d' ≠ .removeServer) (hl : d'.locals.Subperm (n :: d.locals)) :
    Descriptors.Effect sh.fds sh'.fds .daq (d.live (sh.server .daq)) (d'.live (sh'.server .daq)) := by
  obtain ⟨hfree, rfl⟩ := opening_eq_some hopen
  rw [Daq.live_of_ne hd, Daq.live_of_ne hd']
  exact .opened n hfree rfl (hl.append (List.Subperm.refl _))

theorem daq_closed (sh : Shared) {n : ℤ} (hd : d ≠ .removeServer) (hd' : d' ≠ .removeServer)
    (hl : (n :: d'.locals).Subperm d.locals) :
    Descriptors.Effect sh.fds (sh.closing .daq n).fds .daq (d.live (sh.server .daq))
      (d'.live ((sh.closing .daq n).server .daq)) := by
  rw [Daq.live_of_ne hd, Daq.live_of_ne hd']
  exact .closed n rfl (hl.append (List.Subperm.refl _))

/-- `setServerFD` takes the listening socket over and closes the one before it. -/
theorem daq_registered (sh : Shared) (n : ℤ) :
    Descriptors.Effect sh.fds (sh.managed .daq (sh.manager.setServerFD .daq n)).fds .daq
      ((Daq.register n).live (sh.server .daq))
      (Daq.epollCreate.live ((sh.managed .daq (sh.manager.setServerFD .daq n)).server .daq)) := by
  have hserver : (sh.managed .daq (sh.manager.setServerFD .daq n)).server .daq = n :=
    sh.manager.setServerFD_server .daq .daq n
  rw [hserver, Daq.live_of_ne (d := .register n) (by simp), Daq.live_of_ne (by simp)]
  by_cases hold : 2 < sh.server .daq
  · refine .closed (sh.server .daq) (closeAny_closing sh.fds .daq hold) ?_
    rw [serverHeld.eq_def (sh.server .daq), if_pos (by omega)]
    exact ((List.subperm_cons _).mpr (serverHeld_subperm n)).trans (List.Perm.swap _ _ _).subperm
  · have hlocal : [n].Sublist ((Daq.register n).locals ++ serverHeld (sh.server .daq)) := by
      simp [Daq.locals]
    exact .kept (closeAny_standard sh.fds .daq (not_lt.mp hold))
      ((serverHeld_subperm n).trans hlocal.subperm)

/-- `removeServerFD` finds the listening socket closed already. -/
theorem daq_removed (sh : Shared) (hle : sh.server .daq ≤ 2) (d' : Daq) (hd' : d'.locals = []) :
    Descriptors.Effect sh.fds (sh.managed .daq (sh.manager.removeServerFD .daq)).fds .daq
      (Daq.removeServer.live (sh.server .daq))
      (d'.live ((sh.managed .daq (sh.manager.removeServerFD .daq)).server .daq)) := by
  have hserver : (sh.managed .daq (sh.manager.removeServerFD .daq)).server .daq = -1 :=
    sh.manager.removeServerFD_server .daq .daq
  have hnone : d'.live (-1) = [] := by
    rw [Daq.live, hd']
    split_ifs <;> rfl
  rw [hserver, hnone]
  exact .kept (closeAny_standard sh.fds .daq hle) List.nil_subperm

theorem daqStep_effect {a : DaqAction}
    (hguard : a = .next .ok → d = .removeServer → sh.server .daq ≤ 2)
    (hstep : daqStep sh d a = some (sh', d')) :
    Descriptors.Effect sh.fds sh'.fds .daq (d.live (sh.server .daq)) (d'.live (sh'.server .daq)) := by
  cases d with
  | idle =>
    rcases a with _ | _ | ⟨_ | _ | _⟩ | _ <;> simp only [daqStep, reduceCtorEq] at hstep <;>
      cases hstep <;> exact daq_kept sh (by simp) (by simp) (List.Subperm.refl _)
  | socket =>
    rcases a with _ | _ | ⟨_ | _ | n⟩ | _ <;>
      simp only [daqStep, reduceCtorEq, Option.map_eq_some_iff] at hstep
    · cases hstep
      exact daq_kept sh (by simp) (by simp) (List.Subperm.refl _)
    · obtain ⟨_, hopen, hpair⟩ := hstep
      cases hpair
      exact daq_opened hopen (by simp) (by simp) (List.Subperm.refl _)
  | bind n =>
    rcases a with _ | _ | ⟨_ | _ | _⟩ | _ <;> simp only [daqStep, reduceCtorEq] at hstep <;>
      cases hstep <;> exact daq_kept sh (by simp) (by simp) (List.Subperm.refl _)
  | closeSocket n =>
    rcases a with _ | _ | ⟨_ | _ | _⟩ | _ <;> simp only [daqStep, reduceCtorEq] at hstep
    cases hstep
    exact daq_closed sh (by simp) (by simp) (List.Subperm.refl _)
  | register n =>
    rcases a with _ | _ | ⟨_ | _ | _⟩ | _ <;> simp only [daqStep, reduceCtorEq] at hstep
    cases hstep
    exact daq_registered sh n
  | epollCreate =>
    rcases a with _ | _ | ⟨_ | _ | n⟩ | _ <;>
      simp only [daqStep, reduceCtorEq, Option.map_eq_some_iff] at hstep
    · cases hstep
      exact daq_kept sh (by simp) (by simp) (List.Subperm.refl _)
    · obtain ⟨_, hopen, hpair⟩ := hstep
      cases hpair
      exact daq_opened hopen (by simp) (by simp) (List.Subperm.refl _)
  | epollAdd e =>
    rcases a with _ | _ | ⟨_ | _ | _⟩ | _ <;> simp only [daqStep, reduceCtorEq] at hstep <;>
      cases hstep <;> exact daq_kept sh (by simp) (by simp) (List.Subperm.refl _)
  | quit e =>
    rcases a with _ | _ | ⟨_ | _ | _⟩ | _ <;> simp only [daqStep, reduceCtorEq] at hstep
    cases hstep
    exact daq_closed sh (by simp) (by simp) (List.Subperm.refl _)
  | poll e cs =>
    rcases a with _ | _ | ⟨_ | _ | n⟩ | n <;>
      simp only [daqStep, reduceCtorEq, Option.map_eq_some_iff] at hstep
    · cases hstep
      exact daq_kept sh (by simp) (by simp) (List.Subperm.refl _)
    · cases hstep
      exact daq_kept sh (by simp) (by simp) (List.Subperm.refl _)
    · obtain ⟨_, hopen, hpair⟩ := hstep
      cases hpair
      refine daq_opened hopen (by simp) ?_ ?_ <;> split_ifs <;>
        first | exact List.Subperm.refl _ | simp
    · split_ifs at hstep with hn
      cases hstep
      refine daq_closed sh (by simp) (by simp) ?_
      exact ((List.Perm.swap e n _).trans ((List.perm_cons_erase hn).symm.cons e)).subperm
  | accepted e cs n =>
    rcases a with _ | _ | ⟨_ | _ | _⟩ | _ <;> simp only [daqStep, reduceCtorEq] at hstep <;>
      cases hstep
    · exact daq_kept sh (by simp) (by simp) (List.Perm.swap n e cs).subperm
    · exact daq_kept sh (by simp) (by simp) (List.Subperm.refl _)
  | refuse e cs n =>
    rcases a with _ | _ | ⟨_ | _ | _⟩ | _ <;> simp only [daqStep, reduceCtorEq] at hstep
    cases hstep
    exact daq_closed sh (by simp) (by simp) (List.Subperm.refl _)
  | clear e cs =>
    cases cs <;> rcases a with _ | _ | ⟨_ | _ | _⟩ | _ <;>
      simp only [daqStep, reduceCtorEq] at hstep <;> cases hstep
    · exact daq_kept sh (by simp) (by simp) (List.Subperm.refl _)
    · exact daq_closed sh (by simp) (by simp) (List.Perm.swap e _ _).subperm
  | closeEpoll e =>
    rcases a with _ | _ | ⟨_ | _ | _⟩ | _ <;> simp only [daqStep, reduceCtorEq] at hstep
    cases hstep
    exact daq_closed sh (by simp) (by simp) (List.Subperm.refl _)
  | closeServer =>
    rcases a with _ | _ | ⟨_ | _ | _⟩ | _ <;> simp only [daqStep, reduceCtorEq] at hstep
    split_ifs at hstep with hpos <;> cases hstep
    · refine .closed (sh.server .daq) rfl ?_
      rw [Daq.live_of_ne (d := .closeServer) (by simp), serverHeld, if_pos hpos]
      exact List.Subperm.refl _
    · exact daq_kept sh (by simp) (by simp) (List.Subperm.refl _)
  | removeServer =>
    rcases a with _ | _ | ⟨_ | _ | _⟩ | _ <;> simp only [daqStep, reduceCtorEq] at hstep
    cases hstep
    exact daq_removed sh (hguard rfl rfl) _ rfl

theorem daqStep_server {a : DaqAction} (hstep : daqStep sh d a = some (sh', d')) {k : ServerKind}
    (hk : k ≠ .daq) : sh'.server k = sh.server k := by
  have hopen : ∀ {n : ℤ} {sh' : Shared}, sh.opening .daq n = some sh' → sh'.server k = sh.server k :=
    fun ho => by
      obtain ⟨-, rfl⟩ := opening_eq_some ho
      rfl
  -- `removeServerFD` puts `-1` in the place of a number
  have hset : ∀ n, (sh.managed .daq (sh.manager.setServerFD .daq n)).server k = sh.server k :=
    fun n => (sh.manager.setServerFD_server .daq k n).trans (if_neg hk)
  unfold daqStep at hstep
  split at hstep
  all_goals first
    | (cases hstep; done)
    | (cases hstep; rfl)
    | (cases hstep; exact hset _)
    | (obtain ⟨_, ho, hpair⟩ := Option.map_eq_some_iff.mp hstep; cases hpair; exact hopen ho)
    | (try simp only at hstep
       split_ifs at hstep <;> cases hstep <;> rfl)

/-! ### All components together -/

structure Disciplined (s : State) : Prop where
  settled : ∀ h, Settled h (s.client h)
  owned : s.shared.fds.Owned (live s)

theorem disciplined_initial : Disciplined initial := by
  have hlive : live initial = fun _ => [] := by
    funext c
    cases c <;> rfl
  refine ⟨settled_initial, ?_⟩
  rw [hlive]
  exact Descriptors.owned_empty

theorem disciplined_step {s s' : State} {a : Action} (hs : Disciplined s) (hguard : Guard s a)
    (hstep : step s a = some s') : Disciplined s' := by
  cases a with
  | hub h a =>
    obtain ⟨⟨sh, c⟩, hhub, rfl⟩ := Option.map_eq_some_iff.mp hstep
    refine ⟨fun g => ?_, hs.owned.effect (c := .hub h) ?_ ?_⟩
    · by_cases hg : g = h
      · subst hg
        simpa using settled_hubStep (hs.settled g) hhub
      · simpa [hg] using hs.settled g
    · simpa [live] using hubStep_effect (hs.settled h) hguard hhub
    · intro d hd
      cases d with
      | hub g =>
        have hg : g ≠ h := fun hgh => hd (congrArg _ hgh)
        have hkind : g.kind ≠ h.kind := by
          cases g <;> cases h <;> simp_all [Hub.kind]
        simp only [live, Function.update_of_ne hg, hubStep_server hhub hkind]
      | daq => simp only [live, hubStep_server hhub (show ServerKind.daq ≠ h.kind by cases h <;> decide)]
      | other => rfl
  | daq a =>
    obtain ⟨⟨sh, d⟩, hdaq, rfl⟩ := Option.map_eq_some_iff.mp hstep
    refine ⟨hs.settled, hs.owned.effect (c := .daq) ?_ ?_⟩
    · refine daqStep_effect (fun ha => ?_) hdaq
      subst ha
      exact hguard
    · intro c hc
      cases c with
      | hub g => simp only [live, daqStep_server hdaq (show g.kind ≠ .daq by cases g <;> decide)]
      | daq => exact absurd rfl hc
      | other => rfl
  | otherOpen n =>
    obtain ⟨sh, hopen, rfl⟩ := Option.map_eq_some_iff.mp hstep
    obtain ⟨hfree, rfl⟩ := opening_eq_some hopen
    exact ⟨hs.settled, hs.owned.effect (c := .other) (.opened n hfree rfl List.nil_subperm)
      fun c _ => by cases c <;> rfl⟩
  | otherClose n =>
    simp only [step] at hstep
    split_ifs at hstep with hn
    cases hstep
    exact ⟨hs.settled, hs.owned.close_unlisted hn (by simp [live])⟩

/-- As long as no step gives up a number that its other holder has given up before, every close is
of an open descriptor that the closing component opened. -/
theorem closes_exclusive {s : State} (h : machine.Reach Guard s) :
    ∀ x ∈ s.shared.fds.closes, x.Exclusive := by
  have hinv : Disciplined s := h.invariant (by rintro s rfl; exact disciplined_initial)
    fun s a s' hs hguard hstep => disciplined_step hs hguard hstep
  exact hinv.owned.exclusive

/-- The event client connects and loses its connection. -/
def lossRun : List Action :=
  [.hub .event .start, .hub .event (.runNext .ok), .hub .event (.runNext (.fd 3)),
    .hub .event (.runNext .ok), .hub .event (.runNext .ok), .hub .event (.runNext .ok),
    .hub .event (.runNext (.fd 4)), .hub .event (.runNext .ok), .hub .event (.runNext .fail),
    .hub .event (.runNext .ok), .hub .event (.runNext .ok), .hub .event (.runNext .ok),
    .hub .event (.runNext .ok)]

theorem closes_exclusive_loss :
    ∃ s, machine.Reach Guard s ∧ s.shared.fds.closes.map Close.fd = [3, 4] ∧
      ∀ x ∈ s.shared.fds.closes, x.Exclusive := by
  have hfds : (machine.runIn Guard initial lossRun).map (fun s => s.shared.fds.closes.map Close.fd) =
      some [3, 4] := by decide
  obtain ⟨s, hrun, hs⟩ := Option.map_eq_some_iff.mp hfds
  have h : machine.Reach Guard s := Machine.Reach.runIn (.init rfl) hrun
  exact ⟨s, h, hs, closes_exclusive h⟩

/-- A connection attempt of the event client fails; between its two closes the command client gets
the number. -/
def failedAttemptRun : List Action :=
  [.hub .event .start, .hub .event (.runNext .ok), .hub .event (.runNext (.fd 3)),
    .hub .event (.runNext .ok), .hub .event (.runNext .fail), .hub .event (.runNext .ok),
    .hub .command .start, .hub .command (.runNext .ok), .hub .command (.runNext (.fd 3)),
    .hub .event (.runNext .ok)]

theorem not_closes_exclusive :
    ¬ ∀ s, machine.Reachable s → ∀ x ∈ s.shared.fds.closes, x.Exclusive := by
  intro h
  obtain ⟨s, hs, hany⟩ := machine.exists_reachable_of_run initial
    (fun s => s.shared.fds.closes.any fun x => !decide x.Exclusive) failedAttemptRun rfl
    (by decide)
  obtain ⟨x, hx, hne⟩ := List.any_eq_true.mp hany
  simp only [Bool.not_eq_true', decide_eq_false_iff_not] at hne
  exact hne (h s hs x hx)

end GramsTof.Descriptor
