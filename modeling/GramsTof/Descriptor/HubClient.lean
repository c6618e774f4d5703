import GramsTof.Lib.Descriptors
import GramsTof.Net.FDManager

/-! The command client and the event client as users of descriptors: the thread
`run`, and the caller of `start` and `stop`. Each step makes at most one system
call or one call of `GRAMS_TOF_FDManager`; what the kernel answers is part of
the step's label. -/

namespace GramsTof.Descriptor

open Lib Net

inductive Hub where
  | command
  | event
  deriving DecidableEq, Repr

def Hub.kind : Hub → ServerKind
  | .command => .command
  | .event => .event

/-- Those who open and close descriptors; `other` is the rest of the process. -/
inductive Component where
  | hub (h : Hub)
  | daq
  | other
  deriving DecidableEq, Repr

/-- What the components share. -/
structure Shared where
  fds : Descriptors Component
  manager : FDManager

/-- Where `run` is. Arguments are the local `connected_fd` and `epoll_fd`. -/
inductive Run where
  | off
  /-- At `while (running_)`. -/
  | outer
  | socket
  /-- At `setServerFD`. -/
  | register (fd : ℤ)
  /-- At `inet_pton` and `connect`. -/
  | attempt (fd : ℤ)
  /-- At `::close(connected_fd)` after a failed attempt. -/
  | giveUp (fd : ℤ)
  /-- At `removeServerFD` after a failed attempt. -/
  | unregister
  | connected (fd : ℤ)
  | epollCreate (fd : ℤ)
  | epollAdd (fd epoll : ℤ)
  /-- The command client makes `hubConnection_`. -/
  | adopt (fd epoll : ℤ)
  /-- The command client, `epoll_ctl` having failed, at `::close(connected_fd)`. -/
  | abandon (fd epoll : ℤ)
  /-- The event client, `epoll_ctl` having failed, at `::close(epoll_fd)`. -/
  | closeEpollDrop (epoll : ℤ)
  /-- The event client, epoll having failed, at `hubConnection_->closeFD()`. -/
  | drop
  /-- In the read loop. -/
  | read (epoll : ℤ)
  /-- At `client.closeFD()`: the test of `fd_`, then `removeClientFD`. -/
  | hangUp (epoll : ℤ)
  | erase (fd epoll : ℤ)
  /-- At `hubConnection_.reset()`. -/
  | reset (epoll : ℤ)
  | closeEpoll (epoll : ℤ)
  /-- At the last `removeServerFD`. -/
  | final
  deriving DecidableEq, Repr

/-- Where `stop` is. -/
inductive Stop where
  | idle
  /-- At the lock, about to look at `hubConnection_`. -/
  | detach
  /-- In `closeFD()`, at `removeClientFD`. -/
  | remove (fd : ℤ)
  | join
  | unregister
  deriving DecidableEq, Repr

structure HubClient where
  running : Bool
  run : Run
  stop : Stop
  /-- `hubConnection_` is set. -/
  hub : Bool
  /-- `fd_` of the connection object, also when `stop` has taken it over; `-1` when closed. -/
  fd : ℤ
  deriving DecidableEq, Repr

def HubClient.initial : HubClient := ⟨false, .off, .idle, false, -1⟩

/-- How the call at hand comes out. -/
inductive Outcome where
  | ok
  | fail
  /-- A new descriptor. -/
  | fd (n : ℤ)
  deriving DecidableEq, Repr

inductive HubAction where
  | start
  | stop
  /-- The next step of `stop`. -/
  | stopNext
  /-- The next step of `run`. -/
  | runNext (o : Outcome)
  deriving DecidableEq, Repr

variable (h : Hub) (sh : Shared) (c : HubClient)

/-- The number in `serverFDs_[kind]`. -/
def Shared.server (kind : ServerKind) : ℤ := (sh.manager.serverFDs kind).fd

/-- `socket`, `epoll_create1` or `accept` hands out a free number. -/
def Shared.opening (sh : Shared) (who : Component) (n : ℤ) : Option Shared :=
  if sh.fds.IsFree n then some { sh with fds := sh.fds.openFD who n } else none

/-- `::close`. -/
def Shared.closing (sh : Shared) (who : Component) (n : ℤ) : Shared :=
  { sh with fds := sh.fds.closeFD who n }

/-- The effect of a manager operation that closes through a `SafeFD`. -/
def Shared.managed (sh : Shared) (who : Component) (r : FDManager × Option ℤ) : Shared :=
  ⟨sh.fds.closeAny who r.2, r.1⟩

/-- `closeFD()` of the connection object, `run` holding `connectionMutex_`. -/
def closeConnection : Shared × HubClient :=
  let (client, m, closed) := Client.closeFD ⟨c.fd⟩ sh.manager
  (sh.managed (.hub h) (m, closed), { c with fd := client.fd })

/-- `removeClientFD(fd)` and `fd_ = -1`. -/
def eraseConnection (fd : ℤ) : Shared × HubClient :=
  (sh.managed (.hub h) (sh.manager.removeClientFD fd), { c with fd := -1 })

/-- `hubConnection_ = std::make_unique<GRAMS_TOF_Client>(connected_fd)`. -/
def adoptConnection (fd : ℤ) : Shared × HubClient :=
  let (client, m) := Client.new fd sh.manager
  ({ sh with manager := m }, { c with hub := true, fd := client.fd })

/-- `stop` of the event client closes the connection under `connectionMutex_`. -/
def mutexHeld : Bool :=
  match h, c.stop with
  | .event, .remove _ => true
  | _, _ => false

/-- One step of the thread `run`. -/
def runStep (o : Outcome) : Option (Shared × HubClient) :=
  match c.run, o with
  | .outer, .ok =>
    if c.running then
      if mutexHeld h c then none
      else if c.hub then
        let (sh, c) := closeConnection h sh c
        some (sh, { c with hub := false, run := .socket })
      else some (sh, { c with run := .socket })
    else some (sh, { c with run := .final })
  | .socket, .fd n => (sh.opening (.hub h) n).map fun sh => (sh, { c with run := .register n })
  | .socket, .fail => some (sh, { c with run := .outer })
  | .register n, .ok =>
    some (sh.managed (.hub h) (sh.manager.setServerFD h.kind n), { c with run := .attempt n })
  | .attempt n, .ok => some (sh, { c with run := .connected n })
  | .attempt n, .fail => some (sh, { c with run := .giveUp n })
  | .giveUp n, .ok => some (sh.closing (.hub h) n, { c with run := .unregister })
  | .unregister, .ok =>
    some (sh.managed (.hub h) (sh.manager.removeServerFD h.kind), { c with run := .outer })
  | .connected n, .ok =>
    match h with
    | .event =>
      if mutexHeld h c then none
      else
        let (sh, c) := adoptConnection sh c n
        some (sh, { c with run := .epollCreate n })
    | .command => some (sh, { c with run := .epollCreate n })
  | .epollCreate n, .fd e =>
    (sh.opening (.hub h) e).map fun sh => (sh, { c with run := .epollAdd n e })
  | .epollCreate n, .fail =>
    match h with
    | .event => some (sh, { c with run := .drop })
    -- the command client goes on with `epoll_fd == -1`
    | .command => some (sh, { c with run := .epollAdd n (-1) })
  | .epollAdd n e, .ok =>
    if 0 ≤ e then
      match h with
      | .event => some (sh, { c with run := .read e })
      | .command => some (sh, { c with run := .adopt n e })
    else none
  | .epollAdd n e, .fail =>
    match h with
    | .event => some (sh, { c with run := .closeEpollDrop e })
    | .command => some (sh, { c with run := .abandon n e })
  | .adopt n e, .ok =>
    if mutexHeld h c then none
    else
      let (sh, c) := adoptConnection sh c n
      some (sh, { c with run := .read e })
  | .abandon n e, .ok => some (sh.closing (.hub h) n, { c with run := .closeEpoll e })
  | .closeEpollDrop e, .ok => some (sh.closing (.hub h) e, { c with run := .drop })
  | .drop, .ok =>
    if mutexHeld h c then none
    else if c.hub then
      let (sh, c) := closeConnection h sh c
      some (sh, { c with hub := false, run := .outer })
    else some (sh, { c with run := .outer })
  -- nothing to read, or what was read is handled
  | .read e, .ok => some (sh, { c with run := if c.running then .read e else .closeEpoll e })
  -- the connection is reported ready and is to be closed
  | .read e, .fail => some (sh, { c with run := if c.hub then .hangUp e else .closeEpoll e })
  | .hangUp e, .ok => some (sh, { c with run := if 0 ≤ c.fd then .erase c.fd e else .reset e })
  | .erase n e, .ok =>
    let (sh, c) := eraseConnection h sh c n
    some (sh, { c with run := .reset e })
  | .reset e, .ok =>
    if mutexHeld h c then none else some (sh, { c with hub := false, run := .closeEpoll e })
  | .closeEpoll e, .ok => some (sh.closing (.hub h) e, { c with run := .outer })
  | .final, .ok =>
    some (sh.managed (.hub h) (sh.manager.removeServerFD h.kind), { c with run := .off })
  | _, _ => none

/-- One step of `stop` after it has cleared `running_`. -/
def stopStep : Option (Shared × HubClient) :=
  match c.stop with
  | .idle => none
  | .detach =>
    if c.hub then
      -- the command client moves the object out of `hubConnection_`
      some (sh, { c with hub := h == .event, stop := if 0 ≤ c.fd then .remove c.fd else .join })
    else some (sh, { c with stop := .join })
  | .remove n =>
    let (sh, c) := eraseConnection h sh c n
    some (sh, { c with stop := .join })
  | .join => if c.run = .off then some (sh, { c with stop := .unregister }) else none
  | .unregister =>
    some (sh.managed (.hub h) (sh.manager.removeServerFD h.kind), { c with stop := .idle })

def hubStep : HubAction → Option (Shared × HubClient)
  | .start =>
    if c.stop = .idle then
      if c.running then some (sh, c)
      else if c.run = .off then some (sh, { c with running := true, run := .outer })
      else none
    else none
  | .stop =>
    if c.stop = .idle then
      some (sh, if c.running then { c with running := false, stop := .detach } else c)
    else none
  | .stopNext => stopStep h sh c
  | .runNext o => runStep h sh c o

end GramsTof.Descriptor
