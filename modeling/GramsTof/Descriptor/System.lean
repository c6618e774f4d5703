import GramsTof.Descriptor.HubClient
import GramsTof.Lib.Machine

/-! The two hub clients, the DAQ manager and the rest of the process on one
descriptor table, in any interleaving. -/

namespace GramsTof.Descriptor

open Lib Net

/-- Where the DAQ manager is; its callers run `initialize` and `run` one after the other. Arguments
are the descriptors in local variables and `clientList`. -/
inductive Daq where
  | idle
  | socket
  /-- In `createListeningSocket`, at `bind` and `listen`. -/
  | bind (fd : ℤ)
  | closeSocket (fd : ℤ)
  | register (fd : ℤ)
  /-- In `pollSocket`. -/
  | epollCreate
  | epollAdd (epoll : ℤ)
  /-- At the `::close(epoll_fd)` before the early return. -/
  | quit (epoll : ℤ)
  | poll (epoll : ℤ) (clients : List ℤ)
  | accepted (epoll : ℤ) (clients : List ℤ) (fd : ℤ)
  /-- At the `::close(new_fd)` of a connection not taken. -/
  | refuse (epoll : ℤ) (clients : List ℤ) (fd : ℤ)
  /-- At `clientList.clear()`. -/
  | clear (epoll : ℤ) (clients : List ℤ)
  | closeEpoll (epoll : ℤ)
  | closeServer
  | removeServer
  deriving DecidableEq, Repr

inductive DaqAction where
  | initializeDaq
  | run
  | next (o : Outcome)
  /-- The connection hangs up, or a request on it fails. -/
  | hangUp (fd : ℤ)
  deriving DecidableEq, Repr

def daqStep (sh : Shared) (d : Daq) (a : DaqAction) : Option (Shared × Daq) :=
  match d, a with
  | .idle, .initializeDaq => some (sh, .socket)
  | .idle, .run => some (sh, .epollCreate)
  | .socket, .next (.fd n) => (sh.opening .daq n).map fun sh => (sh, .bind n)
  | .socket, .next .fail => some (sh, .idle)
  | .bind n, .next .ok => some (sh, .register n)
  | .bind n, .next .fail => some (sh, .closeSocket n)
  | .closeSocket n, .next .ok => some (sh.closing .daq n, .idle)
  | .register n, .next .ok => some (sh.managed .daq (sh.manager.setServerFD .daq n), .idle)
  | .epollCreate, .next (.fd e) => (sh.opening .daq e).map fun sh => (sh, .epollAdd e)
  | .epollCreate, .next .fail => some (sh, .idle)
  | .epollAdd e, .next .ok => some (sh, .poll e [])
  | .epollAdd e, .next .fail => some (sh, .quit e)
  | .quit e, .next .ok => some (sh.closing .daq e, .idle)
  | .poll e cs, .next .ok => some (sh, .poll e cs)
  | .poll e cs, .next (.fd n) =>
    (sh.opening .daq n).map fun sh => (sh, if n ≤ 2 then .refuse e cs n else .accepted e cs n)
  -- `globalUserStop` is set
  | .poll e cs, .next .fail => some (sh, .clear e cs)
  | .poll e cs, .hangUp n =>
    -- `~Client` of the erased entry closes its socket
    if n ∈ cs then some (sh.closing .daq n, .poll e (cs.erase n)) else none
  | .accepted e cs n, .next .ok => some (sh, .poll e (n :: cs))
  | .accepted e cs n, .next .fail => some (sh, .refuse e cs n)
  | .refuse e cs n, .next .ok => some (sh.closing .daq n, .poll e cs)
  | .clear e (n :: cs), .next .ok => some (sh.closing .daq n, .clear e cs)
  | .clear e [], .next .ok => some (sh, .closeEpoll e)
  | .closeEpoll e, .next .ok => some (sh.closing .daq e, .closeServer)
  | .closeServer, .next .ok =>
    let serverFD := sh.server .daq
    if serverFD ≥ 0 then some (sh.closing .daq serverFD, .removeServer) else some (sh, .idle)
  | .removeServer, .next .ok => some (sh.managed .daq (sh.manager.removeServerFD .daq), .idle)
  | _, _ => none

structure State where
  shared : Shared
  client : Hub → HubClient
  daq : Daq

inductive Action where
  | hub (h : Hub) (a : HubAction)
  | daq (a : DaqAction)
  /-- The rest of the process opens a descriptor, or closes one of its own. -/
  | otherOpen (n : ℤ)
  | otherClose (n : ℤ)
  deriving DecidableEq, Repr

def initial : State := ⟨⟨.empty, .empty⟩, fun _ => .initial, .idle⟩

def step (s : State) : Action → Option State
  | .hub h a =>
    (hubStep h s.shared (s.client h) a).map fun (sh, c) =>
      { s with shared := sh, client := Function.update s.client h c }
  | .daq a => (daqStep s.shared s.daq a).map fun (sh, d) => { s with shared := sh, daq := d }
  | .otherOpen n => (s.shared.opening .other n).map fun sh => { s with shared := sh }
  | .otherClose n =>
    if s.shared.fds.owner n = some .other then some { s with shared := s.shared.closing .other n }
    else none

def machine : Machine State Action := ⟨fun s => s = initial, step⟩

end GramsTof.Descriptor
