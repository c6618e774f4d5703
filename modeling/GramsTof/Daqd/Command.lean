import GramsTof.Lib.Machine
import Mathlib.Logic.Function.Iterate
import Mathlib.Tactic.Ring

/-! Commands to the front end: numbered by the caller, sent as datagrams, each attempt
under a number of its own, and answered by datagrams that may be lost, doubled,
delayed and overtaken. The front end is a parameter: what it does with a command
and what it answers. A request reaches it at once, any number of times, or never. -/

namespace GramsTof.Daqd

open Lib

/-- The serial number as the caller writes it. -/
def serialBytes (sn : ℕ) : List UInt8 := (List.range 16).map fun n => UInt8.ofNat (sn >>> (8 * n))

/-- A `char` in a sum of 16 bits. -/
def ofChar (c : UInt8) : UInt16 := c.toInt8.toInt16.toUInt16

/-- `sentSN` and `recvSN`: the number in the first two chars of a buffer. -/
def serialOf (buffer : List UInt8) : UInt16 := (ofChar (buffer.getD 0 0) <<< 8) + ofChar (buffer.getD 1 0)

structure Command where
  cfgFunctionID : UInt8
  payload : List UInt8
  deriving DecidableEq

/-- What is sent of a command; `port` and `slave` stay with the server. -/
def Command.rawFrame (c : Command) (sn : ℕ) : List UInt8 := serialBytes sn ++ c.cfgFunctionID :: c.payload

/-- A reply under way, with the attempt it answers. No step reads the latter. -/
structure Reply where
  buffer : List UInt8
  attempt : ℕ
  deriving DecidableEq

/-- Where `sendCommand` is, in the caller and in the server. A caller that is out of step has not taken
from its stream what the server has sent. -/
inductive Caller where
  | idle
  | trying (c : Command) (nTries : ℕ)
  | awaiting (c : Command) (nTries : ℕ) (sentSN : UInt16)
  | returned (c : Command) (reply : Option (List UInt8))
  | outOfStep
  deriving DecidableEq

/-- The front end, the numbers given so far, the replies on their way and those the worker has queued. -/
structure Link (F : Type*) where
  front : F
  lastSN : ℕ
  attempts : ℕ
  socket : List Reply
  replyQueue : List Reply
  hasWorker : Bool
  caller : Caller

/-- The attempts at a command. -/
def maxTries : ℕ := 10

namespace Link

variable {F : Type*} (exec : F → Command → F × List UInt8)

/-- The front end carries a command out some times, and what it answers each time. -/
def execute (c : Command) : ℕ → F → F × List (List UInt8)
  | 0, f => (f, [])
  | n + 1, f =>
    let rest := execute c n (exec f c).1
    (rest.1, (exec f c).2 :: rest.2)

/-- One attempt: a number is taken, and the request is carried out `copies` times. -/
def attempt (s : Link F) (copies : ℕ) : Option (Link F) :=
  match s.caller with
  | .trying c nTries =>
    let sn := s.lastSN
    let outcome := execute exec c copies s.front
    some { s with
      front := outcome.1
      lastSN := (sn + 1) &&& 0x7FFF
      attempts := s.attempts + 1
      socket := s.socket ++ outcome.2.map fun answer => ⟨serialBytes sn ++ answer, s.attempts⟩
      caller := .awaiting c (nTries + 1) (serialOf (c.rawFrame sn)) }
  | _ => none

/-- A reply comes to `sendCommand`, and to the caller if it has the number. -/
def take (r : Reply) : Caller → Caller
  | .awaiting c nTries sentSN =>
    if r.buffer.length < 2 then .awaiting c nTries sentSN
    else if sentSN = serialOf r.buffer then
      if r.buffer.length < 18 then .outOfStep else .returned c (some (r.buffer.drop 17))
    else .awaiting c nTries sentSN
  | caller => caller

/-- A reply is taken from the queue of the worker, while there is one. -/
def pop (s : Link F) : Option (Link F) :=
  match s.caller, s.hasWorker, s.replyQueue with
  | .awaiting .., true, r :: replyQueue => some { s with replyQueue := replyQueue, caller := take r s.caller }
  | _, _, _ => none

/-- A reply is read from the socket, while there is no worker. -/
def recv (s : Link F) (i : ℕ) : Option (Link F) :=
  match s.caller, s.hasWorker, s.socket[i]? with
  | .awaiting .., false, some r => some { s with socket := s.socket.eraseIdx i, caller := take r s.caller }
  | _, _, _ => none

/-- `CommandTimeout` is over: the caller gets an empty reply, and tries again. -/
def timeout (s : Link F) : Option (Link F) :=
  match s.caller with
  | .awaiting c nTries _ =>
    some { s with caller := if nTries < maxTries then .trying c nTries else .returned c none }
  | _ => none

def command (s : Link F) (c : Command) : Option (Link F) :=
  match s.caller with
  | .idle | .returned .. => some { s with caller := .trying c 0 }
  | _ => none

/-- The worker queues a reply. -/
def work (s : Link F) (i : ℕ) : Option (Link F) :=
  match s.hasWorker, s.socket[i]? with
  | true, some r => some { s with socket := s.socket.eraseIdx i, replyQueue := s.replyQueue ++ [r] }
  | _, _ => none

/-- An acquisition is switched on or off, between two commands. -/
def acqOnOff (s : Link F) (on : Bool) : Option (Link F) :=
  match s.caller with
  | .idle | .returned .. => some { s with hasWorker := on }
  | _ => none

inductive Event where
  | command (c : Command)
  | attempt (copies : ℕ)
  | pop
  | recv (i : ℕ)
  | timeout
  | work (i : ℕ)
  | acqOnOff (on : Bool)
  | lose (i : ℕ)
  | double (i : ℕ)

def step (s : Link F) : Event → Option (Link F)
  | .command c => s.command c
  | .attempt copies => s.attempt exec copies
  | .pop => s.pop
  | .recv i => s.recv i
  | .timeout => s.timeout
  | .work i => s.work i
  | .acqOnOff on => s.acqOnOff on
  | .lose i => some { s with socket := s.socket.eraseIdx i }
  | .double i => some { s with socket := s.socket ++ s.socket[i]?.toList }

/-- A connection starts with a number at random and nothing under way; `attempts` counts on from it. -/
def machine : Machine (Link F) Event where
  init s := s.lastSN < 2 ^ 15 ∧ s.attempts = s.lastSN ∧ s.socket = [] ∧ s.replyQueue = [] ∧ s.caller = .idle
  step := step exec

/-- No reply is taken that is as late as the numbers come round. -/
def Timely (s : Link F) : Event → Prop
  | .pop => ∀ r ∈ s.replyQueue.head?, s.attempts ≤ r.attempt + 2 ^ 15
  | .recv i => ∀ r ∈ s.socket[i]?, s.attempts ≤ r.attempt + 2 ^ 15
  | _ => True

instance (s : Link F) (e : Event) : Decidable (Timely s e) :=
  match e with
  | .pop => inferInstanceAs (Decidable (∀ r ∈ s.replyQueue.head?, s.attempts ≤ r.attempt + 2 ^ 15))
  | .recv i => inferInstanceAs (Decidable (∀ r ∈ s.socket[i]?, s.attempts ≤ r.attempt + 2 ^ 15))
  | .command _ | .attempt _ | .timeout | .work _ | .acqOnOff _ | .lose _ | .double _ =>
    inferInstanceAs (Decidable True)

end Link

end GramsTof.Daqd
