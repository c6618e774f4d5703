import GramsTof.Lib.Ledger

/-! The DAQ manager. `initialize` creates a shared-memory mapping, the cards and a
frame server; `cleanup` releases what the members then name. What the vendored
calls answer is a parameter. -/

namespace GramsTof.Daq

open Lib

/-- What the vendored code creates. -/
inductive Resource where
  | sharedMemory
  | card (path : String)
  | udpFrameServer
  | daqFrameServer (cards : List ℕ) (portBits : ℕ)
  deriving DecidableEq, Repr

/-- The members of `GRAMS_TOF_DAQManager`; pointers are names in the ledger. -/
structure Manager where
  daqType : String
  daqCardList : List String
  daqCardPortBits : ℕ
  shmfd : Option ℕ
  shmPtr : Option ℕ
  frameServer : Option ℕ
  daqCards : List ℕ
  ledger : Ledger Resource
  deriving DecidableEq, Repr

/-- The constructor. -/
def Manager.new (daqType : String) (daqCards : List String) : Manager where
  daqType := daqType
  daqCardList := daqCards
  daqCardPortBits := 5
  shmfd := none
  shmPtr := none
  frameServer := none
  daqCards := []
  ledger := .empty

/-- How the calls made by one `initialize` come out. -/
structure Answers where
  /-- `createListeningSocket`. -/
  listening : Bool
  /-- `allocateSharedMemory`. -/
  allocated : Bool
  /-- `UDPFrameServer::createFrameServer` gets a reply. -/
  replied : Bool
  /-- `openCard`, by position in the list. -/
  opened : ℕ → Bool

/-- Every call succeeds. -/
def allDone : Answers := ⟨true, true, true, fun _ => true⟩

inductive Outcome where
  | returned (success : Bool)
  | threw
  deriving DecidableEq, Repr

namespace Manager

/-- The card list and port bits as `initialize` leaves them. -/
def configure (m : Manager) : Manager :=
  let daqCardList := if m.daqCardList = [] then ["/dev/psdaq0"] else m.daqCardList
  { m with
    daqCardList := daqCardList
    daqCardPortBits := if daqCardList.length = 2 then 2 else m.daqCardPortBits }

def allocateSharedMemory (m : Manager) : Manager :=
  { m with
    shmfd := some m.ledger.next
    shmPtr := some m.ledger.next
    ledger := m.ledger.create .sharedMemory }

def openCard (m : Manager) (path : String) : Manager :=
  { m with daqCards := m.daqCards ++ [m.ledger.next], ledger := m.ledger.create (.card path) }

/-- The loop over `daqCardList_` from position `n` on, up to the first card that does not open. -/
def openCards (opened : ℕ → Bool) (n : ℕ) (m : Manager) : List String → Manager × Bool
  | [] => (m, true)
  | path :: rest =>
    if opened n then openCards opened (n + 1) (m.openCard path) rest else (m, false)

def createFrameServer (m : Manager) (server : Resource) : Manager :=
  { m with frameServer := some m.ledger.next, ledger := m.ledger.create server }

/-- `initialize` from the test of `daqType_` on. -/
def buildServer (a : Answers) (m : Manager) : Manager × Outcome :=
  if m.daqType = "GBE" then
    if a.replied then (m.createFrameServer .udpFrameServer, .returned true)
    else ({ m with frameServer := none }, .returned false)
  else if m.daqType = "PFP_KX7" then
    match m.openCards a.opened 0 m.daqCardList with
    | (m, true) =>
      (m.createFrameServer (.daqFrameServer m.daqCards m.daqCardPortBits), .returned true)
    | (m, false) => (m, .threw)
  else (m, .threw)

/-- `initialize`. -/
def initializeDaq (a : Answers) (m : Manager) : Manager × Outcome :=
  if m.daqCardList.length > 2 then (m, .threw)
  else if a.listening then
    if a.allocated then buildServer a m.configure.allocateSharedMemory
    -- a failed `allocateSharedMemory` leaves `shmPtr_` alone
    else ({ m.configure with shmfd := none }, .threw)
  else (m.configure, .returned false)

/-- What the destructor releases. -/
def cleanup (m : Manager) : Manager :=
  { m with
    ledger := (m.frameServer.toList ++ m.daqCards ++ m.shmPtr.toList).foldl Ledger.release m.ledger }

/-! ### What success means -/

variable {m m' : Manager} {a : Answers}

/-- On success a frame server is built last, on all the cards when there are any. -/
theorem buildServer_returned (h : m.buildServer a = (m', .returned true)) :
    (m.daqType = "GBE" ∧ m' = m.createFrameServer .udpFrameServer) ∨
    (m.daqType = "PFP_KX7" ∧ ∃ m₁, m.openCards a.opened 0 m.daqCardList = (m₁, true) ∧
      m' = m₁.createFrameServer (.daqFrameServer m₁.daqCards m₁.daqCardPortBits)) := by
  unfold buildServer at h
  split_ifs at h with hgbe hreply hkx7
  · cases h
    exact .inl ⟨hgbe, rfl⟩
  · cases h
  · cases hopen : m.openCards a.opened 0 m.daqCardList with
    | mk m₁ ok =>
      rw [hopen] at h
      cases ok with
      | false => cases h
      | true =>
        cases h
        exact .inr ⟨hkx7, m₁, rfl, rfl⟩
  · cases h

/-- A successful `initialize` has come through the shared memory to the frame server. -/
theorem initializeDaq_returned (h : m.initializeDaq a = (m', .returned true)) :
    m.daqCardList.length ≤ 2 ∧
      m.configure.allocateSharedMemory.buildServer a = (m', .returned true) := by
  unfold initializeDaq at h
  split_ifs at h with hm hl hs
  · cases h
  · exact ⟨by omega, h⟩
  · cases h
  · cases h

end Manager

end GramsTof.Daq
