import GramsTof.Lib.Machine
import GramsTof.Lib.Ring
import GramsTof.RawData.Frame
import Mathlib.Logic.Function.Basic

/-! The frame server: a worker thread takes data packets from the network into a
ring of shared frames, the request loop starts and stops it, and one client reads
the ring through the pointers it asks for. Every action between two points where
the threads can meet is a step of its own. -/

namespace GramsTof.Daqd

open Lib RawData

/-- Where the worker thread stands. A destination is a slot of the ring or, without one, the
worker's own `devNull`; positions count words of the packet. -/
inductive Worker where
  | absent
  | head
  | recv
  | select (p nWords : ℕ)
  | copy (dst : Option ℕ) (p nWords frameSize i : ℕ)
  | parse (dst : Option ℕ) (p nWords : ℕ)
  | push (dst : Option ℕ) (p nWords : ℕ)
  | exited
  deriving DecidableEq

/-- How far the request loop is in `startAcquisition` or, with mode 0, in `stopAcquisition`. -/
inductive Request where
  | idle
  | wiped (mode : ℕ)
  | joining (mode : ℕ)
  deriving DecidableEq

/-- Where the client stands: between two exchanges, with the pointers it was told, or with a
block that `write_raw` has read up to `pos`. -/
inductive Client where
  | ready
  | pointers (wr rd : ℕ)
  | block (wr pos : ℕ)
  deriving DecidableEq

/-- Whether a new exchange can begin. -/
def Client.free : Client → Bool
  | .block _ _ => false
  | _ => true

structure FrameServer where
  shmPtr : ℕ → UInt64
  devNull : Data
  dataBuffer : ℕ → UInt64
  dataFrameWritePointer : ℕ
  dataFrameReadPointer : ℕ
  acquisitionMode : ℕ
  minimumFrameID : ℕ
  die : Bool
  hasWorker : Bool
  worker : Worker
  request : Request
  client : Client

/-- The number of ring slots. -/
abbrev bs : ℕ := MaxRawDataFrameQueueSize

namespace FrameServer

/-- The array of a slot in the shared memory. -/
def slot (s : FrameServer) (k : ℕ) : Data := fun i => s.shmPtr (k * MaxRawDataFrameSize + i)

/-- The array at a destination of the worker. -/
def target (s : FrameServer) : Option ℕ → Data
  | some k => s.slot k
  | none => s.devNull

/-- Store one word at a destination. -/
def store (s : FrameServer) (dst : Option ℕ) (i : ℕ) (w : UInt64) : FrameServer :=
  { s with
    shmPtr := match dst with
      | some k => Function.update s.shmPtr (k * MaxRawDataFrameSize + i) w
      | none => s.shmPtr
    devNull := match dst with
      | some _ => s.devNull
      | none => Function.update s.devNull i w }

/-- The words of a packet at the front of the worker's buffer, over those of earlier ones. -/
def fill (s : FrameServer) (ws : List UInt64) : FrameServer :=
  { s with dataBuffer := fun i => (ws[i]?).getD (s.dataBuffer i) }

/-- The end of the loop body over a packet. -/
def next (p nWords : ℕ) : Worker := if p < nWords then .select p nWords else .head

/-- One step of `UDPFrameServer::doWork`, without the receipt of a packet. -/
def work (s : FrameServer) : Option FrameServer :=
  match s.worker with
  | .absent | .exited => none
  | .head => some { s with worker := if s.die then .exited else .recv }
  | .recv => some { s with worker := .head }
  | .select p nWords =>
    let frameSize := ((s.dataBuffer p >>> 36) &&& 0x7FFF).toNat
    let dst := if Ring.isFull bs s.dataFrameWritePointer s.dataFrameReadPointer then none
      else some (s.dataFrameWritePointer % bs)
    some { s with worker := .copy dst p nWords frameSize 0 }
  | .copy dst p nWords frameSize i =>
    if i < frameSize then
      some { s.store dst i (s.dataBuffer (p + i)) with worker := .copy dst p nWords frameSize (i + 1) }
    else some { s with worker := .parse dst (p + frameSize) nWords }
  | .parse dst p nWords =>
    if !parseDataFrame (s.target dst) then some { s with worker := .head }
    else if getFrameID (s.target dst) < s.minimumFrameID then some { s with worker := next p nWords }
    else some { s with worker := .push dst p nWords }
  | .push dst p nWords =>
    some { s with
      dataFrameWritePointer :=
        if dst.isSome then (s.dataFrameWritePointer + 1) % (2 * bs) else s.dataFrameWritePointer
      worker := next p nWords }

/-- A data packet arrives. Outside an acquisition it is thrown away. -/
def recv (s : FrameServer) (ws : List UInt64) : Option FrameServer :=
  if s.worker = .recv ∧ 1 + 8 * ws.length ≤ 65536 then
    if s.acquisitionMode ≠ 0 then
      some { s.fill ws with worker := .select 0 ws.length }
    else some { s with worker := .head }
  else none

/-- `doAcqOnOff` up to the end of the first critical section. -/
def acqOnOff (s : FrameServer) (acqMode : ℕ) : Option FrameServer :=
  if s.request = .idle ∧ s.client.free then
    some { s with
      acquisitionMode := 0
      dataFrameWritePointer := 0
      dataFrameReadPointer := 0
      request := .wiped (if acqMode ≠ 0 then 1 else 0)
      client := .ready }
  else none

/-- `stopWorker` up to the join. -/
def stopWorker (s : FrameServer) : Option FrameServer :=
  match s.request with
  | .wiped mode => some { s with die := s.die || s.hasWorker, request := .joining mode }
  | _ => none

/-- The worker has been joined; with a mode, the ring is wiped again and a new worker started. -/
def join (s : FrameServer) : Option FrameServer :=
  match s.request with
  | .joining mode =>
    if s.hasWorker = true ∧ s.worker ≠ .exited then none
    else if mode = 0 then
      some { s with hasWorker := false, worker := .absent, request := .idle }
    else
      some { s with
        dataFrameWritePointer := 0
        dataFrameReadPointer := 0
        acquisitionMode := mode
        minimumFrameID := 0
        die := false
        hasWorker := true
        worker := .head
        request := .idle }
  | _ => none

/-- The client sets the oldest frame it wants. -/
def setMinimumFrameID (s : FrameServer) (frameID : ℕ) : Option FrameServer :=
  if s.request = .idle ∧ s.client.free then
    some { s with minimumFrameID := frameID, client := .ready }
  else none

/-- `__getDataFrameWriteReadPointer`. Outside an acquisition the client gives up. -/
def getPointers (s : FrameServer) : Option FrameServer :=
  if s.request = .idle ∧ s.client.free ∧ s.hasWorker = true then
    some { s with
      client := .pointers (s.dataFrameWritePointer % (2 * bs)) (s.dataFrameReadPointer % (2 * bs)) }
  else none

/-- The end of `__synchronizeDataToConfig`: everything up to the write pointer is passed over. -/
def skip (s : FrameServer) : Option FrameServer :=
  match s.client with
  | .pointers wr _ => some { s with dataFrameReadPointer := wr % (2 * bs), client := .ready }
  | _ => none

/-- The number of frames in a block of `acquire`. -/
def nFramesInBlock (wr rd framesToTarget : ℕ) : ℕ :=
  let n := (max wr rd - min wr rd)
  let n := if n > bs then 2 * bs - n else n
  let n := if n > framesToTarget then framesToTarget else n
  if n > bs / 2 then bs / 2 else n

/-- A block is handed to `write_raw`; with no frames to go it is the mark of a step's begin or end. -/
def send (s : FrameServer) (framesToTarget : ℕ) : Option FrameServer :=
  match s.client with
  | .pointers wr rd =>
    some { s with client := .block ((rd + nFramesInBlock wr rd framesToTarget) % (2 * bs)) (rd % (2 * bs)) }
  | _ => none

/-- `write_raw` reads the frame at its position. -/
def read (s : FrameServer) : Option FrameServer :=
  match s.client with
  | .block wr pos =>
    if pos ≠ wr then some { s with client := .block wr ((pos + 1) % (2 * bs)) } else none
  | _ => none

/-- `write_raw` has answered, and the client sets the read pointer. -/
def setReadPointer (s : FrameServer) : Option FrameServer :=
  match s.client with
  | .block wr pos =>
    if pos = wr then some { s with dataFrameReadPointer := pos % (2 * bs), client := .ready } else none
  | _ => none

/-! ### What a step can be -/

variable {s s' : FrameServer}

/-- A step of the worker, by the place it is taken at. -/
inductive WorkStep (s : FrameServer) : FrameServer → Prop where
  | head : s.worker = .head → WorkStep s { s with worker := if s.die then .exited else .recv }
  | recv : s.worker = .recv → WorkStep s { s with worker := .head }
  | select {p nWords : ℕ} : s.worker = .select p nWords →
      WorkStep s { s with
        worker := .copy (if Ring.isFull bs s.dataFrameWritePointer s.dataFrameReadPointer then none
          else some (s.dataFrameWritePointer % bs)) p nWords
          ((s.dataBuffer p >>> 36) &&& 0x7FFF).toNat 0 }
  | word {dst : Option ℕ} {p nWords size i : ℕ} : s.worker = .copy dst p nWords size i → i < size →
      WorkStep s { s.store dst i (s.dataBuffer (p + i)) with worker := .copy dst p nWords size (i + 1) }
  | copied {dst : Option ℕ} {p nWords size i : ℕ} : s.worker = .copy dst p nWords size i → size ≤ i →
      WorkStep s { s with worker := .parse dst (p + size) nWords }
  | malformed {dst : Option ℕ} {p nWords : ℕ} : s.worker = .parse dst p nWords →
      parseDataFrame (s.target dst) = false → WorkStep s { s with worker := .head }
  | old {dst : Option ℕ} {p nWords : ℕ} : s.worker = .parse dst p nWords →
      parseDataFrame (s.target dst) = true → getFrameID (s.target dst) < s.minimumFrameID →
      WorkStep s { s with worker := next p nWords }
  | young {dst : Option ℕ} {p nWords : ℕ} : s.worker = .parse dst p nWords →
      parseDataFrame (s.target dst) = true → s.minimumFrameID ≤ getFrameID (s.target dst) →
      WorkStep s { s with worker := .push dst p nWords }
  | push {dst : Option ℕ} {p nWords : ℕ} : s.worker = .push dst p nWords →
      WorkStep s { s with
        dataFrameWritePointer :=
          if dst.isSome then (s.dataFrameWritePointer + 1) % (2 * bs) else s.dataFrameWritePointer
        worker := next p nWords }

theorem work_inv (h : s.work = some s') : WorkStep s s' := by
  unfold work at h
  split at h
  · cases h
  · cases h
  · obtain rfl := Option.some.inj h
    exact .head ‹_›
  · obtain rfl := Option.some.inj h
    exact .recv ‹_›
  · obtain rfl := Option.some.inj h
    exact .select ‹_›
  · split_ifs at h with hlt <;> obtain rfl := Option.some.inj h
    · exact .word ‹_› hlt
    · exact .copied ‹_› (not_lt.mp hlt)
  · split_ifs at h with hparse hold <;> obtain rfl := Option.some.inj h
    · exact .malformed ‹_› (by simpa using hparse)
    · exact .old ‹_› (by simpa using hparse) hold
    · exact .young ‹_› (by simpa using hparse) (not_lt.mp hold)
  · obtain rfl := Option.some.inj h
    exact .push ‹_›

theorem recv_inv {ws : List UInt64} (h : s.recv ws = some s') :
    s.worker = .recv ∧
      (s.acquisitionMode ≠ 0 ∧ s' = { s.fill ws with worker := .select 0 ws.length } ∨
        s.acquisitionMode = 0 ∧ s' = { s with worker := .head }) := by
  rw [recv] at h
  split_ifs at h with hg hm
  · exact ⟨hg.1, .inl ⟨hm, (Option.some.inj h).symm⟩⟩
  · exact ⟨hg.1, .inr ⟨not_not.mp hm, (Option.some.inj h).symm⟩⟩

theorem acqOnOff_inv {acqMode : ℕ} (h : s.acqOnOff acqMode = some s') :
    ∃ mode, s' = { s with
      acquisitionMode := 0
      dataFrameWritePointer := 0
      dataFrameReadPointer := 0
      request := .wiped mode
      client := .ready } := by
  rw [acqOnOff] at h
  split_ifs at h
  all_goals exact ⟨_, (Option.some.inj h).symm⟩

theorem stopWorker_inv (h : s.stopWorker = some s') :
    ∃ mode die, s.request ≠ .idle ∧ s' = { s with die := die, request := .joining mode } := by
  unfold stopWorker at h
  split at h
  · rename_i hr
    exact ⟨_, _, by rw [hr]; exact Request.noConfusion, (Option.some.inj h).symm⟩
  · cases h

theorem join_inv (h : s.join = some s') :
    s.request ≠ .idle ∧ (s.hasWorker = true → s.worker = .exited) ∧
      (s' = { s with hasWorker := false, worker := .absent, request := .idle } ∨
        ∃ mode, mode ≠ 0 ∧ s' = { s with
          dataFrameWritePointer := 0
          dataFrameReadPointer := 0
          acquisitionMode := mode
          minimumFrameID := 0
          die := false
          hasWorker := true
          worker := .head
          request := .idle }) := by
  unfold join at h
  split at h
  · rename_i hr
    have hbusy : s.request ≠ .idle := by rw [hr]; exact Request.noConfusion
    split_ifs at h with hrun hmode
    · exact ⟨hbusy, fun hh => not_not.mp fun hne => hrun ⟨hh, hne⟩, .inl (Option.some.inj h).symm⟩
    · exact ⟨hbusy, fun hh => not_not.mp fun hne => hrun ⟨hh, hne⟩,
        .inr ⟨_, hmode, (Option.some.inj h).symm⟩⟩
  · cases h

theorem setMinimumFrameID_inv {frameID : ℕ} (h : s.setMinimumFrameID frameID = some s') :
    s.client.free ∧ s' = { s with minimumFrameID := frameID, client := .ready } := by
  rw [setMinimumFrameID] at h
  split_ifs at h with hg
  exact ⟨hg.2, (Option.some.inj h).symm⟩

theorem getPointers_inv (h : s.getPointers = some s') :
    s.request = .idle ∧ s.client.free ∧ s' = { s with
      client := .pointers (s.dataFrameWritePointer % (2 * bs)) (s.dataFrameReadPointer % (2 * bs)) } := by
  rw [getPointers] at h
  split_ifs at h with hg
  exact ⟨hg.1, hg.2.1, (Option.some.inj h).symm⟩

theorem skip_inv (h : s.skip = some s') :
    ∃ wr rd, s.client = .pointers wr rd ∧
      s' = { s with dataFrameReadPointer := wr % (2 * bs), client := .ready } := by
  unfold skip at h
  split at h
  · exact ⟨_, _, ‹_›, (Option.some.inj h).symm⟩
  · cases h

theorem send_inv {framesToTarget : ℕ} (h : s.send framesToTarget = some s') :
    ∃ wr rd, s.client = .pointers wr rd ∧ s' = { s with
      client := .block ((rd + nFramesInBlock wr rd framesToTarget) % (2 * bs)) (rd % (2 * bs)) } := by
  unfold send at h
  split at h
  · exact ⟨_, _, ‹_›, (Option.some.inj h).symm⟩
  · cases h

theorem read_inv (h : s.read = some s') :
    ∃ wr pos, s.client = .block wr pos ∧ pos ≠ wr ∧
      s' = { s with client := .block wr ((pos + 1) % (2 * bs)) } := by
  unfold read at h
  split at h
  · split_ifs at h with hne
    exact ⟨_, _, ‹_›, hne, (Option.some.inj h).symm⟩
  · cases h

theorem setReadPointer_inv (h : s.setReadPointer = some s') :
    ∃ pos, s.client = .block pos pos ∧
      s' = { s with dataFrameReadPointer := pos % (2 * bs), client := .ready } := by
  unfold setReadPointer at h
  split at h
  · split_ifs at h with he
    subst he
    exact ⟨_, ‹_›, (Option.some.inj h).symm⟩
  · cases h

end FrameServer

inductive Event where
  | work
  | recv (packet : List (List UInt64))
  | acqOnOff (acqMode : ℕ)
  | stopWorker
  | join
  | setMinimumFrameID (frameID : ℕ)
  | getPointers
  | skip
  | send (framesToTarget : ℕ)
  | read
  | setReadPointer

open FrameServer in
def step (s : FrameServer) : Event → Option FrameServer
  | .work => s.work
  | .recv packet => s.recv packet.flatten
  | .acqOnOff acqMode => s.acqOnOff acqMode
  | .stopWorker => s.stopWorker
  | .join => s.join
  | .setMinimumFrameID frameID => s.setMinimumFrameID frameID
  | .getPointers => s.getPointers
  | .skip => s.skip
  | .send framesToTarget => s.send framesToTarget
  | .read => s.read
  | .setReadPointer => s.setReadPointer

/-- The constructed server, whatever its memory holds. -/
def FrameServer.Fresh (s : FrameServer) : Prop :=
  s.dataFrameWritePointer = 0 ∧ s.dataFrameReadPointer = 0 ∧ s.acquisitionMode = 0 ∧
    s.minimumFrameID = 0 ∧ s.die = true ∧ s.hasWorker = false ∧ s.worker = .absent ∧
    s.request = .idle ∧ s.client = .ready

def machine : Machine FrameServer Event := ⟨FrameServer.Fresh, step⟩

/-- Data packets are made of whole frames, at least one. -/
def Packets (_ : FrameServer) : Event → Prop
  | .recv packet => packet ≠ [] ∧ ∀ f ∈ packet, WellSized f
  | _ => True

instance (s : FrameServer) (e : Event) : Decidable (Packets s e) := by
  cases e
  case recv packet => exact inferInstanceAs (Decidable (packet ≠ [] ∧ ∀ f ∈ packet, WellSized f))
  all_goals exact inferInstanceAs (Decidable True)

/-- An acquisition is on: no request is under way and there is a worker. -/
def FrameServer.Acquiring (s : FrameServer) : Prop := s.request = .idle ∧ s.hasWorker = true

instance (s : FrameServer) : Decidable s.Acquiring := inferInstanceAs (Decidable (_ ∧ _))

end GramsTof.Daqd
