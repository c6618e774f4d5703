import GramsTof.Lib.Buffered
import GramsTof.RawData.Event
import GramsTof.RawData.WriteRaw

/-! `RawReader`: the frames of a step are read back from the data file, accounted
for, and their events packed into numbered buffers with frame numbers relative to
each buffer's first frame. -/

namespace GramsTof.RawData

open Lib

/-- Words to a fill of the file buffer. -/
def dataFileBufferWords : ℕ := 131072 / 8

structure UndecodedHit where
  frameID : UInt64
  eventWord : UInt64
  deriving DecidableEq

/-- A buffer of events. -/
structure EventBuffer (α : Type*) where
  seqN : ℕ
  tMin : ℤ
  tMax : ℤ
  capacity : ℕ
  events : List α
  deriving DecidableEq

namespace EventBuffer

variable {α : Type*}

/-- The constructor; the number is passed as 32 bits, and `tMax` is set later. -/
def make (initialCapacity seqN : ℕ) (tMin : ℤ) : EventBuffer α :=
  ⟨seqN % 2 ^ 32, tMin, 0, (initialCapacity / 1024 + 1) * 1024, []⟩

def getFree (b : EventBuffer α) : ℕ := b.capacity - b.events.length

end EventBuffer

/-- What `processStep` reports of a step. -/
structure Accounts where
  lastFrameID : ℤ
  lastFrameWasLost0 : Bool
  nFrames : ℤ
  nFramesLost0 : ℤ
  nFramesLostN : ℤ
  nEventsNoLost : ℤ
  nEventsSomeLost : ℤ
  deriving DecidableEq

/-- A number as `int`. -/
def toInt (x : ℤ) : ℤ := x.bmod (2 ^ 32)

namespace Accounts

def initial : Accounts := ⟨-1, false, 0, 0, 0, 0, 0⟩

/-- The accounts of a frame and of the frame numbers missing before it. -/
def frame (a : Accounts) (frameID : ℤ) (N : ℕ) (frameLost : Bool) : Accounts :=
  let last := if a.lastFrameID = -1 then frameID - 1 else a.lastFrameID
  let skippedFrames := if frameID ≠ last + 1 then toInt (frameID - last - 1) else 0
  { lastFrameID := frameID
    lastFrameWasLost0 := frameLost && N == 0
    nFrames := a.nFrames + skippedFrames + 1
    nFramesLost0 := a.nFramesLost0 + (if a.lastFrameWasLost0 then skippedFrames else 0) +
      if frameLost && N == 0 then 1 else 0
    nFramesLostN := a.nFramesLostN + if frameLost && N != 0 then 1 else 0
    nEventsNoLost := a.nEventsNoLost + if frameLost then 0 else (N : ℤ)
    nEventsSomeLost := a.nEventsSomeLost + if frameLost then (N : ℤ) else 0 }

end Accounts

/-- The buffers of a step: those queued, and the one being filled. -/
structure Packing where
  queued : List (EventBuffer UndecodedHit)
  outBuffer : Option (EventBuffer UndecodedHit)
  seqN : ℕ
  currentBufferFirstFrame : ℤ

namespace Packing

def initial : Packing := ⟨[], none, 0, 0⟩

/-- A new buffer, for a frame of `N` events. -/
def fresh (p : Packing) (frameID : ℤ) (N : ℕ) : Packing :=
  { queued := p.queued ++ p.outBuffer.toList
    outBuffer := some (.make (max N 2048) p.seqN (frameID * 1024))
    seqN := p.seqN + 1
    currentBufferFirstFrame := frameID }

/-- A buffer with room for the frame: the current one, unless it is full or covers too much time. -/
def ready (p : Packing) (frameID : ℤ) (N : ℕ) : Packing :=
  match p.outBuffer with
  | none => p.fresh frameID N
  | some b =>
    if b.getFree < N ∨ frameID - p.currentBufferFirstFrame > 2 ^ 32 then p.fresh frameID N else p

/-- The events of a frame, added to the current buffer. -/
def fill (p : Packing) (frameID : ℤ) (events : List UInt64) : Packing :=
  { p with
    outBuffer := p.outBuffer.map fun b => { b with
      tMax := (frameID + 1) * 1024
      events := b.events ++ events.map fun w => ⟨UInt64.ofInt (frameID - p.currentBufferFirstFrame), w⟩ } }

def push (p : Packing) (frameID : ℤ) (events : List UInt64) : Packing :=
  (p.ready frameID events.length).fill frameID events

/-- All buffers, the last one queued as well. -/
def all (p : Packing) : List (EventBuffer UndecodedHit) := p.queued ++ p.outBuffer.toList

end Packing

/-- A step as far as it has been read. -/
structure Progress where
  file : Buffered UInt64
  currentPosition : ℕ
  accounts : Accounts
  packing : Packing

namespace Progress

def readFromDataFile (file : Buffered UInt64) (count : ℕ) : List UInt64 × Buffered UInt64 :=
  file.read dataFileBufferWords count count

/-- The loop body of `processStep`; without a result where an assertion fails. -/
def body (r : Progress) : Option Progress :=
  let (head, file) := readFromDataFile r.file 2
  if head.length ≠ 2 then none
  else
    let N := getNEvents (ofWords head)
    let frameID := getFrameID (ofWords head)
    let accounts := r.accounts.frame frameID N (getFrameLost (ofWords head))
    if ¬N + 2 ≤ MaxRawDataFrameSize then none
    else if N = 0 then some ⟨file, r.currentPosition + 8 * 2, accounts, r.packing⟩
    else
      let (events, file) := readFromDataFile file N
      if events.length ≠ N then none
      else some ⟨file, r.currentPosition + 8 * 2 + 8 * N, accounts, r.packing.push frameID events⟩

/-- The loop of `processStep`: each round takes at least a frame's header. -/
def loop (stepEnd : ℕ) : ℕ → Progress → Option Progress
  | 0, r => if r.currentPosition < stepEnd then none else some r
  | fuel + 1, r => if r.currentPosition < stepEnd then r.body.bind (loop stepEnd fuel) else some r

end Progress

/-- `processStep` over a data file whose words are `dataFile`, up to the work on the buffers. -/
def processStep (dataFile : List UInt64) (stepBegin stepEnd : ℕ) : Option Progress :=
  Progress.loop stepEnd (stepEnd - stepBegin)
    ⟨⟨[], dataFile.drop (stepBegin / 8)⟩, stepBegin, .initial, .initial⟩

structure RawHit where
  valid : Bool
  qdcMode : Bool
  time : Int64
  timeEnd : Int64
  channelID : UInt32
  frameID : UInt64
  tcoarse : UInt16
  ecoarse : UInt16
  tfine : UInt16
  efine : UInt16
  tacID : UInt16
  deriving DecidableEq

/-- The end of a hit, a turn of the coarse counter later where it lies too far before the start. -/
def timeEnd (time timeEnd : Int64) : Int64 := if timeEnd - time < -256 then timeEnd + 1024 else timeEnd

/-- One hit of `Decoder::handleEvents`. -/
def decode (isQDC : UInt32 → Bool) (h : UndecodedHit) : RawHit :=
  let word := h.eventWord
  let time := (h.frameID * 1024 + (getTCoarse word).toUInt64).toInt64
  { valid := true
    qdcMode := isQDC (getChannelID word)
    time := time
    timeEnd := timeEnd time (h.frameID * 1024 + (getECoarse word).toUInt64).toInt64
    channelID := getChannelID word
    frameID := h.frameID
    tcoarse := getTCoarse word
    ecoarse := getECoarse word
    tfine := getTFine word
    efine := getEFine word
    tacID := getTacID word }

/-- `Decoder::handleEvents`. The buffer inherits number and start of its parent. -/
def handleEvents (isQDC : UInt32 → Bool) (b : EventBuffer UndecodedHit) : EventBuffer RawHit :=
  { b with
    capacity := (b.events.length / 1024 + 1) * 1024
    events := b.events.map (decode isQDC) }

/-- What `openFile` takes from a data file's header: the frequency, the trigger and, where one mode
holds for all channels, whether it is the charge mode. -/
structure FileHeader where
  frequency : ℕ
  triggerID : ℤ
  qdcMode : Option Bool
  deriving DecidableEq

def openFile (dataFile : List UInt64) : Option FileHeader :=
  let header := ofWords (dataFile.take 8)
  if dataFile.length < 8 then none
  else some
    { frequency := (header 0 &&& 0xFFFFFFFF).toNat
      triggerID := if header 2 &&& 0x8000 ≠ 0 then (header 2 &&& 0x7FFF).toNat else -1
      qdcMode := if header 3 ≠ 0 then none else some (header 0 &&& 0x100000000 != 0) }

end GramsTof.RawData
