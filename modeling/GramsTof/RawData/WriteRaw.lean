import GramsTof.RawData.Frame
import GramsTof.Lib.Ring
import Mathlib.Data.Int.Notation

/-! `write_raw` in its standard mode: blocks of frames are taken from the shared
memory and written to the data file, runs of frames without events shortened to
their first. Frame numbers that are skipped leave one mark, the frame of the first
of them with the lost flag. Each step is closed by a line of the index. -/

namespace GramsTof.RawData

open Lib

inductive FrameType where
  | unknown
  | someData
  | zeroData
  | someLost
  | allLost
  deriving DecidableEq

/-- A line of the index file. -/
structure IndexLine where
  stepBegin : ℕ
  stepEnd : ℕ
  firstFrameID : ℤ
  lastFrameID : ℤ
  step1 : UInt32
  step2 : UInt32
  deriving DecidableEq

structure BlockHeader where
  step1 : UInt32
  step2 : UInt32
  wrPointer : ℕ
  rdPointer : ℕ
  blockType : ℤ

/-- The files written so far, and the accounts of the step. -/
structure Writer where
  dataFile : List UInt64
  indexFile : List IndexLine
  stepEvents : ℤ
  stepMaxFrame : ℤ
  stepAllFrames : ℤ
  stepLostFramesN : ℤ
  stepLostFrames0 : ℤ
  lastFrameID : ℤ
  stepFirstFrameID : ℤ
  stepStartOffset : ℕ
  lastFrameType : FrameType
  deriving DecidableEq

/-- The mode argument; every other text counts as `tot`. -/
inductive Mode where
  | tot
  | qdc
  | mixed
  deriving DecidableEq

/-- The eight words at the start of a data file. The start time is kept as its bits. -/
def header (systemFrequency : ℤ) (mode : Mode) (acquisitionStartTime : UInt64) (triggerID : ℤ) :
    List UInt64 :=
  [UInt64.ofNat (systemFrequency % 2 ^ 32).toNat |||
      (if mode = .qdc then (0x1 : UInt64) else 0x0) <<< 32,
    acquisitionStartTime,
    if triggerID ≠ -1 then UInt64.ofNat ((0x8000 + triggerID) % 2 ^ 64).toNat else 0,
    if mode = .mixed then 0x1 else 0, 0, 0, 0, 0]

namespace Writer

/-- The files with the data file's header. -/
def opened (head : List UInt64) : Writer :=
  ⟨head, [], 0, 0, 0, 0, 0, -1, -1, 8 * head.length, .unknown⟩

def ftell (w : Writer) : ℕ := 8 * w.dataFile.length

/-- The frame that stands for skipped frame numbers. -/
def lostFrameBuffer (frameID : ℤ) : List UInt64 :=
  [(2 : UInt64) <<< 36 ||| UInt64.ofNat frameID.toNat, (1 : UInt64) <<< 16]

/-- The frame numbers skipped before a frame. -/
def skip (w : Writer) (frameID : ℤ) : Writer :=
  if frameID ≤ w.lastFrameID then w
  else if 0 ≤ w.lastFrameID ∧ frameID ≠ w.lastFrameID + 1 then
    let skippedFrames := frameID - w.lastFrameID - 1
    { w with
      stepAllFrames := w.stepAllFrames + skippedFrames
      stepLostFrames0 := w.stepLostFrames0 + skippedFrames
      dataFile := w.dataFile ++ lostFrameBuffer (w.lastFrameID + 1)
      lastFrameType := .allLost }
  else w

/-- The accounts of a frame. -/
def account (w : Writer) (frameID : ℤ) (nEvents : ℕ) (frameLost : Bool) : Writer :=
  { w with
    lastFrameID := frameID
    stepFirstFrameID := if w.stepFirstFrameID = -1 then frameID else w.stepFirstFrameID
    stepEvents := w.stepEvents + nEvents
    stepMaxFrame := max w.stepMaxFrame nEvents
    stepLostFrames0 := w.stepLostFrames0 + if frameLost && nEvents == 0 then 1 else 0
    stepLostFramesN := w.stepLostFramesN + if frameLost && nEvents != 0 then 1 else 0
    stepAllFrames := w.stepAllFrames + 1 }

/-- The type of a frame, under the names the source has for the four cases. -/
def frameType (frameLost : Bool) (nEvents : ℕ) : FrameType :=
  if frameLost then if nEvents = 0 then .zeroData else .someData
  else if nEvents = 0 then .allLost else .someLost

/-- The loop body for one frame. -/
def frame (blockType : ℤ) (w : Writer) (data : Data) : Writer :=
  let w := (w.skip (getFrameID data)).account (getFrameID data) (getNEvents data) (getFrameLost data)
  let type := frameType (getFrameLost data) (getNEvents data)
  if blockType = 1 ∧ w.lastFrameType = .zeroData ∧ type = w.lastFrameType then w
  else if blockType = 1 ∧ w.lastFrameType = .allLost ∧ type = w.lastFrameType then w
  else { w with lastFrameType := type, dataFile := w.dataFile ++ words data }

/-- What the first block of a step resets. -/
def start (w : Writer) : Writer :=
  { w with
    stepEvents := 0
    stepMaxFrame := 0
    stepAllFrames := 0
    stepLostFramesN := 0
    stepLostFrames0 := 0
    lastFrameID := -1
    stepFirstFrameID := -1
    stepStartOffset := w.ftell
    lastFrameType := .unknown }

/-- What the last block of a step adds to the index. -/
def finish (w : Writer) (step1 step2 : UInt32) : Writer :=
  { w with
    indexFile := w.indexFile ++
      [⟨w.stepStartOffset, w.ftell, w.stepFirstFrameID, w.lastFrameID, step1, step2⟩] }

/-- The frames between the pointers of a block. -/
def frames (shm : ℕ → Data) (h : BlockHeader) : List Data :=
  Ring.window MaxRawDataFrameQueueSize shm (h.rdPointer % (2 * MaxRawDataFrameQueueSize))
    (Ring.level MaxRawDataFrameQueueSize (h.wrPointer % (2 * MaxRawDataFrameQueueSize))
      (h.rdPointer % (2 * MaxRawDataFrameQueueSize)))

/-- One block, with the frames it covers. -/
def block (w : Writer) (h : BlockHeader) (fs : List Data) : Writer :=
  let w := if h.blockType = 0 then w.start else w
  let w := fs.foldl (frame h.blockType) w
  if h.blockType = 2 then w.finish h.step1 h.step2 else w

end Writer

end GramsTof.RawData
