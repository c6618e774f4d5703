import GramsTof.Ground.Python
import GramsTof.Telemetry.LogCodec

/-! `tof_bridge.py`: the MQTT callback that takes a telemetry payload apart by its
byte offsets and inserts what it finds into the database. A handler fails where it
raises, and `on_message` then drops the payload. -/

namespace GramsTof.Ground

open Codec Lib Telemetry

/-- A call of one of the `insert_*_to_db` functions. -/
inductive Insert where
  | hist (runNum : UInt32) (hname : Text) (bins : List UInt32)
      (hType nx : UInt32) (xmin xmax : UInt64) (ny : UInt32) (ymin ymax : UInt64)
  | graph (runNum : UInt32) (gname : Text) (pointsXY : List (UInt64 × UInt64))
  | parameter (runNum : UInt32) (pname : Text) (value : UInt64)
  | log (runNumber : UInt32) (timestampMs : UInt64) (level : ℕ) (levelStr : String)
      (component message : Text)
  deriving DecidableEq

/-- A row of `tof_monitor`. -/
structure HistRow where
  runNumber : UInt32
  hname : Text
  binIndex : ℕ
  binContent : UInt64
  histType : UInt32
  nBinsX : UInt32
  xMin : UInt64
  xMax : UInt64
  nBinsY : UInt32
  yMin : UInt64
  yMax : UInt64
  deriving DecidableEq

/-- The `data_to_insert` of `insert_hist_to_db` on a machine of the given byte order, which `'I'` and
`'f'` both follow. -/
def insertHistToDb (machine : Host) (runNum : UInt32) (hname : Text) (bins : List UInt32)
    (hType nx : UInt32) (xmin xmax : UInt64) (ny : UInt32) (ymin ymax : UInt64) : List HistRow :=
  bins.mapIdx fun idx val =>
    ⟨runNum, hname, idx, Widening.convert (machine.word (machine.bytes val)), hType, nx, xmin, xmax, ny,
      ymin, ymax⟩

/-- The rows of `tof_monitor` that a call inserts. -/
def Insert.rows (machine : Host) : Insert → List HistRow
  | hist runNum hname bins hType nx xmin xmax ny ymin ymax =>
    insertHistToDb machine runNum hname bins hType nx xmin xmax ny ymin ymax
  | graph .. | parameter .. | log .. => []

/-! ### Handlers -/

/-- `b"".join` of the groups of four bytes, each reversed, of which `n` begin. -/
def swapGroups (n : ℕ) (bs : List UInt8) : List UInt8 :=
  (List.range n).flatMap fun i => (slice bs (4 * i) (4 * i + 4)).reverse

/-- `_decode_name`. -/
def decodeName (raw16 : List UInt8) : Text := stripNul (decodeUtf8 (swapGroups 4 raw16))

/-- `LOG_LEVEL_MAP.get(level, ..)`. -/
def logLevelStr : ℕ → String
  | 0 => "TRACE"
  | 1 => "DEBUG"
  | 2 => "INFO"
  | 3 => "NOTICE"
  | 4 => "WARN"
  | 5 => "ERROR"
  | 6 => "CRITICAL"
  | level => "LOG(" ++ toString level ++ ")"

/-- `handle_log_stream`. -/
def handleLogStream (payload : List UInt8) : Option (List Insert) :=
  if payload.length < 50 then some []
  else
    let argvData := slice payload 8 (payload.length - 6)
    let numWords := argvData.length / 4
    if numWords < 9 then some []
    else do
      let argv ← unpackIs numWords (argvData.take (numWords * 4))
      let runNumber ← argv[0]?
      let high ← argv[1]?
      let low ← argv[2]?
      let level := ((← argv[3]?) &&& 0xFF).toNat
      let msgLen := (← argv[4]?).toNat
      let compRaw := ((argv.drop 5).take 4).flatMap bytes32
      let component := decodeName compRaw
      let message :=
        if msgLen > 0 ∧ argv.length ≥ 9 + (msgLen + 3) / 4 then
          let msgWords := (argv.drop 9).take ((msgLen + 3) / 4)
          let msgRaw := msgWords.flatMap bytes32
          let fixed := swapGroups ((msgRaw.length + 3) / 4) msgRaw
          decodeUtf8 (fixed.take msgLen)
        else []
      pure [.log runNumber (joinWords high low) level (logLevelStr level) component message]

/-- `_handle_histogram`. -/
def handleHistogram (payload : List UInt8) : Option (List Insert) :=
  if payload.length < 56 then some []
  else do
    let runNum ← unpackI (slice payload 8 12)
    let hname := decodeName (slice payload 12 28)
    let hType ← unpackI (slice payload 28 32)
    let nBinsX ← unpackI (slice payload 32 36)
    let xMin ← unpackF (slice payload 36 40)
    let xMax ← unpackF (slice payload 40 44)
    let nBinsY ← unpackI (slice payload 44 48)
    let yMin ← if hType = 2 then unpackF (slice payload 48 52) else some 0
    let yMax ← if hType = 2 then unpackF (slice payload 52 56) else some 0
    let nBins :=
      if hType = 3 then nBinsX.toNat * 3
      else if hType = 2 then (nBinsX.toNat + 2) * (nBinsY.toNat + 2)
      else nBinsX.toNat + 2
    let binStart := 56
    let nBinsToRead := min nBins ((payload.length - binStart) / 4)
    let binValues ← unpackIs nBinsToRead (slice payload binStart (binStart + nBinsToRead * 4))
    pure [.hist runNum hname binValues hType nBinsX xMin xMax nBinsY yMin yMax]

/-- The body of the loop of `_handle_graph`. -/
def graphPoint (payload : List UInt8) (base : ℕ) : Option (UInt64 × UInt64) := do
  let words ← unpackIs 4 (slice payload base (base + 16))
  match words with
  | [xHi, xLo, yHi, yLo] => some (joinWords xHi xLo, joinWords yHi yLo)
  | _ => none

/-- `_handle_graph`. -/
def handleGraph (payload : List UInt8) : Option (List Insert) :=
  if payload.length < 36 then some []
  else do
    let runNum ← unpackI (slice payload 8 12)
    let gname := decodeName (slice payload 12 28)
    let nPoints ← unpackI (slice payload 32 36)
    let ptStart := 36
    let nPtsToRead := min nPoints.toNat ((payload.length - ptStart) / 16)
    let pointsXY ← (List.range nPtsToRead).foldlM (fun pointsXY i => do
      let xy ← graphPoint payload (ptStart + i * 16)
      pure (pointsXY ++ [xy])) []
    pure [.graph runNum gname pointsXY]

/-- `_handle_parameter`. -/
def handleParameter (payload : List UInt8) : Option (List Insert) :=
  if payload.length < 40 then some []
  else do
    let runNum ← unpackI (slice payload 8 12)
    let pname := decodeName (slice payload 12 28)
    let valHi ← unpackI (slice payload 32 36)
    let valLo ← unpackI (slice payload 36 40)
    pure [.parameter runNum pname (joinWords valHi valLo)]

def dataTypeHist : UInt32 := 1

def dataTypeGraph : UInt32 := 4

def dataTypeParameter : UInt32 := 5

/-- `handle_monitor`. -/
def handleMonitor (payload : List UInt8) : Option (List Insert) :=
  if payload.length < 32 then some []
  else do
    let dataType ← unpackI (slice payload 28 32)
    if dataType = dataTypeHist then handleHistogram payload
    else if dataType = dataTypeGraph then handleGraph payload
    else if dataType = dataTypeParameter then handleParameter payload
    else pure []

/-- The inserts that `on_message` comes to for a payload; what it raises it catches. -/
def onMessage (payload : List UInt8) : List Insert :=
  if payload.length < 8 then []
  else
    (do
      let (_h1, _h2, code) ← unpackHHH (slice payload 0 6)
      if code = 0x5400 then handleMonitor payload
      else if code = 0x5401 then handleLogStream payload
      else pure []).getD []

/-! ### Swapped words -/

/-- Swapping each group turns the words on the wire into their bytes on a little-endian machine. -/
theorem swapGroups_flatMap (ws : List UInt32) :
    swapGroups ws.length (ws.flatMap bytes32) = Host.little.rep.memory ws := by
  induction ws with
  | nil => rfl
  | cons w ws ih =>
    have hw := length_bytes32 w
    rw [List.length_cons, swapGroups, List.range_succ_eq_map, List.flatMap_cons, List.flatMap_map,
      WordRep.memory_cons, ← ih, swapGroups]
    have hhead : slice ((w :: ws).flatMap bytes32) (4 * 0) (4 * 0 + 4) = bytes32 w := by
      rw [slice, List.flatMap_cons, Nat.mul_zero, List.drop_zero]
      exact List.take_left' hw
    have htail : ∀ i, slice ((w :: ws).flatMap bytes32) (4 * i.succ) (4 * i.succ + 4) =
        slice (ws.flatMap bytes32) (4 * i) (4 * i + 4) := fun i => by
      rw [slice, slice, List.flatMap_cons, show 4 * i.succ = 4 + 4 * i by omega, ← List.drop_drop,
        List.drop_left' hw, Nat.add_sub_cancel_left, Nat.add_sub_cancel_left]
    rw [hhead]
    simp only [htail]
    rfl

end GramsTof.Ground
