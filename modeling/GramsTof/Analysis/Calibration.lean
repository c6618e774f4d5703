import GramsTof.Analysis.Records
import GramsTof.Analysis.TimestampCPU
import Mathlib.Algebra.Order.Floor.Defs
import Mathlib.Algebra.Order.Field.Basic

/-! The calibration tables, the text files they are read from, and the times and
charges computed from them. Values are exact numbers of a field `ρ`. -/

namespace GramsTof.Analysis

open Lib

variable {ρ : Type*}

/-- What the C++ library and the constructor of `TTimeStamp` compute. -/
structure CLibrary (ρ : Type*) where
  sqrt : ρ → ρ
  atoi (word : String) : ℤ
  atof (word : String) : ρ
  /-- None where `std::stoi` throws. -/
  stoi (word : String) : Option ℤ
  /-- None where `std::stof` throws. -/
  stof (word : String) : Option ρ
  /-- A number outside the range of `uint16_t`, converted to it. -/
  overflow : ρ → UInt16
  tTimeStamp (r : Reading) : TimeStamp

structure TdcParams (ρ : Type*) where
  t0 : ρ
  a0 : ρ
  a1 : ρ
  a2 : ρ
  deriving DecidableEq, Inhabited

structure QdcParams (ρ : Type*) where
  p0 : ρ
  p1 : ρ
  p2 : ρ
  p3 : ρ
  p4 : ρ
  p5 : ρ
  p6 : ρ
  p7 : ρ
  p8 : ρ
  p9 : ρ
  deriving DecidableEq, Inhabited

/-- `T0`, `A0`, `A1`, `A2` and `P0` to `P9`, by chip, channel and tac. -/
structure Table (ρ : Type*) where
  tdc : ℕ → ℕ → ℕ → Branch → TdcParams ρ
  qdc : ℕ → ℕ → ℕ → QdcParams ρ

/-- What uninitialised memory holds: `P9` of a new table, the locals of the readers, the entry of
a new stage-2 object. -/
structure Uninitialised (ρ : Type*) where
  p9 : ℕ → ℕ → ℕ → ρ
  number : ρ
  id : UInt16
  branch : Char
  entry : Stg2Record ρ

namespace Table

section Store

variable (t : Table ρ) (chip channel tac : ℕ)

def storeTdc (branch : Branch) (x : TdcParams ρ) : Table ρ :=
  { t with tdc := fun c h a b =>
      if c = chip ∧ h = channel ∧ a = tac ∧ b = branch then x else t.tdc c h a b }

def storeQdc (x : QdcParams ρ) : Table ρ :=
  { t with qdc := fun c h a => if c = chip ∧ h = channel ∧ a = tac then x else t.qdc c h a }

end Store

/-- A new table. `P9` is not among what `initializeParams` sets. -/
def initializeParams [Field ρ] (u : Uninitialised ρ) : Table ρ where
  tdc _ _ _ _ := ⟨-99999, -99999, -99999, -99999⟩
  qdc chip channel tac := ⟨-99999, -99999, -99999, -99999, -99999, -99999, -99999, -99999, -99999,
    u.p9 chip channel tac⟩

end Table

/-! ### The files -/

/-- The words of a line between tabs; nothing follows a tab at its end. -/
def tabWords (line : String) : List String :=
  let words := line.toList.splitOn '\t'
  (if words.getLast? = some [] then words.dropLast else words).map .ofList

/-- The locals that a line of the TDC file sets. -/
structure TdcLine (ρ : Type*) where
  chipID : UInt16
  channelID : UInt16
  tacID : UInt16
  branch : Char
  params : TdcParams ρ

/-- The locals that a line of the QDC file sets. -/
structure QdcLine (ρ : Type*) where
  chipID : UInt16
  channelID : UInt16
  tacID : UInt16
  params : QdcParams ρ

/-- An `int` stored in an `unsigned short`. -/
def toUShort (n : ℤ) : UInt16 := UInt16.ofInt n

section Read

variable (lib : CLibrary ρ)

/-- The word number `n` of a line. Words 0 and 1, port and slave, are read and not used. -/
def TdcLine.assign (v : TdcLine ρ) (n : ℕ) (word : String) : TdcLine ρ :=
  match n with
  | 2 => { v with chipID := toUShort (lib.atoi word) }
  | 3 => { v with channelID := toUShort (lib.atoi word) }
  | 4 => { v with tacID := toUShort (lib.atoi word) }
  | 5 => { v with branch := word.toList.headD '\x00' }
  | 6 => { v with params := { v.params with t0 := lib.atof word } }
  | 7 => { v with params := { v.params with a0 := lib.atof word } }
  | 8 => { v with params := { v.params with a1 := lib.atof word } }
  | 9 => { v with params := { v.params with a2 := lib.atof word } }
  | _ => v

/-- As `TdcLine.assign`; none when the conversion throws. -/
def QdcLine.assign (v : QdcLine ρ) (n : ℕ) (word : String) : Option (QdcLine ρ) :=
  match n with
  | 0 | 1 => (lib.stoi word).map fun _ => v
  | 2 => (lib.stoi word).map fun i => { v with chipID := toUShort i }
  | 3 => (lib.stoi word).map fun i => { v with channelID := toUShort i }
  | 4 => (lib.stoi word).map fun i => { v with tacID := toUShort i }
  | 5 => (lib.stof word).map fun x => { v with params := { v.params with p0 := x } }
  | 6 => (lib.stof word).map fun x => { v with params := { v.params with p1 := x } }
  | 7 => (lib.stof word).map fun x => { v with params := { v.params with p2 := x } }
  | 8 => (lib.stof word).map fun x => { v with params := { v.params with p3 := x } }
  | 9 => (lib.stof word).map fun x => { v with params := { v.params with p4 := x } }
  | 10 => (lib.stof word).map fun x => { v with params := { v.params with p5 := x } }
  | 11 => (lib.stof word).map fun x => { v with params := { v.params with p6 := x } }
  | 12 => (lib.stof word).map fun x => { v with params := { v.params with p7 := x } }
  | 13 => (lib.stof word).map fun x => { v with params := { v.params with p8 := x } }
  | 14 => (lib.stof word).map fun x => { v with params := { v.params with p9 := x } }
  | _ => some v

/-- The lines after the header. The locals keep what a short line leaves out. -/
def tdcLines (t : Table ρ) (v : TdcLine ρ) : List String → Table ρ
  | [] => t
  | line :: rest =>
    let v := (tabWords line).zipIdx.foldl (fun v w => v.assign lib w.2 w.1) v
    tdcLines (t.storeTdc v.chipID.toNat v.channelID.toNat v.tacID.toNat
      (if v.branch = 'T' then .branchT else .branchE) v.params) v rest

/-- The lines after the header, and whether all were read without a throw. -/
def qdcLines (t : Table ρ) (v : QdcLine ρ) : List String → Table ρ × Bool
  | [] => (t, true)
  | line :: rest =>
    match (tabWords line).zipIdx.foldlM (fun v w => v.assign lib w.2 w.1) v with
    | none => (t, false)
    | some v =>
      qdcLines (t.storeQdc v.chipID.toNat v.channelID.toNat v.tacID.toNat v.params) v rest

variable (u : Uninitialised ρ) (t : Table ρ)

/-- `readTdcCalib` of a file with these lines, none when it cannot be opened. -/
def readTdcCalib (file : Option (List String)) : Table ρ :=
  tdcLines lib t ⟨u.id, u.id, u.id, u.branch, ⟨u.number, u.number, u.number, u.number⟩⟩
    ((file.getD []).drop 1)

/-- `readQdcCalib`, and whether it returns at all. -/
def readQdcCalib (file : Option (List String)) : Table ρ × Bool :=
  qdcLines lib t ⟨u.id, u.id, u.id, ⟨u.number, u.number, u.number, u.number, u.number, u.number,
    u.number, u.number, u.number, u.number⟩⟩ ((file.getD []).drop 1)

/-- `readCalibrationFiles`; its code is looked at by no caller. -/
def readCalibrationFiles (tdc qdc : Option (List String)) : Table ρ × Bool :=
  readQdcCalib lib u (readTdcCalib lib u t tdc) qdc

end Read

/-! ### Times and charges -/

/-- Chip and channel of an absolute channel number. -/
def getAsicID (channel : UInt32) : UInt8 := ((channel >>> 6) &&& 0x3F).toUInt8

def getChannelID (channel : UInt32) : UInt8 := (channel &&& 0x3F).toUInt8

section Values

variable [Field ρ] (lib : CLibrary ρ) (t : Table ρ) (absChannelID : UInt32) (tacID : UInt8)
  (frameID : Int64)

def getTdcParams (br : Branch) : TdcParams ρ :=
  t.tdc (getAsicID absChannelID).toNat (getChannelID absChannelID).toNat tacID.toNat br

def getQdcParams : QdcParams ρ :=
  t.qdc (getAsicID absChannelID).toNat (getChannelID absChannelID).toNat tacID.toNat

/-- `double(frameID*1024 + coarse)`. -/
def coarseTime (coarse : UInt16) : ρ := (clock frameID.toUInt64 coarse : ρ)

/-- `getCalibratedTime_T` and `getCalibratedTime_E`, which differ in the branch. -/
def getCalibratedTime (br : Branch) (coarse fine : UInt16) : ρ :=
  let p := getTdcParams t absChannelID tacID br
  let q := (-p.a1 + lib.sqrt (p.a1 * p.a1 - 4 * (p.a0 - (fine.toNat : ρ)) * p.a2)) / (2 * p.a2)
  coarseTime frameID coarse - q - p.t0

/-- The polynomial of a charge. -/
def QdcParams.eval (p : QdcParams ρ) (x : ρ) : ρ :=
  p.p0 + p.p1 * x + p.p2 * x ^ 2 + p.p3 * x ^ 3 + p.p4 * x ^ 4 + p.p5 * x ^ 5 + p.p6 * x ^ 6 +
    p.p7 * x ^ 7 + p.p8 * x ^ 8 + p.p9 * x ^ 9

def QdcParams.slope (p : QdcParams ρ) (x : ρ) : ρ :=
  p.p1 + p.p2 * x * 2 + p.p3 * x ^ 2 * 3 + p.p4 * x ^ 3 * 4 + p.p5 * x ^ 4 * 5 + p.p6 * x ^ 5 * 6 +
    p.p7 * x ^ 6 * 7 + p.p8 * x ^ 7 * 8 + p.p9 * x ^ 8 * 9

def getCalibratedQDC (ecoarse _efine tcoarse : UInt16) (time : ρ) : ρ :=
  (getQdcParams t absChannelID tacID).eval (coarseTime frameID (rolledOver ecoarse tcoarse) - time)

variable [LinearOrder ρ]

/-- The loop of `getEnergy`, at most `n` turns of it. -/
def energyLoop (p : QdcParams ρ) (efine : ρ) : ℕ → ρ → ρ
  | 0, teq => teq
  | n + 1, teq =>
    let delta := min (max (-((p.eval teq - efine) / p.slope teq)) (-10)) 10
    if 1 / 20 < |delta| then energyLoop p efine n (teq + delta) else teq + delta

def getEnergy (ecoarse efine : UInt16) (time : ρ) : ρ :=
  let ti := coarseTime frameID ecoarse - time
  energyLoop (getQdcParams t absChannelID tacID) (efine.toNat : ρ) 100 ti - ti

/-- What the table makes of a hit. -/
def Table.calibration : Calibration ρ where
  getCalibratedTime br ch tac frame coarse fine := getCalibratedTime lib t ch tac frame br coarse fine
  getEnergy ch tac frame ecoarse efine time := getEnergy t ch tac frame ecoarse efine time
  getCalibratedQDC ch tac frame ecoarse efine tcoarse time :=
    getCalibratedQDC t ch tac frame ecoarse efine tcoarse time

end Values

/-! ### Inputs of examples -/

/-- The second of a date in universal time, and what is left of it. -/
def utcStamp (r : Reading) : TimeStamp where
  sec := (Calendar.yearStart r.year + ((Calendar.monthLengths (Calendar.leapYear r.year)).take
    (r.month.toNat - 1)).sum + r.day - 1) * 86400 + r.hour * 3600 + r.min * 60 + r.sec
  nanoSec := r.ms * 1000000

def digitOf (word : String) : ℤ := if word = "1" then 1 else if word = "2" then 2 else 0

/-- A library that is right on the words `0`, `1` and `2`, at the root of zero and on dates. -/
def digitLibrary : CLibrary ℚ where
  sqrt x := x
  atoi := digitOf
  atof word := digitOf word
  stoi word := some (digitOf word)
  stof word := some (digitOf word)
  overflow _ := 0
  tTimeStamp := utcStamp

end GramsTof.Analysis
