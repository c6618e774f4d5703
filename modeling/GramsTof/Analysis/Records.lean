import Mathlib.Algebra.GroupWithZero.Nat
import Mathlib.Data.Int.Notation

/-! Entries of the stage-1 and stage-2 trees, and the values that their getters and
setters pass on. A float is kept as its bits. -/

namespace GramsTof.Analysis

/-- `CLOCKS_IN_A_FRAME`. -/
def clocksInAFrame : UInt64 := 1024

structure TimeStamp where
  sec : ℤ
  nanoSec : ℤ
  deriving DecidableEq, Repr, Inhabited

/-- The branches of a stage-1 tree. -/
structure Stg1Record where
  step1 : UInt32
  step2 : UInt32
  frameID : Int64
  channelID : UInt32
  tacID : UInt16
  tCoarse : UInt16
  eCoarse : UInt16
  tFine : UInt16
  eFine : UInt16
  deriving DecidableEq, Repr, Inhabited

/-- The branches of a stage-2 tree, the calibrated values in `ρ`. -/
structure Stg2Record (ρ : Type*) where
  tsCpu : TimeStamp
  step1 : UInt32
  step2 : UInt32
  frameID : Int64
  channelID : UInt32
  connIDFebD : UInt8
  connIDFebS : UInt8
  paddleIdx : UInt16
  tacID : UInt16
  tCoarse : UInt16
  eCoarse : UInt16
  tFine : UInt16
  eFine : UInt16
  tdcCal : ρ
  qdcCal : ρ
  deriving DecidableEq, Inhabited

section Getters

variable {ρ : Type*}

def Stg1Record.getFrameID (r : Stg1Record) : UInt64 := r.frameID.toUInt64

def Stg1Record.getTacID (r : Stg1Record) : UInt8 := r.tacID.toUInt8

def Stg2Record.getFrameID (r : Stg2Record ρ) : UInt64 := r.frameID.toUInt64

def Stg2Record.getTacID (r : Stg2Record ρ) : UInt8 := r.tacID.toUInt8

end Getters

/-- The getters of the number of the TAC pass eight bits of it. -/
theorem toUInt16_toUInt8_eq_iff (n : UInt16) : n.toUInt8.toUInt16 = n ↔ n.toNat < 2 ^ 8 := by
  rw [← UInt16.toNat_inj, UInt8.toNat_toUInt16, UInt16.toNat_toUInt8]
  exact Nat.mod_eq_iff_lt (by decide)

/-- `CLOCKS_IN_A_FRAME * frameID + tCoarse`, as a signed number. -/
def clock (frameID : UInt64) (tCoarse : UInt16) : ℤ :=
  (clocksInAFrame * frameID + tCoarse.toUInt64).toInt64.toInt

/-- The end coarse counter, past a rollover. -/
def rolledOver (eCoarse tCoarse : UInt16) : UInt16 :=
  if (eCoarse.toNat : ℤ) - tCoarse.toNat < -256 then eCoarse + 1024 else eCoarse

/-- `TOF_Branch`. -/
inductive Branch where
  | branchT
  | branchE
  deriving DecidableEq, Repr

/-- What `TOF_TdcQdcCalibration` computes from its tables. -/
structure Calibration (ρ : Type*) where
  getCalibratedTime (branchMode : Branch) (absChannelID : UInt32) (tacID : UInt8) (frameID : Int64)
    (coarse fine : UInt16) : ρ
  getEnergy (absChannelID : UInt32) (tacID : UInt8) (frameID : Int64) (ecoarse efine : UInt16)
    (time : ρ) : ρ
  getCalibratedQDC (absChannelID : UInt32) (tacID : UInt8) (frameID : Int64)
    (ecoarse efine tcoarse : UInt16) (time : ρ) : ρ

end GramsTof.Analysis
