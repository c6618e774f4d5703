import GramsTof.Analysis.Records
import Mathlib.Algebra.Ring.Int.Defs
import Mathlib.Tactic.Common

/-! Times in clocks as exact integers, and what the 64-bit expressions of the code make of
them. -/

namespace GramsTof.Analysis

/-- `1024 * frameID + coarse` as an exact integer. -/
def exactTime (frameID : Int64) (coarse : ℤ) : ℤ := 1024 * frameID.toInt + coarse

/-- The end counter past a rollover as an exact integer. -/
def corrected (eCoarse tCoarse : UInt16) : ℤ :=
  if (eCoarse.toNat : ℤ) - tCoarse.toNat < -256 then eCoarse.toNat + 1024 else eCoarse.toNat

/-- The turn of the 64-bit counter that a time lies in. -/
def turn (time : ℤ) : ℤ := (time + 2 ^ 63) / 2 ^ 64

section Clocks

variable (frameID : Int64) (coarse eCoarse tCoarse : UInt16)

/-- A signed number passed as an unsigned one. -/
theorem toNat_toUInt64 : (frameID.toUInt64.toNat : ℤ) = frameID.toInt % 2 ^ 64 := by
  have hbits : frameID.toInt = Int.bmod frameID.toUInt64.toNat (2 ^ 64) :=
    BitVec.toInt_eq_toNat_bmod frameID.toBitVec
  have hlt := frameID.toUInt64.toNat_lt
  rw [hbits, Int.bmod_def]
  omega

/-- The unsigned sum of frame and counter. -/
theorem toNat_unsignedTime :
    ((frameID.toUInt64 * 1024 + coarse.toUInt64).toNat : ℤ) =
      exactTime frameID coarse.toNat % 2 ^ 64 := by
  have hframe := toNat_toUInt64 frameID
  rw [UInt64.toNat_add, UInt64.toNat_mul, UInt16.toNat_toUInt64, exactTime]
  simp only [UInt64.reduceToNat]
  omega

/-- The clock of the code is the exact one less the turns of the counter. -/
theorem clock_eq : clock frameID.toUInt64 coarse =
    exactTime frameID coarse.toNat - 2 ^ 64 * turn (exactTime frameID coarse.toNat) := by
  have hcomm : clocksInAFrame * frameID.toUInt64 + coarse.toUInt64 =
      frameID.toUInt64 * 1024 + coarse.toUInt64 := by
    rw [UInt64.mul_comm]
    rfl
  have hbits : clock frameID.toUInt64 coarse =
      Int.bmod (frameID.toUInt64 * 1024 + coarse.toUInt64).toNat (2 ^ 64) := by
    rw [clock, hcomm]
    exact BitVec.toInt_eq_toNat_bmod _
  rw [hbits, toNat_unsignedTime, Int.bmod_def, turn]
  omega

/-- The corrected counter of sixteen bits. -/
theorem toNat_rolledOver : ((rolledOver eCoarse tCoarse).toNat : ℤ) =
    corrected eCoarse tCoarse % 2 ^ 16 := by
  have hlt := eCoarse.toNat_lt
  rw [rolledOver, corrected]
  split_ifs
  · rw [UInt16.toNat_add]
    simp only [UInt16.reduceToNat]
    omega
  · omega

theorem corrected_bounds : 0 ≤ corrected eCoarse tCoarse ∧ corrected eCoarse tCoarse < 2 ^ 17 := by
  have hlt := eCoarse.toNat_lt
  rw [corrected]
  split_ifs <;> omega

end Clocks

end GramsTof.Analysis
