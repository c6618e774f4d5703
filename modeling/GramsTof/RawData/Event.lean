import Mathlib.Algebra.Order.Group.Nat
import Mathlib.Tactic.Ring

/-! The fields of a 64-bit event word. The fine counters are turned by 27; all
fields together are the whole word. -/

namespace GramsTof.RawData

def getEFine (word : UInt64) : UInt16 := ((word % 1024 + 27) % 1024).toUInt16

def getTFine (word : UInt64) : UInt16 := (((word >>> 10) % 1024 + 27) % 1024).toUInt16

def getECoarse (word : UInt64) : UInt16 := ((word >>> 20) % 1024).toUInt16

def getTCoarse (word : UInt64) : UInt16 := ((word >>> 30) % 1024).toUInt16

def getTacID (word : UInt64) : UInt16 := ((word >>> 40) % 4).toUInt16

def getChannelID (word : UInt64) : UInt32 := (word >>> 42).toUInt32

section

variable (word : UInt64)

theorem getEFine_toNat : (getEFine word).toNat = (word.toNat % 1024 + 27) % 1024 := by
  have : (word.toNat % 1024 + 27) % 1024 < 1024 := Nat.mod_lt _ (by decide)
  simp [getEFine]
  omega

theorem getTFine_toNat : (getTFine word).toNat = (word.toNat / 2 ^ 10 % 1024 + 27) % 1024 := by
  have : (word.toNat / 2 ^ 10 % 1024 + 27) % 1024 < 1024 := Nat.mod_lt _ (by decide)
  simp [getTFine, Nat.shiftRight_eq_div_pow]
  omega

theorem getECoarse_toNat : (getECoarse word).toNat = word.toNat / 2 ^ 20 % 1024 := by
  simp [getECoarse, Nat.shiftRight_eq_div_pow]
  omega

theorem getTCoarse_toNat : (getTCoarse word).toNat = word.toNat / 2 ^ 30 % 1024 := by
  simp [getTCoarse, Nat.shiftRight_eq_div_pow]
  omega

theorem getTacID_toNat : (getTacID word).toNat = word.toNat / 2 ^ 40 % 4 := by
  simp [getTacID, Nat.shiftRight_eq_div_pow]
  omega

theorem getChannelID_toNat : (getChannelID word).toNat = word.toNat / 2 ^ 42 := by
  have := word.toNat_lt
  simp [getChannelID, Nat.shiftRight_eq_div_pow]
  omega

end

/-- The place of a fine counter's ten bits before they were turned. -/
def unturned (fine : ℕ) : ℕ := (fine + 997) % 1024

theorem unturned_turned {n : ℕ} (h : n < 1024) : unturned ((n + 27) % 1024) = n := by
  rw [unturned]
  omega

/-- The word of the fields. -/
def toWord (channelID : UInt32) (tacID tCoarse eCoarse tFine eFine : UInt16) : UInt64 :=
  UInt64.ofNat (channelID.toNat * 2 ^ 42 + tacID.toNat * 2 ^ 40 + tCoarse.toNat * 2 ^ 30 +
    eCoarse.toNat * 2 ^ 20 + unturned tFine.toNat * 2 ^ 10 + unturned eFine.toNat)

/-- An event word is what its fields say. -/
theorem toWord_fields (word : UInt64) : toWord (getChannelID word) (getTacID word) (getTCoarse word)
    (getECoarse word) (getTFine word) (getEFine word) = word := by
  rw [toWord, getChannelID_toNat, getTacID_toNat, getTCoarse_toNat, getECoarse_toNat, getTFine_toNat,
    getEFine_toNat, unturned_turned (Nat.mod_lt _ (by decide)), unturned_turned (Nat.mod_lt _ (by decide))]
  apply UInt64.toNat_inj.mp
  have hlt := word.toNat_lt
  rw [UInt64.toNat_ofNat']
  omega

end GramsTof.RawData
