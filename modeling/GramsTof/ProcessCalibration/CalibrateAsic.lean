import GramsTof.Lib.Workers
import GramsTof.ProcessCalibration.Histograms
import Mathlib.Algebra.Notation.Defs
import Mathlib.Data.List.Range

/-! `calibrateAsic` of the two calibrations: what the child of an ASIC changes in the table, given the
ASIC's file. The fits are ROOT's; what they give depends on the histograms filled from the file, and for the
offsets of the time calibration on the entry as well. -/

namespace GramsTof.ProcessCalibration

open Lib

variable {ρ φ ε : Type*}

/-- How many entries an ASIC has, and what its child changes, which lies within these. -/
structure Calibration (ρ ε : Type*) where
  perAsic : ℕ
  calibrateAsic : ℕ → List ρ → List (Update ℕ ε)
  own : ∀ g file, ∀ u ∈ calibrateAsic g file, Local (· / perAsic) g u

/-- The entry numbers from `gidStart` on. -/
def gids (perAsic g : ℕ) : List ℕ := (List.range perAsic).map (g * perAsic + ·)

theorem div_of_mem_gids {perAsic g gid : ℕ} (h : gid ∈ gids perAsic g) : gid / perAsic = g := by
  obtain ⟨i, hi, rfl⟩ := List.mem_map.mp h
  have hlt := List.mem_range.mp hi
  rw [Nat.mul_comm, Nat.mul_add_div (Nat.zero_lt_of_lt hlt), Nat.div_eq_of_lt hlt, Nat.add_zero]

theorem local_of_mem_gids {perAsic g gid : ℕ} (h : gid ∈ gids perAsic g) (f : ε → ε) :
    Local (· / perAsic) g (changed gid f) := by
  refine local_changed ?_ f
  exact div_of_mem_gids h

namespace Tdc

structure CalibrationEntry (φ : Type*) where
  t0 : φ
  tEdge : φ
  a0 : φ
  a1 : φ
  a2 : φ
  valid : Bool
  deriving DecidableEq

/-- What the fits give. -/
structure Fits (φ : Type*) where
  /-- Edge and coefficients of a TAC, where its histogram has data enough and a fit that is good enough. -/
  periodicF2 : List (UInt32 × UInt16) → Option (φ × φ × φ × φ)
  /-- The mean error of a TAC's records under its entry. -/
  offset : List CalibrationData → CalibrationEntry φ → φ

section

variable [Zero φ] [Add φ] (fits : Fits φ) (gAsicID : ℕ)

def setFit (h : Histograms) (gid : ℕ) : Update ℕ (CalibrationEntry φ) :=
  changed gid fun entry =>
    match fits.periodicF2 (h.hFine2 (gid - gAsicID * 512)) with
    | none => entry
    | some (tEdge, a0, a1, a2) => ⟨0, tEdge, a0, a1, a2, true⟩

/-- One of the iterations over the file, for one TAC. -/
def addOffset (h : Histograms) (gid : ℕ) : Update ℕ (CalibrationEntry φ) :=
  changed gid fun entry =>
    if entry.valid then { entry with t0 := entry.t0 + fits.offset (h.filled (gid - gAsicID * 512)) entry }
    else entry

/-- A channel with an uncalibrated TAC goes as a whole. -/
def zeroChannel (gChannelID : ℕ) : Update ℕ (CalibrationEntry φ) := fun calibrationTable gid =>
  let channelOK := (List.range 8).all fun tac => (calibrationTable (gChannelID * 8 + tac)).valid
  if gid / 8 = gChannelID ∧ channelOK = false then { calibrationTable gid with valid := false }
  else calibrationTable gid

/-- A record of another ASIC stops the child at an assertion, before it has changed anything. -/
def calibrateAsic (linearityDataFile : List CalibrationData) : List (Update ℕ (CalibrationEntry φ)) :=
  match ProcessCalibration.calibrateAsic gAsicID linearityDataFile with
  | none => []
  | some h =>
    if !h.asicPresent then []
    else
      (gids 512 gAsicID).map (setFit fits gAsicID h) ++
        (List.range 3).flatMap (fun _ => (gids 512 gAsicID).map (addOffset fits gAsicID h)) ++
        (gids 64 gAsicID).map zeroChannel

end

theorem local_zeroChannel {gChannelID g : ℕ} (h : gChannelID / 64 = g) :
    Local (· / 512) g (zeroChannel (φ := φ) gChannelID) where
  frame t gid hgid := by
    have hne : gid / 8 ≠ gChannelID := by
      rintro rfl
      exact hgid (by rw [← h, Nat.div_div_eq_div_mul])
    exact if_neg fun hboth => hne hboth.1
  reads t t' hagree gid hgid := by
    have hchannel : ((List.range 8).all fun tac => (t (gChannelID * 8 + tac)).valid) =
        (List.range 8).all fun tac => (t' (gChannelID * 8 + tac)).valid := by
      rw [Bool.eq_iff_iff, List.all_eq_true, List.all_eq_true]
      refine forall₂_congr fun tac htac => ?_
      have hlt := List.mem_range.mp htac
      have hown : (gChannelID * 8 + tac) / 512 = g := by omega
      rw [hagree _ hown]
    simp only [zeroChannel, hchannel, hagree gid hgid]

/-- The TACs of a channel are all calibrated or none is. -/
def Whole (calibrationTable : ℕ → CalibrationEntry φ) (gChannelID : ℕ) : Prop :=
  ∀ gid gid', gid / 8 = gChannelID → gid' / 8 = gChannelID →
    (calibrationTable gid).valid = (calibrationTable gid').valid

theorem whole_zeroChannel (t : ℕ → CalibrationEntry φ) (gChannelID : ℕ) :
    Whole (zeroChannel gChannelID t) gChannelID := by
  intro gid gid' hgid hgid'
  simp only [zeroChannel, hgid, hgid', true_and]
  split_ifs with hbad
  · rfl
  · rw [Bool.not_eq_false, List.all_eq_true] at hbad
    have hvalid : ∀ n, n / 8 = gChannelID → (t n).valid = true := by
      rintro n rfl
      have h := hbad (n % 8) (List.mem_range.mpr (Nat.mod_lt n (by decide)))
      rwa [Nat.div_add_mod'] at h
    rw [hvalid gid hgid, hvalid gid' hgid']

theorem Whole.zeroChannel {t : ℕ → CalibrationEntry φ} {c : ℕ} (h : Whole t c) (c' : ℕ) :
    Whole (zeroChannel c' t) c := by
  by_cases he : c = c'
  · subst he
    exact whole_zeroChannel t c
  · have hsame : ∀ gid, gid / 8 = c → Tdc.zeroChannel c' t gid = t gid :=
      fun gid hgid => if_neg fun hboth => he (hgid.symm.trans hboth.1)
    intro gid gid' hgid hgid'
    rw [hsame gid hgid, hsame gid' hgid']
    exact h gid gid' hgid hgid'

theorem whole_applied {cs : List ℕ} {t : ℕ → CalibrationEntry φ} {c : ℕ} (h : c ∈ cs ∨ Whole t c) :
    Whole (applied (cs.map Tdc.zeroChannel) t) c := by
  induction cs generalizing t with
  | nil => exact h.resolve_left List.not_mem_nil
  | cons c' cs ih =>
    refine ih ?_
    rcases h with h | h
    · rcases List.mem_cons.mp h with rfl | h
      · exact .inr (whole_zeroChannel t c)
      · exact .inl h
    · exact .inr (h.zeroChannel c')

/-- The child of an ASIC with data leaves no channel half calibrated. -/
theorem whole_calibrateAsic [Zero φ] [Add φ] (fits : Fits φ) {file : List CalibrationData} {g c : ℕ}
    {h : Histograms} (hfile : ProcessCalibration.calibrateAsic g file = some h) (hpresent : h.asicPresent = true)
    (hc : c / 64 = g) (t : ℕ → CalibrationEntry φ) : Whole (applied (calibrateAsic fits g file) t) c := by
  have hmem : c ∈ gids 64 g :=
    List.mem_map.mpr ⟨c % 64, List.mem_range.mpr (Nat.mod_lt _ (by decide)), hc ▸ Nat.div_add_mod' _ _⟩
  rw [calibrateAsic, hfile]
  simp only [hpresent, Bool.not_true, Bool.false_eq_true, if_false, applied_append]
  exact whole_applied (.inl hmem)

def calibration [Zero φ] [Add φ] (fits : Fits φ) : Calibration CalibrationData (CalibrationEntry φ) where
  perAsic := 512
  calibrateAsic g file := calibrateAsic fits g file
  own g file u hu := by
    rw [calibrateAsic] at hu
    split at hu
    · cases hu
    · split_ifs at hu with hempty
      · cases hu
      · rcases List.mem_append.mp hu with hu | hu
        · rcases List.mem_append.mp hu with hu | hu
          · obtain ⟨gid, hgid, rfl⟩ := List.mem_map.mp hu
            exact local_of_mem_gids hgid _
          · obtain ⟨_, -, hu⟩ := List.mem_flatMap.mp hu
            obtain ⟨gid, hgid, rfl⟩ := List.mem_map.mp hu
            exact local_of_mem_gids hgid _
        · obtain ⟨gChannelID, hchannel, rfl⟩ := List.mem_map.mp hu
          exact local_zeroChannel (div_of_mem_gids hchannel)

end Tdc

namespace Qdc

structure CalibrationEntry (φ : Type*) where
  p : Fin 10 → φ
  xMin : φ
  xMax : φ
  xMax100 : φ
  valid : Bool

/-- What the fits give. -/
structure Fits (ρ φ : Type*) where
  /-- The ends of the fit of a QAC, where it has data enough. -/
  range : ℕ → List ρ → Option (φ × φ × φ)
  /-- The polynomial of an order, where there is a fit that is good enough. -/
  polN : ℕ → List ρ → ℕ → Option (Fin 10 → φ)

section

variable [Zero φ] (fits : Fits ρ φ) (file : List ρ)

/-- The orders from 8 down to 4, until one fits. -/
def polynomial (gid : ℕ) : Option (Fin 10 → φ) :=
  [8, 7, 6, 5, 4].findSome? fun order => (fits.polN gid file order).map fun parameter i =>
    if i.val ≤ order then parameter i else 0

def setFit (gid : ℕ) : Update ℕ (CalibrationEntry φ) :=
  changed gid fun entry =>
    match fits.range gid file with
    | none => entry
    | some (xMin, xMax, xMax100) =>
      match polynomial fits file gid with
      | none => ⟨fun _ => 0, xMin, xMax, xMax100, false⟩
      | some p => ⟨p, xMin, xMax, xMax100, true⟩

def calibrateAsic (gAsicID : ℕ) : List (Update ℕ (CalibrationEntry φ)) :=
  (gids 256 gAsicID).map (setFit fits file)

end

def calibration [Zero φ] (fits : Fits ρ φ) : Calibration ρ (CalibrationEntry φ) where
  perAsic := 256
  calibrateAsic g file := calibrateAsic fits file g
  own g file u hu := by
    obtain ⟨gid, hgid, rfl⟩ := List.mem_map.mp hu
    exact local_of_mem_gids hgid _

end Qdc

end GramsTof.ProcessCalibration
