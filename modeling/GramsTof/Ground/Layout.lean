import GramsTof.Ground.Agreement
import GramsTof.Telemetry.RootConverter

/-! The layout of the bins of a histogram as the flight converter writes it and as
its readers take it. The converter counts `(nx + 2) * (ny + 2)` words for everything
but a profile, which is three times too many for one dimension. -/

namespace GramsTof.Ground.Layout

open Telemetry Telemetry.RootConverter

def RootObject.contents : RootObject → List (ℤ × UInt32)
  | .tProfile .. => []
  | .th2f _ _ _ _ _ _ _ contents => contents
  | .th1f _ _ _ _ contents => contents

section

variable (narrow : UInt64 → UInt32) (garbage : UInt32 × UInt32) (h : RootHist) (runNum : UInt32)

/-- The converted histogram has the words that its readers assume, and one that is not a profile is
rebuilt by setting each of its bins once to the float of the same bin. -/
def Agrees (fallbackName : List UInt8) : Prop :=
  let data := fromRootObject narrow garbage h runNum
  data.bins.length = binCount data ∧
    (h.cls ≠ .profile → ∃ obj, toRootObject data fallbackName = some (.ok obj) ∧
      RootObject.contents obj =
        (List.range (binCount data)).map fun (i : ℕ) => ((i : ℤ), narrow (h.binContent i)))

theorem length_packBins (type : UInt32) :
    (packBins narrow h type).length =
      if type = DataType.tProfile.toUInt32 then 3 * h.nBinsX
      else (asInt ((h.nBinsX + 2) * (h.nBinsY + 2))).toNat := by
  rw [packBins]
  split_ifs
  · simp [mul_comm]
  · rw [List.length_map, List.length_range, asInt_asInt_mul]

theorem toNat_bins {n : ℕ} (hn : n < 2 ^ 31) : (UInt32.ofNat n).toNat = n := by
  rw [UInt32.toNat_ofNat']
  omega

theorem binCount_fromRootObject :
    binCount (fromRootObject narrow garbage h runNum) =
      match h.cls with
      | .profile => h.nBinsX * 3
      | .th2 => (h.nBinsX + 2) * (h.nBinsY + 2)
      | .th1 => h.nBinsX + 2 := by
  have hx := toNat_bins h.fits_x
  have hy := toNat_bins h.fits_y
  rw [binCount, fromRootObject]
  cases hcls : h.cls with
  | profile => simp [hx]
  | th2 => simp [hx, hy, DataType.toUInt32]
  | th1 => simp [hx, DataType.toUInt32]

theorem length_bins :
    (fromRootObject narrow garbage h runNum).bins.length =
      if h.cls = .profile then 3 * h.nBinsX
      else (asInt ((h.nBinsX + 2) * (h.nBinsY + 2))).toNat := by
  rw [fromRootObject, length_packBins]
  cases hcls : h.cls with
  | profile => simp
  | th2 => simp [DataType.toUInt32]
  | th1 => simp [DataType.toUInt32]

/-- An `int` never counts the cells of a histogram that has `2 ^ 31` of them or more. -/
theorem asInt_cells_eq_iff (n : ℕ) : (asInt n).toNat = n ↔ n < 2 ^ 31 := by
  have hlt := asInt_lt n
  constructor
  · intro heq
    omega
  · intro hn
    rw [asInt_of_fits (by omega) (by omega), Int.toNat_natCast]

/-- One dimension counted as two with one bin. -/
theorem asInt_triple_ne (n : ℕ) (hn : n < 2 ^ 31) : (asInt ((n + 2) * (1 + 2))).toNat ≠ n + 2 := by
  rw [asInt]
  omega

theorem packBins_getElem? {i : ℕ} {type : UInt32} (htype : type ≠ DataType.tProfile.toUInt32)
    (hi : i < (asInt ((h.nBinsX + 2) * (h.nBinsY + 2))).toNat) :
    readContent (packBins narrow h type) i = some ((i : ℤ), narrow (h.binContent i)) := by
  rw [readContent, readBin, if_neg (by omega), packBins, if_neg htype]
  simp only [asInt_asInt_mul]
  rw [Int.toNat_natCast, List.getElem?_map, List.getElem?_range hi]
  rfl

/-- A two-dimensional histogram with fewer than `2 ^ 31` cells is rebuilt cell by cell. -/
theorem rebuilt_th2 (fallbackName : List UInt8) (hcls : h.cls = .th2)
    (hcells : (h.nBinsX + 2) * (h.nBinsY + 2) < 2 ^ 31) :
    ∃ obj, toRootObject (fromRootObject narrow garbage h runNum) fallbackName = some (.ok obj) ∧
      RootObject.contents obj =
        (List.range ((h.nBinsX + 2) * (h.nBinsY + 2))).map
          fun (i : ℕ) => ((i : ℤ), narrow (h.binContent i)) := by
  have hcount := (asInt_cells_eq_iff _).mpr hcells
  push_cast at hcount
  have hdata : fromRootObject narrow garbage h runNum =
      ⟨runNum, copyHname h.name, DataType.th2f.toUInt32, UInt32.ofNat h.nBinsX, narrow h.xMin,
        narrow h.xMax, UInt32.ofNat h.nBinsY, narrow h.yMin, narrow h.yMax,
        packBins narrow h DataType.th2f.toUInt32⟩ := by
    simp only [fromRootObject, hcls]
  have hloop : (List.range ((h.nBinsX + 2) * (h.nBinsY + 2))).mapM
      (fun (i : ℕ) => readContent (packBins narrow h DataType.th2f.toUInt32) i) =
      some ((List.range ((h.nBinsX + 2) * (h.nBinsY + 2))).map
        fun (i : ℕ) => ((i : ℤ), narrow (h.binContent i))) := by
    refine mapM_eq_some fun i hi => ?_
    rw [List.mem_range] at hi
    exact packBins_getElem? narrow h (by decide) (by omega)
  rw [hdata]
  unfold toRootObject
  dsimp only
  rw [if_neg (by decide), if_pos rfl, asInt_add_two, asInt_add_two, asInt_asInt_mul,
    toNat_bins h.fits_x, toNat_bins h.fits_y, hcount, hloop]
  exact ⟨_, rfl, rfl⟩

/-- Writer and readers agree on profiles, and on two-dimensional histograms as long as an `int` counts
their cells; never on one-dimensional ones. -/
theorem agrees_iff (fallbackName : List UInt8) :
    Agrees narrow garbage h runNum fallbackName ↔
      h.cls = .profile ∨ h.cls = .th2 ∧ (h.nBinsX + 2) * (h.nBinsY + 2) < 2 ^ 31 := by
  have hcells := asInt_cells_eq_iff ((h.nBinsX + 2) * (h.nBinsY + 2))
  push_cast at hcells
  have hflat := h.flat
  have hfits := h.fits_x
  simp only [Agrees, length_bins, binCount_fromRootObject]
  cases hcls : h.cls with
  | profile => simp [mul_comm]
  | th2 =>
    simp only [reduceCtorEq, if_false, hcells, false_or, true_and, ne_eq, not_false_eq_true,
      forall_const]
    exact and_iff_left_of_imp (rebuilt_th2 narrow garbage h runNum fallbackName hcls)
  | th1 =>
    have hone := hflat (by simp [hcls])
    have hne := asInt_triple_ne h.nBinsX hfits
    simp only [reduceCtorEq, if_false, hone, false_and, or_self, iff_false, not_and]
    intro heq
    exact absurd heq (by exact_mod_cast hne)

end

/-- A one-dimensional histogram of one empty bin. -/
def oneBin : RootHist where
  cls := .th1
  name := [104]
  nBinsX := 1
  nBinsY := 1
  xMin := 0
  xMax := 0
  yMin := 0
  yMax := 0
  binContent _ := 0
  binError _ := 0
  binEntries _ := 0
  fits_x := by decide
  fits_y := by decide
  flat _ := rfl

/-- Zero as a double is zero as a float. -/
theorem not_agrees_oneBin : ¬ Agrees (fun _ => 0) (0, 0) oneBin 7 [] := by
  intro h
  have := h.1
  rw [length_bins, binCount_fromRootObject] at this
  revert this
  decide

end GramsTof.Ground.Layout
