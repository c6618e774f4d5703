import GramsTof.Telemetry.Bounds
import Mathlib.Data.Int.ModEq

/-! `GRAMS_TOF_RootConverter`: histograms of ROOT as `MonitorData` and back. A ROOT
object is what the converter asks of it, or the calls that the converter makes on
it. Floats and doubles are bit patterns, and `int` arithmetic is that of the
integers modulo `2 ^ 32`. -/

namespace GramsTof.Telemetry.RootConverter

open Codec Lib

/-! ### `int` -/

/-- The `int` that is congruent to `n` modulo `2 ^ 32`. -/
def asInt (n : ℤ) : ℤ := (n + 2147483648) % 4294967296 - 2147483648

theorem asInt_of_fits {n : ℤ} (h0 : -2147483648 ≤ n) (h1 : n < 2147483648) : asInt n = n := by
  rw [asInt]
  omega

theorem asInt_lt (n : ℤ) : asInt n < 2147483648 := by
  rw [asInt]
  omega

theorem asInt_congr {m n : ℤ} (h : m ≡ n [ZMOD 4294967296]) : asInt m = asInt n := by
  rw [asInt, asInt]
  exact congrArg (· - 2147483648) (h.add_right 2147483648)

theorem asInt_modEq (n : ℤ) : asInt n ≡ n [ZMOD 4294967296] := by
  rw [asInt, Int.ModEq]
  omega

theorem asInt_asInt_mul (m n : ℤ) : asInt (asInt m * asInt n) = asInt (m * n) :=
  asInt_congr ((asInt_modEq m).mul (asInt_modEq n))

/-- An unsigned sum that wraps is the same `int`. -/
theorem asInt_add_two (n : UInt32) : asInt (n + 2).toNat = asInt (n.toNat + 2) := by
  apply asInt_congr
  rw [UInt32.toNat_add, Int.ModEq]
  push_cast
  omega

/-! ### From ROOT -/

/-- What `InheritsFrom` tells of a histogram: a `TProfile`, a `TH2`, or neither. -/
inductive HistClass where
  | profile
  | th2
  | th1
  deriving DecidableEq, Repr

/-- What the converter asks of a `TH1`. The numbers of bins are `int`s, and only a `TH2` has more
than one in `y`. -/
structure RootHist where
  cls : HistClass
  name : List UInt8
  nBinsX : ℕ
  nBinsY : ℕ
  xMin : UInt64
  xMax : UInt64
  yMin : UInt64
  yMax : UInt64
  binContent : ℤ → UInt64
  binError : ℤ → UInt64
  binEntries : ℤ → UInt64
  fits_x : nBinsX < 2 ^ 31
  fits_y : nBinsY < 2 ^ 31
  flat : cls ≠ .th2 → nBinsY = 1

section From

-- `(float)` of a double
variable (narrow : UInt64 → UInt32)

/-- `packBins`. -/
def packBins (h : RootHist) (type : UInt32) : List UInt32 :=
  if type = DataType.tProfile.toUInt32 then
    (List.range h.nBinsX).flatMap fun (k : ℕ) =>
      let i : ℤ := k + 1
      [narrow (h.binContent i), narrow (h.binError i), narrow (h.binEntries i)]
  else
    let totalBins := asInt (asInt (h.nBinsX + 2) * asInt (h.nBinsY + 2))
    (List.range totalBins.toNat).map fun (i : ℕ) => narrow (h.binContent i)

/-- `strncpy(hname, name, 15)` over sixteen zeros. -/
def copyHname (name : List UInt8) : Name :=
  Vector.ofFn fun i => ((name.takeWhile fun c => c ≠ 0).take 15).getD i 0

/-- `fromRootObject`. Nothing is written to `y_min` and `y_max` unless the histogram is a `TH2`: they
stay what they happen to be. -/
def fromRootObject (garbage : UInt32 × UInt32) (h : RootHist) (runNum : UInt32) : MonitorData :=
  let data : MonitorData :=
    match h.cls with
    | .profile =>
      { runNumber := runNum, hname := copyHname h.name, histType := DataType.tProfile.toUInt32
        nBinsX := UInt32.ofNat h.nBinsX, xMin := narrow h.xMin, xMax := narrow h.xMax
        nBinsY := 1, yMin := garbage.1, yMax := garbage.2, bins := [] }
    | .th2 =>
      { runNumber := runNum, hname := copyHname h.name, histType := DataType.th2f.toUInt32
        nBinsX := UInt32.ofNat h.nBinsX, xMin := narrow h.xMin, xMax := narrow h.xMax
        nBinsY := UInt32.ofNat h.nBinsY, yMin := narrow h.yMin, yMax := narrow h.yMax, bins := [] }
    | .th1 =>
      { runNumber := runNum, hname := copyHname h.name, histType := DataType.th1f.toUInt32
        nBinsX := UInt32.ofNat h.nBinsX, xMin := narrow h.xMin, xMax := narrow h.xMax
        nBinsY := 1, yMin := garbage.1, yMax := garbage.2, bins := [] }
  { data with bins := packBins narrow h data.histType }

end From

/-! ### To ROOT -/

/-- The three floats of a bin of a profile. -/
structure ProfileBin where
  mean : UInt32
  rms : UInt32
  entries : UInt32
  deriving DecidableEq, Repr

/-- The object built, with the bins that are set on it, in order. The content, the entries and the sum
of squares of a profile's bin are computed from its three floats. -/
inductive RootObject where
  | tProfile (name : List UInt8) (nBinsX : ℤ) (xMin xMax : UInt32) (bins : List (ℤ × ProfileBin))
  | th2f (name : List UInt8) (nBinsX : ℤ) (xMin xMax : UInt32) (nBinsY : ℤ) (yMin yMax : UInt32)
      (contents : List (ℤ × UInt32))
  | th1f (name : List UInt8) (nBinsX : ℤ) (xMin xMax : UInt32) (contents : List (ℤ × UInt32))
  deriving DecidableEq, Repr

/-- `f > 0` for a float. -/
def positive (f : UInt32) : Bool := 0 < f && f ≤ 0x7F800000

/-- `bins[i]` for an `int`; a negative one, as `size_t`, lies past the end of every vector. -/
def readBin (bins : List UInt32) (i : ℤ) : Option UInt32 :=
  if i < 0 then none else bins[i.toNat]?

/-- One turn of the loop over the bins of a profile. -/
def readProfileBin (bins : List UInt32) (i : ℤ) : Option (ℤ × ProfileBin) := do
  let mean ← readBin bins (asInt (asInt (i - 1) * 3))
  let rms ← readBin bins (asInt (asInt (asInt (i - 1) * 3) + 1))
  let entries ← readBin bins (asInt (asInt (asInt (i - 1) * 3) + 2))
  pure (i, ⟨mean, rms, entries⟩)

def readContent (bins : List UInt32) (i : ℤ) : Option (ℤ × UInt32) := do
  let val ← readBin bins i
  pure (i, val)

/-- `toRootObject`, with the exception it may throw; no result when it reads past the end of `bins`.
A name that fills all of `hname` is cut at its end. -/
def toRootObject (data : MonitorData) (fallbackName : List UInt8) :
    Option (Except String RootObject) :=
  let text := data.hname.toList.takeWhile fun c => c ≠ 0
  let hName := if text.length > 0 then text else fallbackName
  if data.histType = DataType.tProfile.toUInt32 then do
    let bins ← (List.range (asInt data.nBinsX.toNat).toNat).mapM fun (k : ℕ) =>
      readProfileBin data.bins (k + 1)
    pure (.ok (.tProfile hName (asInt data.nBinsX.toNat) data.xMin data.xMax
      (bins.filter fun b => positive b.2.entries)))
  else if data.histType = DataType.th2f.toUInt32 then do
    let nx := asInt (data.nBinsX + 2).toNat
    let ny := asInt (data.nBinsY + 2).toNat
    let contents ← (List.range (asInt (nx * ny)).toNat).mapM fun (i : ℕ) => readContent data.bins i
    pure (.ok (.th2f hName (asInt data.nBinsX.toNat) data.xMin data.xMax (asInt data.nBinsY.toNat)
      data.yMin data.yMax contents))
  else if data.histType = DataType.th1f.toUInt32 then do
    let contents ← (List.range (asInt data.bins.length).toNat).mapM fun (i : ℕ) =>
      readContent data.bins i
    pure (.ok (.th1f hName (asInt data.nBinsX.toNat) data.xMin data.xMax contents))
  else
    pure (.error ("[RootConverter] Unsupported hist_type in MonitorData: " ++
      toString data.histType.toNat))

/-! ### Loops that read -/

theorem mapM_isSome_iff {α β : Type} (f : α → Option β) (as : List α) :
    (as.mapM f).isSome ↔ ∀ a ∈ as, (f a).isSome := by
  induction as with
  | nil => simp
  | cons a as ih =>
    rw [List.mapM_cons, List.forall_mem_cons, ← ih]
    cases f a <;> cases as.mapM f <;> simp

theorem mapM_eq_some {α β : Type} {f : α → Option β} {g : α → β} {as : List α}
    (h : ∀ a ∈ as, f a = some (g a)) : as.mapM f = some (as.map g) := by
  induction as with
  | nil => rfl
  | cons a as ih =>
    rw [List.mapM_cons, h a List.mem_cons_self, ih fun b hb => h b (List.mem_cons_of_mem _ hb)]
    rfl

theorem isSome_readBin_iff (bins : List UInt32) (i : ℤ) :
    (readBin bins i).isSome ↔ 0 ≤ i ∧ i < bins.length := by
  rw [readBin]
  split_ifs with hneg
  · exact iff_of_false (by simp) (by omega)
  · rw [isSome_getElem?]
    omega

theorem isSome_readContent_iff (bins : List UInt32) (i : ℤ) :
    (readContent bins i).isSome ↔ 0 ≤ i ∧ i < bins.length := by
  rw [← isSome_readBin_iff, readContent]
  cases readBin bins i <;> simp

theorem isSome_readProfileBin_iff (bins : List UInt32) (i : ℤ) :
    (readProfileBin bins i).isSome ↔
      (readBin bins (asInt (asInt (i - 1) * 3))).isSome ∧
        (readBin bins (asInt (asInt (asInt (i - 1) * 3) + 1))).isSome ∧
        (readBin bins (asInt (asInt (asInt (i - 1) * 3) + 2))).isSome := by
  rw [readProfileBin]
  cases readBin bins (asInt (asInt (i - 1) * 3)) <;>
    cases readBin bins (asInt (asInt (asInt (i - 1) * 3) + 1)) <;>
    cases readBin bins (asInt (asInt (asInt (i - 1) * 3) + 2)) <;> simp

/-- The loop over the first `p` words. -/
theorem contents_isSome_iff (bins : List UInt32) (p : ℤ) :
    ((List.range p.toNat).mapM fun (i : ℕ) => readContent bins i).isSome ↔ p ≤ bins.length := by
  rw [mapM_isSome_iff]
  simp only [List.mem_range, isSome_readContent_iff]
  constructor
  · intro h
    by_contra hlong
    have := h (p - 1).toNat (by omega)
    omega
  · intro h i hi
    omega

/-- The loop over the bins of a profile: three words each, and `3 * i` must not wrap. -/
theorem profileBins_isSome_iff (bins : List UInt32) (n : ℤ) (hn : n < 2147483648) :
    ((List.range n.toNat).mapM fun (k : ℕ) => readProfileBin bins (k + 1)).isSome ↔
      n ≤ 0 ∨ 3 * n ≤ 2 ^ 31 ∧ 3 * n ≤ bins.length := by
  rw [mapM_isSome_iff]
  simp only [List.mem_range, isSome_readProfileBin_iff, isSome_readBin_iff]
  constructor
  · intro h
    by_contra hnot
    -- the first turn that fails: it wraps, or it reads past the end
    have hlast := (h (min (n - 1) 715827882).toNat (by omega)).2.2
    have hk : ((min (n - 1) 715827882).toNat : ℤ) = min (n - 1) 715827882 := by omega
    rw [hk, asInt, asInt, asInt] at hlast
    omega
  · intro h k hk
    have h1 : asInt ((k : ℤ) + 1 - 1) = k := by rw [asInt_of_fits] <;> omega
    have h3 : asInt ((k : ℤ) * 3) = k * 3 := by rw [asInt_of_fits] <;> omega
    rw [h1, h3, asInt_of_fits (n := (k : ℤ) * 3 + 1) (by omega) (by omega),
      asInt_of_fits (n := (k : ℤ) * 3 + 2) (by omega) (by omega)]
    omega

/-! ### Reconstruction -/

/-- The words that the loops of `toRootObject` need: three for each bin of a profile, in indices below
`2 ^ 31`, and one for each cell of a two-dimensional histogram, as far as an `int` counts them. -/
def BinsSuffice (data : MonitorData) : Prop :=
  (data.histType = DataType.tProfile.toUInt32 →
    asInt data.nBinsX.toNat ≤ 0 ∨
      3 * asInt data.nBinsX.toNat ≤ 2 ^ 31 ∧ 3 * asInt data.nBinsX.toNat ≤ data.bins.length) ∧
  (data.histType = DataType.th2f.toUInt32 →
    asInt ((data.nBinsX.toNat + 2) * (data.nBinsY.toNat + 2)) ≤ data.bins.length)

theorem asInt_length_le (bins : List UInt32) : asInt bins.length ≤ bins.length := by
  rw [asInt]
  omega

theorem toRootObject_isSome_iff (data : MonitorData) (fallbackName : List UInt8) :
    (toRootObject data fallbackName).isSome ↔ BinsSuffice data := by
  unfold toRootObject
  dsimp only
  by_cases hprofile : data.histType = DataType.tProfile.toUInt32
  · have hnot : ¬ data.histType = DataType.th2f.toUInt32 := by
      rw [hprofile]
      decide
    rw [if_pos hprofile, isSome_bind_pure, profileBins_isSome_iff _ _ (asInt_lt _)]
    exact ⟨fun h => ⟨fun _ => h, fun h2 => absurd h2 hnot⟩, fun h => h.1 hprofile⟩
  rw [if_neg hprofile]
  by_cases hth2 : data.histType = DataType.th2f.toUInt32
  · rw [if_pos hth2, isSome_bind_pure, contents_isSome_iff, asInt_add_two, asInt_add_two,
      asInt_asInt_mul]
    exact ⟨fun h => ⟨fun h3 => absurd h3 hprofile, fun _ => h⟩, fun h => h.2 hth2⟩
  rw [if_neg hth2]
  have hsuffice : BinsSuffice data := ⟨fun h => absurd h hprofile, fun h => absurd h hth2⟩
  refine iff_of_true ?_ hsuffice
  by_cases hth1 : data.histType = DataType.th1f.toUInt32
  · rw [if_pos hth1, isSome_bind_pure, contents_isSome_iff]
    exact asInt_length_le data.bins
  · rw [if_neg hth1]
    exact Option.isSome_some

/-- Whatever a packet decodes to is rebuilt without reading past the end of its bins exactly when it
brings the words that the loop for its type needs. -/
theorem rebuild_in_bounds_iff (host : Host) (packet : Packet) (out : MonitorData)
    (fallbackName : List UInt8) :
    toRootObject (MonitorData.decode host packet out).2 fallbackName ≠ none ↔
      BinsSuffice (MonitorData.decode host packet out).2 := by
  rw [Option.ne_none_iff_isSome, toRootObject_isSome_iff]

/-- A profile of one bin, without the bin. -/
def emptyProfile : Packet := ⟨monitorDataStream, 12, [7, 0, 0, 0, 0, 3, 1, 0, 0, 1, 0, 0]⟩

theorem rebuild_out_of_bounds :
    (MonitorData.decode .little emptyProfile sampleHistogram).1 = true ∧
      toRootObject (MonitorData.decode .little emptyProfile sampleHistogram).2 [] = none := by
  refine ⟨rfl, ?_⟩
  by_contra h
  rw [← Ne, Option.ne_none_iff_isSome, toRootObject_isSome_iff] at h
  have := h.1 rfl
  revert this
  decide

end GramsTof.Telemetry.RootConverter
