import Mathlib.Algebra.Group.Nat.Defs
import Mathlib.Data.List.GetD

/-! Raw data frames: two header words and one word for each event, in arrays of
a fixed size. A frame announces its own number of words. -/

namespace GramsTof.RawData

def MaxRawDataFrameSize : ℕ := 8196

def MaxRawDataFrameQueueSize : ℕ := 16 * 1024

/-- The array of a `RawDataFrame`. -/
abbrev Data := ℕ → UInt64

def getFrameSize (data : Data) : ℕ := ((data 0 >>> 36) &&& 0x7FFF).toNat

def getFrameID (data : Data) : ℕ := (data 0 &&& 0xFFFFFFFFF).toNat

def getFrameLost (data : Data) : Bool := (data 1 &&& 0x18000) != 0

def getNEvents (data : Data) : ℕ := (data 1 &&& 0x7FFF).toNat

/-- `FrameServer::parseDataFrame`. The event count is one bit wider than in `getNEvents`. -/
def parseDataFrame (data : Data) : Bool :=
  ((data 0 >>> 36) &&& 0x7FFF).toNat == 2 + (data 1 &&& 0xFFFF).toNat

/-- The announced words of an array. -/
def words (data : Data) : List UInt64 := (List.range (getFrameSize data)).map data

/-- The frame of some events, not lost. -/
def frame (frameID : ℕ) (events : List UInt64) : List UInt64 :=
  UInt64.ofNat ((2 + events.length) * 2 ^ 36 + frameID) :: UInt64.ofNat events.length :: events

/-- The words of a frame at the front of an array. -/
def ofWords (f : List UInt64) : Data := fun i => f.getD i 0

/-- As many words as announced, and not more than an array has. -/
def WellSized (f : List UInt64) : Prop :=
  f ≠ [] ∧ f.length ≤ MaxRawDataFrameSize ∧ getFrameSize (ofWords f) = f.length

instance (f : List UInt64) : Decidable (WellSized f) := inferInstanceAs (Decidable (_ ∧ _ ∧ _))

/-- The array begins with the words of `f`. -/
def Carries (data : Data) (f : List UInt64) : Prop := ∀ i, i < f.length → data i = ofWords f i

section

variable {data : Data} {f : List UInt64}

theorem Carries.getFrameSize_eq (h : Carries data f) (hf : WellSized f) :
    getFrameSize data = f.length := by
  rw [← hf.2.2, getFrameSize, getFrameSize, h 0 (List.length_pos_iff.mpr hf.1)]

theorem Carries.getFrameID_eq (h : Carries data f) (hf : WellSized f) :
    getFrameID data = getFrameID (ofWords f) := by
  rw [getFrameID, getFrameID, h 0 (List.length_pos_iff.mpr hf.1)]

/-- Of a single word's frame the second word is whatever the array held; no count fits it. -/
theorem Carries.parseDataFrame_eq (h : Carries data f) (hf : WellSized f) :
    parseDataFrame data = parseDataFrame (ofWords f) := by
  have hd : ((data 0 >>> 36) &&& 0x7FFF).toNat = f.length := h.getFrameSize_eq hf
  have hw : ((ofWords f 0 >>> 36) &&& 0x7FFF).toNat = f.length := hf.2.2
  have hpos := List.length_pos_iff.mpr hf.1
  rw [parseDataFrame, parseDataFrame, hd, hw]
  rcases Nat.lt_or_ge 1 f.length with h1 | h1
  · rw [h 1 h1]
  · rw [beq_eq_false_iff_ne.mpr (by omega), beq_eq_false_iff_ne.mpr (by omega)]

theorem Carries.words_eq (h : Carries data f) (hf : WellSized f) : words data = f := by
  rw [words, h.getFrameSize_eq hf]
  apply List.ext_getElem
  · simp
  · intro i hi hi'
    rw [List.getElem_map, List.getElem_range, h i hi', ofWords, List.getD_eq_getElem _ _ hi']

/-- The announced words stand inside the array, so nothing else counts. -/
theorem words_congr {data' : Data} (hf : WellSized f) (hw : words data = f)
    (h : ∀ i < MaxRawDataFrameSize, data' i = data i) : words data' = f := by
  have hsize : getFrameSize data = f.length := by
    rw [← hw, words, List.length_map, List.length_range]
  have hle := hf.2.1
  have hsize' : getFrameSize data' = getFrameSize data := by
    rw [getFrameSize, getFrameSize, h 0 (by decide)]
  rw [← hw, words, words, hsize']
  apply List.map_congr_left
  intro i hi
  exact h i (by rw [List.mem_range] at hi; omega)

end

/-! ### The header words as numbers -/

theorem getFrameSize_eq (data : Data) : getFrameSize data = (data 0).toNat / 2 ^ 36 % 2 ^ 15 := by
  have h := Nat.and_two_pow_sub_one_eq_mod ((data 0).toNat / 2 ^ 36) 15
  rw [getFrameSize, UInt64.toNat_and, UInt64.toNat_shiftRight, Nat.shiftRight_eq_div_pow]
  exact h

theorem getFrameID_eq (data : Data) : getFrameID data = (data 0).toNat % 2 ^ 36 := by
  have h := Nat.and_two_pow_sub_one_eq_mod (data 0).toNat 36
  rw [getFrameID, UInt64.toNat_and]
  exact h

theorem getNEvents_eq (data : Data) : getNEvents data = (data 1).toNat % 2 ^ 15 := by
  have h := Nat.and_two_pow_sub_one_eq_mod (data 1).toNat 15
  rw [getNEvents, UInt64.toNat_and]
  exact h

theorem getFrameSize_lt (data : Data) : getFrameSize data < 2 ^ 15 := by
  rw [getFrameSize_eq]
  exact Nat.mod_lt _ (by decide)

/-- In a consistent frame the sixteenth bit of the event count is not set, so both counts agree. -/
theorem frameSize_of_parse {data : Data} (h : parseDataFrame data = true) :
    getFrameSize data = 2 + getNEvents data := by
  have hcount := Nat.and_two_pow_sub_one_eq_mod (data 1).toNat 16
  have hsize : getFrameSize data = 2 + (data 1 &&& 0xFFFF).toNat := beq_iff_eq.mp h
  rw [UInt64.toNat_and] at hsize
  have hsize' : getFrameSize data = 2 + (data 1).toNat % 2 ^ 16 := hsize.trans (by rw [← hcount]; rfl)
  have := getFrameSize_lt data
  rw [getNEvents_eq, hsize']
  omega

end GramsTof.RawData
