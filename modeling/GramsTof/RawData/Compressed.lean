import GramsTof.RawData.CalibrationPool
import GramsTof.RawData.RawReader

/-! `write_raw` in its calibration modes. Each step is closed with one record for each event word that
came, and how often it did; the lines of the index are those of the standard mode. -/

namespace GramsTof.RawData

open Lib

/-- A record as two words; four bytes of the structure are never set. -/
def recordWords (pad : UInt32) (p : UInt64 × UInt32) : List UInt64 :=
  [p.1, UInt64.ofNat (p.2.toNat + pad.toNat * 2 ^ 32)]

/-- `writeOut`. -/
def writeOut {n_cpu : ℕ} (pad : ℕ → UInt32) (calEventSet : Fin n_cpu → EventSet) : List UInt64 :=
  (entries calEventSet).zipIdx.flatMap fun p => recordWords (pad p.2) p.1

/-- The data writer in a calibration mode. -/
structure CalibrationWriter (n_cpu : ℕ) where
  writer : Writer
  calEventSet : Fin n_cpu → EventSet

namespace CalibrationWriter

variable {n_cpu : ℕ}

def opened (head : List UInt64) : CalibrationWriter n_cpu := ⟨.opened head, fun _ => []⟩

/-- The loop body for one frame: as in the standard mode, but nothing is written. -/
def frame (blockType : ℤ) (w : Writer) (data : Data) : Writer :=
  { Writer.frame blockType w data with dataFile := w.dataFile }

/-- One block, with the frames of the shared memory as they are then. -/
def Block (h : BlockHeader) (shm : ℕ → Data) (s s' : CalibrationWriter n_cpu) : Prop :=
  let w := if h.blockType = 0 then s.writer.start else s.writer
  let cleared := if h.blockType = 0 then fun _ => [] else s.calEventSet
  ∃ calEventSet, ProcessBatch shm (h.rdPointer % (2 * MaxRawDataFrameQueueSize))
      (h.wrPointer % (2 * MaxRawDataFrameQueueSize)) cleared calEventSet ∧
    let w := (Writer.frames shm h).foldl (frame h.blockType) w
    if h.blockType = 2 then
      ∃ pad, s' = ⟨{ w with dataFile := w.dataFile ++ writeOut pad calEventSet }.finish h.step1 h.step2,
        fun _ => []⟩
    else s' = ⟨w, calEventSet⟩

end CalibrationWriter

/-- Blocks, each with the shared memory it is taken from. -/
abbrev ShmBlocks := List (BlockHeader × (ℕ → Data))

/-- Blocks one after another. -/
def Acquires {n_cpu : ℕ} : ShmBlocks → CalibrationWriter n_cpu → CalibrationWriter n_cpu → Prop
  | [], s, s' => s' = s
  | b :: bs, s, s' => ∃ t, CalibrationWriter.Block b.1 b.2 s t ∧ Acquires bs t s'

/-- The words that the blocks of a step cover. -/
def wordsOf (bs : ShmBlocks) : List UInt64 := bs.flatMap fun b => (Writer.frames b.2 b.1).flatMap eventWords

/-- The blocks of a step with a value: one that opens it, one that closes it, and others between them. -/
def IsShmStep (step1 : UInt32) (bs : ShmBlocks) : Prop :=
  ∃ b₀ mid b₂, bs = b₀ :: mid ++ [b₂] ∧ b₀.1.blockType = 0 ∧ b₂.1.blockType = 2 ∧ b₂.1.step1 = step1 ∧
    ∀ b ∈ mid, b.1.blockType ≠ 0 ∧ b.1.blockType ≠ 2

/-! ### Reading the records -/

structure RawCalibrationData where
  eventWord : UInt64
  freq : Int32
  deriving DecidableEq

/-- The records of a block of the data file. -/
def calibrationData : List UInt64 → List RawCalibrationData
  | eventWord :: freq :: ws => ⟨eventWord, freq.toUInt32.toInt32⟩ :: calibrationData ws
  | _ => []

/-- A record as it is read back. -/
def record (p : UInt64 × UInt32) : RawCalibrationData := ⟨p.1, p.2.toInt32⟩

theorem calibrationData_recordWords (pad : UInt32) (p : UInt64 × UInt32) (ws : List UInt64) :
    calibrationData (recordWords pad p ++ ws) = record p :: calibrationData ws := by
  have hfreq : (UInt64.ofNat (p.2.toNat + pad.toNat * 2 ^ 32)).toUInt32 = p.2 := by
    have := p.2.toNat_lt
    have := pad.toNat_lt
    apply UInt32.toNat_inj.mp
    rw [UInt64.toNat_toUInt32, UInt64.toNat_ofNat']
    omega
  show (⟨p.1, _⟩ : RawCalibrationData) :: calibrationData ws = _
  rw [hfreq, record]

theorem calibrationData_writeOut {n_cpu : ℕ} (pad : ℕ → UInt32) (calEventSet : Fin n_cpu → EventSet) :
    calibrationData (writeOut pad calEventSet) = (entries calEventSet).map record := by
  rw [writeOut]
  generalize 0 = k
  induction entries calEventSet generalizing k with
  | nil => rfl
  | cons p m ih => rw [List.zipIdx_cons, List.flatMap_cons, calibrationData_recordWords, ih, List.map_cons]

theorem length_writeOut {n_cpu : ℕ} (pad : ℕ → UInt32) (calEventSet : Fin n_cpu → EventSet) :
    (writeOut pad calEventSet).length = 2 * (entries calEventSet).length := by
  rw [writeOut, List.length_flatMap]
  simp [recordWords, Nat.mul_comm]

/-! ### The steps of an acquisition -/

section Steps

variable {n_cpu : ℕ} {s s' t : CalibrationWriter n_cpu}

theorem acquires_append {bs cs : ShmBlocks} :
    Acquires (bs ++ cs) s s' ↔ ∃ t, Acquires bs s t ∧ Acquires cs t s' := by
  induction bs generalizing s with
  | nil => exact ⟨fun h => ⟨s, rfl, h⟩, fun ⟨t, ht, h⟩ => ht ▸ h⟩
  | cons b bs ih =>
    constructor
    · rintro ⟨u, hu, hrest⟩
      obtain ⟨t, ht, hcs⟩ := ih.mp hrest
      exact ⟨t, ⟨u, hu, ht⟩, hcs⟩
    · rintro ⟨t, ⟨u, hu, ht⟩, hcs⟩
      exact ⟨u, hu, ih.mpr ⟨t, ht, hcs⟩⟩

/-- The files are as they were, and the step began where it did. -/
structure Files (w w' : Writer) : Prop where
  data : w'.dataFile = w.dataFile
  index : w'.indexFile = w.indexFile
  start : w'.stepStartOffset = w.stepStartOffset

theorem Files.trans {w w' w'' : Writer} (h : Files w w') (h' : Files w' w'') : Files w w'' :=
  ⟨h'.data.trans h.data, h'.index.trans h.index, h'.start.trans h.start⟩

theorem files_frame (blockType : ℤ) (w : Writer) (data : Data) :
    Files w (CalibrationWriter.frame blockType w data) := by
  have hskip : (w.skip (getFrameID data)).indexFile = w.indexFile ∧
      (w.skip (getFrameID data)).stepStartOffset = w.stepStartOffset := by
    rw [Writer.skip]
    split_ifs <;> exact ⟨rfl, rfl⟩
  have hframe : (Writer.frame blockType w data).indexFile = w.indexFile ∧
      (Writer.frame blockType w data).stepStartOffset = w.stepStartOffset := by
    rw [Writer.frame]
    split_ifs <;> exact hskip
  exact ⟨rfl, hframe.1, hframe.2⟩

theorem files_frames (blockType : ℤ) (w : Writer) (fs : List Data) :
    Files w (fs.foldl (CalibrationWriter.frame blockType) w) := by
  induction fs generalizing w with
  | nil => exact ⟨rfl, rfl, rfl⟩
  | cons f fs ih => exact (files_frame blockType w f).trans (ih _)

theorem processBatch_words {shm : ℕ → Data} {h : BlockHeader} {calEventSet calEventSet' : Fin n_cpu → EventSet}
    {ws : List UInt64} (hcounted : Counted calEventSet ws)
    (hbatch : ProcessBatch shm (h.rdPointer % (2 * MaxRawDataFrameQueueSize))
      (h.wrPointer % (2 * MaxRawDataFrameQueueSize)) calEventSet calEventSet') :
    Counted calEventSet' (ws ++ (Writer.frames shm h).flatMap eventWords) :=
  processBatch_counted (Nat.mod_lt _ (by decide)) (Nat.mod_lt _ (by decide)) hcounted hbatch

/-- A block that does not close a step adds to the maps. -/
theorem block_counted {h : BlockHeader} {shm : ℕ → Data} (h2 : h.blockType ≠ 2) {ws : List UInt64}
    (hcounted : Counted (if h.blockType = 0 then fun _ => [] else s.calEventSet) ws)
    (hblock : CalibrationWriter.Block h shm s s') :
    Files (if h.blockType = 0 then s.writer.start else s.writer) s'.writer ∧
      Counted s'.calEventSet (ws ++ (Writer.frames shm h).flatMap eventWords) := by
  obtain ⟨calEventSet, hbatch, hs'⟩ := hblock
  obtain rfl := (if_neg h2).mp hs'
  exact ⟨files_frames _ _ _, processBatch_words hcounted hbatch⟩

theorem acquires_mid {mid : ShmBlocks} (hmid : ∀ b ∈ mid, b.1.blockType ≠ 0 ∧ b.1.blockType ≠ 2)
    {ws : List UInt64} (hcounted : Counted s.calEventSet ws) (h : Acquires mid s s') :
    Files s.writer s'.writer ∧ Counted s'.calEventSet (ws ++ wordsOf mid) := by
  induction mid generalizing s ws with
  | nil =>
    obtain rfl := h
    exact ⟨⟨rfl, rfl, rfl⟩, by rwa [wordsOf, List.flatMap_nil, List.append_nil]⟩
  | cons b mid ih =>
    obtain ⟨t, hblock, hrest⟩ := h
    obtain ⟨h0, h2⟩ := hmid b List.mem_cons_self
    obtain ⟨hfiles, ht⟩ := block_counted h2 (by rwa [if_neg h0]) hblock
    rw [if_neg h0] at hfiles
    obtain ⟨hfiles', hs'⟩ := ih (fun c hc => hmid c (List.mem_cons_of_mem _ hc)) ht hrest
    rw [List.append_assoc] at hs'
    exact ⟨hfiles.trans hfiles', hs'⟩

/-- A step leaves its records behind what is there, and its line of the index has the two ends. -/
theorem shmStep_spec {step1 : UInt32} {bs : ShmBlocks} (hbs : IsShmStep step1 bs) (h : Acquires bs s s') :
    ∃ (pad : ℕ → UInt32) (calEventSet : Fin n_cpu → EventSet) (line : IndexLine),
      Counted calEventSet (wordsOf bs) ∧
        s'.writer.dataFile = s.writer.dataFile ++ writeOut pad calEventSet ∧
        s'.writer.indexFile = s.writer.indexFile ++ [line] ∧ line.step1 = step1 ∧
        line.stepBegin = 8 * s.writer.dataFile.length ∧
        line.stepEnd = 8 * (s.writer.dataFile ++ writeOut pad calEventSet).length := by
  obtain ⟨b₀, mid, b₂, rfl, h0, h2, rfl, hmid⟩ := hbs
  obtain ⟨u, ⟨t, hfirst, hmids⟩, v, hlast, rfl⟩ := acquires_append.mp h
  obtain ⟨hfiles, ht⟩ := block_counted (by rw [h0]; decide) (by rw [if_pos h0]; exact counted_nil) hfirst
  obtain ⟨hfiles', hu⟩ := acquires_mid hmid ht hmids
  rw [if_pos h0] at hfiles
  have hne : b₂.1.blockType ≠ 0 := by
    rw [h2]
    decide
  obtain ⟨calEventSet, hbatch, hv⟩ := hlast
  rw [if_neg hne] at hbatch hv
  obtain ⟨pad, rfl⟩ := (if_pos h2).mp hv
  have hall := (hfiles.trans hfiles').trans
    (files_frames b₂.1.blockType u.writer (Writer.frames b₂.2 b₂.1))
  set w := (Writer.frames b₂.2 b₂.1).foldl (CalibrationWriter.frame b₂.1.blockType) u.writer
  refine ⟨pad, calEventSet, ⟨w.stepStartOffset, 8 * (w.dataFile ++ writeOut pad calEventSet).length,
    w.stepFirstFrameID, w.lastFrameID, b₂.1.step1, b₂.1.step2⟩, ?_,
    congrArg (· ++ writeOut pad calEventSet) hall.data, ?_, rfl, hall.start, ?_⟩
  · have := processBatch_words hu hbatch
    simpa [wordsOf] using this
  · exact congrArg (· ++ [_]) hall.index
  · exact congrArg (fun d => 8 * (d ++ writeOut pad calEventSet).length) hall.data

/-- The data writer comes to the end of any blocks. -/
theorem exists_acquires (bs : ShmBlocks) (s : CalibrationWriter n_cpu) : ∃ s', Acquires bs s s' := by
  induction bs generalizing s with
  | nil => exact ⟨s, rfl⟩
  | cons b bs ih =>
    obtain ⟨h, shm⟩ := b
    obtain ⟨t, ht⟩ : ∃ t, CalibrationWriter.Block h shm s t := by
      obtain ⟨calEventSet, hbatch⟩ := exists_processBatch shm
        (Nat.mod_lt h.rdPointer (show 0 < 2 * MaxRawDataFrameQueueSize by decide))
        (Nat.mod_lt h.wrPointer (show 0 < 2 * MaxRawDataFrameQueueSize by decide))
        (if h.blockType = 0 then fun _ => [] else s.calEventSet)
      by_cases h2 : h.blockType = 2
      · exact ⟨_, calEventSet, hbatch, (if_pos h2).mpr ⟨fun _ => 0, rfl⟩⟩
      · exact ⟨_, calEventSet, hbatch, (if_neg h2).mpr rfl⟩
    obtain ⟨s', hs'⟩ := ih t
    exact ⟨s', t, ht, hs'⟩

end Steps

end GramsTof.RawData
