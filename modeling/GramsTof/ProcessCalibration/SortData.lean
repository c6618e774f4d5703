import GramsTof.Lib.Digits
import GramsTof.RawData.Compressed

/-! `sortData` of the calibrations: the records of the steps are spread over temporary files, one for each
ASIC. The two calibrations differ in what they write for a record. -/

namespace GramsTof.ProcessCalibration

open Lib RawData

variable {ρ : Type*}

/-- The name of an ASIC's file. -/
def tmpDataFileName (tmpFilePrefix : List Char) (portID slaveID chipID : ℕ) : List Char :=
  tmpFilePrefix ++ '_' :: (padded 2 portID ++ '_' :: (padded 2 slaveID ++ '_' :: (padded 2 chipID ++
    "_data.tmp".toList)))

def gAsicID (c : RawCalibrationData) : ℕ := (getChannelID c.eventWord >>> 6).toNat

/-- The name made from the channel of a record. -/
def fileNameOf (tmpFilePrefix : List Char) (c : RawCalibrationData) : List Char :=
  let gChannelID := getChannelID c.eventWord
  tmpDataFileName tmpFilePrefix ((gChannelID >>> 17) % 32).toNat ((gChannelID >>> 12) % 32).toNat
    ((gChannelID >>> 6) % 64).toNat

/-- The open files by ASIC, and what stands under each name. -/
structure Sorting (ρ : Type*) where
  tmpDataFileNames : ℕ → Option (List Char)
  disk : List Char → List ρ
  maxgAsicID : ℕ

namespace Sorting

def initial (disk : List Char → List ρ) : Sorting ρ := ⟨fun _ => none, disk, 0⟩

/-- The file of a record, opened the first time, which leaves it empty. -/
def opened (tmpFilePrefix : List Char) (s : Sorting ρ) (c : RawCalibrationData) : Sorting ρ × List Char :=
  let s := { s with maxgAsicID := if s.maxgAsicID > gAsicID c then s.maxgAsicID else gAsicID c }
  match s.tmpDataFileNames (gAsicID c) with
  | some fn => (s, fn)
  | none =>
    let fn := fileNameOf tmpFilePrefix c
    ({ s with
        tmpDataFileNames := Function.update s.tmpDataFileNames (gAsicID c) (some fn)
        disk := Function.update s.disk fn [] }, fn)

/-- The loop body for a record of a step with value `step1`. -/
def write (branches : RawCalibrationData → UInt32 → List ρ) (tmpFilePrefix : List Char) (s : Sorting ρ)
    (p : RawCalibrationData × UInt32) : Sorting ρ :=
  let (s, fn) := s.opened tmpFilePrefix p.1
  { s with disk := Function.update s.disk fn (s.disk fn ++ branches p.1 p.2) }

/-- The lines of the list file. -/
def listFile (s : Sorting ρ) : List (ℕ × List Char) :=
  (List.range (s.maxgAsicID + 1)).filterMap fun g => (s.tmpDataFileNames g).map (g, ·)

end Sorting

/-- The records of a line of the index. After a short read the loop would go over memory that was never
set; there is no result then. -/
def readStep (dataFile : List UInt64) (line : IndexLine) : Option (List RawCalibrationData) :=
  let nCalData := (line.stepEnd - line.stepBegin) / 16
  let block := calibrationData ((dataFile.drop (line.stepBegin / 8)).take (2 * nCalData))
  if block.length ≠ nCalData then none else some block

/-- `sortData`. The values of the steps went through a text of the index, `reread`. -/
def sortData (branches : RawCalibrationData → UInt32 → List ρ) (reread : UInt32 → UInt32)
    (tmpFilePrefix : List Char) (disk : List Char → List ρ) (indexFile : List IndexLine)
    (dataFile : List UInt64) : Option (Sorting ρ) :=
  indexFile.foldlM (fun s line => (readStep dataFile line).map fun block =>
    (block.map (·, reread line.step1)).foldl (Sorting.write branches tmpFilePrefix) s) (.initial disk)

/-! ### Names -/

theorem gAsicID_eq (c : RawCalibrationData) : gAsicID c = c.eventWord.toNat / 2 ^ 48 := by
  rw [gAsicID, UInt32.toNat_shiftRight, getChannelID_toNat, Nat.shiftRight_eq_div_pow]
  show c.eventWord.toNat / 2 ^ 42 / 2 ^ 6 = _
  rw [Nat.div_div_eq_div_mul, ← Nat.pow_add]

theorem gAsicID_lt (c : RawCalibrationData) : gAsicID c < 2 ^ 16 := by
  have := c.eventWord.toNat_lt
  rw [gAsicID_eq]
  omega

/-- The name that belongs to the number of an ASIC. -/
def nameOf (tmpFilePrefix : List Char) (g : ℕ) : List Char :=
  tmpDataFileName tmpFilePrefix (g / 2 ^ 11 % 32) (g / 2 ^ 6 % 32) (g % 64)

theorem fileNameOf_eq (tmpFilePrefix : List Char) (c : RawCalibrationData) :
    fileNameOf tmpFilePrefix c = nameOf tmpFilePrefix (gAsicID c) := by
  have h : ∀ k : UInt32, k.toNat < 32 → (getChannelID c.eventWord >>> k).toNat =
      c.eventWord.toNat / 2 ^ 42 / 2 ^ k.toNat := by
    intro k hk
    rw [UInt32.toNat_shiftRight, getChannelID_toNat, Nat.shiftRight_eq_div_pow, Nat.mod_eq_of_lt hk]
  rw [fileNameOf, nameOf, gAsicID]
  simp only [UInt32.toNat_mod]
  rw [h 17 (by decide), h 12 (by decide), h 6 (by decide)]
  simp only [Nat.div_div_eq_div_mul]
  rfl

/-- The fields of an ASIC's number can be read off its name. -/
theorem nameOf_inj {tmpFilePrefix : List Char} {g g' : ℕ} (hg : g < 2 ^ 16) (hg' : g' < 2 ^ 16)
    (h : nameOf tmpFilePrefix g = nameOf tmpFilePrefix g') : g = g' := by
  have hlen : ∀ a b : ℕ, (padded 2 a).length = (padded 2 b).length := fun a b => by simp
  have h₁ := List.append_cancel_left h
  obtain ⟨hport, h₂⟩ := List.append_inj (List.cons.inj h₁).2 (hlen _ _)
  obtain ⟨hslave, h₃⟩ := List.append_inj (List.cons.inj h₂).2 (hlen _ _)
  obtain ⟨hchip, -⟩ := List.append_inj (List.cons.inj h₃).2 (hlen _ _)
  have hport' := (padded_inj (by omega) (by omega)).mp hport
  have hslave' := (padded_inj (by omega) (by omega)).mp hslave
  have hchip' := (padded_inj (by omega) (by omega)).mp hchip
  omega

/-! ### The files -/

/-- Records, each with the value of its step. -/
abbrev Records := List (RawCalibrationData × UInt32)

/-- The ASICs of some records have each one file, with what was written for their records. -/
structure Sorted (branches : RawCalibrationData → UInt32 → List ρ) (tmpFilePrefix : List Char) (s : Sorting ρ)
    (records : Records) : Prop where
  names : ∀ g, s.tmpDataFileNames g =
    if g ∈ records.map (gAsicID ·.1) then some (nameOf tmpFilePrefix g) else none
  disk : ∀ g ∈ records.map (gAsicID ·.1), s.disk (nameOf tmpFilePrefix g) =
    (records.filter (gAsicID ·.1 = g)).flatMap fun p => branches p.1 p.2
  le_max : ∀ g ∈ records.map (gAsicID ·.1), g ≤ s.maxgAsicID

section Sorted

variable {branches : RawCalibrationData → UInt32 → List ρ} {tmpFilePrefix : List Char} {s : Sorting ρ}
  {records : Records}

theorem sorted_initial (disk : List Char → List ρ) : Sorted branches tmpFilePrefix (.initial disk) [] where
  names _ := rfl
  disk _ h := absurd h List.not_mem_nil
  le_max _ h := absurd h List.not_mem_nil

/-- Opening an ASIC's file the first time touches no other ASIC's file. -/
theorem Sorted.opened (h : Sorted branches tmpFilePrefix s records) (c : RawCalibrationData) :
    (s.opened tmpFilePrefix c).2 = nameOf tmpFilePrefix (gAsicID c) ∧
      (∀ g, (s.opened tmpFilePrefix c).1.tmpDataFileNames g =
        if g = gAsicID c ∨ g ∈ records.map (gAsicID ·.1) then some (nameOf tmpFilePrefix g) else none) ∧
      (∀ g, g < 2 ^ 16 → g = gAsicID c ∨ g ∈ records.map (gAsicID ·.1) →
        (s.opened tmpFilePrefix c).1.disk (nameOf tmpFilePrefix g) =
          (records.filter (gAsicID ·.1 = g)).flatMap fun p => branches p.1 p.2) ∧
      (∀ g, g = gAsicID c ∨ g ∈ records.map (gAsicID ·.1) → g ≤ (s.opened tmpFilePrefix c).1.maxgAsicID) := by
  have hmax : ∀ g, g = gAsicID c ∨ g ∈ records.map (gAsicID ·.1) →
      g ≤ if s.maxgAsicID > gAsicID c then s.maxgAsicID else gAsicID c := by
    rintro g (rfl | hg)
    · split_ifs <;> omega
    · have := h.le_max g hg
      split_ifs <;> omega
  have hname := h.names (gAsicID c)
  rw [Sorting.opened]
  by_cases hmem : gAsicID c ∈ records.map (gAsicID ·.1)
  · rw [if_pos hmem] at hname
    have hor : ∀ g, g = gAsicID c ∨ g ∈ records.map (gAsicID ·.1) ↔ g ∈ records.map (gAsicID ·.1) :=
      fun g => or_iff_right_of_imp fun he => he ▸ hmem
    simp only [hname, hor]
    exact ⟨trivial, h.names, fun g _ hg => h.disk g hg, fun g hg => hmax g (.inr hg)⟩
  · rw [if_neg hmem] at hname
    simp only [hname, fileNameOf_eq]
    refine ⟨trivial, fun g => ?_, fun g hlt hg => ?_, hmax⟩
    · by_cases hg : g = gAsicID c
      · subst hg
        rw [Function.update_self, if_pos (.inl rfl)]
      · rw [Function.update_of_ne hg, h.names]
        simp only [or_iff_right hg]
    · rcases hg with rfl | hg
      · rw [Function.update_self, List.filter_eq_nil_iff.mpr, List.flatMap_nil]
        intro p hp
        rw [decide_eq_true_iff]
        exact fun he => hmem (List.mem_map.mpr ⟨p, hp, he⟩)
      · have hne : g ≠ gAsicID c := fun he => hmem (he ▸ hg)
        rw [Function.update_of_ne fun he => hne (nameOf_inj hlt (gAsicID_lt c) he), h.disk g hg]

theorem Sorted.write (h : Sorted branches tmpFilePrefix s records) (p : RawCalibrationData × UInt32) :
    Sorted branches tmpFilePrefix (s.write branches tmpFilePrefix p) (records ++ [p]) := by
  obtain ⟨hfn, hnames, hdisk, hmax⟩ := h.opened p.1
  have hmem : ∀ g, g ∈ (records ++ [p]).map (gAsicID ·.1) ↔
      g = gAsicID p.1 ∨ g ∈ records.map (gAsicID ·.1) := by
    intro g
    rw [List.map_append, List.mem_append, List.map_singleton, List.mem_singleton, or_comm]
  refine ⟨fun g => ?_, fun g hg => ?_, fun g hg => hmax g ((hmem g).mp hg)⟩
  · simp only [hmem]
    exact hnames g
  · have hlt : g < 2 ^ 16 := by
      obtain ⟨q, -, rfl⟩ := List.mem_map.mp hg
      exact gAsicID_lt q.1
    have hg' := (hmem g).mp hg
    rw [List.filter_append, List.flatMap_append, ← hdisk g hlt hg']
    show Function.update (s.opened tmpFilePrefix p.1).1.disk (s.opened tmpFilePrefix p.1).2
      ((s.opened tmpFilePrefix p.1).1.disk (s.opened tmpFilePrefix p.1).2 ++ branches p.1 p.2)
      (nameOf tmpFilePrefix g) = _
    rw [hfn]
    by_cases he : gAsicID p.1 = g
    · subst he
      simp
    · rw [Function.update_of_ne fun heq => he (nameOf_inj (gAsicID_lt p.1) hlt heq.symm)]
      simp [he]

theorem Sorted.foldl_write (h : Sorted branches tmpFilePrefix s records) (more : Records) :
    Sorted branches tmpFilePrefix (more.foldl (Sorting.write branches tmpFilePrefix) s) (records ++ more) := by
  induction more generalizing s records with
  | nil => rwa [List.append_nil]
  | cons p more ih =>
    have := ih (h.write p)
    rwa [List.append_assoc] at this

/-- The list file has a line for each ASIC of which a record came, and only for these. -/
theorem Sorted.mem_listFile (h : Sorted branches tmpFilePrefix s records) (g : ℕ) (fn : List Char) :
    (g, fn) ∈ s.listFile ↔ g ∈ records.map (gAsicID ·.1) ∧ fn = nameOf tmpFilePrefix g := by
  rw [Sorting.listFile, List.mem_filterMap]
  constructor
  · rintro ⟨g', -, hg'⟩
    obtain ⟨fn', hfn', he⟩ := Option.map_eq_some_iff.mp hg'
    obtain ⟨rfl, rfl⟩ := Prod.mk.inj he
    rw [h.names] at hfn'
    split_ifs at hfn' with hmem
    exact ⟨hmem, (Option.some.inj hfn').symm⟩
  · rintro ⟨hmem, rfl⟩
    refine ⟨g, List.mem_range.mpr (Nat.lt_succ_of_le (h.le_max g hmem)), ?_⟩
    rw [h.names, if_pos hmem, Option.map_some]

theorem nodup_listFile (s : Sorting ρ) : (s.listFile.map Prod.fst).Nodup := by
  have hsub : (s.listFile.map Prod.fst).Sublist (List.range (s.maxgAsicID + 1)) := by
    rw [Sorting.listFile]
    induction List.range (s.maxgAsicID + 1) with
    | nil => exact .slnil
    | cons g gs ih =>
      rw [List.filterMap_cons]
      cases s.tmpDataFileNames g with
      | none => exact ih.cons g
      | some fn => exact ih.cons_cons g
  exact List.nodup_range.sublist hsub

end Sorted

/-! ### The files of an acquisition -/

section Acquisition

variable {n_cpu : ℕ}

/-- A line of the index leads to one record for each word of its step. -/
def Recorded (n_cpu : ℕ) (dataFile : List UInt64) (line : IndexLine) (step : UInt32 × ShmBlocks) : Prop :=
  line.step1 = step.1 ∧ ∃ calEventSet : Fin n_cpu → EventSet, Counted calEventSet (wordsOf step.2) ∧
    readStep dataFile line = some ((entries calEventSet).map RawData.record)

theorem readStep_writeOut {before : List UInt64} {pad : ℕ → UInt32} {calEventSet : Fin n_cpu → EventSet}
    {line : IndexLine} (hbegin : line.stepBegin = 8 * before.length)
    (hend : line.stepEnd = 8 * (before ++ writeOut pad calEventSet).length) (after : List UInt64) :
    readStep (before ++ writeOut pad calEventSet ++ after) line =
      some ((entries calEventSet).map RawData.record) := by
  have hlen := length_writeOut pad calEventSet
  have hn : (line.stepEnd - line.stepBegin) / 16 = (entries calEventSet).length := by
    rw [hbegin, hend, List.length_append, hlen]
    omega
  have hblock : ((before ++ writeOut pad calEventSet ++ after).drop (line.stepBegin / 8)).take
      (2 * (entries calEventSet).length) = writeOut pad calEventSet := by
    rw [hbegin, Nat.mul_div_cancel_left _ (by decide), List.append_assoc, List.drop_left, ← hlen, List.take_left]
  rw [readStep, hn, hblock, calibrationData_writeOut]
  exact if_neg (by simp)

theorem recorded_steps {steps : List (UInt32 × ShmBlocks)} (hsteps : ∀ st ∈ steps, IsShmStep st.1 st.2)
    {s s' : CalibrationWriter n_cpu} (h : Acquires (steps.flatMap Prod.snd) s s') :
    ∃ lines more, s'.writer.indexFile = s.writer.indexFile ++ lines ∧
      s'.writer.dataFile = s.writer.dataFile ++ more ∧
      ∀ after, List.Forall₂ (Recorded n_cpu (s.writer.dataFile ++ more ++ after)) lines steps := by
  induction steps generalizing s with
  | nil =>
    obtain rfl := h
    exact ⟨[], [], by simp, by simp, fun _ => .nil⟩
  | cons st steps ih =>
    obtain ⟨t, hst, hrest⟩ := acquires_append.mp h
    obtain ⟨pad, calEventSet, line, hcounted, hdata, hindex, hstep1, hbegin, hend⟩ :=
      shmStep_spec (hsteps st List.mem_cons_self) hst
    obtain ⟨lines, more, hlines, hmore, hall⟩ := ih (fun c hc => hsteps c (List.mem_cons_of_mem _ hc)) hrest
    refine ⟨line :: lines, writeOut pad calEventSet ++ more, ?_, ?_, fun after => .cons ?_ ?_⟩
    · rw [hlines, hindex, List.append_assoc, List.singleton_append]
    · rw [hmore, hdata, List.append_assoc]
    · have hread := readStep_writeOut hbegin hend (more ++ after)
      exact ⟨hstep1, calEventSet, hcounted, by simpa only [List.append_assoc] using hread⟩
    · have := hall after
      rw [hdata] at this
      simpa only [List.append_assoc] using this

/-- The records of a step as they are sorted: one for each word. -/
def StepRecords (n_cpu : ℕ) (reread : UInt32 → UInt32) (step : UInt32 × ShmBlocks) (records : Records) : Prop :=
  ∃ calEventSet : Fin n_cpu → EventSet, Counted calEventSet (wordsOf step.2) ∧
    records = (entries calEventSet).map fun p => (RawData.record p, reread step.1)

variable {branches : RawCalibrationData → UInt32 → List ρ} {reread : UInt32 → UInt32}
  {tmpFilePrefix : List Char}

theorem foldlM_readStep {dataFile : List UInt64} {lines : List IndexLine} {steps : List (UInt32 × ShmBlocks)}
    (h : List.Forall₂ (Recorded n_cpu dataFile) lines steps) {s : Sorting ρ} {records : Records}
    (hs : Sorted branches tmpFilePrefix s records) :
    ∃ s' more, lines.foldlM (fun s line => (readStep dataFile line).map fun block =>
        (block.map (·, reread line.step1)).foldl (Sorting.write branches tmpFilePrefix) s) s = some s' ∧
      List.Forall₂ (StepRecords n_cpu reread) steps more ∧
      Sorted branches tmpFilePrefix s' (records ++ more.flatten) := by
  induction h generalizing s records with
  | nil => exact ⟨s, [], rfl, .nil, by rwa [List.flatten_nil, List.append_nil]⟩
  | @cons line st lines steps hline _ ih =>
    obtain ⟨hstep1, calEventSet, hcounted, hread⟩ := hline
    set new : Records := ((entries calEventSet).map RawData.record).map (·, reread line.step1)
    obtain ⟨s', more, hs', hmore, hsorted⟩ := ih (hs.foldl_write new)
    refine ⟨s', new :: more, ?_, .cons ⟨calEventSet, hcounted, ?_⟩ hmore, ?_⟩
    · rw [List.foldlM_cons, hread]
      exact hs'
    · rw [← hstep1]
      exact List.map_map
    · rwa [List.flatten_cons, ← List.append_assoc]

/-- The files of a calibration acquisition can be sorted, and what is sorted are the records of its steps. -/
theorem sortData_spec {steps : List (UInt32 × ShmBlocks)} (hsteps : ∀ st ∈ steps, IsShmStep st.1 st.2)
    {head : List UInt64} {s : CalibrationWriter n_cpu} (h : Acquires (steps.flatMap Prod.snd) (.opened head) s)
    (disk : List Char → List ρ) :
    ∃ out records, sortData branches reread tmpFilePrefix disk s.writer.indexFile s.writer.dataFile = some out ∧
      List.Forall₂ (StepRecords n_cpu reread) steps records ∧
      Sorted branches tmpFilePrefix out records.flatten := by
  obtain ⟨lines, more, hlines, hmore, hall⟩ := recorded_steps hsteps h
  have hrec := hall []
  rw [List.append_nil, ← hmore] at hrec
  have hinitial : Sorted branches tmpFilePrefix (.initial disk) [] := sorted_initial disk
  obtain ⟨out, records, hout, hrecords, hsorted⟩ := foldlM_readStep hrec hinitial
  refine ⟨out, records, ?_, hrecords, hsorted⟩
  rw [sortData, hlines]
  exact hout

end Acquisition

end GramsTof.ProcessCalibration
