import GramsTof.ProcessCalibration.SortData
import Mathlib.Algebra.BigOperators.Group.List.Basic

/-! The time calibration: what is written for a record, and how `calibrateAsic` fills its histograms from the
file of an ASIC. From the acquisition on no event is lost on the way to the histogram of its converter,
and none is counted twice. -/

namespace GramsTof.ProcessCalibration

open Lib RawData

/-- The number of a converter: a channel, one of its four buffers, and the branch. -/
def gid (word : UInt64) (branch : UInt32) : ℕ :=
  (getChannelID word <<< 3 ||| (getTacID word).toUInt32 <<< 1 ||| branch).toNat

structure CalibrationData where
  gid : ℕ
  coarse : UInt16
  fine : UInt16
  freq : Int32
  phase : UInt32
  deriving DecidableEq

/-- What is written for a record, for both branches. -/
def branches (c : RawCalibrationData) (step1 : UInt32) : List CalibrationData :=
  [⟨gid c.eventWord 0x0, getTCoarse c.eventWord, getTFine c.eventWord, c.freq, step1⟩,
    ⟨gid c.eventWord 0x1, getECoarse c.eventWord, getEFine c.eventWord, c.freq, step1⟩]

/-- The records of 24 bytes that a buffer of 4096 bytes has room for. -/
def READ_BUFFER_SIZE : ℕ := 4096 / 24

/-- The histograms of an ASIC's converters: for each, the records with which both of its histograms were
filled. -/
structure Histograms where
  filled : ℕ → List CalibrationData
  asicPresent : Bool

namespace Histograms

def initial : Histograms := ⟨fun _ => [], false⟩

/-- The entries of a converter's histogram of the fine counter, each with the phase. -/
def hFine2 (h : Histograms) (n : ℕ) : List (UInt32 × UInt16) := (h.filled n).map fun d => (d.phase, d.fine)

def hCoarse2 (h : Histograms) (n : ℕ) : List (UInt32 × UInt16) := (h.filled n).map fun d => (d.phase, d.coarse)

/-- How often the loop over `freq` is gone through. -/
def fills (freq : Int32) : ℕ := freq.toInt.toNat

/-- The loop body for a record; without a result where it is of no histogram of the ASIC. -/
def fill (gidStart nTAC : ℕ) (h : Histograms) (calData : CalibrationData) : Option Histograms :=
  if gidStart ≤ calData.gid ∧ calData.gid - gidStart < nTAC then
    some
      { filled := Function.update h.filled (calData.gid - gidStart)
          (h.filled (calData.gid - gidStart) ++ List.replicate (fills calData.freq) calData)
        asicPresent := true }
  else none

/-- The loop over the file, one buffer after another. -/
def fillFile (gidStart nTAC : ℕ) (h : Histograms) (file : List CalibrationData) : Option Histograms :=
  if file.isEmpty then some h
  else
    ((file.take READ_BUFFER_SIZE).foldlM (fill gidStart nTAC) h).bind fun h =>
      fillFile gidStart nTAC h (file.drop READ_BUFFER_SIZE)
  termination_by file.length
  decreasing_by
    have : READ_BUFFER_SIZE = 170 := rfl
    cases file with
    | nil => simp_all
    | cons d file => rw [List.length_drop, List.length_cons]; omega

end Histograms

/-- The histograms that `calibrateAsic` goes by. -/
def calibrateAsic (gAsicID : ℕ) (linearityDataFile : List CalibrationData) : Option Histograms :=
  Histograms.fillFile (gAsicID * 64 * 2 * 4) ((gAsicID + 1) * 64 * 4 * 2 - gAsicID * 64 * 2 * 4) .initial
    linearityDataFile

/-! ### The numbers of the converters -/

theorem gid_eq (word : UInt64) {branch : UInt32} (hb : branch.toNat < 2) :
    gid word branch = word.toNat / 2 ^ 42 * 8 + word.toNat / 2 ^ 40 % 4 * 2 + branch.toNat := by
  have hword := word.toNat_lt
  have hchannel : (getChannelID word <<< 3).toNat = (word.toNat / 2 ^ 42) <<< 3 := by
    rw [UInt32.toNat_shiftLeft, getChannelID_toNat]
    show (word.toNat / 2 ^ 42) <<< 3 % 2 ^ 32 = _
    rw [Nat.shiftLeft_eq]
    omega
  have htac : ((getTacID word).toUInt32 <<< 1).toNat = (word.toNat / 2 ^ 40 % 4) <<< 1 := by
    rw [UInt32.toNat_shiftLeft, UInt16.toNat_toUInt32, getTacID_toNat]
    show (word.toNat / 2 ^ 40 % 4) <<< 1 % 2 ^ 32 = _
    rw [Nat.shiftLeft_eq]
    omega
  have hlow : (word.toNat / 2 ^ 40 % 4) <<< 1 ||| branch.toNat =
      (word.toNat / 2 ^ 40 % 4) <<< 1 + branch.toNat := (Nat.shiftLeft_add_eq_or_of_lt hb _).symm
  rw [gid, UInt32.toNat_or, UInt32.toNat_or, hchannel, htac, Nat.or_assoc, hlow,
    ← Nat.shiftLeft_add_eq_or_of_lt (by rw [Nat.shiftLeft_eq]; omega), Nat.shiftLeft_eq, Nat.shiftLeft_eq]
  omega

/-- The ASIC of a converter. -/
theorem gid_div (c : RawCalibrationData) {branch : UInt32} (hb : branch.toNat < 2) :
    gid c.eventWord branch / 512 = gAsicID c := by
  rw [gid_eq c.eventWord hb, gAsicID_eq]
  omega

theorem gid_branch (word word' : UInt64) : gid word 0 ≠ gid word' 1 := by
  rw [gid_eq word (by decide), gid_eq word' (by decide)]
  show _ + _ + 0 ≠ _ + _ + 1
  omega

/-! ### Filling -/

namespace Histograms

variable {gidStart nTAC : ℕ}

theorem fillFile_eq (h : Histograms) (file : List CalibrationData) :
    fillFile gidStart nTAC h file = file.foldlM (fill gidStart nTAC) h := by
  induction h, file using fillFile.induct with
  | case1 h file hnil =>
    obtain rfl := List.isEmpty_iff.mp hnil
    rw [fillFile]
    rfl
  | case2 h file hne ih =>
    rw [fillFile, if_neg hne]
    conv_rhs => rw [← List.take_append_drop READ_BUFFER_SIZE file, List.foldlM_append]
    exact Option.bind_congr fun h' _ => ih h'

/-- Records of the ASIC's converters all find their histogram, and each fills it as often as it counts. -/
theorem foldlM_fill {file : List CalibrationData}
    (hfile : ∀ d ∈ file, gidStart ≤ d.gid ∧ d.gid - gidStart < nTAC) (h : Histograms) :
    ∃ h', file.foldlM (fill gidStart nTAC) h = some h' ∧ ∀ n, h'.filled n = h.filled n ++
      (file.filter (·.gid = gidStart + n)).flatMap fun d => List.replicate (fills d.freq) d := by
  induction file generalizing h with
  | nil => exact ⟨h, rfl, fun n => by simp⟩
  | cons d file ih =>
    obtain ⟨hle, hlt⟩ := hfile d List.mem_cons_self
    obtain ⟨h', hh', hfilled⟩ := ih (fun e he => hfile e (List.mem_cons_of_mem _ he))
      ⟨Function.update h.filled (d.gid - gidStart)
        (h.filled (d.gid - gidStart) ++ List.replicate (fills d.freq) d), true⟩
    refine ⟨h', ?_, fun n => ?_⟩
    · rw [List.foldlM_cons, fill, if_pos ⟨hle, hlt⟩]
      exact hh'
    · rw [hfilled n, List.filter_cons]
      by_cases hn : n = d.gid - gidStart
      · subst hn
        have hd : d.gid = gidStart + (d.gid - gidStart) := by omega
        rw [if_pos (decide_eq_true hd), List.flatMap_cons, ← List.append_assoc]
        congr 1
        exact Function.update_self ..
      · have hd : ¬d.gid = gidStart + n := by omega
        rw [if_neg (by simpa using hd)]
        congr 1
        exact Function.update_of_ne hn ..

end Histograms

/-! ### From the acquisition to the histograms -/

/-- What a word says of a converter, by the counters of the two branches. -/
def reading (t e : UInt64 → UInt16) (g : ℕ) (word : UInt64) : Option UInt16 :=
  if gid word 0 = g then some (t word) else if gid word 1 = g then some (e word) else none

def fineOf : ℕ → UInt64 → Option UInt16 := reading getTFine getEFine

def coarseOf : ℕ → UInt64 → Option UInt16 := reading getTCoarse getECoarse

/-- The words that were acquired with a phase. -/
def acquired (reread : UInt32 → UInt32) (steps : List (UInt32 × ShmBlocks)) (phase : UInt32) : List UInt64 :=
  (steps.filter (reread ·.1 = phase)).flatMap fun st => wordsOf st.2

theorem fills_ofNat {n : ℕ} (h : n < 2 ^ 31) : Histograms.fills (UInt32.ofNat n).toInt32 = n := by
  have hint : (UInt32.ofNat n).toInt32.toInt = (n : ℤ).bmod (2 ^ 32) := BitVec.toInt_ofNat n
  rw [Histograms.fills, hint, Int.bmod_eq_of_le (by omega) (by omega), Int.toNat_natCast]

section Counting

variable {t e : UInt64 → UInt16} {val : CalibrationData → UInt16} {g : ℕ} {phase : UInt32} {v : UInt16}

/-- What a record adds to an entry of a converter's histogram. -/
def amount (t e : UInt64 → UInt16) (g : ℕ) (phase : UInt32) (v : UInt16) (r : RawCalibrationData × UInt32) : ℕ :=
  if r.2 = phase ∧ reading t e g r.1.eventWord = some v then Histograms.fills r.1.freq else 0

theorem count_branches (hval : ∀ c s, (branches c s).map val = [t c.eventWord, e c.eventWord])
    (r : RawCalibrationData × UInt32) :
    ((((branches r.1 r.2).filter (·.gid = g)).flatMap fun d =>
      List.replicate (Histograms.fills d.freq) (d.phase, val d))).count (phase, v) = amount t e g phase v r := by
  obtain ⟨ht, he⟩ : val _ = t r.1.eventWord ∧ val _ = e r.1.eventWord := by
    simpa only [branches, List.map_cons, List.map_nil, List.cons.injEq, and_true] using hval r.1 r.2
  rw [amount, reading, branches]
  by_cases h0 : gid r.1.eventWord 0 = g
  · subst h0
    have h1 : gid r.1.eventWord 1 ≠ gid r.1.eventWord 0 := (gid_branch _ _).symm
    simp [h1, ht, List.count_replicate]
  · by_cases h1 : gid r.1.eventWord 1 = g
    · subst h1
      simp [h0, he, List.count_replicate]
    · simp [h0, h1]

/-- A record of another ASIC adds nothing. -/
theorem amount_eq_zero {r : RawCalibrationData × UInt32} (h : gAsicID r.1 ≠ g / 512) :
    amount t e g phase v r = 0 := by
  have h0 : gid r.1.eventWord 0 ≠ g := fun he => h (by rw [← he, gid_div r.1 (by decide)])
  have h1 : gid r.1.eventWord 1 ≠ g := fun he => h (by rw [← he, gid_div r.1 (by decide)])
  rw [amount, reading, if_neg h0, if_neg h1]
  exact if_neg fun hr => nomatch hr.2

theorem sum_filter_of_zero {α : Type*} {f : α → ℕ} {p : α → Bool} (h : ∀ a, p a = false → f a = 0) (l : List α) :
    ((l.filter p).map f).sum = (l.map f).sum := by
  induction l with
  | nil => rfl
  | cons a l ih =>
    rw [List.filter_cons, List.map_cons, List.sum_cons, ← ih]
    cases ha : p a with
    | false => rw [if_neg Bool.false_ne_true, h a ha, Nat.zero_add]
    | true => rw [if_pos rfl, List.map_cons, List.sum_cons]

/-- The entries of a step's maps add what the step's words say. -/
theorem sum_amount_step {n_cpu : ℕ} (hpos : 0 < n_cpu) {reread : UInt32 → UInt32} {step : UInt32 × ShmBlocks}
    (hcount : ∀ w, (wordsOf step.2).count w < 2 ^ 31) {records : Records}
    (h : StepRecords n_cpu reread step records) :
    (records.map (amount t e g phase v)).sum =
      if reread step.1 = phase then (wordsOf step.2).countP (fun w => reading t e g w = some v) else 0 := by
  obtain ⟨calEventSet, hcounted, rfl⟩ := h
  have hperm := ((hcounted.perm hpos).map fun p => amount t e g phase v (RawData.record p, reread step.1)).sum_eq
  rw [List.map_map]
  refine hperm.trans ?_
  have hamount : ∀ w, amount t e g phase v (RawData.record (w, UInt32.ofNat ((wordsOf step.2).count w)),
      reread step.1) = if reread step.1 = phase ∧ reading t e g w = some v then (wordsOf step.2).count w else 0 := by
    intro w
    rw [amount, RawData.record, fills_ofNat (hcount w)]
  rw [List.map_map]
  simp only [Function.comp_def, hamount]
  by_cases hphase : reread step.1 = phase
  · simp only [hphase, true_and, if_true]
    rw [← List.sum_map_count_dedup_filter_eq_countP,
      ← sum_filter_of_zero (p := fun w => reading t e g w = some v) fun w hw => if_neg (of_decide_eq_false hw)]
    refine congrArg List.sum (List.map_congr_left fun w hw => if_pos ?_)
    exact of_decide_eq_true (List.mem_filter.mp hw).2
  · simp [hphase]

/-- The records of all steps add what the words acquired with the phase say. -/
theorem sum_amount {n_cpu : ℕ} (hpos : 0 < n_cpu) {reread : UInt32 → UInt32} {steps : List (UInt32 × ShmBlocks)}
    (hcount : ∀ st ∈ steps, ∀ w, (wordsOf st.2).count w < 2 ^ 31) {records : List Records}
    (h : List.Forall₂ (StepRecords n_cpu reread) steps records) :
    (records.flatten.map (amount t e g phase v)).sum =
      (acquired reread steps phase).countP fun w => reading t e g w = some v := by
  induction h with
  | nil => rfl
  | @cons st rs steps records hst _ ih =>
    rw [List.flatten_cons, List.map_append, List.sum_append, ih fun c hc => hcount c (List.mem_cons_of_mem _ hc),
      sum_amount_step hpos (hcount st List.mem_cons_self) hst, acquired, acquired, List.filter_cons]
    by_cases hphase : reread st.1 = phase
    · simp [hphase]
    · simp [hphase]

/-- A converter's histogram, made from all records of its ASIC, has the entries that the records add. -/
theorem count_filled (hval : ∀ c s, (branches c s).map val = [t c.eventWord, e c.eventWord]) (records : Records) :
    (((((records.filter (gAsicID ·.1 = g / 512)).flatMap fun p => branches p.1 p.2).filter (·.gid = g)).flatMap
      fun d => List.replicate (Histograms.fills d.freq) d).map fun d => (d.phase, val d)).count (phase, v) =
        (records.map (amount t e g phase v)).sum := by
  have hzero : ∀ r : RawCalibrationData × UInt32, decide (gAsicID r.1 = g / 512) = false →
      amount t e g phase v r = 0 := fun r hr => amount_eq_zero (of_decide_eq_false hr)
  rw [List.filter_flatMap, List.flatMap_assoc, List.map_flatMap, List.count_flatMap, ← sum_filter_of_zero hzero]
  refine congrArg List.sum (List.map_congr_left fun r _ => ?_)
  rw [Function.comp_apply, ← count_branches hval r, List.map_flatMap]
  simp only [List.map_replicate]

end Counting

/-- Every record of an ASIC's file is of one of its converters. -/
theorem gid_mem_asic {g : ℕ} {records : Records} {d : CalibrationData}
    (hd : d ∈ (records.filter (gAsicID ·.1 = g)).flatMap fun p => branches p.1 p.2) : d.gid / 512 = g := by
  obtain ⟨p, hp, hd⟩ := List.mem_flatMap.mp hd
  have hg := of_decide_eq_true (List.mem_filter.mp hp).2
  simp only [branches, List.mem_cons, List.not_mem_nil, or_false] at hd
  rcases hd with rfl | rfl
  · rw [gid_div p.1 (by decide), hg]
  · rw [gid_div p.1 (by decide), hg]

theorem calibrateAsic_spec (g : ℕ) (records : Records) :
    ∃ h, calibrateAsic g ((records.filter (gAsicID ·.1 = g)).flatMap fun p => branches p.1 p.2) = some h ∧
      ∀ n, h.filled n = (((records.filter (gAsicID ·.1 = g)).flatMap fun p => branches p.1 p.2).filter
        (·.gid = g * 512 + n)).flatMap fun d => List.replicate (Histograms.fills d.freq) d := by
  have hstart : g * 64 * 2 * 4 = g * 512 := by omega
  have hcount : (g + 1) * 64 * 4 * 2 - g * 512 = 512 := by omega
  rw [calibrateAsic, hstart, hcount, Histograms.fillFile_eq]
  refine Histograms.foldlM_fill (fun d hd => ?_) .initial
  have := gid_mem_asic hd
  omega

variable {n_cpu : ℕ} {reread : UInt32 → UInt32} {tmpFilePrefix : List Char} {steps : List (UInt32 × ShmBlocks)}

/-- The ASICs of the records are those of the words of the steps. -/
theorem mem_asics (hpos : 0 < n_cpu) {records : List Records}
    (h : List.Forall₂ (StepRecords n_cpu reread) steps records) (g : ℕ) :
    g ∈ records.flatten.map (gAsicID ·.1) ↔ ∃ st ∈ steps, ∃ w ∈ wordsOf st.2, w.toNat / 2 ^ 48 = g := by
  induction h with
  | nil => simp
  | @cons st rs steps records hst _ ih =>
    obtain ⟨calEventSet, hcounted, rfl⟩ := hst
    have hmem : ∀ w : UInt64, (∃ p ∈ entries calEventSet, p.1 = w) ↔ w ∈ wordsOf st.2 := by
      intro w
      constructor
      · rintro ⟨p, hp, rfl⟩
        obtain ⟨w, hw, rfl⟩ := List.mem_map.mp ((hcounted.perm hpos).mem_iff.mp hp)
        exact List.mem_dedup.mp hw
      · intro hw
        exact ⟨_, (hcounted.perm hpos).mem_iff.mpr (List.mem_map.mpr ⟨w, List.mem_dedup.mpr hw, rfl⟩), rfl⟩
    have hfirst : g ∈ ((entries calEventSet).map fun p => (RawData.record p, reread st.1)).map (gAsicID ·.1) ↔
        ∃ w ∈ wordsOf st.2, w.toNat / 2 ^ 48 = g := by
      rw [List.map_map, List.mem_map]
      constructor
      · rintro ⟨p, hp, rfl⟩
        exact ⟨p.1, (hmem p.1).mp ⟨p, hp, rfl⟩, (gAsicID_eq (RawData.record p)).symm⟩
      · rintro ⟨w, hw, rfl⟩
        obtain ⟨p, hp, rfl⟩ := (hmem w).mpr hw
        exact ⟨p, hp, gAsicID_eq (RawData.record p)⟩
    rw [List.flatten_cons, List.map_append, List.mem_append, hfirst, ih, List.exists_mem_cons_iff]

/-- Whatever is acquired in a calibration mode, and however the threads of the pool interleave, the files
can be sorted and histogrammed: every ASIC of an acquired word has its file, and a converter's
histograms have at each phase and value as many entries as words acquired with that phase say so. -/
theorem histograms_exact (hpos : 0 < n_cpu) (hsteps : ∀ st ∈ steps, IsShmStep st.1 st.2)
    (hcount : ∀ st ∈ steps, ∀ w, (wordsOf st.2).count w < 2 ^ 31) {head : List UInt64}
    {s : CalibrationWriter n_cpu} (h : Acquires (steps.flatMap Prod.snd) (.opened head) s)
    (disk : List Char → List CalibrationData) :
    ∃ out, sortData branches reread tmpFilePrefix disk s.writer.indexFile s.writer.dataFile = some out ∧
      (out.listFile.map Prod.fst).Nodup ∧
      (∀ g fn, (g, fn) ∈ out.listFile ↔
        (∃ st ∈ steps, ∃ w ∈ wordsOf st.2, w.toNat / 2 ^ 48 = g) ∧ fn = nameOf tmpFilePrefix g) ∧
      ∀ g fn, (g, fn) ∈ out.listFile → ∃ hist, calibrateAsic g (out.disk fn) = some hist ∧
        ∀ n < 512, ∀ phase v,
          (hist.hFine2 n).count (phase, v) =
            (acquired reread steps phase).countP (fun w => fineOf (g * 512 + n) w = some v) ∧
          (hist.hCoarse2 n).count (phase, v) =
            (acquired reread steps phase).countP (fun w => coarseOf (g * 512 + n) w = some v) := by
  obtain ⟨out, records, hout, hrecords, hsorted⟩ := sortData_spec hsteps h disk
  refine ⟨out, hout, nodup_listFile out, fun g fn => ?_, fun g fn hmem => ?_⟩
  · rw [hsorted.mem_listFile, mem_asics hpos hrecords]
  · obtain ⟨hg, rfl⟩ := (hsorted.mem_listFile g fn).mp hmem
    obtain ⟨hist, hhist, hfilled⟩ := calibrateAsic_spec g records.flatten
    refine ⟨hist, by rw [hsorted.disk g hg]; exact hhist, fun n hn phase v => ?_⟩
    have hdiv : (g * 512 + n) / 512 = g := by omega
    have hfine := @count_filled getTFine getEFine CalibrationData.fine (g * 512 + n) phase v (fun _ _ => rfl)
      records.flatten
    have hcoarse := @count_filled getTCoarse getECoarse CalibrationData.coarse (g * 512 + n) phase v
      (fun _ _ => rfl) records.flatten
    rw [hdiv, ← hfilled n, sum_amount hpos hcount hrecords] at hfine hcoarse
    exact ⟨hfine, hcoarse⟩

/-- A word of channel 1, buffer 2 that comes twice in a step. -/
def sampleSteps : List (UInt32 × ShmBlocks) :=
  [(7, [(⟨7, 0, 1, 0, 0⟩, fun _ => ofWords (frame 3 [0x60000000400, 0, 0x60000000400])),
    (⟨7, 0, 1, 1, 2⟩, fun _ => ofWords [])])]

theorem isShmStep_sampleSteps : ∀ st ∈ sampleSteps, IsShmStep st.1 st.2 := by
  intro st hst
  rw [List.mem_singleton.mp hst]
  exact ⟨_, [], _, rfl, rfl, rfl, rfl, fun b hb => absurd hb List.not_mem_nil⟩

theorem histograms_exact_sample : ∃ (s : CalibrationWriter 2) (out : Sorting CalibrationData) (hist : Histograms),
    sortData branches id ['t'] (fun _ => []) s.writer.indexFile s.writer.dataFile = some out ∧
      calibrateAsic 0 (out.disk "t_00_00_00_data.tmp".toList) = some hist ∧ (hist.hFine2 12).count (7, 28) = 2 := by
  have hcount : ∀ st ∈ sampleSteps, ∀ w, (wordsOf st.2).count w < 2 ^ 31 := by
    intro st hst w
    rw [List.mem_singleton.mp hst]
    exact List.count_le_length.trans_lt (by decide)
  obtain ⟨s, hs⟩ := exists_acquires (sampleSteps.flatMap Prod.snd)
    (CalibrationWriter.opened [] : CalibrationWriter 2)
  obtain ⟨out, hout, -, hlist, hall⟩ := histograms_exact (by decide) isShmStep_sampleSteps hcount hs fun _ => []
  have hmem := (hlist 0 (nameOf ['t'] 0)).mpr ⟨by decide, rfl⟩
  obtain ⟨hist, hhist, hentries⟩ := hall 0 _ hmem
  exact ⟨s, out, hist, hout, hhist, (hentries 12 (by decide) 7 28).1.trans (by decide)⟩

end GramsTof.ProcessCalibration
