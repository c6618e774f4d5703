import GramsTof.Analysis.Records
import GramsTof.Pipeline.Progress
import GramsTof.RawData.ReadBack

/-! `convert_raw_to_raw`: each step of a raw data file goes through a pool whose workers
decode the buffers and add them, in the order of their numbers, to the tree of
stage 1. Whatever the number of workers and however they take turns, the tree has
the events of the frames written, each once and in order, with the step's values. -/

namespace GramsTof.Pipeline

open Lib Analysis RawData

/-- An entry of the step index. -/
structure StepEntry where
  step1 : UInt32
  step2 : UInt32
  stepBegin : ℕ
  stepEnd : ℕ
  deriving DecidableEq

/-- The two trees of an output file in the ROOT format, and the counters of its writer. -/
structure DataFileWriter where
  eventFractionToWrite : ℤ
  eventCounter : ℕ
  stepBegin : ℕ
  hData : List Stg1Record
  hIndex : List StepEntry
  deriving DecidableEq

namespace DataFileWriter

def create (eventFractionToWrite : ℤ) : DataFileWriter := ⟨toInt eventFractionToWrite, 0, 0, [], []⟩

/-- The branches that `hData->Fill` takes for a hit. -/
def branches (step1 step2 : UInt32) (bufferMinFrameID : ℤ) (hit : RawHit) : Stg1Record where
  step1 := step1
  step2 := step2
  frameID := (hit.frameID + UInt64.ofInt bufferMinFrameID).toInt64
  channelID := hit.channelID
  tacID := hit.tacID
  tCoarse := hit.tcoarse
  eCoarse := hit.ecoarse
  tFine := hit.tfine
  eFine := hit.efine

/-- The loop body of `addEvents`. Of each 1024 events the first ones are written. -/
def addEvent (step1 step2 : UInt32) (bufferMinFrameID : ℤ) (w : DataFileWriter) (hit : RawHit) :
    DataFileWriter :=
  let tmpCounter := w.eventCounter
  let w := { w with eventCounter := w.eventCounter + 1 }
  if ((tmpCounter % 1024 : ℕ) : ℤ) ≥ w.eventFractionToWrite then w
  else { w with hData := w.hData ++ [branches step1 step2 bufferMinFrameID hit] }

def addEvents (step1 step2 : UInt32) (w : DataFileWriter) (buffer : EventBuffer RawHit) : DataFileWriter :=
  buffer.events.foldl (addEvent step1 step2 (buffer.tMin.tdiv 1024)) w

def closeStep (step1 step2 : UInt32) (w : DataFileWriter) : DataFileWriter :=
  { w with
    hIndex := w.hIndex ++ [⟨step1, step2, w.stepBegin, w.hData.length⟩]
    stepBegin := w.hData.length }

end DataFileWriter

section

variable (n maxQueueSize : ℕ) (isQDC : UInt32 → Bool) (text : UInt32 → UInt32) (dataFile : List UInt64)

/-- The pool of a step: `WriteHelper` behind `Decoder`. -/
def convertStep (step1 step2 : UInt32) (r : Progress) (w : DataFileWriter) :
    Machine (Pool n DataFileWriter) (Event n) :=
  pool n maxQueueSize r.packing.all (fun w b => w.addEvents step1 step2 (handleEvents isQDC b)) w

/-- `runConvertRawToRaw` over the lines of an index, from one state of the output file to another;
`text` is what comes back of a step value written to the index. The buffers must have their places
as numbers, as the pool counts them. -/
inductive Conversion : DataFileWriter → List IndexLine → DataFileWriter → Prop where
  | nil {w : DataFileWriter} : Conversion w [] w
  | step {w w' : DataFileWriter} {line : IndexLine} {lines : List IndexLine} {r : Progress}
      {s : Pool n DataFileWriter} :
      processStep dataFile line.stepBegin line.stepEnd = some r →
      r.packing.all.map EventBuffer.seqN = List.range r.packing.all.length →
      (convertStep n maxQueueSize isQDC (text line.step1) (text line.step2) r w).Reachable s →
      s.main = .done →
      Conversion (s.sink.closeStep (text line.step1) (text line.step2)) lines w' →
      Conversion w (line :: lines) w'

end

/-! ### One after another -/

/-- The records that are written, the first one being number `c`. -/
def kept (fraction : ℤ) (c : ℕ) (recs : List Stg1Record) : List Stg1Record :=
  ((recs.zipIdx c).filter fun p => ((p.2 % 1024 : ℕ) : ℤ) < fraction).map Prod.fst

/-- The same for the records of each step. -/
def keptSteps (fraction : ℤ) : ℕ → List (List Stg1Record) → List (List Stg1Record)
  | _, [] => []
  | c, recs :: steps => kept fraction c recs :: keptSteps fraction (c + recs.length) steps

theorem kept_cons (fraction : ℤ) (c : ℕ) (r : Stg1Record) (recs : List Stg1Record) :
    kept fraction c (r :: recs) =
      (if ((c % 1024 : ℕ) : ℤ) < fraction then [r] else []) ++ kept fraction (c + 1) recs := by
  rw [kept, List.zipIdx_cons, List.filter_cons]
  by_cases h : ((c % 1024 : ℕ) : ℤ) < fraction
  · rw [if_pos (decide_eq_true h), if_pos h]
    rfl
  · rw [if_neg (by simpa using h), if_neg h]
    rfl

theorem kept_append (fraction : ℤ) (c : ℕ) (recs recs' : List Stg1Record) :
    kept fraction c (recs ++ recs') = kept fraction c recs ++ kept fraction (c + recs.length) recs' := by
  rw [kept, List.zipIdx_append, List.filter_append, List.map_append]
  rfl

/-- All records are kept at full fraction. -/
theorem kept_eq_self {fraction : ℤ} (h : 1024 ≤ fraction) (c : ℕ) (recs : List Stg1Record) :
    kept fraction c recs = recs := by
  rw [kept, List.filter_eq_self.mpr, List.zipIdx_map_fst]
  intro p _
  have : p.2 % 1024 < 1024 := Nat.mod_lt _ (by decide)
  exact decide_eq_true (by omega)

theorem flatten_keptSteps (fraction : ℤ) (c : ℕ) (steps : List (List Stg1Record)) :
    (keptSteps fraction c steps).flatten = kept fraction c steps.flatten := by
  induction steps generalizing c with
  | nil => rfl
  | cons recs steps ih => rw [keptSteps, List.flatten_cons, List.flatten_cons, kept_append, ih]

namespace DataFileWriter

/-- The writer after the events with the given records. -/
def added (w : DataFileWriter) (recs : List Stg1Record) : DataFileWriter :=
  { w with
    eventCounter := w.eventCounter + recs.length
    hData := w.hData ++ kept w.eventFractionToWrite w.eventCounter recs }

theorem added_nil (w : DataFileWriter) : w.added [] = w := by
  rw [added, kept, List.zipIdx_nil, List.filter_nil, List.map_nil, List.append_nil]
  rfl

theorem added_added (w : DataFileWriter) (recs recs' : List Stg1Record) :
    (w.added recs).added recs' = w.added (recs ++ recs') := by
  simp only [added, kept_append, List.length_append, List.append_assoc, Nat.add_assoc]

theorem addEvent_eq (step1 step2 : UInt32) (m : ℤ) (w : DataFileWriter) (hit : RawHit) :
    w.addEvent step1 step2 m hit = w.added [branches step1 step2 m hit] := by
  have hnil : ∀ c, kept w.eventFractionToWrite c [] = [] := fun _ => rfl
  rw [added, kept_cons, hnil, List.append_nil, addEvent]
  by_cases h : ((w.eventCounter % 1024 : ℕ) : ℤ) < w.eventFractionToWrite
  · rw [if_pos h]
    exact if_neg (not_le.mpr h)
  · rw [if_neg h, List.append_nil]
    exact if_pos (not_lt.mp h)

theorem foldl_addEvent (step1 step2 : UInt32) (m : ℤ) (w : DataFileWriter) (hits : List RawHit) :
    hits.foldl (addEvent step1 step2 m) w = w.added (hits.map (branches step1 step2 m)) := by
  induction hits generalizing w with
  | nil => exact w.added_nil.symm
  | cons hit hits ih => rw [List.foldl_cons, ih, addEvent_eq, added_added, List.map_cons, List.singleton_append]

/-- Buffers one after another. -/
theorem foldl_added {A : Type*} (f : A → List Stg1Record) (w : DataFileWriter) (bs : List A) :
    bs.foldl (fun w b => w.added (f b)) w = w.added (bs.flatMap f) := by
  induction bs generalizing w with
  | nil => exact w.added_nil.symm
  | cons b bs ih => rw [List.foldl_cons, ih, added_added, List.flatMap_cons]

end DataFileWriter

/-- The record of an event. -/
def record (step1 step2 : UInt32) (e : ℤ × UInt64) : Stg1Record where
  step1 := step1
  step2 := step2
  frameID := .ofInt e.1
  channelID := getChannelID e.2
  tacID := getTacID e.2
  tCoarse := getTCoarse e.2
  eCoarse := getECoarse e.2
  tFine := getTFine e.2
  eFine := getEFine e.2

theorem toInt64_ofInt (x : ℤ) : (UInt64.ofInt x).toInt64 = Int64.ofInt x := by
  rw [UInt64.ofInt, UInt64.toInt64_ofNat']
  apply Int64.toInt.inj
  rw [Int64.toInt_ofNat', Int64.toInt_ofInt, Int.toNat_of_nonneg (Int.emod_nonneg _ (by decide))]
  exact Int.emod_bmod x (2 ^ 64)

/-- What is written of a buffer depends on the absolute numbers of its events only. -/
theorem branches_decode (isQDC : UInt32 → Bool) (step1 step2 : UInt32) {b : EventBuffer UndecodedHit}
    (h : 1024 ∣ b.tMin) :
    (handleEvents isQDC b).events.map (DataFileWriter.branches step1 step2 (b.tMin.tdiv 1024)) =
      (absolute b).map fun e => { record step1 step2 (0, e.2) with frameID := e.1.toInt64 } := by
  rw [handleEvents, absolute, List.map_map, List.map_map, Int.tdiv_eq_ediv_of_dvd h]
  rfl

section

variable {n maxQueueSize : ℕ} {isQDC : UInt32 → Bool} {text : UInt32 → UInt32} {dataFile : List UInt64}

/-- A step's pool that is done has added the records of the step. -/
theorem convertStep_done {step1 step2 : UInt32} {r : Progress} {w : DataFileWriter} {bs : Blocks}
    {s : Pool n DataFileWriter} (hn : 0 < n) (hal : ∀ b ∈ r.packing.all, 1024 ∣ b.tMin)
    (habs : r.packing.all.flatMap absolute = (eventsOf bs).map fun q => (UInt64.ofInt q.1, q.2))
    (h : (convertStep n maxQueueSize isQDC step1 step2 r w).Reachable s) (hdone : s.main = .done) :
    s.sink = w.added ((eventsOf bs).map (record step1 step2)) := by
  have hwrite : (fun (w : DataFileWriter) b => w.addEvents step1 step2 (handleEvents isQDC b)) =
      fun w b => w.added ((handleEvents isQDC b).events.map
        (DataFileWriter.branches step1 step2 (b.tMin.tdiv 1024))) := by
    funext w b
    exact w.foldl_addEvent step1 step2 _ _
  have hflat : r.packing.all.flatMap (fun b => (handleEvents isQDC b).events.map
        (DataFileWriter.branches step1 step2 (b.tMin.tdiv 1024))) =
      (r.packing.all.flatMap absolute).map
        fun e => { record step1 step2 (0, e.2) with frameID := e.1.toInt64 } := by
    rw [List.map_flatMap]
    exact List.flatMap_congr fun b hb => branches_decode isQDC step1 step2 (hal b hb)
  rw [Pool.sink_of_done (order_inv h) (place_inv hn h) hdone, hwrite, DataFileWriter.foldl_added,
    hflat, habs, List.map_map]
  congr 1
  refine List.map_congr_left fun q _ => ?_
  simp only [Function.comp_apply, toInt64_ofInt]
  rfl

/-- The records of a step, with the step's values as they come back from the index. -/
def recordsOf (text : UInt32 → UInt32) (line : IndexLine) (bs : Blocks) : List Stg1Record :=
  (eventsOf bs).map (record (text line.step1) (text line.step2))

/-- The records between the ends of an entry. -/
def StepEntry.part (tree : List Stg1Record) (e : StepEntry) : List Stg1Record :=
  (tree.take e.stepEnd).drop e.stepBegin

/-- What some steps leave in the output file: their records, and for each of them an entry with the
step's values and the two ends of its records. -/
def Leaves (text : UInt32 → UInt32) (w w' : DataFileWriter) (lines : List IndexLine)
    (parts : List (List Stg1Record)) : Prop :=
  w'.hData = w.hData ++ (keptSteps w.eventFractionToWrite w.eventCounter parts).flatten ∧
    ∃ entries, w'.hIndex = w.hIndex ++ entries ∧
      entries.map (StepEntry.part w'.hData) = keptSteps w.eventFractionToWrite w.eventCounter parts ∧
      entries.map (fun e => (e.step1, e.step2)) = lines.map fun l => (text l.step1, text l.step2)

theorem Leaves.cons {w w' : DataFileWriter} {line : IndexLine} {lines : List IndexLine}
    {recs : List Stg1Record} {parts : List (List Stg1Record)} (hw : w.stepBegin = w.hData.length)
    (h : Leaves text ((w.added recs).closeStep (text line.step1) (text line.step2)) w' lines parts) :
    Leaves text w w' (line :: lines) (recs :: parts) := by
  obtain ⟨hdata, entries, hindex, hparts, hvalues⟩ := h
  have htree : w'.hData = (w.hData ++ kept w.eventFractionToWrite w.eventCounter recs) ++
      (keptSteps w.eventFractionToWrite (w.eventCounter + recs.length) parts).flatten := hdata
  refine ⟨by rw [htree, List.append_assoc]; rfl,
    ⟨text line.step1, text line.step2, w.stepBegin,
      (w.hData ++ kept w.eventFractionToWrite w.eventCounter recs).length⟩ :: entries, ?_, ?_, ?_⟩
  · rw [hindex]
    exact List.append_assoc ..
  · rw [List.map_cons, hparts, keptSteps, StepEntry.part, htree, List.take_left' rfl, hw,
      List.drop_left' rfl]
    rfl
  · rw [List.map_cons, List.map_cons, hvalues]

theorem Conversion.leaves {w w' : DataFileWriter} {lines : List IndexLine} {steps : List Blocks}
    (hn : 0 < n) (hreads : List.Forall₂ (ReadsBack dataFile) lines steps)
    (hw : w.stepBegin = w.hData.length)
    (h : Conversion n maxQueueSize isQDC text dataFile w lines w') :
    Leaves text w w' lines (List.zipWith (recordsOf text) lines steps) := by
  induction h generalizing steps with
  | nil =>
    cases hreads
    exact ⟨(List.append_nil _).symm, [], (List.append_nil _).symm, rfl, rfl⟩
  | @step w w' line lines r s hr _ hs hdone _ ih =>
    cases hreads with
    | @cons _ bs _ steps hread hreads =>
      obtain ⟨r', hr', habs, -, hall, -⟩ := hread
      obtain rfl := Option.some.inj (hr'.symm.trans hr)
      have hsink := convertStep_done hn (fun b hb => (hall b hb).2) habs hs hdone
      have hrest := ih hreads rfl
      rw [hsink] at hrest
      exact hrest.cons hw

/-- No step is too much for the pool, and so none is missing from a conversion. -/
theorem Conversion.exists (hn : 0 < n) (hroom : 0 < maxQueueSize) {lines : List IndexLine}
    {steps : List Blocks} (hreads : List.Forall₂ (ReadsBack dataFile) lines steps)
    (hlen : ∀ bs ∈ steps, (eventsOf bs).length ≤ 2 ^ 32) (w : DataFileWriter) :
    ∃ w', Conversion n maxQueueSize isQDC text dataFile w lines w' := by
  induction hreads generalizing w with
  | nil => exact ⟨w, .nil⟩
  | @cons line bs lines steps hread _ ih =>
    obtain ⟨r, hr, -, hnum, -, hcount, -⟩ := hread
    have hsmall : r.packing.all.length ≤ 2 ^ 32 := hcount.trans (hlen bs List.mem_cons_self)
    have hnum' : r.packing.all.map EventBuffer.seqN = List.range r.packing.all.length := by
      rw [hnum]
      refine (List.map_congr_left fun k hk => ?_).trans (List.map_id _)
      exact Nat.mod_eq_of_lt ((List.mem_range.mp hk).trans_le hsmall)
    obtain ⟨s, hs, hdone⟩ := exists_done (s := ⟨.queue, 0, [], fun _ => .ready, false, 0, w⟩) hn hroom
      (.init (M := convertStep n maxQueueSize isQDC (text line.step1) (text line.step2) r w) rfl)
    obtain ⟨w', hw'⟩ := ih (fun c hc => hlen c (List.mem_cons_of_mem _ hc))
      (s.sink.closeStep (text line.step1) (text line.step2))
    exact ⟨w', .step hr hnum' hs hdone hw'⟩

end

theorem readsBack_raw (head : List UInt64) {steps : List Blocks} (hs : ∀ bs ∈ steps, IsStep bs) :
    List.Forall₂ (ReadsBack (steps.foldl Writer.blocks (.opened head)).dataFile)
      (steps.foldl Writer.blocks (.opened head)).indexFile steps := by
  obtain ⟨lines, more, hlines, hmore, hall⟩ := readsBack_steps hs (.opened head)
  have h := hall []
  rw [List.append_nil, ← hmore] at h
  rwa [hlines]

/-- A raw data file is converted to the end, and however the workers of its pools took turns the tree
has what a conversion of one event after another would have put there: of the events of the frames
written, in order, those that the fraction takes; each entry of the index has the step's values, and
the step's records stand between its ends. -/
theorem converts (n maxQueueSize : ℕ) (isQDC : UInt32 → Bool) (text : UInt32 → UInt32) (head : List UInt64)
    (fraction : ℤ) {steps : List Blocks} (hn : 0 < n) (hroom : 0 < maxQueueSize)
    (hs : ∀ bs ∈ steps, IsStep bs) (hlen : ∀ bs ∈ steps, (eventsOf bs).length ≤ 2 ^ 32) :
    let raw := steps.foldl Writer.blocks (.opened head)
    let parts := List.zipWith (recordsOf text) raw.indexFile steps
    (∃ out, Conversion n maxQueueSize isQDC text raw.dataFile (.create fraction) raw.indexFile out) ∧
      ∀ out, Conversion n maxQueueSize isQDC text raw.dataFile (.create fraction) raw.indexFile out →
        out.hData = kept (toInt fraction) 0 parts.flatten ∧
        out.hIndex.map (StepEntry.part out.hData) = keptSteps (toInt fraction) 0 parts ∧
        out.hIndex.map (fun e => (e.step1, e.step2)) =
          raw.indexFile.map fun l => (text l.step1, text l.step2) := by
  intro raw parts
  have hreads : List.Forall₂ (ReadsBack raw.dataFile) raw.indexFile steps := readsBack_raw head hs
  refine ⟨Conversion.exists hn hroom hreads hlen _, fun out h => ?_⟩
  obtain ⟨hdata, entries, hindex, hparts, hvalues⟩ := h.leaves hn hreads rfl
  rw [show out.hIndex = entries from hindex]
  refine ⟨?_, hparts, hvalues⟩
  rw [← flatten_keptSteps]
  exact hdata

theorem length_eventsOf_sample : ∀ bs ∈ [sampleBlocks], (eventsOf bs).length ≤ 2 ^ 32 := by
  intro bs hbs
  rw [List.mem_singleton.mp hbs]
  decide

theorem converts_sample :
    let raw := [sampleBlocks].foldl Writer.blocks (.opened [0, 0, 0, 0, 0, 0, 0, 0])
    ∃ out, Conversion 2 1 (fun _ => false) id raw.dataFile (.create 1024) raw.indexFile out ∧
      out.hData = [record 0 0 (5, 77), record 0 0 (10, 78)] ∧
      out.hIndex.map (StepEntry.part out.hData) = [[record 0 0 (5, 77), record 0 0 (10, 78)]] := by
  intro raw
  obtain ⟨⟨out, hout⟩, hall⟩ := converts 2 1 (fun _ => false) id [0, 0, 0, 0, 0, 0, 0, 0] 1024 (by decide)
    (by decide) (fun bs hbs => List.mem_singleton.mp hbs ▸ isStep_sampleBlocks) length_eventsOf_sample
  obtain ⟨hdata, hparts, -⟩ := hall out hout
  exact ⟨out, hout, hdata.trans (by decide), hparts.trans (by decide)⟩

/-- The word of the event a record was made of. -/
def eventWord (r : Stg1Record) : UInt64 :=
  toWord r.channelID r.tacID r.tCoarse r.eCoarse r.tFine r.eFine

theorem eventWord_record (step1 step2 : UInt32) (e : ℤ × UInt64) : eventWord (record step1 step2 e) = e.2 :=
  toWord_fields e.2

theorem eventWord_recordsOf (text : UInt32 → UInt32) {lines : List IndexLine} {steps : List Blocks}
    (h : lines.length = steps.length) :
    (List.zipWith (recordsOf text) lines steps).flatten.map (fun r => (r.frameID, eventWord r)) =
      (steps.flatMap eventsOf).map fun q => (Int64.ofInt q.1, q.2) := by
  induction steps generalizing lines with
  | nil =>
    rw [List.length_eq_zero_iff.mp h]
    rfl
  | cons bs steps ih =>
    obtain ⟨line, lines, rfl⟩ := List.exists_cons_of_length_eq_add_one h
    rw [List.zipWith_cons_cons, List.flatten_cons, List.map_append, ih (Nat.succ.inj h), List.flatMap_cons,
      List.map_append, recordsOf, List.map_map]
    refine congrArg (· ++ _) (List.map_congr_left fun q _ => ?_)
    exact Prod.ext rfl (eventWord_record _ _ q)

/-- At the full fraction nothing of what was acquired is lost on the way: from the tree one gets back
the number of the frame and the whole word of every event of every frame written, in order. -/
theorem words_recovered (n maxQueueSize : ℕ) (isQDC : UInt32 → Bool) (text : UInt32 → UInt32)
    (head : List UInt64) {fraction : ℤ} {steps : List Blocks} {out : DataFileWriter} (hn : 0 < n)
    (hs : ∀ bs ∈ steps, IsStep bs) (hfull : 1024 ≤ toInt fraction)
    (h : Conversion n maxQueueSize isQDC text (steps.foldl Writer.blocks (.opened head)).dataFile
      (.create fraction) (steps.foldl Writer.blocks (.opened head)).indexFile out) :
    out.hData.map (fun r => (r.frameID, eventWord r)) =
      (steps.flatMap eventsOf).map fun q => (Int64.ofInt q.1, q.2) := by
  have hreads := readsBack_raw head hs
  obtain ⟨hdata, -⟩ := h.leaves hn hreads rfl
  have hall : out.hData = (List.zipWith (recordsOf text)
      (steps.foldl Writer.blocks (.opened head)).indexFile steps).flatten := by
    have hkept := kept_eq_self hfull 0 (List.zipWith (recordsOf text)
      (steps.foldl Writer.blocks (.opened head)).indexFile steps).flatten
    rw [← flatten_keptSteps] at hkept
    exact hdata.trans hkept
  rw [hall, eventWord_recordsOf text hreads.length_eq]

theorem words_recovered_sample :
    let raw := [sampleBlocks].foldl Writer.blocks (.opened [0, 0, 0, 0, 0, 0, 0, 0])
    ∃ out, Conversion 2 1 (fun _ => false) id raw.dataFile (.create 1024) raw.indexFile out ∧
      out.hData.map (fun r => (r.frameID, eventWord r)) = [(5, 77), (10, 78)] := by
  intro raw
  have hs : ∀ bs ∈ [sampleBlocks], IsStep bs := fun bs hbs => List.mem_singleton.mp hbs ▸ isStep_sampleBlocks
  obtain ⟨out, hout⟩ : ∃ out, Conversion 2 1 (fun _ => false) id raw.dataFile (.create 1024) raw.indexFile out :=
    Conversion.exists (by decide) (by decide) (readsBack_raw _ hs) length_eventsOf_sample _
  refine ⟨out, hout, (words_recovered 2 1 (fun _ => false) id [0, 0, 0, 0, 0, 0, 0, 0] (by decide) hs
    (by decide) hout).trans (by decide)⟩

end GramsTof.Pipeline
