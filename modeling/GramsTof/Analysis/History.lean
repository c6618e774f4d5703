import GramsTof.Analysis.Reports

/-! What earlier calls leave to a later one: the calibration of the first call that read
any. A call after it makes the same of its input as a call in a new process as long as
the files it finds are those read then. -/

namespace GramsTof.Analysis.Converter

open Analysis.Convert Lib

variable {ρ : Type*} [Field ρ] [LinearOrder ρ] [FloorRing ρ] {lib : CLibrary ρ}
  {u : Uninitialised ρ} {maps : ChannelMap} {s s' : State ρ} {k k' : Call} {ks : List Call}

/-- The calibration files that a call reads if none have been read before. -/
def Call.reads (k : Call) : Option (Option (List String) × Option (List String)) :=
  if endsWith (filename k.inputFile) ".stg1.root" then k.files else none

/-- A new table once the files have been read into it. -/
def tableOf (lib : CLibrary ρ) (u : Uninitialised ρ)
    (files : Option (List String) × Option (List String)) : Table ρ × Bool :=
  readCalibrationFiles lib u (Table.initializeParams u) files.1 files.2

/-- The files that the first call with any read are those that `k` finds, and reading them did
not break off. -/
def SameFiles (lib : CLibrary ρ) (u : Uninitialised ρ) (ks : List Call) (k : Call) : Prop :=
  ∀ files, ks.findSome? Call.reads = some files → k.files = some files ∧ (tableOf lib u files).2

/-- Calls on the same input and calibration, into a place as good. -/
structure Alike (k k' : Call) : Prop where
  inputFile : k.inputFile = k'.inputFile
  tree : k.tree = k'.tree
  files : k.files = k'.files
  output : k.world.canCreate k.output = k'.world.canCreate k'.output

/-- The name of the input says when it was taken, or the calls are at the same time. -/
def Dated (k k' : Call) : Prop :=
  (getTimestampCPU (filename k.inputFile).toList).isSome ∨ k.world.now = k'.world.now

instance (k k' : Call) : Decidable (Dated k k') := inferInstanceAs (Decidable (_ ∨ _))

/-! ### The table after a run -/

omit [LinearOrder ρ] [FloorRing ρ] in
theorem load_calib : (s.load lib u k).1 = s.calib.or (k.files.map fun f => (tableOf lib u f).1) := by
  rw [State.load]
  cases s.calib with
  | some t => rfl
  | none =>
    rw [loadCalibration]
    cases k.files <;> rfl

theorem calib_call (hs : s.Ready) : (s.runConvertStg1ToStg2 lib u maps k).1.calib =
    s.calib.or (k.reads.map fun f => (tableOf lib u f).1) := by
  rw [run_calib hs, Call.reads]
  split_ifs
  · exact load_calib
  · exact (Option.or_none).symm

theorem calib_run (hs : s.Ready) (hrun : (process lib u maps).run s ks = some s') :
    s'.Ready ∧ s'.calib =
      s.calib.or ((ks.findSome? Call.reads).map fun f => (tableOf lib u f).1) := by
  induction ks generalizing s with
  | nil =>
    rw [← Option.some.inj hrun]
    exact ⟨hs, Option.or_none.symm⟩
  | cons k ks ih =>
    obtain ⟨t, hstep, hrest⟩ := Option.bind_eq_some_iff.mp hrun
    rw [process_step, next_iff] at hstep
    obtain ⟨hnull, rfl⟩ := hstep
    have hnext := ih (run_ready hs hnull) hrest
    refine ⟨hnext.1, hnext.2.trans ?_⟩
    rw [calib_call hs, Option.or_assoc, List.findSome?_cons]
    cases k.reads <;> rfl

/-! ### The last call -/

omit [LinearOrder ρ] [FloorRing ρ] in
/-- A table read from the files that a call finds is as good as none. -/
theorem load_congr {files : Option (List String) × Option (List String)}
    (hcalib : s.calib = some (tableOf lib u files).1) (hfiles : k.files = some files)
    (hok : (tableOf lib u files).2) : s.load lib u k = loadCalibration lib u k := by
  rw [State.load, hcalib, loadCalibration, hfiles]
  exact Prod.ext rfl hok.symm

theorem load_after (hrun : (process lib u maps).run (State.new u) ks = some s)
    (hsame : SameFiles lib u ks k) : s.load lib u k = loadCalibration lib u k := by
  have hcalib : s.calib = (ks.findSome? Call.reads).map fun f => (tableOf lib u f).1 :=
    (calib_run ready_new hrun).2
  cases hfirst : ks.findSome? Call.reads with
  | none =>
    rw [hfirst] at hcalib
    rw [State.load, hcalib]
    rfl
  | some files =>
    rw [hfirst] at hcalib
    exact load_congr hcalib (hsame files hfirst).1 (hsame files hfirst).2

omit [LinearOrder ρ] [FloorRing ρ] in
theorem loadCalibration_congr (h : Alike k k') :
    loadCalibration lib u k = loadCalibration lib u k' := by
  rw [loadCalibration, loadCalibration, h.files]

/-- The entries written, whatever the path. -/
def Report.entries (r : Report ρ) : Option (List (Stg2Record ρ)) := r.written.map Prod.snd

omit [Field ρ] [LinearOrder ρ] [FloorRing ρ] in
theorem timestampCPU_congr (h : Alike k k') (hdated : Dated k k') :
    k.world.timestampCPU lib (filename k.inputFile) =
      k'.world.timestampCPU lib (filename k'.inputFile) := by
  rw [World.timestampCPU, World.timestampCPU, ← h.inputFile]
  rcases hdated with hname | hnow
  · obtain ⟨r, hr⟩ := Option.isSome_iff_exists.mp hname
    rw [hr]
    rfl
  · rw [hnow]

theorem report_congr (h : Alike k k') (hdated : Dated k k') (calib : Option (Table ρ)) :
    (k.report lib u maps calib).entries = (k'.report lib u maps calib).entries := by
  have hentries : ∀ r rs, k.entries lib u maps calib r rs = k'.entries lib u maps calib r rs := by
    intro r rs
    rw [Call.entries, Call.entries, timestampCPU_congr h hdated]
  rw [Call.report, Call.report, h.tree]
  cases k'.tree with
  | none => rfl
  | some records =>
    cases records with
    | nil => rfl
    | cons r rs =>
      simp only [Report.entries, h.output, hentries]
      split_ifs <;> rfl

/-- After any two runs whose first calibration files are those that the last call finds, calls on
the same input write the same entries, where they take the same time from it. -/
theorem conversion_history_independent {ks₁ ks₂ : List Call} {s₁ s₂ : State ρ} {k₁ k₂ : Call}
    (h₁ : (process lib u maps).run (State.new u) ks₁ = some s₁)
    (h₂ : (process lib u maps).run (State.new u) ks₂ = some s₂)
    (hf₁ : SameFiles lib u ks₁ k₁) (hf₂ : SameFiles lib u ks₂ k₂) (halike : Alike k₁ k₂)
    (hdated : Dated k₁ k₂) :
    (s₁.runConvertStg1ToStg2 lib u maps k₁).2.entries =
      (s₂.runConvertStg1ToStg2 lib u maps k₂).2.entries := by
  rw [run_report (calib_run ready_new h₁).1, run_report (calib_run ready_new h₂).1,
    load_after h₁ hf₁, load_after h₂ hf₂, loadCalibration_congr halike, halike.inputFile]
  split_ifs
  · exact report_congr halike hdated _
  · rfl
  · rfl

section Inputs

/-- A TDC file with one line, for channel 0 and tac 0. -/
def tdcFile (t0 : String) : Option (List String) := some ["", "0\t0\t0\t0\t0\tT\t" ++ t0 ++ "\t0\t0\t1"]

/-- A QDC file with one line of zeros. -/
def qdcFile : Option (List String) := some ["", "0\t0\t0\t0\t0\t0\t0\t0\t0\t0\t0\t0\t0\t0\t0"]

/-- A conversion of one record, in the second `now`, with calibration files of offset `t0`. -/
def callWith (t0 : String) (now : ℤ) : Call :=
  ⟨{ worldOf (.present [("stg1", [recordAt 3])]) (tdcFile t0) qdcFile with now := ⟨now, 0⟩ },
    "/data/run_2024-02-29_12-34-56.7Z.stg1.root", "", "/cal/tdc.tsv", "/cal/qdc.tsv"⟩

theorem run_callWith :
    (process digitLibrary zeros noMap).run (State.new zeros) [callWith "1" 0] =
      some ((State.new zeros).runConvertStg1ToStg2 digitLibrary zeros noMap (callWith "1" 0)).1 := by
  rw [Machine.run, process_step, next_iff.mpr ⟨by decide +kernel, rfl⟩]
  rfl

theorem conversion_history_independent_again :
    (process digitLibrary zeros noMap).run (State.new zeros) [callWith "1" 0] =
        some ((State.new zeros).runConvertStg1ToStg2 digitLibrary zeros noMap (callWith "1" 0)).1 ∧
      (((State.new zeros).runConvertStg1ToStg2 digitLibrary zeros noMap
          (callWith "1" 0)).1.runConvertStg1ToStg2 digitLibrary zeros noMap (callWith "1" 5)).2.entries =
        ((State.new zeros).runConvertStg1ToStg2 digitLibrary zeros noMap
          (callWith "1" 9)).2.entries := by
  have hfiles : [callWith "1" 0].findSome? Call.reads = some (tdcFile "1", qdcFile) := by
    decide +kernel
  have hnone : (process digitLibrary zeros noMap).run (State.new zeros) [] =
    some (State.new zeros) := rfl
  refine ⟨run_callWith, conversion_history_independent run_callWith hnone (fun files h => ?_)
    (fun files h => absurd h (Option.some_ne_none files).symm) ⟨rfl, rfl, rfl, rfl⟩
    (.inl (by decide +kernel))⟩
  rw [hfiles] at h
  cases h
  exact ⟨by decide +kernel, by decide +kernel⟩

/-- New calibration files are not read: the record keeps the old offset. -/
theorem not_conversion_history_independent : ¬ ∀ (ks₁ ks₂ : List Call) (s₁ s₂ : State ℚ)
    (k₁ k₂ : Call), (process digitLibrary zeros noMap).run (State.new zeros) ks₁ = some s₁ →
      (process digitLibrary zeros noMap).run (State.new zeros) ks₂ = some s₂ → Alike k₁ k₂ →
        (s₁.runConvertStg1ToStg2 digitLibrary zeros noMap k₁).2.entries =
          (s₂.runConvertStg1ToStg2 digitLibrary zeros noMap k₂).2.entries := by
  intro hall
  have hsame := hall [callWith "1" 0] [] _ _ (callWith "2" 5) (callWith "2" 5) run_callWith rfl
    ⟨rfl, rfl, rfl, rfl⟩
  have hdiff : ((((State.new zeros).runConvertStg1ToStg2 digitLibrary zeros noMap
        (callWith "1" 0)).1.runConvertStg1ToStg2 digitLibrary zeros noMap
          (callWith "2" 5)).2.entries.getD []).map (·.tdcCal) ≠
      (((State.new zeros).runConvertStg1ToStg2 digitLibrary zeros noMap
        (callWith "2" 5)).2.entries.getD []).map (·.tdcCal) := by
    decide +kernel
  rw [hsame] at hdiff
  exact hdiff rfl

end Inputs

end GramsTof.Analysis.Converter
