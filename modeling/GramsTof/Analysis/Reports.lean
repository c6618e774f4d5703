import GramsTof.Analysis.Converter

/-! What a call reports. It depends on the objects left by earlier calls through the
table alone. It tells of a written file that is not there whenever the input cannot be
opened or has no tree, or the output cannot be created. -/

namespace GramsTof.Analysis.Converter

open Analysis.Convert Lib

variable {ρ : Type*} [Field ρ] [LinearOrder ρ] [FloorRing ρ] {lib : CLibrary ρ}
  {u : Uninitialised ρ} {maps : ChannelMap} {s s' : State ρ} {k : Call}

/-- The stage-1 tree of the input. -/
def Call.tree (k : Call) : Option (List Stg1Record) :=
  match k.world.input k.inputFile with
  | .missing => none
  | .present trees => findTree trees

/-- The entries that a call makes of a tree with first entry `r`. -/
def Call.entries (lib : CLibrary ρ) (u : Uninitialised ρ) (maps : ChannelMap)
    (calib : Option (Table ρ)) (k : Call) (r : Stg1Record) (rs : List Stg1Record) :
    List (Stg2Record ρ) :=
  (r :: rs).map (setEntry lib.overflow maps (calib.map fun t => t.calibration lib)
    (k.world.timestampCPU lib (filename k.inputFile)) (clock r.getFrameID r.tCoarse) u.entry)

/-- What comes of a tree once the table is settled. -/
def Call.report (lib : CLibrary ρ) (u : Uninitialised ρ) (maps : ChannelMap)
    (calib : Option (Table ρ)) (k : Call) : Report ρ :=
  match k.tree with
  | none => ⟨.returned true, none⟩
  | some [] => ⟨.nullPointer, none⟩
  | some (r :: rs) => ⟨.returned true,
      if k.world.canCreate k.output then some (k.output, k.entries lib u maps calib r rs) else none⟩

/-! ### Names -/

theorem endsWith_of_filename {path suffix : String} (h : endsWith (filename path) suffix) :
    endsWith path suffix := by
  refine h.trans ?_
  rw [filename, String.toList_ofList, ← List.reverse_prefix, List.reverse_reverse]
  exact List.takeWhile_prefix _

theorem output_ne_empty : k.output ≠ "" := by
  intro h
  have hlen := congrArg String.length h
  rw [Call.output, String.length_append, String.length_append, String.length_append] at hlen
  have hslash : "/".length = 1 := by decide
  have hempty : "".length = 0 := by decide
  omega

/-! ### The objects of a call -/

theorem setInputPath_missing (o : Stg1Object) (htree : k.tree = none) :
    (o.setInputPath k.world k.inputFile).1 = .err := by
  rw [Call.tree] at htree
  rw [Stg1Object.setInputPath]
  cases hin : k.world.input k.inputFile with
  | missing => rfl
  | present trees =>
    simp only [hin] at htree
    simp only [htree, Option.isSome_none, Bool.false_eq_true, if_false]
    split_ifs <;> rfl

theorem setInputPath_present (o : Stg1Object) (hname : endsWith k.inputFile ".stg1.root")
    {records : List Stg1Record} (htree : k.tree = some records) :
    o.setInputPath k.world k.inputFile = (.good, ⟨filename k.inputFile, some records⟩) := by
  rw [Call.tree] at htree
  rw [Stg1Object.setInputPath]
  cases hin : k.world.input k.inputFile with
  | missing =>
    simp only [hin] at htree
    cases htree
  | present trees =>
    simp only [hin] at htree
    simp only [hname, htree, if_true, Option.isSome_some]

/-- The stage-2 object that a call finds has no tree. -/
def State.Ready (s : State ρ) : Prop := ∀ o, s.stg2 = some o → o.tree = none

omit [Field ρ] [LinearOrder ρ] [FloorRing ρ] in
theorem ready_new : (State.new u).Ready := by
  rintro o ⟨⟩
  rfl

omit [Field ρ] [LinearOrder ρ] [FloorRing ρ] in
theorem State.Ready.tree_getD (hs : s.Ready) : (s.stg2.getD ⟨u.entry, none⟩).tree = none := by
  cases ho : s.stg2 with
  | none => rfl
  | some o => exact hs o ho

/-- The spec of `convert`: the report, the table kept, and the state left ready. -/
theorem convert_spec (hs : s.Ready) (hname : endsWith (filename k.inputFile) ".stg1.root") :
    (s.convert lib u maps k k.output).2 = k.report lib u maps s.calib ∧
      (s.convert lib u maps k k.output).1.calib = s.calib ∧
      ((s.convert lib u maps k k.output).2.result ≠ .nullPointer →
        (s.convert lib u maps k k.output).1.Ready) := by
  have htree2 : (s.stg2.getD ⟨u.entry, none⟩).tree = none := hs.tree_getD
  rw [Call.report]
  cases htree : k.tree with
  | none =>
    have hcode := setInputPath_missing (s.stg1.getD ⟨"", none⟩) htree
    simp only [State.convert, hcode]
    refine ⟨trivial, trivial, fun _ o ho => ?_⟩
    rw [← Option.some.inj ho]
    exact htree2
  | some records =>
    have hpath := setInputPath_present (s.stg1.getD ⟨"", none⟩)
      (endsWith_of_filename hname) htree
    cases records with
    | nil =>
      simp only [State.convert, hpath, addBranches, htree2]
      exact ⟨trivial, trivial, fun hnull => absurd rfl hnull⟩
    | cons r rs =>
      have hfilled := addBranches_tree lib.overflow maps (s.calib.map fun t => t.calibration lib)
        (k.world.timestampCPU lib (filename k.inputFile)) r rs (s.stg2.getD ⟨u.entry, none⟩) u.entry
      rw [htree2, Option.getD_none, List.nil_append] at hfilled
      simp only [State.convert, hpath, hfilled, if_neg output_ne_empty]
      exact ⟨rfl, trivial, fun _ o ho => absurd ho (Option.some_ne_none o).symm⟩

/-! ### A call -/

/-- All that a call can do: it is refused for its name, breaks off in the calibration, or
converts with the table it settles on. -/
theorem run_cases (lib : CLibrary ρ) (u : Uninitialised ρ) (maps : ChannelMap) (s : State ρ)
    (k : Call) :
    (¬ endsWith (filename k.inputFile) ".stg1.root" ∧
      s.runConvertStg1ToStg2 lib u maps k = (s, ⟨.returned false, none⟩)) ∨
    (endsWith (filename k.inputFile) ".stg1.root" ∧ (s.load lib u k).2 = false ∧
      s.runConvertStg1ToStg2 lib u maps k =
        (⟨s.stg1, s.stg2, (s.load lib u k).1⟩, ⟨.threw, none⟩)) ∨
    (endsWith (filename k.inputFile) ".stg1.root" ∧ (s.load lib u k).2 = true ∧
      s.runConvertStg1ToStg2 lib u maps k =
        State.convert lib u maps ⟨s.stg1, s.stg2, (s.load lib u k).1⟩ k k.output) := by
  by_cases hname : endsWith (filename k.inputFile) ".stg1.root"
  · rw [State.runConvertStg1ToStg2, if_pos hname, State.convertStg1ToStg2]
    cases hload : (s.load lib u k).2 with
    | false => exact .inr (.inl ⟨hname, rfl, rfl⟩)
    | true => exact .inr (.inr ⟨hname, rfl, rfl⟩)
  · rw [State.runConvertStg1ToStg2, if_neg hname]
    exact .inl ⟨hname, rfl⟩

/-- The report of a call, by the table it settles on. -/
theorem run_report (hs : s.Ready) : (s.runConvertStg1ToStg2 lib u maps k).2 =
    if endsWith (filename k.inputFile) ".stg1.root" then
      if (s.load lib u k).2 then k.report lib u maps (s.load lib u k).1 else ⟨.threw, none⟩
    else ⟨.returned false, none⟩ := by
  rcases run_cases lib u maps s k with ⟨hname, hrun⟩ | ⟨hname, hload, hrun⟩ | ⟨hname, hload, hrun⟩
  · rw [hrun, if_neg hname]
  · rw [hrun, if_pos hname, hload]
    rfl
  · rw [hrun, if_pos hname, if_pos hload]
    exact (convert_spec (s := ⟨s.stg1, s.stg2, (s.load lib u k).1⟩) hs hname).1

/-- The table after a call. -/
theorem run_calib (hs : s.Ready) : (s.runConvertStg1ToStg2 lib u maps k).1.calib =
    if endsWith (filename k.inputFile) ".stg1.root" then (s.load lib u k).1 else s.calib := by
  rcases run_cases lib u maps s k with ⟨hname, hrun⟩ | ⟨hname, -, hrun⟩ | ⟨hname, -, hrun⟩
  · rw [hrun, if_neg hname]
  · rw [hrun, if_pos hname]
  · rw [hrun, if_pos hname]
    exact (convert_spec (s := ⟨s.stg1, s.stg2, (s.load lib u k).1⟩) hs hname).2.1

theorem run_ready (hs : s.Ready)
    (hnull : (s.runConvertStg1ToStg2 lib u maps k).2.result ≠ .nullPointer) :
    (s.runConvertStg1ToStg2 lib u maps k).1.Ready := by
  rcases run_cases lib u maps s k with ⟨-, hrun⟩ | ⟨-, -, hrun⟩ | ⟨hname, -, hrun⟩
  · rw [hrun]
    exact hs
  · rw [hrun]
    exact hs
  · rw [hrun] at hnull ⊢
    exact (convert_spec (s := ⟨s.stg1, s.stg2, (s.load lib u k).1⟩) hs hname).2.2 hnull

/-! ### Truth -/

/-- No null pointer is followed, and success is told of exactly when a file is written that has
one entry per entry of the input. -/
def TellsTruth (k : Call) (r : Report ρ) : Prop :=
  r.result ≠ .nullPointer ∧ (r.result = .returned true ↔ ∃ path entries records,
    r.written = some (path, entries) ∧ k.tree = some records ∧ entries.length = records.length)

/-- The first load of the calibration files breaks off at a word that is no number. -/
def State.Throws (lib : CLibrary ρ) (u : Uninitialised ρ) (s : State ρ) (k : Call) : Prop :=
  s.calib = none ∧ (loadCalibration lib u k).2 = false

/-- The input has entries and the output can be created. -/
def Call.Convertible (k : Call) : Prop :=
  (∃ r rs, k.tree = some (r :: rs)) ∧ k.world.canCreate k.output = true

omit [LinearOrder ρ] [FloorRing ρ] in
theorem load_ok_iff : (s.load lib u k).2 = true ↔ ¬ s.Throws lib u k := by
  rw [State.load, State.Throws]
  cases s.calib with
  | none => simp only [true_and, Bool.not_eq_false]
  | some t => simp only [reduceCtorEq, false_and, not_false_eq_true]

omit [Field ρ] [LinearOrder ρ] [FloorRing ρ] in
/-- A call that does not succeed and writes nothing. -/
theorem truth_of_none {result : Result} (hnull : result ≠ .nullPointer)
    (hfail : result ≠ .returned true) : TellsTruth k (⟨result, none⟩ : Report ρ) := by
  refine ⟨hnull, iff_of_false hfail ?_⟩
  rintro ⟨_, _, _, hwritten, -⟩
  cases hwritten

omit [Field ρ] [LinearOrder ρ] [FloorRing ρ] in
theorem not_truth_of_none : ¬ TellsTruth k (⟨.returned true, none⟩ : Report ρ) := by
  intro ht
  obtain ⟨_, _, _, hwritten, -⟩ := ht.2.mp rfl
  cases hwritten

theorem Call.Convertible.tree_ne (h : k.Convertible) : k.tree ≠ none ∧ k.tree ≠ some [] := by
  obtain ⟨⟨r, rs, htree⟩, -⟩ := h
  rw [htree]
  exact ⟨Option.some_ne_none _, fun hnil => List.cons_ne_nil r rs (Option.some.inj hnil)⟩

theorem report_truth_iff {calib : Option (Table ρ)} :
    TellsTruth k (k.report lib u maps calib) ↔ k.Convertible := by
  cases htree : k.tree with
  | none =>
    rw [Call.report, htree]
    exact iff_of_false not_truth_of_none fun hconv => hconv.tree_ne.1 htree
  | some records =>
    cases records with
    | nil =>
      rw [Call.report, htree]
      exact iff_of_false (fun htells => htells.1 rfl) fun hconv => hconv.tree_ne.2 htree
    | cons r rs =>
      have hiff : k.Convertible ↔ k.world.canCreate k.output = true :=
        and_iff_right ⟨r, rs, htree⟩
      rw [Call.report, htree, hiff]
      change TellsTruth k ⟨.returned true, if k.world.canCreate k.output = true then _ else none⟩ ↔ _
      by_cases hcreate : k.world.canCreate k.output = true
      · rw [if_pos hcreate]
        refine iff_of_true ⟨Result.noConfusion, iff_of_true rfl ⟨_, _, _, rfl, htree, ?_⟩⟩ hcreate
        exact List.length_map _
      · rw [if_neg hcreate]
        exact iff_of_false not_truth_of_none hcreate

theorem next_iff : s.next lib u maps k = some s' ↔
    (s.runConvertStg1ToStg2 lib u maps k).2.result ≠ .nullPointer ∧
      (s.runConvertStg1ToStg2 lib u maps k).1 = s' := by
  rw [State.next]
  by_cases hnull : (s.runConvertStg1ToStg2 lib u maps k).2.result = .nullPointer
  · rw [if_pos hnull]
    exact iff_of_false (Option.some_ne_none s').symm fun h => h.1 hnull
  · rw [if_neg hnull, Option.some_inj, and_iff_right hnull]

theorem ready_of_reachable (h : (process lib u maps).Reachable s) : s.Ready := by
  refine h.invariant (fun s hs => ?_) fun s k s' hs _ hstep => ?_
  · have hnew : s = State.new u := hs
    rw [hnew]
    exact ready_new
  · rw [process_step, next_iff] at hstep
    rw [← hstep.2]
    exact run_ready hs hstep.1

/-- A call tells the truth exactly when the name is wrong, the calibration breaks off, or the
input has entries and the output can be created. -/
theorem runConvert_truth_iff (h : (process lib u maps).Reachable s) (k : Call) :
    TellsTruth k (s.runConvertStg1ToStg2 lib u maps k).2 ↔
      ¬ endsWith (filename k.inputFile) ".stg1.root" ∨ s.Throws lib u k ∨ k.Convertible := by
  rw [run_report (ready_of_reachable h)]
  by_cases hname : endsWith (filename k.inputFile) ".stg1.root"
  · rw [if_pos hname, or_iff_right (not_not.mpr hname)]
    by_cases hload : (s.load lib u k).2 = true
    · rw [if_pos hload, or_iff_right (load_ok_iff.mp hload)]
      exact report_truth_iff
    · rw [if_neg hload]
      exact iff_of_true (truth_of_none (by decide) (by decide))
        (.inl (not_not.mp (mt load_ok_iff.mpr hload)))
  · rw [if_neg hname]
    exact iff_of_true (truth_of_none (by decide) (by decide)) (.inl hname)

section Inputs

/-- Memory full of zeros. -/
def zeros : Uninitialised ℚ := ⟨fun _ _ _ => 0, 0, 0, 'x', default⟩

/-- A world with one input and two calibration files. -/
def worldOf (input : InputFile) (tdc qdc : Option (List String)) : World where
  input _ := input
  text path := if path = "/cal/tdc.tsv" then tdc else if path = "/cal/qdc.tsv" then qdc else none
  isDirectory _ := true
  canCreate _ := true
  now := ⟨0, 0⟩
  configDir := "/cal"
  currentPath := "/"
  glib := ""

def callOf (input : InputFile) (tdc qdc : Option (List String)) : Call :=
  ⟨worldOf input tdc qdc, "/data/run.stg1.root", "", "/cal/tdc.tsv", "/cal/qdc.tsv"⟩

theorem runConvert_truth_present : (process digitLibrary zeros noMap).Reachable (State.new zeros) ∧
    TellsTruth (callOf (.present [("stg1", [recordAt 3])]) none none)
      ((State.new zeros).runConvertStg1ToStg2 digitLibrary zeros noMap
        (callOf (.present [("stg1", [recordAt 3])]) none none)).2 :=
  ⟨.init rfl, (runConvert_truth_iff (.init rfl) _).mpr
    (.inr (.inr ⟨⟨recordAt 3, [], by decide +kernel⟩, rfl⟩))⟩

/-- Of a missing input the call says that it has been converted. -/
theorem not_runConvert_truth : ¬ ∀ k : Call,
    TellsTruth k ((State.new zeros).runConvertStg1ToStg2 digitLibrary zeros noMap k).2 := by
  intro hall
  obtain ⟨path, entries, records, -, htree, -⟩ :=
    (hall (callOf .missing none none)).2.mp (by decide +kernel)
  have hnone : (callOf .missing none none).tree = none := rfl
  rw [hnone] at htree
  cases htree

end Inputs

end GramsTof.Analysis.Converter
