import GramsTof.Analysis.Calibration
import Mathlib.Data.Rat.Floor

/-! The conversion of a stage-1 tree. Every field of the stage-2 object is set anew for
each entry; the tac number passes through eight bits and the calibrated values through
sixteen. -/

namespace GramsTof.Analysis.Convert

variable {ρ : Type*} [Field ρ] [LinearOrder ρ] [IsStrictOrderedRing ρ] [FloorRing ρ]

/-- `TOF_GOOD` and `TOF_ERR`. -/
inductive Code where
  | good
  | err
  deriving DecidableEq, Repr

/-- Connectors and paddle of a channel. -/
structure ChannelMap where
  getConnIdOnFebD (channel : UInt32) : UInt8
  getConnIdOnFebS (channel : UInt32) : UInt8
  getPaddleIdx (febD febS : UInt8) : UInt16

/-! ### Conversions of numbers -/

/-- A number without its fraction. -/
def truncate (x : ρ) : ℤ := if 0 ≤ x then ⌊x⌋ else ⌈x⌉

/-- A number passed as `uint16_t`; `overflow` is what the conversion gives outside its range. -/
def toUInt16 (overflow : ρ → UInt16) (x : ρ) : UInt16 :=
  if 0 ≤ truncate x ∧ truncate x < 2 ^ 16 then UInt16.ofNat (truncate x).toNat else overflow x

/-- A whole number that sixteen bits hold. -/
def Holds (x : ρ) : Prop := ∃ n : ℕ, n < 2 ^ 16 ∧ x = n

theorem truncate_natCast (n : ℕ) : truncate (n : ρ) = n := by
  rw [truncate, if_pos (Nat.cast_nonneg n), Int.floor_natCast]

/-- What a setter of `uint16_t` keeps. -/
theorem toUInt16_eq_iff (overflow : ρ → UInt16) (x : ρ) :
    ((toUInt16 overflow x).toNat : ρ) = x ↔ Holds x := by
  constructor
  · intro heq
    exact ⟨(toUInt16 overflow x).toNat, (toUInt16 overflow x).toNat_lt, heq.symm⟩
  · rintro ⟨n, hn, rfl⟩
    have hrange : 0 ≤ truncate (n : ρ) ∧ truncate (n : ρ) < 2 ^ 16 := by
      rw [truncate_natCast]
      exact ⟨Int.natCast_nonneg n, by exact_mod_cast hn⟩
    rw [toUInt16, if_pos hrange, truncate_natCast, Int.toNat_natCast, UInt16.toNat_ofNat',
      Nat.mod_eq_of_lt hn]

/-! ### The loop -/

/-- The time of an entry: the time of the file, the clocks since the first entry added at 5 ns
each. -/
def timeStamp (tsCpu0 : TimeStamp) (diffT : ℤ) : TimeStamp :=
  let timeSec := (diffT * 5).tdiv 1000000000
  let timeNsec := diffT * 5 - timeSec * 1000000000
  let cpuSec := tsCpu0.sec + timeSec
  let cpuNsec := tsCpu0.nanoSec + timeNsec
  if 1000000000 ≤ cpuNsec then ⟨cpuSec + cpuNsec.tdiv 1000000000, cpuNsec.tmod 1000000000⟩
  else ⟨cpuSec, cpuNsec⟩

section Loop

variable (overflow : ρ → UInt16) (maps : ChannelMap) (calib : Option (Calibration ρ))

/-- `tdc_cal`, zero without calibration. -/
def tdcOf (r : Stg1Record) : ρ :=
  match calib with
  | none => 0
  | some c =>
    c.getCalibratedTime .branchT r.channelID r.getTacID r.getFrameID.toInt64 r.tCoarse r.tFine

/-- `qdc_cal`, zero without calibration. -/
def qdcOf (r : Stg1Record) : ρ :=
  match calib with
  | none => 0
  | some c =>
    c.getCalibratedQDC r.channelID r.getTacID r.getFrameID.toInt64 r.eCoarse r.eFine r.tCoarse
      (tdcOf calib r)

/-- The stage-2 object once an entry has been set in it. -/
def setEntry (tsCpu0 : TimeStamp) (initialT : ℤ) (obj : Stg2Record ρ) (r : Stg1Record) :
    Stg2Record ρ :=
  { obj with
    step1 := r.step1
    step2 := r.step2
    frameID := r.getFrameID.toInt64
    channelID := r.channelID
    connIDFebD := maps.getConnIdOnFebD r.channelID
    connIDFebS := maps.getConnIdOnFebS r.channelID
    paddleIdx :=
      maps.getPaddleIdx (maps.getConnIdOnFebD r.channelID) (maps.getConnIdOnFebS r.channelID)
    tacID := r.getTacID.toUInt16
    tCoarse := r.tCoarse
    eCoarse := r.eCoarse
    tFine := r.tFine
    eFine := r.eFine
    tdcCal := ((toUInt16 overflow (tdcOf calib r)).toNat : ρ)
    qdcCal := ((toUInt16 overflow (qdcOf calib r)).toNat : ρ)
    tsCpu := timeStamp tsCpu0 (clock r.getFrameID r.tCoarse - initialT) }

/-- Set each entry in the object and fill the tree with it. -/
def fillAll (tsCpu0 : TimeStamp) (initialT : ℤ) :
    Stg2Record ρ → List (Stg2Record ρ) → List Stg1Record → Stg2Record ρ × List (Stg2Record ρ)
  | obj, tree, [] => (obj, tree)
  | obj, tree, r :: rs =>
    let obj := setEntry overflow maps calib tsCpu0 initialT obj r
    fillAll tsCpu0 initialT obj (tree ++ [obj]) rs

/-- The object of the stage-2 data: the current entry and the tree, if there is one. -/
structure Stg2Object (ρ : Type*) where
  entry : Stg2Record ρ
  tree : Option (List (Stg2Record ρ))

/-- `tsCpu0` is the time in the name of the input. -/
def addBranches (tsCpu0 : TimeStamp) (input : Option (List Stg1Record)) (stg2 : Stg2Object ρ) :
    Code × Stg2Object ρ :=
  match input with
  | none => (.err, stg2)
  | some [] => (.err, stg2)
  | some (r :: rs) =>
    let filled := fillAll overflow maps calib tsCpu0 (clock r.getFrameID r.tCoarse) stg2.entry
      (stg2.tree.getD []) (r :: rs)
    (.good, ⟨filled.1, some filled.2⟩)

end Loop

/-! ### What the output says of the input -/

/-- The output has the fields of the input and the calibrated values as returned. -/
structure Preserves (c : Calibration ρ) (r : Stg1Record) (s : Stg2Record ρ) : Prop where
  step1 : s.step1 = r.step1
  step2 : s.step2 = r.step2
  frameID : s.frameID = r.frameID
  channelID : s.channelID = r.channelID
  tacID : s.tacID = r.tacID
  tCoarse : s.tCoarse = r.tCoarse
  eCoarse : s.eCoarse = r.eCoarse
  tFine : s.tFine = r.tFine
  eFine : s.eFine = r.eFine
  tdcCal : s.tdcCal = tdcOf (some c) r
  qdcCal : s.qdcCal = qdcOf (some c) r

/-- After `before`, one output per input, in order, each of them preserved. -/
def Lossless (c : Calibration ρ) (records : List Stg1Record) (before : List (Stg2Record ρ))
    (out : Code × Stg2Object ρ) : Prop :=
  out.1 = .good ∧ ∃ written, out.2.tree = some (before ++ written) ∧
    List.Forall₂ (Preserves c) records written

section Lossless

variable {overflow : ρ → UInt16} {maps : ChannelMap} {c : Calibration ρ} {tsCpu0 : TimeStamp}
  {initialT : ℤ} {obj : Stg2Record ρ} {tree : List (Stg2Record ρ)} {r : Stg1Record}
  {rs : List Stg1Record}

omit [IsStrictOrderedRing ρ] in
/-- The entry depends on nothing that the object held. -/
theorem fillAll_tree (calib : Option (Calibration ρ)) :
    (fillAll overflow maps calib tsCpu0 initialT obj tree rs).2 =
      tree ++ rs.map (setEntry overflow maps calib tsCpu0 initialT obj) := by
  induction rs generalizing obj tree with
  | nil => exact (List.append_nil tree).symm
  | cons r rs ih =>
    rw [fillAll, ih, List.append_assoc]
    rfl

omit [IsStrictOrderedRing ρ] in
/-- The tree once entries have been filled; `obj` may be any. -/
theorem addBranches_tree (overflow : ρ → UInt16) (maps : ChannelMap)
    (calib : Option (Calibration ρ)) (tsCpu0 : TimeStamp) (r : Stg1Record) (rs : List Stg1Record)
    (stg2 : Stg2Object ρ) (obj : Stg2Record ρ) :
    (addBranches overflow maps calib tsCpu0 (some (r :: rs)) stg2).2.tree =
      some (stg2.tree.getD [] ++ (r :: rs).map
        (setEntry overflow maps calib tsCpu0 (clock r.getFrameID r.tCoarse) obj)) :=
  congrArg some (fillAll_tree calib)

theorem tacID_eq_iff : r.getTacID.toUInt16 = r.tacID ↔ r.tacID.toNat < 2 ^ 8 :=
  toUInt16_toUInt8_eq_iff r.tacID

theorem preserves_iff :
    Preserves c r (setEntry overflow maps (some c) tsCpu0 initialT obj r) ↔
      r.tacID.toNat < 2 ^ 8 ∧ Holds (tdcOf (some c) r) ∧ Holds (qdcOf (some c) r) := by
  rw [← tacID_eq_iff, ← toUInt16_eq_iff overflow, ← toUInt16_eq_iff overflow]
  constructor
  · intro hp
    exact ⟨hp.tacID, hp.tdcCal, hp.qdcCal⟩
  · rintro ⟨htac, htdc, hqdc⟩
    exact ⟨rfl, rfl, rfl, rfl, htac, rfl, rfl, rfl, rfl, htdc, hqdc⟩

/-- With calibration, the conversion is lossless exactly for entries whose tac number fits into
eight bits and whose calibrated values are whole numbers of sixteen. -/
theorem addBranches_lossless_iff (overflow : ρ → UInt16) (maps : ChannelMap) (c : Calibration ρ)
    (tsCpu0 : TimeStamp) (stg2 : Stg2Object ρ) {records : List Stg1Record} (hne : records ≠ []) :
    Lossless c records (stg2.tree.getD [])
        (addBranches overflow maps (some c) tsCpu0 (some records) stg2) ↔
      ∀ r ∈ records,
        r.tacID.toNat < 2 ^ 8 ∧ Holds (tdcOf (some c) r) ∧ Holds (qdcOf (some c) r) := by
  obtain ⟨r, rs, rfl⟩ := List.exists_cons_of_ne_nil hne
  rw [Lossless, addBranches_tree overflow maps (some c) tsCpu0 r rs stg2 stg2.entry]
  simp only [Option.some_inj, List.append_cancel_left_eq, exists_eq_left',
    List.forall₂_map_right_iff, List.forall₂_same, preserves_iff]
  exact and_iff_right rfl

end Lossless

section Inputs

/-- A table whose times are the coarse times less `t0`, and whose charges are zero. -/
def shiftTable (t0 : ℚ) : Table ℚ where
  tdc _ _ _ _ := ⟨t0, 0, 0, 1⟩
  qdc _ _ _ := ⟨0, 0, 0, 0, 0, 0, 0, 0, 0, 0⟩

def noMap : ChannelMap := ⟨fun _ => 0, fun _ => 0, fun _ _ => 0⟩

def recordAt (tCoarse : UInt16) : Stg1Record :=
  { (default : Stg1Record) with tCoarse := tCoarse }

theorem addBranches_lossless_whole : [recordAt 3] ≠ [] ∧
    Lossless ((shiftTable 1).calibration digitLibrary) [recordAt 3] []
      (addBranches (fun _ => 0) noMap (some ((shiftTable 1).calibration digitLibrary)) default
        (some [recordAt 3]) ⟨default, none⟩) := by
  refine ⟨by decide, (addBranches_lossless_iff (fun _ => 0) noMap _ default ⟨default, none⟩
    (by decide)).mpr fun r hr => ?_⟩
  rw [List.mem_singleton.mp hr]
  exact ⟨by decide, ⟨2, by decide, by decide +kernel⟩, ⟨0, by decide, by decide +kernel⟩⟩

/-- A time of two and a half clocks is stored as two. -/
theorem not_addBranches_lossless : ¬ ∀ (c : Calibration ℚ) (records : List Stg1Record),
    records ≠ [] → Lossless c records []
      (addBranches (fun _ => 0) noMap (some c) default (some records) ⟨default, none⟩) := by
  intro hall
  obtain ⟨-, written, htree, hpres⟩ :=
    hall ((shiftTable (1 / 2)).calibration digitLibrary) [recordAt 3] (by decide)
  have hstored : written.map (·.tdcCal) = [2] := by
    have hmap := congrArg (fun t => (t.getD []).map (·.tdcCal)) htree
    rw [List.nil_append, Option.getD_some] at hmap
    rw [← hmap]
    decide +kernel
  obtain ⟨s, rfl⟩ := List.length_eq_one_iff.mp hpres.length_eq.symm
  have hreturned : s.tdcCal = 5 / 2 := by
    rw [(List.forall₂_cons.mp hpres).1.tdcCal]
    decide +kernel
  rw [List.map_singleton, List.singleton_inj, hreturned] at hstored
  exact absurd hstored (by decide +kernel)

end Inputs

end GramsTof.Analysis.Convert
