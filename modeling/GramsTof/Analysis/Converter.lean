import GramsTof.Analysis.Convert
import GramsTof.Lib.Machine
import Mathlib.Data.List.Basic

/-! The converter that lives as long as the process. A call reads its calibration files
only while none have been read; it reports success for every input whose name has the
right suffix, and follows a null tree when the input is empty. -/

namespace GramsTof.Analysis.Converter

open Analysis.Convert Lib

variable {ρ : Type*} [Field ρ] [LinearOrder ρ] [FloorRing ρ]

/-! ### The outside world -/

/-- What lies at the path of an input: nothing, or a file with its trees by name. -/
inductive InputFile where
  | missing
  | present (trees : List (String × List Stg1Record))

/-- What a call finds. -/
structure World where
  input (path : String) : InputFile
  text (path : String) : Option (List String)
  isDirectory (path : String) : Bool
  canCreate (path : String) : Bool
  /-- The time of the call. -/
  now : TimeStamp
  configDir : String
  currentPath : String
  glib : String

/-- `getTimestampCPU`: what the name of the input says, else the time of the call. -/
def World.timestampCPU (w : World) (lib : CLibrary ρ) (fileName : String) : TimeStamp :=
  ((getTimestampCPU fileName.toList).map lib.tTimeStamp).getD w.now

/-- The arguments of `runConvertStg1ToStg2`, and what the call finds. -/
structure Call where
  world : World
  inputFile : String
  outputBase : String
  tdcCal : String
  qdcCal : String

def endsWith (s suffix : String) : Prop := suffix.toList <:+ s.toList

instance (s suffix : String) : Decidable (endsWith s suffix) :=
  inferInstanceAs (Decidable (_ <:+ _))

def filename (path : String) : String :=
  .ofList (path.toList.reverse.takeWhile (· ≠ '/')).reverse

/-- The directory of a path, without a slash at its end. -/
def parentPath (path : String) : String :=
  let above := path.toList.reverse.dropWhile (· ≠ '/')
  let trimmed := above.dropWhile (· = '/')
  .ofList (if trimmed = [] then above.take 1 else trimmed.reverse)

/-- What precedes the first occurrence of a pattern. -/
def before (pattern : List Char) : List Char → List Char
  | [] => []
  | c :: cs => if pattern.isPrefixOf (c :: cs) then [] else c :: before pattern cs

/-- A stage-1 name without its suffix. -/
def stem (name : String) : String := .ofList (before ".stg1.root".toList name.toList)

def Call.output (k : Call) : String :=
  (if k.outputBase = "" then parentPath k.inputFile else k.outputBase) ++ "/" ++
    stem (filename k.inputFile) ++ ".stg2.root"

/-! ### The objects -/

/-- The object of the stage-1 data. -/
structure Stg1Object where
  fileName : String
  tree : Option (List Stg1Record)

/-- `TFile::Get` of the names that a stage-1 tree may have. -/
def findTree (trees : List (String × List Stg1Record)) : Option (List Stg1Record) :=
  (trees.lookup "stg1").or ((trees.lookup "data").or (trees.lookup "ptree"))

def Stg1Object.setInputPath (o : Stg1Object) (w : World) (path : String) : Code × Stg1Object :=
  match w.input path with
  | .missing => (.err, o)
  | .present trees =>
    if endsWith path ".stg1.root" then
      (if (findTree trees).isSome then .good else .err, ⟨filename path, findTree trees⟩)
    else (.err, o)

/-- `fStg1`, `fStg2`, and `fCalib` with the table it points to. -/
structure State (ρ : Type*) where
  stg1 : Option Stg1Object
  stg2 : Option (Stg2Object ρ)
  calib : Option (Table ρ)

inductive Result where
  | returned (success : Bool)
  | threw
  | nullPointer
  deriving DecidableEq, Repr

/-- How a call ends, and the stage-2 file that it writes: its path and its entries. -/
structure Report (ρ : Type*) where
  result : Result
  written : Option (String × List (Stg2Record ρ))

section Calls

variable (lib : CLibrary ρ) (u : Uninitialised ρ) (maps : ChannelMap)

/-- The converter as constructed. -/
def State.new : State ρ := ⟨some ⟨"", none⟩, some ⟨u.entry, none⟩, none⟩

/-- The paths of `loadCalibration`, none when the directory does not exist. -/
def calibrationPaths (w : World) (tdc qdc : String) : Option (String × String) :=
  if tdc ≠ "" ∧ qdc ≠ "" then some (tdc, qdc)
  else if tdc = "" ∧ qdc = "" then
    if w.isDirectory w.configDir then
      some (w.configDir ++ "/tdc_calibration.tsv", w.configDir ++ "/qdc_calibration.tsv")
    else none
  else some (if tdc = "" then w.configDir ++ "/tdc_calibration.tsv" else tdc,
    if qdc = "" then w.configDir ++ "/qdc_calibration.tsv" else qdc)

/-- The lines behind a path; a blank path stands for a default. -/
def openCalib (w : World) (path default : String) : Option (List String) :=
  w.text (if path.toList.all Char.isWhitespace then w.glib ++ default else path)

/-- The two calibration files that a call finds. -/
def Call.files (k : Call) : Option (Option (List String) × Option (List String)) :=
  (calibrationPaths k.world k.tdcCal k.qdcCal).map fun paths =>
    (openCalib k.world paths.1 "/config/tdc_calibration.tsv",
      openCalib k.world paths.2 "/config/qdc_calibration.tsv")

/-- `loadCalibration`: the table, and whether it returns. -/
def loadCalibration (k : Call) : Option (Table ρ) × Bool :=
  match k.files with
  | none => (none, true)
  | some files =>
    let loaded := readCalibrationFiles lib u (Table.initializeParams u) files.1 files.2
    (some loaded.1, loaded.2)

/-- The table that a call works with. -/
def State.load (s : State ρ) (k : Call) : Option (Table ρ) × Bool :=
  match s.calib with
  | some t => (some t, true)
  | none => loadCalibration lib u k

/-- The conversion once the table is settled. -/
def State.convert (s : State ρ) (k : Call) (pathStg2 : String) : State ρ × Report ρ :=
  let stg1 := (s.stg1.getD ⟨"", none⟩).setInputPath k.world k.inputFile
  let stg2 := s.stg2.getD ⟨u.entry, none⟩
  match stg1.1 with
  | .err => (⟨some stg1.2, some stg2, s.calib⟩, ⟨.returned true, none⟩)
  | .good =>
    let path := if pathStg2 = "" then
      k.world.currentPath ++ "/output/" ++ stem stg1.2.fileName ++ ".stg2.root" else pathStg2
    let out := (addBranches lib.overflow maps (s.calib.map fun t => t.calibration lib)
      (k.world.timestampCPU lib stg1.2.fileName) stg1.2.tree stg2).2
    match out.tree with
    | none => (⟨some stg1.2, some out, s.calib⟩, ⟨.nullPointer, none⟩)
    | some entries => (⟨none, none, s.calib⟩,
        ⟨.returned true, if k.world.canCreate path then some (path, entries) else none⟩)

/-- `convertStg1ToStg2`, which returns nothing. -/
def State.convertStg1ToStg2 (s : State ρ) (k : Call) (pathStg2 : String) : State ρ × Report ρ :=
  let loaded := s.load lib u k
  if loaded.2 then State.convert lib u maps ⟨s.stg1, s.stg2, loaded.1⟩ k pathStg2
  else (⟨s.stg1, s.stg2, loaded.1⟩, ⟨.threw, none⟩)

def State.runConvertStg1ToStg2 (s : State ρ) (k : Call) : State ρ × Report ρ :=
  if endsWith (filename k.inputFile) ".stg1.root" then s.convertStg1ToStg2 lib u maps k k.output
  else (s, ⟨.returned false, none⟩)

/-- The state that a call leaves, unless it ends the process. -/
def State.next (s : State ρ) (k : Call) : Option (State ρ) :=
  if (s.runConvertStg1ToStg2 lib u maps k).2.result = .nullPointer then none
  else some (s.runConvertStg1ToStg2 lib u maps k).1

/-- Call after call in one process. -/
def process : Machine (State ρ) Call where
  init s := s = State.new u
  step := State.next lib u maps

theorem process_step : (process lib u maps).step = State.next lib u maps := by rw [process]

end Calls

end GramsTof.Analysis.Converter
