import GramsTof.Config.Directories
import GramsTof.Config.IniReader
import GramsTof.Lib.Paths

/-! Loading a configuration file. The members are overwritten before the steps that can fail, so
a reload that throws leaves the old configuration only in special cases. -/

namespace GramsTof.Config

open Lib.Paths

/-- What a call finds outside: the files that can be read, with their bytes, and the environment. -/
structure Outside where
  read : String → Option (List Char)
  getenv : String → Option String

def parent_path (path : String) : String := .ofList (parentPath path.toList)

/-- `find` and `replace` of the first occurrence. -/
def replaceIn (pattern replacement : List Char) : List Char → List Char
  | [] => []
  | c :: cs =>
    if pattern.isPrefixOf (c :: cs) then replacement ++ (c :: cs).drop pattern.length
    else c :: replaceIn pattern replacement cs

def replaceFirst (pattern replacement value : String) : String :=
  .ofList (replaceIn pattern.toList replacement.toList value.toList)

variable (out : Outside)

/-- The first three steps of `substituteVariables`. -/
def expand (configDir value : String) : String :=
  let result := replaceFirst "%CDIR%" configDir value
  let result := replaceFirst "%PWD%" "." result
  match out.getenv "HOME" with
  | some home => replaceFirst "%HOME%" home result
  | none => result

/-- `$TOFDATA` is still there then. -/
def NeedsTofdata (configDir value : String) : Prop :=
  "$TOFDATA".toList <:+: (expand out configDir value).toList

instance (configDir value : String) : Decidable (NeedsTofdata out configDir value) :=
  inferInstanceAs (Decidable (_ <:+: _))

def tofdataError : String := "[Config] TOFDATA environment variable not set."

def substituteVariables (configDir value : String) : Except String String :=
  let result := expand out configDir value
  if NeedsTofdata out configDir value then
    match out.getenv "TOFDATA" with
    | some tofdata => .ok (replaceFirst "$TOFDATA" tofdata result)
    | none => .error tofdataError
  else .ok result

def clearData (c : Config) : Config := { c with data := fun _ _ => none }

def assign (sec key value : String) (c : Config) : Config :=
  { c with data := fun s k => if s = sec ∧ k = key then some value else c.data s k }

/-- The body of the loops: the value is made before its place. An exception leaves the members as
they are at that point. -/
def loadSetting (reader : INIReader) (sec key : String) : EStateM String Config Unit := do
  let rawValue := reader.Get sec key ""
  modify (assign sec key (← ofExcept (substituteVariables out (← get).configDir rawValue)))

def load (filename : String) : EStateM String Config Bool := do
  modify fun c => { c with configDir := parent_path filename }
  let reader := INIReader.ofFile (out.read filename)
  if reader.ParseError < 0 then return false
  modify clearData
  forM reader.Sections fun sec => forM (reader.GetKeys sec) (loadSetting out reader sec)
  return true

def setConfigFile (filename : String) : EStateM String Config Unit := do
  modify fun c => if c.loaded then clearData c else c
  if !(← load out filename) then throw ("[Config] Failed to load config file: " ++ filename)
  else modify fun c => { c with configFilePath := filename, loaded := true }

/-! ### Where a reload stops -/

/-- The settings in the order of the loops. -/
def INIReader.settings (reader : INIReader) : List (String × String) :=
  reader.Sections.flatMap fun sec => (reader.GetKeys sec).map (sec, ·)

/-- The settings before the first that needs `$TOFDATA`. -/
def beforeTofdata (configDir : String) (reader : INIReader) : List (String × String) :=
  reader.settings.takeWhile fun e => ¬ NeedsTofdata out configDir (reader.Get e.1 e.2 "")

/-- Some settings of a file, without the data directory in them. -/
def plainSettings (configDir : String) (reader : INIReader) (settings : List (String × String))
    (sec key : String) : Option String :=
  if (sec, key) ∈ settings then some (expand out configDir (reader.Get sec key "")) else none

variable {out : Outside} {reader : INIReader} {filename : String} {c c' : Config}

theorem substituteVariables_unset (h : out.getenv "TOFDATA" = none) (dir value : String) :
    substituteVariables out dir value =
      if NeedsTofdata out dir value then .error tofdataError else .ok (expand out dir value) := by
  simp only [substituteVariables, h]

theorem substituteVariables_set {tofdata : String} (h : out.getenv "TOFDATA" = some tofdata)
    (dir value : String) :
    ∃ result, substituteVariables out dir value = .ok result := by
  simp only [substituteVariables, h]
  split_ifs <;> exact ⟨_, rfl⟩

theorem loadSetting_ok {sec key result : String}
    (h : substituteVariables out c.configDir (reader.Get sec key "") = .ok result) :
    loadSetting out reader sec key c = .ok () (assign sec key result c) := by
  show (ofExcept _ : EStateM String Config String).bind _ c = _
  rw [EStateM.bind, h]
  rfl

theorem loadSetting_error {sec key e : String}
    (h : substituteVariables out c.configDir (reader.Get sec key "") = .error e) :
    loadSetting out reader sec key c = .error e c := by
  show (ofExcept _ : EStateM String Config String).bind _ c = _
  rw [EStateM.bind, h]
  rfl

theorem forM_sections (f : String → String → EStateM String Config Unit) :
    (forM reader.Sections fun sec => forM (reader.GetKeys sec) (f sec)) =
      forM reader.settings fun e => f e.1 e.2 := by
  unfold INIReader.settings
  induction reader.Sections with
  | nil => rfl
  | cons sec rest ih => rw [List.forM_cons, List.flatMap_cons, List.forM_append, List.forM_map, ih]

/-- With a data directory the loops come to their end. -/
theorem forM_loadSetting_set {tofdata : String} (h : out.getenv "TOFDATA" = some tofdata)
    (settings : List (String × String)) (c : Config) :
    ∃ c', (forM settings fun e => loadSetting out reader e.1 e.2) c = .ok () c' := by
  induction settings generalizing c with
  | nil => exact ⟨c, rfl⟩
  | cons e rest ih =>
    obtain ⟨result, hresult⟩ := substituteVariables_set h c.configDir (reader.Get e.1 e.2 "")
    obtain ⟨c', hc'⟩ := ih (assign e.1 e.2 result c)
    refine ⟨c', ?_⟩
    rw [List.forM_cons]
    show EStateM.bind _ _ c = _
    rw [EStateM.bind, loadSetting_ok hresult]
    exact hc'

/-- Some settings are added to those that are there. -/
def addPlain (out : Outside) (reader : INIReader) (settings : List (String × String))
    (c : Config) : Config :=
  { c with data := fun sec key =>
      (plainSettings out c.configDir reader settings sec key).or (c.data sec key) }

theorem addPlain_clearData (settings : List (String × String)) :
    addPlain out reader settings (clearData c) =
      { c with data := plainSettings out c.configDir reader settings } := by
  simp only [addPlain, clearData, Option.or_none]

theorem addPlain_cons (e : String × String) (settings : List (String × String)) :
    addPlain out reader (e :: settings) c = addPlain out reader settings
      (assign e.1 e.2 (expand out c.configDir (reader.Get e.1 e.2 "")) c) := by
  simp only [addPlain, assign, plainSettings]
  congr 1
  funext sec key
  by_cases he : (sec, key) = e
  · subst he
    by_cases hmem : (sec, key) ∈ settings <;> simp [hmem]
  · have hne : ¬ (sec = e.1 ∧ key = e.2) := fun h => he (Prod.ext h.1 h.2)
    simp [he, hne]

/-- Without one the first setting that needs it ends them. -/
theorem forM_loadSetting_unset (h : out.getenv "TOFDATA" = none)
    (settings : List (String × String)) (c c' : Config) (e : String)
    (herror : (forM settings fun e => loadSetting out reader e.1 e.2) c = .error e c') :
    c' = addPlain out reader (settings.takeWhile fun e =>
      ¬ NeedsTofdata out c.configDir (reader.Get e.1 e.2 "")) c := by
  induction settings generalizing c with
  | nil => cases herror
  | cons s rest ih =>
    rw [List.forM_cons] at herror
    change EStateM.bind _ _ c = _ at herror
    have hsub := substituteVariables_unset h c.configDir (reader.Get s.1 s.2 "")
    by_cases hneeds : NeedsTofdata out c.configDir (reader.Get s.1 s.2 "")
    · rw [if_pos hneeds] at hsub
      rw [EStateM.bind, loadSetting_error hsub] at herror
      cases herror
      rw [List.takeWhile_cons_of_neg (by simpa using hneeds)]
      rfl
    · rw [if_neg hneeds] at hsub
      rw [EStateM.bind, loadSetting_ok hsub] at herror
      rw [List.takeWhile_cons_of_pos (by simpa using hneeds), addPlain_cons]
      exact ih _ herror

theorem load_unreadable (h : out.read filename = none) :
    load out filename c = .ok false { c with configDir := parent_path filename } := by
  show (if (INIReader.ofFile (out.read filename)).ParseError < 0 then
    pure false else _ : EStateM String Config Bool) _ = _
  rw [if_pos ((INIReader.parseError_neg_iff _).mpr h)]
  rfl

theorem load_readable {text : List Char} (h : out.read filename = some text) :
    load out filename c = ((forM (INIReader.ofFile (some text)).settings fun e =>
        loadSetting out (INIReader.ofFile (some text)) e.1 e.2).bind fun _ => pure true)
      (clearData { c with configDir := parent_path filename }) := by
  show (if (INIReader.ofFile (out.read filename)).ParseError < 0 then
    pure false else _ : EStateM String Config Bool) _ = _
  have hnot : ¬ (INIReader.ofFile (some text)).ParseError < 0 :=
    fun hneg => absurd ((INIReader.parseError_neg_iff _).mp hneg) nofun
  rw [h, if_neg hnot, forM_sections]
  generalize INIReader.ofFile (some text) = reader
  rfl

/-- What an exception of `load` leaves. -/
theorem load_error {e : String} (h : load out filename c = .error e c') :
    ∃ text, out.read filename = some text ∧ c' =
      { c with
        configDir := parent_path filename
        data := plainSettings out (parent_path filename) (INIReader.ofFile (some text))
          (beforeTofdata out (parent_path filename) (INIReader.ofFile (some text))) } := by
  cases hread : out.read filename with
  | none =>
    rw [load_unreadable hread] at h
    cases h
  | some text =>
    rw [load_readable hread, EStateM.bind] at h
    split at h
    · cases h
    · rename_i hloop
      cases h
      cases htofdata : out.getenv "TOFDATA" with
      | some tofdata =>
        obtain ⟨_, hok⟩ := forM_loadSetting_set htofdata (INIReader.ofFile (some text)).settings
          (clearData { c with configDir := parent_path filename })
        exact absurd (hok.symm.trans hloop) nofun
      | none =>
        refine ⟨text, rfl, ?_⟩
        rw [forM_loadSetting_unset htofdata _ _ _ _ hloop, addPlain_clearData]
        rfl

theorem load_ok {loaded : Bool} (h : load out filename c = .ok loaded c') :
    loaded = true ∨
      out.read filename = none ∧ c' = { c with configDir := parent_path filename } := by
  cases hread : out.read filename with
  | none =>
    rw [load_unreadable hread] at h
    cases h
    exact .inr ⟨rfl, rfl⟩
  | some text =>
    rw [load_readable hread, EStateM.bind] at h
    split at h
    · cases h; exact .inl rfl
    · cases h

/-- What is left of the configuration when a reload throws. -/
theorem setConfigFile_error {e : String} (h : setConfigFile out filename c = .error e c') :
    (out.read filename = none ∧ c' =
      { (if c.loaded then clearData c else c) with configDir := parent_path filename }) ∨
    ∃ text, out.read filename = some text ∧ c' =
      { c with
        configDir := parent_path filename
        data := plainSettings out (parent_path filename) (INIReader.ofFile (some text))
          (beforeTofdata out (parent_path filename) (INIReader.ofFile (some text))) } := by
  change (load out filename).bind _ (if c.loaded then clearData c else c) = _ at h
  rw [EStateM.bind] at h
  split at h
  · rename_i loaded c₁ hload
    obtain rfl | ⟨hread, rfl⟩ := load_ok hload
    · cases h
    · refine .inl ⟨hread, ?_⟩
      cases loaded with
      | true => cases h
      | false => cases h; rfl
  · rename_i hload
    cases h
    obtain ⟨text, hread, rfl⟩ := load_error hload
    refine .inr ⟨text, hread, ?_⟩
    split_ifs <;> rfl

/-- The settings in memory are already those that the reload leaves. -/
def DataUntouched (out : Outside) (filename : String) (c : Config) : Prop :=
  match out.read filename with
  | none => c.loaded → c.data = fun _ _ => none
  | some text =>
    let reader := INIReader.ofFile (some text)
    c.data = plainSettings out (parent_path filename) reader
      (beforeTofdata out (parent_path filename) reader)

theorem dataUntouched_of_read {text : List Char} (hread : out.read filename = some text) :
    DataUntouched out filename c ↔
      c.data = plainSettings out (parent_path filename) (INIReader.ofFile (some text))
        (beforeTofdata out (parent_path filename) (INIReader.ofFile (some text))) := by
  simp only [DataUntouched, hread]

theorem data_cleared_iff (c : Config) :
    (if c.loaded then clearData c else c).data = c.data ↔
      (c.loaded → c.data = fun _ _ => none) := by
  split_ifs with hloaded
  · exact ⟨fun h _ => h.symm, fun h => (h hloaded).symm⟩
  · exact iff_of_true rfl fun h => absurd h hloaded

/-- A reload that throws changes nothing exactly if the file lies where the old one did and the
settings are already as it leaves them: none when the file cannot be read and there was one before,
else those of the file before the first that needs the data directory. -/
theorem setConfigFile_unchanged_iff {e : String} (h : setConfigFile out filename c = .error e c') :
    (c'.data = c.data ∧ c'.configDir = c.configDir ∧ c'.configFilePath = c.configFilePath ∧
      c'.loaded = c.loaded) ↔
    c.configDir = parent_path filename ∧ DataUntouched out filename c := by
  obtain ⟨hread, rfl⟩ | ⟨text, hread, rfl⟩ := setConfigFile_error h
  · have hpath : (if c.loaded then clearData c else c).configFilePath = c.configFilePath := by
      split_ifs <;> rfl
    have hloaded : (if c.loaded then clearData c else c).loaded = c.loaded := by split_ifs <;> rfl
    unfold DataUntouched
    rw [hread, ← data_cleared_iff]
    exact ⟨fun hsame => ⟨hsame.2.1.symm, hsame.1⟩,
      fun hleft => ⟨hleft.2, hleft.1.symm, hpath, hloaded⟩⟩
  · rw [dataUntouched_of_read hread]
    generalize plainSettings out _ _ _ = left
    exact ⟨fun hsame => ⟨hsame.2.1.symm, hsame.1.symm⟩,
      fun hleft => ⟨hleft.2.symm, hleft.1.symm, rfl, rfl⟩⟩

/-- The members at the start of the process. -/
def initial : Config := ⟨fun _ _ => none, "", "", "", "", false⟩

/-- The first file of the process cannot be read. -/
theorem setConfigFile_unchanged_iff_first :
    ∃ e c', setConfigFile ⟨fun _ => none, fun _ => none⟩ "config.ini" initial = .error e c' ∧
      (c'.data = initial.data ∧ c'.configDir = initial.configDir ∧
        c'.configFilePath = initial.configFilePath ∧ c'.loaded = initial.loaded) := by
  have hthrow : setConfigFile ⟨fun _ => none, fun _ => none⟩ "config.ini" initial = .error _ _ :=
    rfl
  exact ⟨_, _, hthrow, (setConfigFile_unchanged_iff hthrow).mpr
    ⟨by decide, fun hloaded => absurd hloaded Bool.false_ne_true⟩⟩

/-- The file of a configuration with one setting cannot be read any more. -/
theorem not_setConfigFile_unchanged :
    ¬ ∀ (out : Outside) (filename : String) (c c' : Config) (e : String),
      setConfigFile out filename c = .error e c' →
      c'.data = c.data ∧ c'.configDir = c.configDir ∧ c'.configFilePath = c.configFilePath ∧
        c'.loaded = c.loaded := by
  intro h
  let one (sec key : String) := if sec = "main" ∧ key = "run" then some "run" else none
  have hsame := h ⟨fun _ => none, fun _ => none⟩ "config/config.ini"
    ⟨one, "config", "config/config.ini", "/data", "", true⟩ _ _ rfl
  exact absurd (congrFun (congrFun hsame.1 "main") "run") nofun

end GramsTof.Config
