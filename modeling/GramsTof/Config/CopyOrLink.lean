import GramsTof.Lib.Files

/-! `copyOrLink`: a file is published under another path, as a copy or as a symbolic link. The link
carries the path of the source as it was given, and the system reads it from the directory of the
link. -/

namespace GramsTof.Config

open Lib Lib.Paths Lib.FileSystem

variable {β : Type}

/-- How a call ends that does not throw: before the last step, or after it. -/
inductive Placing (β : Type) where
  | returned (fs : FileSystem β)
  | placed (fs : FileSystem β)
  deriving DecidableEq, Repr

def Placing.fileSystem : Placing β → FileSystem β
  | .returned fs => fs
  | .placed fs => fs

/-- `exists(path) || is_symlink(path)`. -/
def present (fs : FileSystem β) (path : List Char) : Option Bool := do
  if ← fs.pathExists path then return true else fs.isSymlink path

/-- Something that is no directory. -/
def blocked (fs : FileSystem β) (path : List Char) : Option Bool := do
  if ← fs.pathExists path then return !(← fs.isDirectory path) else return false

def ensureDirectories (fs : FileSystem β) (path : List Char) : Option (FileSystem β) := do
  if ← fs.pathExists path then return fs else fs.createDirectories path

/-- What is at the target goes, also a link to nothing. -/
def clearTarget (fs : FileSystem β) (target : List Char) : Option (FileSystem β) := do
  if ← present fs target then fs.remove target else return fs

/-- The steps from the check of the target on. -/
def placeFile (fs : FileSystem β) (src target : List Char) (symlink : Bool) :
    Option (Placing β) := do
  if (← fs.pathExists target) && fs.equivalent src target then return .returned fs
  else
    let room ← clearTarget fs target
    let placed ← if symlink then room.createSymlink src target else room.copyFile src target
    return .placed placed

def targetFilePath (src dst : List Char) : List Char :=
  if hasExtension dst then dst else joinPath dst (filename src)

/-- The files of a directory, one after the other; what lies in directories below is left out. -/
def placeFiles (src dst : List Char) (symlink : Bool) (fs : FileSystem β) :
    List (List Char) → Option (FileSystem β)
  | [] => some fs
  | name :: names => do
    let fileSrc := joinPath src name
    if ← fs.isDirectory fileSrc then placeFiles src dst symlink fs names
    else
      let placing ← placeFile fs fileSrc (joinPath dst (filename fileSrc)) symlink
      placeFiles src dst symlink placing.fileSystem names

/-- The branch of a source that is no directory. -/
def placeSingle (fs : FileSystem β) (src dst : List Char) (symlink : Bool) :
    Option (Placing β) := do
  if ← blocked fs (if hasExtension dst then parentPath dst else dst) then return .returned fs
  else
    let target := targetFilePath src dst
    let made ← ensureDirectories fs (parentPath target)
    placeFile made src target symlink

/-- The branch of a directory. -/
def placeDirectory (fs : FileSystem β) (src dst : List Char) (symlink : Bool) :
    Option (Placing β) := do
  if ← blocked fs dst then return .returned fs
  else
    let made ← ensureDirectories fs dst
    let names := match made.status src with
      | .found i _ => (made.entries.filter (·.1.dir = i)).map (·.1.name)
      | _ => []
    return .returned (← placeFiles src dst symlink made names)

def copyOrLink (fs : FileSystem β) (src dst : List Char) (symlink : Bool) :
    Option (Placing β) := do
  if !(← present fs src) then return .returned fs
  else if (← fs.pathExists dst) && fs.equivalent src dst then return .returned fs
  else if ← fs.isDirectory src then placeDirectory fs src dst symlink
  else placeSingle fs src dst symlink

def linkVaultFileToOriginalDir (fs : FileSystem β) (vaultFilePath originalDir : List Char) :
    Option (FileSystem β) := do
  if ← fs.pathExists vaultFilePath then
    let made ← ensureDirectories fs originalDir
    let dstPath := joinPath originalDir (filename vaultFilePath)
    return (← copyOrLink made vaultFilePath dstPath true).fileSystem
  else return fs

/-! ### The steps -/

variable {fs fs' : FileSystem β} {src dst path target : List Char} {symlink : Bool} {content : β}

theorem ensureDirectories_grown (h : ensureDirectories fs path = some fs') :
    fs.Grown fs' (fs.base fs.cwd path) (components path) := by
  obtain ⟨there, -, h⟩ := Option.bind_eq_some_iff.mp h
  split at h
  · cases h; exact .refl _ _ _
  · exact createDirectories_grown h

/-- What is removed is not found any more. -/
theorem remove_cases (h : fs.remove target = some fs') :
    (∀ p m, fs'.status target ≠ .found p m) ∧
      (fs' = fs ∨ ∃ s left, fs.locate target = .slot s left ∧ fs' = fs.erase s) := by
  obtain ⟨s, left, hl, hnone, rfl | rfl⟩ | ⟨hmissing, rfl⟩ := remove_eq_some h
  · exact ⟨fun p m => status_ne_found (.refl _) hl hnone, .inl rfl⟩
  · exact ⟨fun p m => status_ne_found erase_extends hl hnone, .inr ⟨s, left, hl, rfl⟩⟩
  · exact ⟨fun p m hfound => absurd (hmissing.symm.trans hfound) nofun, .inl rfl⟩

/-- Nothing is found at a target that has been cleared, and nothing else is gone. -/
theorem clearTarget_cases (h : clearTarget fs target = some fs') :
    (∀ p m, fs'.status target ≠ .found p m) ∧
      (fs' = fs ∨ ∃ s left, fs.locate target = .slot s left ∧ fs' = fs.erase s) := by
  obtain ⟨there, hthere, h⟩ := Option.bind_eq_some_iff.mp h
  cases there with
  | true => exact remove_cases h
  | false =>
    cases h
    refine ⟨fun p m hfound => ?_, .inl rfl⟩
    simp [present, pathExists, hfound] at hthere

theorem placeFile_placed (h : placeFile fs src target symlink = some (.placed fs')) :
    ∃ there room, fs.pathExists target = some there ∧
      ¬ (there = true ∧ fs.equivalent src target = true) ∧ clearTarget fs target = some room ∧
      (if symlink then room.createSymlink src target else room.copyFile src target) = some fs' := by
  obtain ⟨there, hthere, h⟩ := Option.bind_eq_some_iff.mp h
  split at h
  · cases h
  · rename_i hnot
    obtain ⟨room, hroom, h⟩ := Option.bind_eq_some_iff.mp h
    refine ⟨there, room, hthere, fun hboth => hnot (by simp [hboth]), hroom, ?_⟩
    cases symlink with
    | true =>
      obtain ⟨placed, hplaced, h⟩ := Option.bind_eq_some_iff.mp h
      cases h
      exact hplaced
    | false =>
      obtain ⟨placed, hplaced, h⟩ := Option.bind_eq_some_iff.mp h
      cases h
      exact hplaced

theorem isDirectory_of_read (hread : fs.read src = some content) :
    fs.isDirectory src = some false := by
  obtain ⟨hsrc, p, m, hw, hn⟩ := read_eq_some_iff.mp hread
  rw [isDirectory, status_eq_found_iff.mpr ⟨hsrc, hw⟩]
  simp [isDir, hn]

theorem pathExists_of_read (hread : fs.read src = some content) : fs.pathExists src = some true := by
  obtain ⟨hsrc, p, m, hw, -⟩ := read_eq_some_iff.mp hread
  rw [pathExists, status_eq_found_iff.mpr ⟨hsrc, hw⟩]

theorem copyOrLink_placed (hread : fs.read src = some content)
    (h : copyOrLink fs src dst symlink = some (.placed fs')) :
    ∃ made, ensureDirectories fs (parentPath (targetFilePath src dst)) = some made ∧
      placeFile made src (targetFilePath src dst) symlink = some (.placed fs') := by
  have hdir := isDirectory_of_read hread
  obtain ⟨there, -, h⟩ := Option.bind_eq_some_iff.mp h
  split at h
  · cases h
  · obtain ⟨thereDst, -, h⟩ := Option.bind_eq_some_iff.mp h
    split at h
    · cases h
    · rw [hdir] at h
      change placeSingle fs src dst symlink = _ at h
      obtain ⟨isBlocked, -, h⟩ := Option.bind_eq_some_iff.mp h
      cases isBlocked with
      | true => cases h
      | false => exact Option.bind_eq_some_iff.mp h

/-! ### What a call changes -/

/-- The slot holds a directory that was made on the way of a path. -/
def MadeFor (fs fs' : FileSystem β) (path : List Char) (t : Slot) : Prop :=
  ∃ i made q k, fs.entry t = none ∧ fs.node i = none ∧ fs'.entry t = some i ∧
    fs'.node i = some (.dir t.dir) ∧ ensureDirectories fs path = some made ∧
    q <+: components path ∧ made.Walks ⟨fs.symloopMax, fs.base fs.cwd path, q⟩ ⟨k, i, []⟩

/-- Every file is what it was, and so is every name but that of the target and those of directories
made above it. -/
structure Confined (fs fs' : FileSystem β) (parent : List Char) (s : Slot) : Prop where
  nodes : ∀ i n, fs.node i = some n → fs'.node i = some n
  entries : ∀ t, t ≠ s → fs'.entry t = fs.entry t ∨ MadeFor fs fs' parent t

/-- The target gives the content, the source still does, and nothing else has changed. -/
structure Delivered (fs fs' : FileSystem β) (src target : List Char) (content : β) : Prop where
  opened : fs'.read target = some content
  kept : fs'.read src = some content
  confined : ∃ s left, fs'.locate target = .slot s left ∧
    Confined fs fs' (parentPath target) s

/-- With the directories made and the target cleared, the source still gives the content, and it
does so from the directory of the target, with one link less than may be followed from there. -/
def LinkReaches (fs : FileSystem β) (src target : List Char) (content : β) : Prop :=
  ∃ made room s left, ensureDirectories fs (parentPath target) = some made ∧
    clearTarget made target = some room ∧ room.locate target = .slot s (left + 1) ∧
    room.read src = some content ∧ room.readFrom left s.dir src = some content

variable {made room : FileSystem β} {s : Slot} {left : ℕ} {n : Node β}

theorem clearTarget_extends (h : clearTarget made target = some room) : room.Extends made := by
  obtain ⟨-, rfl | ⟨s, left, -, rfl⟩⟩ := clearTarget_cases h
  · exact .refl _
  · exact erase_extends

theorem confined_add (hmade : ensureDirectories fs path = some made)
    (hroom : clearTarget made target = some room) (hl : room.locate target = .slot s left)
    (hnone : room.entry s = none) : Confined fs (room.add s n) path s := by
  have hgrown := ensureDirectories_grown hmade
  have hadd : room.Extends (room.add s n) := extends_add hnone
  have hnode (i : ℕ) : room.node i = made.node i := by
    obtain ⟨-, rfl | ⟨t, k, -, rfl⟩⟩ := clearTarget_cases hroom <;> rfl
  have hentry (t : Slot) (ht : t ≠ s) : room.entry t = made.entry t := by
    obtain ⟨-, rfl | ⟨t', k, hl', rfl⟩⟩ := clearTarget_cases hroom
    · rfl
    · cases (erase_extends.locate hl).symm.trans hl'
      exact entry_erase_of_ne ht
  refine ⟨fun i n' hn => hadd.node i n' ((hnode i).trans (hgrown.node i n' hn)), fun t ht => ?_⟩
  rw [entry_add_of_ne ht, hentry t ht]
  cases hold : fs.entry t with
  | some i => exact .inl (hgrown.entry t i hold)
  | none =>
    cases hnew : made.entry t with
    | none => exact .inl rfl
    | some i =>
      obtain ⟨hfree, hdir, q, k, hq, hwalk⟩ := hgrown.made t i hold hnew
      refine .inr ⟨i, made, q, k, hold, hfree, ?_, ?_, hmade, hq, hwalk⟩
      · rw [entry_add_of_ne ht, hentry t ht, hnew]
      · exact hadd.node i _ ((hnode i).trans hdir)

/-- A copy delivers the file. -/
theorem copyFile_delivers (hread : fs.read src = some content)
    (hmade : ensureDirectories fs (parentPath target) = some made)
    (hroom : clearTarget made target = some room) (h : room.copyFile src target = some fs') :
    Delivered fs fs' src target content := by
  obtain ⟨content', hread', hcreate⟩ := copyFile_eq_some h (clearTarget_cases hroom).1
  obtain ⟨s, left, hl, hnone, rfl⟩ := create_eq_some hcreate
  have hmadeRead := (ensureDirectories_grown hmade).toExtends.read hread
  cases ((clearTarget_extends hroom).read hread').symm.trans hmadeRead
  have hadd : room.Extends (room.add s (.file content)) := extends_add hnone
  exact ⟨read_add_file hl hnone, hadd.read hread', s, left, hadd.locate hl,
    confined_add hmade hroom hl hnone⟩

/-- A link delivers the file exactly if the source reaches it from the link. -/
theorem createSymlink_delivers_iff (hread : fs.read src = some content)
    (hmade : ensureDirectories fs (parentPath target) = some made) {there : Bool}
    (hthere : made.pathExists target = some there)
    (hnot : ¬ (there = true ∧ made.equivalent src target = true))
    (hroom : clearTarget made target = some room)
    (h : room.createSymlink src target = some fs') :
    Delivered fs fs' src target content ↔ LinkReaches fs src target content := by
  obtain ⟨s, left, hl, hnone, rfl⟩ := create_eq_some h
  have hadd : room.Extends (room.add s (.link src)) := extends_add hnone
  have hext := clearTarget_extends hroom
  constructor
  · rintro ⟨hopened, hkept, -⟩
    obtain ⟨k, rfl, hown⟩ := (read_add_link_iff hl hnone).mp hopened
    refine ⟨made, room, s, k, hmade, hroom, hl, ?_, hown⟩
    rcases read_add_link_cases hnone hown hkept with hold | ⟨k', hmeet⟩
    · exact hold
    · -- the source would end in the slot of the target, and the two would be the same file
      have hmadeRead := (ensureDirectories_grown hmade).toExtends.read hread
      obtain ⟨hsrc, p, m, hw, -⟩ := read_eq_some_iff.mp hmadeRead
      have hmeet' : made.Walks (made.start src) ⟨k', s.dir, [s.name]⟩ :=
        hext.start ▸ hmeet.extend hext
      exact absurd (equivalent_of_walks hsrc hw hmeet' (hext.locate hl) hthere) hnot
  · rintro ⟨made', room', s', k, hmade', hroom', hl', hsrc, hown⟩
    cases hmade.symm.trans hmade'
    cases hroom.symm.trans hroom'
    cases hl.symm.trans hl'
    exact ⟨(read_add_link_iff hl hnone).mpr ⟨k, rfl, hown⟩, hadd.read hsrc, s, k + 1,
      hadd.locate hl, confined_add hmade hroom hl hnone⟩

theorem copyOrLink_symlink_iff (hread : fs.read src = some content)
    (h : copyOrLink fs src dst true = some (.placed fs')) :
    Delivered fs fs' src (targetFilePath src dst) content ↔
      LinkReaches fs src (targetFilePath src dst) content := by
  obtain ⟨made, hmade, hplace⟩ := copyOrLink_placed hread h
  obtain ⟨there, room, hthere, hnot, hroom, hlast⟩ := placeFile_placed hplace
  exact createSymlink_delivers_iff hread hmade hthere hnot hroom hlast

/-- A finished file gets its link, in a directory made for it, unless the call returns before; the link
delivers the file exactly if its path reaches it from there. -/
theorem linkVaultFileToOriginalDir_delivers_iff {vaultFilePath originalDir : List Char}
    (hread : fs.read vaultFilePath = some content)
    (h : linkVaultFileToOriginalDir fs vaultFilePath originalDir = some fs') :
    ∃ made, ensureDirectories fs originalDir = some made ∧
      let dstPath := joinPath originalDir (filename vaultFilePath)
      (copyOrLink made vaultFilePath dstPath true = some (.returned fs') ∨
        (Delivered made fs' vaultFilePath (targetFilePath vaultFilePath dstPath) content ↔
          LinkReaches made vaultFilePath (targetFilePath vaultFilePath dstPath) content)) := by
  obtain ⟨there, hthere, h⟩ := Option.bind_eq_some_iff.mp h
  rw [pathExists_of_read hread] at hthere
  cases hthere
  obtain ⟨made, hmade, h⟩ := Option.bind_eq_some_iff.mp h
  obtain ⟨placing, hplacing, h⟩ := Option.bind_eq_some_iff.mp h
  refine ⟨made, hmade, ?_⟩
  cases h
  cases placing with
  | returned => exact .inl hplacing
  | placed =>
    have hreadMade := (ensureDirectories_grown hmade).toExtends.read hread
    exact .inr (copyOrLink_symlink_iff hreadMade hplacing)

/-- A file is delivered as a copy, and as a link exactly if its path reaches it from there. -/
theorem copyOrLink_delivers_iff (hread : fs.read src = some content)
    (h : copyOrLink fs src dst symlink = some (.placed fs')) :
    Delivered fs fs' src (targetFilePath src dst) content ↔
      (symlink = true → LinkReaches fs src (targetFilePath src dst) content) := by
  cases symlink with
  | false =>
    obtain ⟨made, hmade, hplace⟩ := copyOrLink_placed hread h
    obtain ⟨there, room, -, -, hroom, hlast⟩ := placeFile_placed hplace
    exact iff_of_true (copyFile_delivers hread hmade hroom hlast) nofun
  | true =>
    have hiff := copyOrLink_symlink_iff hread h
    exact hiff.trans ⟨fun hreach _ => hreach, fun hreach => hreach rfl⟩

/-- A file in `/vault`, the working directory, and an empty `/calib`. -/
def vaultSystem : FileSystem ℕ where
  nodes := [(0, .dir 0), (1, .dir 0), (2, .file 7), (3, .dir 0)]
  entries := [(⟨0, "vault".toList⟩, 1), (⟨1, "run.tsv".toList⟩, 2), (⟨0, "calib".toList⟩, 3)]
  root := 0
  cwd := 1
  symloopMax := 8

/-- With a link at `/calib/run.tsv`. -/
def withLink (path : String) : FileSystem ℕ :=
  vaultSystem.add ⟨3, "run.tsv".toList⟩ (.link path.toList)

theorem copyOrLink_delivers_iff_absolute :
    Delivered vaultSystem (withLink "/vault/run.tsv") "/vault/run.tsv".toList
      (targetFilePath "/vault/run.tsv".toList "/calib".toList) 7 := by
  have hplaced : copyOrLink vaultSystem "/vault/run.tsv".toList "/calib".toList true =
      some (.placed (withLink "/vault/run.tsv")) := by decide +kernel
  refine (copyOrLink_delivers_iff (by decide +kernel) hplaced).mpr fun _ => ?_
  exact ⟨vaultSystem, vaultSystem, ⟨3, "run.tsv".toList⟩, 7, by decide +kernel, by decide +kernel,
    by decide +kernel, by decide +kernel, by decide +kernel⟩

/-- A link with a relative path is read from its own directory, and here points to itself. -/
theorem not_copyOrLink_delivers :
    ¬ ∀ (fs fs' : FileSystem ℕ) (src dst : List Char) (symlink : Bool) (content : ℕ),
      fs.read src = some content → copyOrLink fs src dst symlink = some (.placed fs') →
        Delivered fs fs' src (targetFilePath src dst) content := by
  intro h
  have hdelivered := h vaultSystem (withLink "run.tsv") "run.tsv".toList "/calib".toList true 7
    (by decide +kernel) (by decide +kernel)
  exact absurd hdelivered.opened (by decide +kernel)

end GramsTof.Config
