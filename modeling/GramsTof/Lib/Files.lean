import GramsTof.Lib.FileSystem

/-! The operations of `std::filesystem` on a file system, and what they leave alone. An operation
without a result throws. -/

namespace GramsTof.Lib.FileSystem

open Paths Registry Relation

variable {β : Type*}

/-! ### Looking a path up -/

/-- The node at the end of a way, and how many links may still be followed there. -/
inductive Walked where
  | found (i left : ℕ)
  | missing
  | loop
  deriving DecidableEq, Repr

/-- A walk until the first link. -/
def walkVia (fs : FileSystem β) (follow : ℕ → List (List Char) → Walked) (left : ℕ) :
    ℕ → List (List Char) → Walked
  | d, [] => .found d left
  | d, name :: ahead =>
    match fs.node d with
    | some (.dir parent) =>
      if name = dot then walkVia fs follow left d ahead
      else if name = dotDot then walkVia fs follow left parent ahead
      else
        match fs.entry ⟨d, name⟩ with
        | none => .missing
        | some i =>
          match fs.node i with
          | none => .missing
          | some (.link path) => follow (fs.base d path) (components path ++ ahead)
          | some _ => walkVia fs follow left i ahead
    | _ => .missing

def walk (fs : FileSystem β) : ℕ → ℕ → List (List Char) → Walked
  | 0 => fs.walkVia (fun _ _ => .loop) 0
  | left + 1 => fs.walkVia (fs.walk left) (left + 1)

/-- `status` of a path. -/
def status (fs : FileSystem β) (path : List Char) : Walked :=
  if path = [] then .missing else fs.walk fs.symloopMax (fs.base fs.cwd path) (components path)

/-- `exists`. -/
def pathExists (fs : FileSystem β) (path : List Char) : Option Bool :=
  match fs.status path with
  | .found _ _ => some true
  | .missing => some false
  | .loop => none

def isDir (fs : FileSystem β) (i : ℕ) : Bool :=
  match fs.node i with
  | some (.dir _) => true
  | _ => false

def isDirectory (fs : FileSystem β) (path : List Char) : Option Bool :=
  match fs.status path with
  | .found i _ => some (fs.isDir i)
  | .missing => some false
  | .loop => none

/-- `equivalent`, with an error code in the place of an exception. -/
def equivalent (fs : FileSystem β) (path path' : List Char) : Bool :=
  match fs.status path, fs.status path' with
  | .found i _, .found j _ => i = j
  | _, _ => false

def contentOf (fs : FileSystem β) : Walked → Option β
  | .found i _ =>
    match fs.node i with
    | some (.file content) => some content
    | _ => none
  | _ => none

/-- What opening and reading a path gives. -/
def read (fs : FileSystem β) (path : List Char) : Option β := fs.contentOf (fs.status path)

/-- The same from a directory, with so many links that may be followed. -/
def readFrom (fs : FileSystem β) (left d : ℕ) (path : List Char) : Option β :=
  fs.contentOf (fs.walk left (fs.base d path) (components path))

/-- Where the last name of a path stands, and how many links may still be followed there. -/
inductive Located where
  | slot (s : Slot) (left : ℕ)
  | missing
  | loop
  deriving DecidableEq, Repr

/-- The slot of a path that ends in a name of its own. -/
def locate (fs : FileSystem β) (path : List Char) : Located :=
  match (components path).getLast? with
  | none => .missing
  | some name =>
    if name = dot ∨ name = dotDot then .missing
    else
      match fs.walk fs.symloopMax (fs.base fs.cwd path) (components path).dropLast with
      | .found d left => if fs.isDir d then .slot ⟨d, name⟩ left else .missing
      | .missing => .missing
      | .loop => .loop

def isSymlink (fs : FileSystem β) (path : List Char) : Option Bool :=
  match fs.locate path with
  | .slot s _ =>
    match (fs.entry s).bind fs.node with
    | some (.link _) => some true
    | _ => some false
  | .missing => some false
  | .loop => none

/-! ### Changes -/

/-- `remove` of a path that ends in a name of its own. A directory must be empty. -/
def remove (fs : FileSystem β) (path : List Char) : Option (FileSystem β) :=
  match fs.locate path with
  | .slot s _ =>
    match fs.entry s with
    | none => some fs
    | some i =>
      if fs.isDir i ∧ fs.entries.any (·.1.dir = i) then none else some (fs.erase s)
  | .missing => if fs.status path = .missing then some fs else none
  | .loop => none

/-- A new node at a path where there is nothing. -/
def create (fs : FileSystem β) (path : List Char) (n : Node β) : Option (FileSystem β) :=
  match fs.locate path with
  | .slot s _ => if fs.entry s = none then some (fs.add s n) else none
  | _ => none

def createSymlink (fs : FileSystem β) (target link : List Char) : Option (FileSystem β) :=
  fs.create link (.link target)

/-- `copy_file`, which may overwrite. -/
def copyFile (fs : FileSystem β) (src dst : List Char) : Option (FileSystem β) :=
  (fs.read src).bind fun content =>
    match fs.status dst with
    | .found i _ =>
      match fs.node i with
      | some (.file _) =>
        if fs.equivalent src dst then none
        else some { fs with nodes := put fs.nodes i (.file content) }
      | _ => none
    | .missing => fs.create dst (.file content)
    | .loop => none

/-- Make the directories that are not there on a way, of which `done` is there. -/
def makeAlong (fs : FileSystem β) (start : ℕ) (done : List (List Char)) :
    List (List Char) → Option (FileSystem β)
  | [] => some fs
  | name :: ahead =>
    match fs.walk fs.symloopMax start (done ++ [name]) with
    | .found i _ => if fs.isDir i then fs.makeAlong start (done ++ [name]) ahead else none
    | .missing =>
      match fs.walk fs.symloopMax start done with
      | .found d _ =>
        if fs.isDir d ∧ fs.entry ⟨d, name⟩ = none then
          (fs.add ⟨d, name⟩ (.dir d)).makeAlong start (done ++ [name]) ahead
        else none
      | _ => none
    | .loop => none

def createDirectories (fs : FileSystem β) (path : List Char) : Option (FileSystem β) :=
  if path = [] then none else fs.makeAlong (fs.base fs.cwd path) [] (components path)

variable {fs fs' : FileSystem β} {left d m p : ℕ} {name : List Char} {ahead : List (List Char)}
  {w v : Walker}

/-! ### The walk and its steps -/

theorem walk_nil : fs.walk left d [] = .found d left := by cases left <;> rfl

/-- A walk follows the link that it comes to, if it may. -/
def followed (fs : FileSystem β) (left d : ℕ) (path : List Char) (ahead : List (List Char)) :
    Walked :=
  match left with
  | 0 => .loop
  | left + 1 => fs.walk left (fs.base d path) (components path ++ ahead)

theorem walk_cons : fs.walk left d (name :: ahead) =
    match fs.node d with
    | some (.dir parent) =>
      if name = dot then fs.walk left d ahead
      else if name = dotDot then fs.walk left parent ahead
      else
        match fs.entry ⟨d, name⟩ with
        | none => .missing
        | some i =>
          match fs.node i with
          | none => .missing
          | some (.link path) => fs.followed left d path ahead
          | some _ => fs.walk left i ahead
    | _ => .missing := by
  cases left <;> rfl

/-- A step does not change where a walk ends. -/
theorem walk_step (hs : fs.Step w v) :
    fs.walk w.left w.here w.ahead = fs.walk v.left v.here v.ahead := by
  cases hs with
  | dot hd => simp only [walk_cons, hd, if_pos]
  | up hd =>
    have hne : dotDot ≠ dot := by decide
    simp only [walk_cons, hd, if_neg hne, if_pos]
  | down hd h1 h2 he hn hl =>
    rw [walk_cons, hd]
    simp only [if_neg h1, if_neg h2, he, hn]
  | follow hd h1 h2 he hn =>
    rw [walk_cons, hd]
    simp only [if_neg h1, if_neg h2, he, hn]
    rfl

theorem Walks.walk_eq (hw : fs.Walks w v) :
    fs.walk w.left w.here w.ahead = fs.walk v.left v.here v.ahead := by
  induction hw with
  | refl => rfl
  | tail _ hs ih => exact ih.trans (walk_step hs)

/-- A walk that finds something goes on with a step, over the name or along a link. -/
theorem exists_step (h : fs.walk left d (name :: ahead) = .found p m) :
    ∃ v, fs.Step ⟨left, d, name :: ahead⟩ v ∧ (v.left < left ∨ v.left = left ∧ v.ahead = ahead) := by
  rw [walk_cons] at h
  split at h
  case h_2 => cases h
  case h_1 parent hd =>
    split_ifs at h with hdot hup
    · subst hdot
      exact ⟨_, .dot hd, .inr ⟨rfl, rfl⟩⟩
    · subst hup
      exact ⟨_, .up hd, .inr ⟨rfl, rfl⟩⟩
    · split at h
      · cases h
      · rename_i i he
        split at h
        · cases h
        · rename_i path hn
          cases left with
          | zero => cases h
          | succ left => exact ⟨_, .follow hd hdot hup he hn, .inl (Nat.lt_succ_self left)⟩
        · rename_i n hlink hn
          exact ⟨_, .down hd hdot hup he hn hlink, .inr ⟨rfl, rfl⟩⟩

theorem walk_eq_found_iff :
    fs.walk left d ahead = .found p m ↔ fs.Walks ⟨left, d, ahead⟩ ⟨m, p, []⟩ := by
  constructor
  · intro h
    induction left using Nat.strong_induction_on generalizing d ahead with
    | _ left ihl =>
      induction ahead generalizing d with
      | nil =>
        rw [walk_nil] at h
        cases h
        exact .refl
      | cons name ahead iha =>
        obtain ⟨⟨left', d', ahead'⟩, hs, hless⟩ := exists_step h
        rw [walk_step hs] at h
        rcases hless with hlt | ⟨rfl, rfl⟩
        · exact .head hs (ihl left' hlt h)
        · exact .head hs (iha h)
  · intro hw
    rw [hw.walk_eq]
    exact walk_nil

/-- A way that is there may be too long for the links allowed, but it is not missing. -/
theorem Walks.walk_ne_missing (hw : fs.Walks w ⟨m, p, []⟩) (n : ℕ) :
    fs.walk n w.here w.ahead ≠ .missing := by
  induction hw using ReflTransGen.head_induction_on generalizing n with
  | refl =>
    rw [walk_nil]
    exact nofun
  | head hs _ ih =>
    cases hs with
    | @dot _ here _ ahead hd =>
      have hstep : fs.walk n here (dot :: ahead) = fs.walk n here ahead := walk_step (.dot hd)
      exact hstep ▸ ih n
    | @up _ here parent ahead hd =>
      have hstep : fs.walk n here (dotDot :: ahead) = fs.walk n parent ahead := walk_step (.up hd)
      exact hstep ▸ ih n
    | @down _ here _ i name ahead _ hd h1 h2 he hn hl =>
      have hstep : fs.walk n here (name :: ahead) = fs.walk n i ahead :=
        walk_step (.down hd h1 h2 he hn hl)
      exact hstep ▸ ih n
    | @follow _ here _ _ name path ahead hd h1 h2 he hn =>
      cases n with
      | zero =>
        rw [walk_cons, hd]
        simp only [if_neg h1, if_neg h2, he, hn]
        exact nofun
      | succ n =>
        have hstep : fs.walk (n + 1) here (name :: ahead) =
            fs.walk n (fs.base here path) (components path ++ ahead) :=
          walk_step (.follow hd h1 h2 he hn)
        exact hstep ▸ ih n

/-! ### Paths -/

variable {path : List Char} {s : Slot} {content : β} {n : Node β}

/-- The walk of a path. -/
def start (fs : FileSystem β) (path : List Char) : Walker :=
  ⟨fs.symloopMax, fs.base fs.cwd path, components path⟩

theorem Extends.start (h : fs.Extends fs') : fs'.start path = fs.start path := by
  rw [FileSystem.start, FileSystem.start, h.symloopMax, h.cwd, h.base]

theorem status_eq_found_iff :
    fs.status path = .found p m ↔ path ≠ [] ∧ fs.Walks (fs.start path) ⟨m, p, []⟩ := by
  rw [status]
  split_ifs with hpath
  · exact iff_of_false nofun fun h => h.1 hpath
  · exact walk_eq_found_iff.trans (and_iff_right hpath).symm

theorem isDir_iff {i : ℕ} : fs.isDir i ↔ ∃ parent, fs.node i = some (.dir parent) := by
  unfold isDir
  split
  · rename_i parent hn
    exact iff_of_true rfl ⟨parent, hn⟩
  · rename_i hnot
    exact iff_of_false Bool.false_ne_true fun ⟨parent, hn⟩ => hnot parent hn

theorem contentOf_eq_some_iff {r : Walked} : fs.contentOf r = some content ↔
    ∃ p m, r = .found p m ∧ fs.node p = some (.file content) := by
  constructor
  · intro h
    unfold contentOf at h
    split at h
    · rename_i i left
      split at h
      · rename_i content' hn
        cases h
        exact ⟨i, left, rfl, hn⟩
      · cases h
    · cases h
  · rintro ⟨p, m, rfl, hn⟩
    simp only [contentOf, hn]

theorem read_eq_some_iff : fs.read path = some content ↔ path ≠ [] ∧
    ∃ p m, fs.Walks (fs.start path) ⟨m, p, []⟩ ∧ fs.node p = some (.file content) := by
  simp only [read, contentOf_eq_some_iff, status_eq_found_iff, and_assoc, exists_and_left]

theorem readFrom_eq_some_iff : fs.readFrom left d path = some content ↔
    ∃ p m, fs.Walks ⟨left, fs.base d path, components path⟩ ⟨m, p, []⟩ ∧
      fs.node p = some (.file content) := by
  simp only [readFrom, contentOf_eq_some_iff, walk_eq_found_iff]

/-- What can be read stays what it is. -/
theorem Extends.read (h : fs.Extends fs') (hr : fs.read path = some content) :
    fs'.read path = some content := by
  obtain ⟨hpath, p, m, hw, hn⟩ := read_eq_some_iff.mp hr
  exact read_eq_some_iff.mpr ⟨hpath, p, m, h.start ▸ hw.extend h, h.node p _ hn⟩

theorem locate_eq_slot_iff : fs.locate path = .slot s left ↔
    s.name ≠ dot ∧ s.name ≠ dotDot ∧ (∃ parent, fs.node s.dir = some (.dir parent)) ∧
      ∃ front, components path = front ++ [s.name] ∧
        fs.Walks ⟨fs.symloopMax, fs.base fs.cwd path, front⟩ ⟨left, s.dir, []⟩ := by
  constructor
  · intro h
    unfold locate at h
    split at h
    · cases h
    · rename_i name hlast
      obtain ⟨front, hfront⟩ := List.getLast?_eq_some_iff.mp hlast
      split_ifs at h with hdots
      rw [hfront, List.dropLast_concat] at h
      split at h
      · rename_i d k hwalk
        split_ifs at h with hd
        cases h
        exact ⟨fun h1 => hdots (.inl h1), fun h2 => hdots (.inr h2), isDir_iff.mp hd, front, hfront,
          walk_eq_found_iff.mp hwalk⟩
      · cases h
      · cases h
  · rintro ⟨h1, h2, hd, front, hfront, hw⟩
    simp only [locate, hfront, List.getLast?_concat, List.dropLast_concat, h1, h2, or_self, if_false,
      walk_eq_found_iff.mpr hw, isDir_iff.mpr hd, if_true]

theorem walks_of_locate (h : fs.locate path = .slot s left) :
    fs.Walks (fs.start path) ⟨left, s.dir, [s.name]⟩ := by
  obtain ⟨-, -, -, front, hfront, hw⟩ := locate_eq_slot_iff.mp h
  rw [start, hfront]
  exact hw.followedBy [s.name]

theorem Extends.locate (h : fs.Extends fs') (hl : fs.locate path = .slot s left) :
    fs'.locate path = .slot s left := by
  obtain ⟨h1, h2, ⟨parent, hd⟩, front, hfront, hw⟩ := locate_eq_slot_iff.mp hl
  refine locate_eq_slot_iff.mpr ⟨h1, h2, ⟨parent, h.node _ _ hd⟩, front, hfront, ?_⟩
  rw [h.symloopMax, h.cwd, h.base]
  exact hw.extend h

theorem path_ne_nil_of_locate (h : fs.locate path = .slot s left) : path ≠ [] := by
  obtain ⟨-, -, -, front, hfront, -⟩ := locate_eq_slot_iff.mp h
  rintro rfl
  exact absurd hfront.symm (List.append_ne_nil_of_right_ne_nil _ (List.cons_ne_nil _ _))

/-- Nothing is found where the slot of the last name is empty. -/
theorem status_ne_found (h : fs'.Extends fs) (hl : fs.locate path = .slot s left)
    (hnone : fs'.entry s = none) : fs'.status path ≠ .found p m := by
  intro hfound
  obtain ⟨dir, name⟩ := s
  obtain ⟨h1, h2, -, front, hfront, hw⟩ := locate_eq_slot_iff.mp hl
  have hpath := (status_eq_found_iff.mp hfound).2
  rw [start, hfront] at hpath
  obtain ⟨k, q, hfirst, hlast⟩ := hpath.split
  rw [h.symloopMax, h.cwd, h.base] at hw
  obtain ⟨rfl, -⟩ := hw.end_unique (hfirst.extend h)
  rcases ReflTransGen.cases_head hlast with heq | ⟨v, hs, -⟩
  · cases heq
  · cases hs with
    | dot => exact h1 rfl
    | up => exact h2 rfl
    | down _ _ _ he | follow _ _ _ he => cases hnone.symm.trans he

/-! ### What the changes leave -/

theorem remove_eq_some (h : fs.remove path = some fs') :
    (∃ s left, fs.locate path = .slot s left ∧ fs'.entry s = none ∧
      (fs' = fs ∨ fs' = fs.erase s)) ∨ fs.status path = .missing ∧ fs' = fs := by
  unfold remove at h
  split at h
  · rename_i s left hl
    split at h
    · rename_i hnone
      cases h
      exact .inl ⟨s, left, hl, hnone, .inl rfl⟩
    · split_ifs at h
      cases h
      exact .inl ⟨s, left, hl, entry_erase_self, .inr rfl⟩
  · split_ifs at h with hmissing
    cases h
    exact .inr ⟨hmissing, rfl⟩
  · cases h

theorem create_eq_some (h : fs.create path n = some fs') :
    ∃ s left, fs.locate path = .slot s left ∧ fs.entry s = none ∧ fs' = fs.add s n := by
  unfold create at h
  split at h
  · rename_i s left hl
    split_ifs at h with hnone
    cases h
    exact ⟨s, left, hl, hnone, rfl⟩
  · cases h

theorem copyFile_eq_some {src dst : List Char} (h : fs.copyFile src dst = some fs')
    (hdst : ∀ p m, fs.status dst ≠ .found p m) :
    ∃ content, fs.read src = some content ∧ fs.create dst (.file content) = some fs' := by
  obtain ⟨content, hread, h⟩ := Option.bind_eq_some_iff.mp h
  split at h
  · exact absurd ‹_› (hdst _ _)
  · exact ⟨content, hread, h⟩
  · cases h

/-- A new file is read by its path. -/
theorem read_add_file (hl : fs.locate path = .slot s left) (hnone : fs.entry s = none) :
    (fs.add s (.file content)).read path = some content := by
  have hext : fs.Extends (fs.add s (.file content)) := extends_add hnone
  have hl' := hext.locate hl
  obtain ⟨h1, h2, ⟨parent, hd⟩, -⟩ := locate_eq_slot_iff.mp hl'
  refine read_eq_some_iff.mpr ⟨path_ne_nil_of_locate hl, fs.fresh, left, ?_, node_add_fresh⟩
  exact (walks_of_locate hl').tail (.down hd h1 h2 entry_add_self node_add_fresh nofun)

theorem node_of_node_add_link {target : List Char} {i : ℕ}
    (h : (fs.add s (.link target)).node i = some (.file content)) :
    fs.node i = some (.file content) := by
  by_cases hi : i = fs.fresh
  · subst hi
    cases node_add_fresh.symm.trans h
  · rwa [node_add_of_ne hi] at h

/-- A new link is read by its path as what it points to, from its own directory and with one link
less, without the link. -/
theorem read_add_link_iff {target : List Char} (hl : fs.locate path = .slot s left)
    (hnone : fs.entry s = none) :
    (fs.add s (.link target)).read path = some content ↔
      ∃ k, left = k + 1 ∧ fs.readFrom k s.dir target = some content := by
  obtain ⟨dir, name⟩ := s
  have hext : fs.Extends (fs.add ⟨dir, name⟩ (.link target)) := extends_add hnone
  have hl' := hext.locate hl
  obtain ⟨h1, h2, ⟨parent, hd⟩, -⟩ := locate_eq_slot_iff.mp hl'
  constructor
  · intro h
    obtain ⟨-, p, m, hw, hn⟩ := read_eq_some_iff.mp h
    rcases ReflTransGen.cases_head (hw.passes (walks_of_locate hl')) with heq | ⟨v, hs, hrest⟩
    · cases heq
    · cases hs with
      | dot => exact absurd rfl h1
      | up => exact absurd rfl h2
      | down _ _ _ he hn' hlink =>
        cases entry_add_self.symm.trans he
        exact absurd (Option.some.inj (hn'.symm.trans node_add_fresh)) (hlink target)
      | @follow k _ _ _ _ _ _ _ _ _ he hn' =>
        cases entry_add_self.symm.trans he
        cases node_add_fresh.symm.trans hn'
        obtain ⟨k', q, hown, hback⟩ := Walks.of_add_own hnone hrest
        obtain ⟨rfl, -⟩ := hback.end_unique .refl
        exact ⟨k, rfl, readFrom_eq_some_iff.mpr ⟨_, k', hown, node_of_node_add_link hn⟩⟩
  · rintro ⟨k, rfl, h⟩
    obtain ⟨p, m, hw, hn⟩ := readFrom_eq_some_iff.mp h
    refine read_eq_some_iff.mpr ⟨path_ne_nil_of_locate hl, p, m, ?_, hext.node _ _ hn⟩
    refine (walks_of_locate hl').trans (.head (.follow hd h1 h2 entry_add_self node_add_fresh) ?_)
    rw [List.append_nil]
    exact hw.extend hext

/-- Beside a link to a file, a path reads what it read before, or the name of the link is the last
on its way. -/
theorem read_add_link_cases {target src : List Char} {k : ℕ} {content' : β}
    (hnone : fs.entry s = none) (hown : fs.readFrom k s.dir target = some content')
    (h : (fs.add s (.link target)).read src = some content) :
    fs.read src = some content ∨
      ∃ left, fs.Walks (fs.start src) ⟨left, s.dir, [s.name]⟩ := by
  have hext : fs.Extends (fs.add s (.link target)) := extends_add hnone
  obtain ⟨hsrc, p, m, hw, hn⟩ := read_eq_some_iff.mp h
  rcases Walks.of_add hw with hold | ⟨left, ahead, hmeet, hon⟩
  · exact .inl (read_eq_some_iff.mpr ⟨hsrc, p, m, hold, node_of_node_add_link hn⟩)
  · obtain ⟨k', q, hfirst, hlast⟩ := Walks.of_add_own hnone hon
    obtain ⟨f, m', hf, hnf⟩ := readFrom_eq_some_iff.mp hown
    obtain ⟨rfl, -⟩ := hfirst.end_eq hf
    cases ahead with
    | nil => exact .inr ⟨left + 1, hmeet⟩
    | cons name ahead =>
      -- nothing lies below a file
      have hfile := hext.node _ _ hnf
      rcases ReflTransGen.cases_head hlast with heq | ⟨v, hs, -⟩
      · cases heq
      · cases hs with
        | dot hd | up hd | down hd | follow hd => cases hfile.symm.trans hd

/-- Two paths are equivalent if the slot of the one is the last on the way of the other. -/
theorem equivalent_of_walks {target src : List Char} {k : ℕ} {there : Bool} (hsrc : src ≠ [])
    (hw : fs.Walks (fs.start src) ⟨m, p, []⟩)
    (hmeet : fs.Walks (fs.start src) ⟨k, s.dir, [s.name]⟩) (hl : fs.locate target = .slot s left)
    (hthere : fs.pathExists target = some there) :
    there = true ∧ fs.equivalent src target := by
  have hon := hw.passes hmeet
  have htarget := path_ne_nil_of_locate hl
  have hstatus : fs.status target = fs.walk left s.dir [s.name] := by
    rw [status, if_neg htarget]
    exact (walks_of_locate hl).walk_eq
  have hfound : fs.status src = .found p m := status_eq_found_iff.mpr ⟨hsrc, hw⟩
  unfold pathExists at hthere
  split at hthere
  · rename_i i k' hi
    cases hthere
    obtain ⟨rfl, -⟩ := hon.end_eq (walk_eq_found_iff.mp (hstatus.symm.trans hi))
    simp only [equivalent, hfound, hi, decide_true, and_self]
  · rename_i hmissing
    exact absurd (hstatus.symm.trans hmissing) (hon.walk_ne_missing left)
  · cases hthere

/-! ### Directories -/

/-- A file system with more directories, all on one way. -/
structure Grown (fs fs' : FileSystem β) (start : ℕ) (way : List (List Char)) : Prop
    extends fs.Extends fs' where
  made : ∀ s i, fs.entry s = none → fs'.entry s = some i →
    fs.node i = none ∧ fs'.node i = some (.dir s.dir) ∧
      ∃ q k, q <+: way ∧ fs'.Walks ⟨fs.symloopMax, start, q⟩ ⟨k, i, []⟩

theorem Grown.refl (fs : FileSystem β) (start : ℕ) (way : List (List Char)) :
    fs.Grown fs start way where
  toExtends := .refl fs
  made _ _ hnone hi := nomatch hnone.symm.trans hi

theorem node_fresh : fs.node fs.fresh = none :=
  Option.eq_none_iff_forall_ne_some.mpr fun _ hn => ne_fresh_of_node hn rfl

/-- A new directory and the rest of the way. -/
theorem Grown.of_add {start k : ℕ} {done : List (List Char)} (hnone : fs.entry ⟨d, name⟩ = none)
    (hdone : fs.Walks ⟨fs.symloopMax, start, done⟩ ⟨k, d, []⟩)
    (hstep : (fs.add ⟨d, name⟩ (.dir d)).Step ⟨k, d, [name]⟩ ⟨k, fs.fresh, []⟩)
    (h : (fs.add ⟨d, name⟩ (.dir d)).Grown fs' start (done ++ [name] ++ ahead)) :
    fs.Grown fs' start (done ++ [name] ++ ahead) where
  toExtends := (extends_add hnone).trans h.toExtends
  made s i hs hi := by
    have hext : fs.Extends (fs.add ⟨d, name⟩ (.dir d)) := extends_add hnone
    by_cases heq : s = ⟨d, name⟩
    · subst heq
      cases (h.entry _ _ entry_add_self).symm.trans hi
      refine ⟨node_fresh, h.node _ _ node_add_fresh, done ++ [name], k,
        List.prefix_append _ _, ?_⟩
      have hfirst := (hdone.extend hext).followedBy [name]
      exact Walks.extend h.toExtends (.tail hfirst hstep)
    · obtain ⟨hn, hmade⟩ := h.made s i ((entry_add_of_ne heq).trans hs) hi
      refine ⟨Option.eq_none_iff_forall_ne_some.mpr fun n hn' => ?_, hmade⟩
      cases hn.symm.trans (hext.node i n hn')

theorem makeAlong_grown {start : ℕ} {done : List (List Char)}
    (h : fs.makeAlong start done ahead = some fs') : fs.Grown fs' start (done ++ ahead) := by
  induction ahead generalizing fs done with
  | nil =>
    cases h
    exact .refl _ start _
  | cons name ahead ih =>
    have hway : done ++ name :: ahead = done ++ [name] ++ ahead := List.append_cons done name ahead
    rw [hway]
    unfold makeAlong at h
    split at h
    · split_ifs at h
      exact ih h
    · rename_i hmissing
      split at h
      · rename_i d k hdone
        split_ifs at h with hd
        obtain ⟨parent, hdir⟩ := isDir_iff.mp hd.1
        have hwalks := walk_eq_found_iff.mp hdone
        -- the directory itself and the one above it are not missing
        have hlast : fs.walk k d [name] = .missing :=
          (hwalks.followedBy [name]).walk_eq.symm.trans hmissing
        rw [walk_cons, hdir] at hlast
        have h1 : name ≠ dot := fun h1 => by simp [h1, walk_nil] at hlast
        have h2 : name ≠ dotDot := fun h2 => by
          simp [h2, walk_nil, show dotDot ≠ dot by decide] at hlast
        have hnode : (fs.add ⟨d, name⟩ (.dir d)).node d = some (.dir parent) :=
          (extends_add hd.2).node _ _ hdir
        exact .of_add hd.2 hwalks
          (.down hnode h1 h2 entry_add_self node_add_fresh nofun) (ih h)
      · cases h
    · cases h

theorem createDirectories_grown (h : fs.createDirectories path = some fs') :
    fs.Grown fs' (fs.base fs.cwd path) (components path) := by
  unfold createDirectories at h
  split_ifs at h
  have hgrown := makeAlong_grown h
  exact hgrown

end GramsTof.Lib.FileSystem
