import GramsTof.Lib.Paths
import GramsTof.Lib.Registry
import Mathlib.Logic.Relation

/-! A POSIX file system as one process sees it: numbered nodes, the names under which directories
hold them, and symbolic links that are followed from the directory they lie in. Names lead from
node to node step by step; what exists already leads where it led when something is added. -/

namespace GramsTof.Lib

open Paths Registry Relation

/-- A directory knows the one above it. -/
inductive Node (β : Type*) where
  | dir (parent : ℕ)
  | file (content : β)
  | link (path : List Char)
  deriving DecidableEq, Repr

/-- A name in a directory. -/
structure Slot where
  dir : ℕ
  name : List Char
  deriving DecidableEq, Repr

structure FileSystem (β : Type*) where
  nodes : List (ℕ × Node β)
  entries : List (Slot × ℕ)
  root : ℕ
  cwd : ℕ
  /-- How many links may be followed on one way. -/
  symloopMax : ℕ
  deriving DecidableEq, Repr

namespace FileSystem

variable {β : Type*}

def node (fs : FileSystem β) (i : ℕ) : Option (Node β) := fs.nodes.lookup i

def entry (fs : FileSystem β) (s : Slot) : Option ℕ := fs.entries.lookup s

/-- Where a path begins, read from a directory. -/
def base (fs : FileSystem β) (d : ℕ) (path : List Char) : ℕ :=
  if path.head? = some '/' then fs.root else d

/-! ### Steps of a walk -/

/-- A walk on its way: how many links it may still follow, where it is, and the names ahead. -/
structure Walker where
  left : ℕ
  here : ℕ
  ahead : List (List Char)
  deriving DecidableEq, Repr

namespace Walker

/-- With more names after those ahead. -/
def followedBy (w : Walker) (rest : List (List Char)) : Walker := ⟨w.left, w.here, w.ahead ++ rest⟩

/-- With more links allowed. -/
def allowing (w : Walker) (k : ℕ) : Walker := ⟨w.left + k, w.here, w.ahead⟩

end Walker

/-- A step takes the next name. -/
inductive Step (fs : FileSystem β) : Walker → Walker → Prop
  | dot {left here parent : ℕ} {ahead : List (List Char)} : fs.node here = some (.dir parent) →
      Step fs ⟨left, here, dot :: ahead⟩ ⟨left, here, ahead⟩
  | up {left here parent : ℕ} {ahead : List (List Char)} : fs.node here = some (.dir parent) →
      Step fs ⟨left, here, dotDot :: ahead⟩ ⟨left, parent, ahead⟩
  | down {left here parent i : ℕ} {name : List Char} {ahead : List (List Char)} {n : Node β} :
      fs.node here = some (.dir parent) → name ≠ Paths.dot → name ≠ dotDot →
      fs.entry ⟨here, name⟩ = some i → fs.node i = some n → (∀ path, n ≠ .link path) →
      Step fs ⟨left, here, name :: ahead⟩ ⟨left, i, ahead⟩
  | follow {left here parent i : ℕ} {name path : List Char} {ahead : List (List Char)} :
      fs.node here = some (.dir parent) → name ≠ Paths.dot → name ≠ dotDot →
      fs.entry ⟨here, name⟩ = some i → fs.node i = some (.link path) →
      Step fs ⟨left + 1, here, name :: ahead⟩ ⟨left, fs.base here path, components path ++ ahead⟩

/-- What exists stays as it is. -/
structure Extends (fs fs' : FileSystem β) : Prop where
  node : ∀ i n, fs.node i = some n → fs'.node i = some n
  entry : ∀ s i, fs.entry s = some i → fs'.entry s = some i
  root : fs'.root = fs.root
  cwd : fs'.cwd = fs.cwd
  symloopMax : fs'.symloopMax = fs.symloopMax

/-- The steps of a walk. -/
abbrev Walks (fs : FileSystem β) : Walker → Walker → Prop := ReflTransGen fs.Step

variable {fs fs' fs'' : FileSystem β} {w v : Walker} {left left' here here' m p k d : ℕ}
  {ahead ahead' rest : List (List Char)}

theorem Extends.refl (fs : FileSystem β) : fs.Extends fs :=
  ⟨fun _ _ h => h, fun _ _ h => h, rfl, rfl, rfl⟩

theorem Extends.trans (h : fs.Extends fs') (h' : fs'.Extends fs'') : fs.Extends fs'' where
  node i n hn := h'.node i n (h.node i n hn)
  entry s i hi := h'.entry s i (h.entry s i hi)
  root := h'.root.trans h.root
  cwd := h'.cwd.trans h.cwd
  symloopMax := h'.symloopMax.trans h.symloopMax

theorem Extends.base (h : fs.Extends fs') (d : ℕ) (path : List Char) :
    fs'.base d path = fs.base d path := by
  rw [FileSystem.base, FileSystem.base, h.root]

theorem Step.extend (h : fs.Extends fs') (hs : fs.Step w v) : fs'.Step w v := by
  cases hs with
  | dot hd => exact .dot (h.node _ _ hd)
  | up hd => exact .up (h.node _ _ hd)
  | down hd h1 h2 he hn hl =>
    exact .down (h.node _ _ hd) h1 h2 (h.entry _ _ he) (h.node _ _ hn) hl
  | follow hd h1 h2 he hn =>
    rw [← h.base]
    exact .follow (h.node _ _ hd) h1 h2 (h.entry _ _ he) (h.node _ _ hn)

theorem Walks.extend (h : fs.Extends fs') (hw : fs.Walks w v) : fs'.Walks w v :=
  hw.lift id fun _ _ hs => hs.extend h

theorem Step.unique {u : Walker} (hs : fs.Step w v) (hs' : fs.Step w u) : v = u := by
  cases hs with
  | dot hd =>
    cases hs' with
    | dot => rfl
    | down _ h1 | follow _ h1 => exact absurd rfl h1
  | up hd =>
    cases hs' with
    | up hd' => rw [hd] at hd'; cases hd'; rfl
    | down _ _ h2 | follow _ _ h2 => exact absurd rfl h2
  | down hd h1 h2 he hn hl =>
    cases hs' with
    | dot => exact absurd rfl h1
    | up => exact absurd rfl h2
    | down _ _ _ he' => rw [he] at he'; cases he'; rfl
    | follow _ _ _ he' hn' =>
      rw [he] at he'
      cases he'
      exact absurd (Option.some.inj (hn.symm.trans hn')) (hl _)
  | follow hd h1 h2 he hn =>
    cases hs' with
    | dot => exact absurd rfl h1
    | up => exact absurd rfl h2
    | down _ _ _ he' hn' hl =>
      rw [he] at he'
      cases he'
      exact absurd (Option.some.inj (hn'.symm.trans hn)) (hl _)
    | follow _ _ _ he' hn' =>
      rw [he] at he'
      cases he'
      rw [hn] at hn'
      cases hn'
      rfl

/-- Names further ahead do not matter for a step. -/
theorem Step.followedBy (hs : fs.Step w v) (rest : List (List Char)) :
    fs.Step (w.followedBy rest) (v.followedBy rest) := by
  cases hs with
  | dot hd => exact .dot hd
  | up hd => exact .up hd
  | down hd h1 h2 he hn hl => exact .down hd h1 h2 he hn hl
  | follow hd h1 h2 he hn =>
    rw [Walker.followedBy, Walker.followedBy, List.append_assoc]
    exact .follow hd h1 h2 he hn

/-- Nor do links that may be followed beyond those that are. -/
theorem Step.allowing (hs : fs.Step w v) (k : ℕ) : fs.Step (w.allowing k) (v.allowing k) := by
  cases hs with
  | dot hd => exact .dot hd
  | up hd => exact .up hd
  | down hd h1 h2 he hn hl => exact .down hd h1 h2 he hn hl
  | follow hd h1 h2 he hn =>
    rw [Walker.allowing, Nat.add_right_comm]
    exact .follow hd h1 h2 he hn

theorem Step.left_le (hs : fs.Step w v) : v.left ≤ w.left := by
  cases hs with
  | dot | up | down => exact le_rfl
  | follow => exact Nat.le_succ _

theorem not_step_end : ¬ fs.Step ⟨left, here, []⟩ v := nofun

theorem Walks.followedBy (hw : fs.Walks w v) (rest : List (List Char)) :
    fs.Walks (w.followedBy rest) (v.followedBy rest) :=
  hw.lift (Walker.followedBy · rest) fun _ _ hs => hs.followedBy rest

theorem Walks.allowing (hw : fs.Walks w v) (k : ℕ) : fs.Walks (w.allowing k) (v.allowing k) :=
  hw.lift (Walker.allowing · k) fun _ _ hs => hs.allowing k

theorem Walks.left_le (hw : fs.Walks w v) : v.left ≤ w.left := by
  induction hw with
  | refl => exact le_rfl
  | tail _ hs ih => exact hs.left_le.trans ih

/-- A walk that comes to its end passes every point that it reaches. -/
theorem Walks.passes (hw : fs.Walks w ⟨m, p, []⟩) (hv : fs.Walks w v) : fs.Walks v ⟨m, p, []⟩ := by
  have hunique : Relator.RightUnique fs.Step := fun _ _ _ => Step.unique
  rcases ReflTransGen.total_of_right_unique hunique hw hv with hend | hon
  · rcases ReflTransGen.cases_head hend with rfl | ⟨u, hs, -⟩
    · exact .refl
    · exact absurd hs not_step_end
  · exact hon

theorem Walks.end_unique {m' p' : ℕ} (hw : fs.Walks w ⟨m, p, []⟩) (hw' : fs.Walks w ⟨m', p', []⟩) :
    p = p' ∧ m = m' := by
  rcases ReflTransGen.cases_head (hw.passes hw') with heq | ⟨u, hs, -⟩
  · cases heq; exact ⟨rfl, rfl⟩
  · exact absurd hs not_step_end

/-- The end does not depend on how many links may be followed. -/
theorem Walks.end_eq {n n' m' p' : ℕ} (hw : fs.Walks ⟨n, d, ahead⟩ ⟨m, p, []⟩)
    (hw' : fs.Walks ⟨n', d, ahead⟩ ⟨m', p', []⟩) : p = p' ∧ n + m' = n' + m := by
  have hmore : fs.Walks ⟨n + n', d, ahead⟩ ⟨m + n', p, []⟩ := hw.allowing n'
  have hmore' : fs.Walks ⟨n' + n, d, ahead⟩ ⟨m' + n, p', []⟩ := hw'.allowing n
  obtain ⟨heq, hleft⟩ := hmore.end_unique (Nat.add_comm n n' ▸ hmore')
  exact ⟨heq, by omega⟩

theorem Step.of_followedBy {name : List Char}
    (hs : fs.Step ⟨left, here, name :: (ahead ++ rest)⟩ v) :
    ∃ u, fs.Step ⟨left, here, name :: ahead⟩ u ∧ v = u.followedBy rest := by
  cases hs with
  | dot hd => exact ⟨_, .dot hd, rfl⟩
  | up hd => exact ⟨_, .up hd, rfl⟩
  | down hd h1 h2 he hn hl => exact ⟨_, .down hd h1 h2 he hn hl, rfl⟩
  | follow hd h1 h2 he hn =>
    refine ⟨_, .follow hd h1 h2 he hn, ?_⟩
    rw [Walker.followedBy, List.append_assoc]

/-- A walk along a path is one along its beginning, and on from there. -/
theorem Walks.split (hw : fs.Walks ⟨left, here, ahead ++ rest⟩ ⟨m, p, []⟩) :
    ∃ k q, fs.Walks ⟨left, here, ahead⟩ ⟨k, q, []⟩ ∧ fs.Walks ⟨k, q, rest⟩ ⟨m, p, []⟩ := by
  suffices ∀ w, fs.Walks w ⟨m, p, []⟩ → ∀ u : Walker, w = u.followedBy rest →
      ∃ k q, fs.Walks u ⟨k, q, []⟩ ∧ fs.Walks ⟨k, q, rest⟩ ⟨m, p, []⟩ from
    this _ hw ⟨left, here, ahead⟩ rfl
  intro w hw
  induction hw using ReflTransGen.head_induction_on with
  | refl =>
    rintro ⟨l, h, a⟩ hu
    obtain ⟨rfl, rfl, hnil⟩ := Walker.mk.inj hu
    obtain ⟨rfl, rfl⟩ := List.nil_eq_append_iff.mp hnil
    exact ⟨_, _, .refl, .refl⟩
  | head hs hrest ih =>
    rintro ⟨l, h, a⟩ rfl
    cases a with
    | nil => exact ⟨l, h, .refl, .head hs hrest⟩
    | cons name a =>
      obtain ⟨u, hu, rfl⟩ := hs.of_followedBy
      obtain ⟨k, q, hfirst, hlast⟩ := ih u rfl
      exact ⟨k, q, .head hu hfirst, hlast⟩

/-! ### Changes of the directories -/

/-- A number that no node has and no entry gives. -/
def fresh (fs : FileSystem β) : ℕ :=
  (fs.nodes.map Prod.fst ++ fs.entries.map Prod.snd).foldr max 0 + 1

/-- A new node under a name that is not there yet. -/
def add (fs : FileSystem β) (s : Slot) (n : Node β) : FileSystem β :=
  { fs with nodes := (fs.fresh, n) :: fs.nodes, entries := (s, fs.fresh) :: fs.entries }

/-- The name goes; the node stays for those who have it by another. -/
def erase (fs : FileSystem β) (s : Slot) : FileSystem β :=
  { fs with entries := remove fs.entries s }

variable {s t : Slot} {n : Node β} {i : ℕ}

theorem lt_fresh {j : ℕ} (h : j ∈ fs.nodes.map Prod.fst ++ fs.entries.map Prod.snd) :
    j < fs.fresh := by
  have hle : ∀ l : List ℕ, ∀ j ∈ l, j ≤ l.foldr max 0 := by
    intro l
    induction l with
    | nil => exact fun j hj => absurd hj List.not_mem_nil
    | cons a l ih =>
      intro j hj
      rcases List.mem_cons.mp hj with rfl | hj
      · exact le_max_left _ _
      · exact (ih j hj).trans (le_max_right _ _)
  exact Nat.lt_succ_of_le (hle _ j h)

theorem ne_fresh_of_node (h : fs.node i = some n) : i ≠ fs.fresh := by
  have hmem : i ∈ fs.nodes.map Prod.fst := List.mem_map_of_mem (mem_of_lookup h)
  exact (lt_fresh (List.mem_append_left _ hmem)).ne

theorem ne_fresh_of_entry (h : fs.entry s = some i) : i ≠ fs.fresh := by
  have hmem : i ∈ fs.entries.map Prod.snd := List.mem_map.mpr ⟨(s, i), mem_of_lookup h, rfl⟩
  exact (lt_fresh (List.mem_append_right _ hmem)).ne

@[simp] theorem node_add_fresh : (fs.add s n).node fs.fresh = some n := List.lookup_cons_self

theorem node_add_of_ne (h : i ≠ fs.fresh) : (fs.add s n).node i = fs.node i := by
  rw [node, add, List.lookup_cons, beq_false_of_ne h, node]

@[simp] theorem entry_add_self : (fs.add s n).entry s = some fs.fresh := List.lookup_cons_self

theorem entry_add_of_ne (h : t ≠ s) : (fs.add s n).entry t = fs.entry t := by
  rw [entry, add, List.lookup_cons, beq_false_of_ne h, entry]

theorem extends_add (h : fs.entry s = none) : fs.Extends (fs.add s n) where
  node i n' hn := (node_add_of_ne (ne_fresh_of_node hn)).trans hn
  entry t i hi := by
    rw [entry_add_of_ne, hi]
    rintro rfl
    rw [h] at hi
    cases hi
  root := rfl
  cwd := rfl
  symloopMax := rfl

theorem entry_erase_of_ne (h : t ≠ s) : (fs.erase s).entry t = fs.entry t := lookup_remove_of_ne h

@[simp] theorem entry_erase_self : (fs.erase s).entry s = none := by
  refine Option.eq_none_iff_forall_ne_some.mpr fun i hi => ?_
  exact (mem_remove.mp (mem_of_lookup hi)).2 rfl

theorem erase_extends : (fs.erase s).Extends fs where
  node i n hn := hn
  entry t i hi := by
    by_cases heq : t = s
    · subst heq
      rw [entry_erase_self] at hi
      cases hi
    · rwa [entry_erase_of_ne heq] at hi
  root := rfl
  cwd := rfl
  symloopMax := rfl

/-! ### A new link -/

variable {path : List Char}

/-- A step beside a new link is one without it, or one that follows it. -/
theorem Step.of_add (hs : (fs.add s (.link path)).Step w v) :
    fs.Step w v ∨ ∃ left ahead, w = ⟨left + 1, s.dir, s.name :: ahead⟩ ∧
      v = ⟨left, fs.base s.dir path, components path ++ ahead⟩ := by
  have hdir {j parent : ℕ} (hj : (fs.add s (.link path)).node j = some (.dir parent)) :
      fs.node j = some (.dir parent) := by
    by_cases hne : j = fs.fresh
    · subst hne
      cases node_add_fresh.symm.trans hj
    · rwa [node_add_of_ne hne] at hj
  cases hs with
  | dot hd => exact .inl (.dot (hdir hd))
  | up hd => exact .inl (.up (hdir hd))
  | @down left here parent i name ahead n hd h1 h2 he hn hl =>
    by_cases hslot : (⟨here, name⟩ : Slot) = s
    · subst hslot
      cases entry_add_self.symm.trans he
      exact absurd (Option.some.inj (node_add_fresh.symm.trans hn)).symm (hl path)
    · rw [entry_add_of_ne hslot] at he
      rw [node_add_of_ne (ne_fresh_of_entry he)] at hn
      exact .inl (.down (hdir hd) h1 h2 he hn hl)
  | @follow left here parent i name path' ahead hd h1 h2 he hn =>
    by_cases hslot : (⟨here, name⟩ : Slot) = s
    · subst hslot
      cases entry_add_self.symm.trans he
      cases node_add_fresh.symm.trans hn
      exact .inr ⟨left, ahead, rfl, rfl⟩
    · rw [entry_add_of_ne hslot] at he
      rw [node_add_of_ne (ne_fresh_of_entry he)] at hn
      exact .inl (.follow (hdir hd) h1 h2 he hn)

theorem Walks.of_add (hw : (fs.add s (.link path)).Walks w ⟨m, p, []⟩) :
    fs.Walks w ⟨m, p, []⟩ ∨ ∃ left ahead, fs.Walks w ⟨left + 1, s.dir, s.name :: ahead⟩ ∧
      (fs.add s (.link path)).Walks ⟨left, fs.base s.dir path, components path ++ ahead⟩
        ⟨m, p, []⟩ := by
  induction hw using ReflTransGen.head_induction_on with
  | refl => exact .inl .refl
  | head hs hrest ih =>
    rcases hs.of_add with hold | ⟨left, ahead, rfl, rfl⟩
    · rcases ih with hend | ⟨left, ahead, hmeet, hon⟩
      · exact .inl (.head hold hend)
      · exact .inr ⟨left, ahead, .head hold hmeet, hon⟩
    · exact .inr ⟨left, ahead, .refl, hrest⟩

/-- The way to which a new link points does not pass the link itself, if it comes to an end. -/
theorem Walks.of_add_own (habsent : fs.entry s = none)
    (hw : (fs.add s (.link path)).Walks ⟨left, fs.base s.dir path, components path ++ ahead⟩
      ⟨m, p, []⟩) :
    ∃ k q, fs.Walks ⟨left, fs.base s.dir path, components path⟩ ⟨k, q, []⟩ ∧
      (fs.add s (.link path)).Walks ⟨k, q, ahead⟩ ⟨m, p, []⟩ := by
  -- each pass would follow one link more than the one it is part of
  induction left using Nat.strong_induction_on generalizing ahead m p with
  | _ left ih =>
    obtain ⟨k, q, hfirst, hlast⟩ := hw.split
    rcases hfirst.of_add with hold | ⟨left', ahead', hmeet, hon⟩
    · exact ⟨k, q, hold, hlast⟩
    · have hlt : left' < left := hmeet.left_le
      obtain ⟨k', q', hown, hback⟩ := ih left' hlt hon
      have hsame := (hfirst.end_eq (hown.extend (extends_add habsent))).2
      have hle : k ≤ k' := hback.left_le
      omega

end FileSystem

end GramsTof.Lib
