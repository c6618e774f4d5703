import Mathlib.Data.List.DropRight

/-! POSIX paths as texts: the parts that `std::filesystem::path` takes them apart into. -/

namespace GramsTof.Lib.Paths

/-- A directory and a name below it, joined by `operator/`. -/
def joinPath (dir name : List Char) : List Char :=
  if dir = [] ∨ dir.getLast? = some '/' then dir ++ name else dir ++ '/' :: name

/-- `filename()` of a path. -/
def filename (path : List Char) : List Char := (path.reverse.takeWhile (· ≠ '/')).reverse

/-- `parent_path()`: the longest beginning with one element less. -/
def parentPath (path : List Char) : List Char :=
  let root := path.takeWhile (· = '/')
  let relative := path.dropWhile (· = '/')
  root ++ (relative.rdropWhile (· ≠ '/')).rdropWhile (· = '/')

/-- The name of the directory itself, and of the one above it. -/
def dot : List Char := ['.']
def dotDot : List Char := ['.', '.']

/-- `has_extension()`: a dot that is not at the head. -/
def hasExtension (path : List Char) : Bool := filename path ≠ dotDot ∧ '.' ∈ (filename path).tail

/-- The names on the way that a path describes; a slash at its end asks for a directory. -/
def components (path : List Char) : List (List Char) :=
  (path.splitOn '/').filter (· ≠ []) ++ if path.getLast? = some '/' then [dot] else []

theorem filename_joinPath {dir name : List Char} (h : '/' ∉ name) :
    filename (joinPath dir name) = name := by
  have hname : ∀ c ∈ name.reverse, decide (c ≠ '/') = true := fun c hc =>
    decide_eq_true fun heq => h (heq ▸ List.mem_reverse.mp hc)
  unfold filename joinPath
  split_ifs with hdir
  · rw [List.reverse_append, List.takeWhile_append_of_pos hname]
    rcases hdir with rfl | hlast
    · simp
    · obtain ⟨front, rfl⟩ := List.getLast?_eq_some_iff.mp hlast
      simp
  · rw [List.reverse_append, List.reverse_cons, List.append_assoc,
      List.takeWhile_append_of_pos hname]
    simp

end GramsTof.Lib.Paths
