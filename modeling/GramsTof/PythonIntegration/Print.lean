import Mathlib.Data.List.Induction
import Mathlib.Tactic.Common

/-! `builtins.print` across calls of `runPythonFunction`. Objects are known by number.
The functions called do not themselves assign `builtins.print`. -/

namespace GramsTof.PythonIntegration

/-- `builtins.print`, and the number of the next object that is made. -/
structure Interpreter where
  print : ℕ
  next : ℕ
  deriving DecidableEq, Repr

/-- What `py::module_::import` and `module.attr` come to, and the call of the function. -/
inductive Outcome where
  | importFails
  | attributeFails
  /-- The function, or the conversion of its arguments, raises. -/
  | raises
  /-- The function returns an object, of which `cast<bool>` makes the value, or throws a
  `cast_error`. -/
  | returns (value : Option Bool)
  deriving DecidableEq, Repr

namespace Interpreter

/-- `builtins.attr("print") = object`. -/
def setPrint (s : Interpreter) (object : ℕ) : Interpreter := { s with print := object }

/-- `builtins.attr("print") = py::cpp_function(log_bridge)`, a new object. -/
def installBridge (s : Interpreter) : Interpreter := { print := s.next, next := s.next + 1 }

end Interpreter

/-- The interpreter after a call and the value returned, if no exception leaves it: the `catch` is
for `error_already_set` only. -/
def runPythonFunction (s : Interpreter) : Outcome → Interpreter × Option Bool
  | .importFails | .attributeFails => (s, some false)
  | outcome =>
    let original_print := s.print
    let s := s.installBridge
    match outcome with
    | .returns value => (s.setPrint original_print, value)
    -- the `catch` looks at `builtins.print` and does not set it
    | _ => (s, some false)

/-- The object that a call saves as `original_print`, if it gets there. -/
def savedPrint (s : Interpreter) : Outcome → Option ℕ
  | .importFails | .attributeFails => none
  | _ => some s.print

/-- Call after call. -/
def runCalls (s : Interpreter) (calls : List Outcome) : Interpreter :=
  calls.foldl (fun s outcome => (runPythonFunction s outcome).1) s

variable {s : Interpreter} {object : ℕ}

theorem runCalls_append_singleton (calls : List Outcome) (outcome : Outcome) :
    runCalls s (calls ++ [outcome]) = (runPythonFunction (runCalls s calls) outcome).1 := by
  simp [runCalls]

/-- A call keeps `builtins.print` unless its function raises, and then it is new. -/
theorem runPythonFunction_print (s : Interpreter) (outcome : Outcome) :
    (runPythonFunction s outcome).1.print = if outcome = .raises then s.next else s.print := by
  cases outcome <;> rfl

theorem next_le_runPythonFunction (s : Interpreter) (outcome : Outcome) :
    s.next ≤ (runPythonFunction s outcome).1.next := by
  cases outcome with
  | importFails | attributeFails => exact Nat.le_refl _
  | raises | returns _ => exact Nat.le_succ _

/-- The object `builtins.print` was is older than all that are made. -/
theorem lt_next_runCalls (h : object < s.next) (calls : List Outcome) :
    object < (runCalls s calls).next := by
  induction calls using List.reverseRecOn with
  | nil => exact h
  | append_singleton calls outcome ih =>
    rw [runCalls_append_singleton]
    exact Nat.lt_of_lt_of_le ih (next_le_runPythonFunction _ outcome)

/-- Once a function has raised, `builtins.print` is never again what it was. -/
theorem runCalls_print_iff (h : s.print < s.next) (calls : List Outcome) :
    (runCalls s calls).print = s.print ↔ .raises ∉ calls := by
  induction calls using List.reverseRecOn with
  | nil => exact iff_of_true rfl List.not_mem_nil
  | append_singleton calls outcome ih =>
    rw [runCalls_append_singleton, runPythonFunction_print, List.mem_append, List.mem_singleton,
      not_or, ← ih]
    by_cases hraises : outcome = .raises
    · have hnew := lt_next_runCalls h calls
      rw [if_pos hraises]
      exact iff_of_false (fun heq => absurd heq.symm (Nat.ne_of_lt hnew))
        fun hkept => hkept.2 hraises.symm
    · rw [if_neg hraises, eq_comm (a := Outcome.raises)]
      exact ⟨fun heq => ⟨heq, hraises⟩, fun hkept => hkept.1⟩

/-- After any calls `builtins.print` is what it was at first, and is saved as such by a further one,
exactly when no function called has raised. -/
theorem print_restored_iff (h : s.print < s.next) (calls : List Outcome) :
    ((runCalls s calls).print = s.print ↔ .raises ∉ calls) ∧
      ∀ outcome saved, savedPrint (runCalls s calls) outcome = some saved →
        (saved = s.print ↔ .raises ∉ calls) := by
  have hprint := runCalls_print_iff h calls
  refine ⟨hprint, fun outcome saved hsaved => ?_⟩
  cases outcome with
  | importFails | attributeFails => cases hsaved
  | raises | returns _ => cases hsaved; exact hprint

theorem print_restored_iff_failing :
    (runCalls ⟨0, 1⟩ [.returns (some false), .importFails]).print = 0 :=
  (print_restored_iff (s := ⟨0, 1⟩) (by decide) _).1.mpr (by decide)

/-- The call after one that raises saves and restores the first one's bridge. -/
theorem not_print_restored :
    ¬ ∀ (s : Interpreter) (calls : List Outcome), s.print < s.next →
      (runCalls s calls).print = s.print ∧
        ∀ outcome saved, savedPrint (runCalls s calls) outcome = some saved → saved = s.print := by
  intro h
  have hprint := (h ⟨0, 1⟩ [.raises] (by decide)).1
  exact absurd hprint (by decide)

end GramsTof.PythonIntegration
