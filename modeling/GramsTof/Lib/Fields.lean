import Mathlib.Data.List.Basic
import Mathlib.Data.List.Nodup

/-! Fields of a row: values put one by one at given places of it, in any order, and
what stands at these and at other places then. -/

namespace GramsTof.Lib.Fields

variable {α : Type*}

/-- Values put at places of a row. -/
def put (row : List α) : List (ℕ × α) → List α
  | [] => row
  | p :: ps => put (row.set p.1 p.2) ps

@[simp] theorem length_put (row : List α) (ps : List (ℕ × α)) : (put row ps).length = row.length := by
  induction ps generalizing row with
  | nil => rfl
  | cons p ps ih => rw [put, ih, List.length_set]

theorem getElem?_put_of_notMem {row : List α} {ps : List (ℕ × α)} {i : ℕ} (hi : i ∉ ps.map Prod.fst) :
    (put row ps)[i]? = row[i]? := by
  induction ps generalizing row with
  | nil => rfl
  | cons p ps ih =>
    rw [List.map_cons, List.mem_cons, not_or] at hi
    rw [put, ih hi.2, List.getElem?_set_ne (Ne.symm hi.1)]

theorem getElem?_put_of_mem {row : List α} {ps : List (ℕ × α)} {i : ℕ} {v : α}
    (hnodup : (ps.map Prod.fst).Nodup) (hmem : (i, v) ∈ ps) (hi : i < row.length) :
    (put row ps)[i]? = some v := by
  induction ps generalizing row with
  | nil => cases hmem
  | cons p ps ih =>
    rw [List.map_cons, List.nodup_cons] at hnodup
    rw [put]
    obtain rfl | hmem := List.mem_cons.mp hmem
    · rw [getElem?_put_of_notMem hnodup.1, List.getElem?_set_self hi]
    · exact ih hnodup.2 hmem (by rwa [List.length_set])

/-- What is put at places is what stands there. -/
theorem map_getElem?_put {row : List α} {places : List ℕ} {values : List α} (hnodup : places.Nodup)
    (hlen : values.length = places.length) (hbound : ∀ i ∈ places, i < row.length) :
    (places.map fun i => (put row (places.zip values))[i]?) = values.map some := by
  have hfst : (places.zip values).map Prod.fst = places := List.map_fst_zip (Nat.le_of_eq hlen.symm)
  refine List.ext_getElem (by simp [hlen]) fun k hk hk' => ?_
  rw [List.length_map] at hk hk'
  rw [List.getElem_map, List.getElem_map]
  refine getElem?_put_of_mem (hfst.symm ▸ hnodup) ?_ (hbound _ (List.getElem_mem hk))
  have hzip : k < (places.zip values).length := by rw [List.length_zip]; omega
  have := List.getElem_mem hzip
  rwa [List.getElem_zip] at this

end GramsTof.Lib.Fields
