import Mathlib.Data.List.Basic
import Mathlib.Data.List.Nodup
import Mathlib.Logic.Function.Basic

/-! Association lists as maps: at most one value a key, the values of an
arbitrary type, and what a change of the values keeps. -/

namespace GramsTof.Lib.Registry

variable {κ ν μ : Type*}

def keys (m : List (κ × ν)) : List κ := m.map Prod.fst

/-- The map with `f` applied to its values. -/
def mapValues (f : ν → μ) (m : List (κ × ν)) : List (κ × μ) := m.map (Prod.map id f)

section Entries

variable {m : List (κ × ν)} {f : ν → μ} {k : κ} {e : κ × ν}

theorem mem_keys : k ∈ keys m ↔ ∃ v, (k, v) ∈ m := by
  simp [keys]

theorem mem_keys_of_mem (h : e ∈ m) : e.1 ∈ keys m := List.mem_map_of_mem h

theorem keys_mapValues : keys (mapValues f m) = keys m := by
  rw [keys, mapValues, List.map_map]
  rfl

theorem mem_mapValues {e : κ × μ} : e ∈ mapValues f m ↔ ∃ v, (e.1, v) ∈ m ∧ f v = e.2 := by
  constructor
  · intro h
    obtain ⟨d, hd, rfl⟩ := List.mem_map.mp h
    exact ⟨d.2, hd, rfl⟩
  · rintro ⟨v, hv, hf⟩
    exact List.mem_map.mpr ⟨_, hv, Prod.ext rfl hf⟩

theorem filter_mapValues (p : κ → Bool) :
    (mapValues f m).filter (p ·.1) = mapValues f (m.filter (p ·.1)) := by
  rw [mapValues, List.filter_map]
  rfl

end Entries

variable [DecidableEq κ]

/-- Remove the entry of `k`. -/
def remove (m : List (κ × ν)) (k : κ) : List (κ × ν) := m.filter (·.1 ≠ k)

/-- `m[k] = v`. -/
def put (m : List (κ × ν)) (k : κ) (v : ν) : List (κ × ν) := (k, v) :: remove m k

/-- The entries of all keys but `k`. -/
def others (m : List (κ × ν)) (k : Option κ) : List (κ × ν) := m.filter (some ·.1 ≠ k)

variable {m : List (κ × ν)} {f : ν → μ} {k j : κ} {v : ν} {e : κ × ν}

theorem mem_remove : e ∈ remove m k ↔ e ∈ m ∧ e.1 ≠ k := by
  simp [remove]

theorem mem_put : e ∈ put m k v ↔ e = (k, v) ∨ e ∈ m ∧ e.1 ≠ k := by
  rw [put, List.mem_cons, mem_remove]

theorem nodup_remove (h : (keys m).Nodup) : (keys (remove m k)).Nodup :=
  h.sublist (List.filter_sublist.map _)

theorem nodup_put (h : (keys m).Nodup) : (keys (put m k v)).Nodup := by
  refine List.nodup_cons.mpr ⟨fun hk => ?_, nodup_remove h⟩
  obtain ⟨w, hw⟩ := mem_keys.mp hk
  exact (mem_remove.mp hw).2 rfl

@[simp] theorem lookup_put_self : (put m k v).lookup k = some v := List.lookup_cons_self

theorem lookup_remove_of_ne (h : j ≠ k) : (remove m k).lookup j = m.lookup j := by
  induction m with
  | nil => rfl
  | cons e m ih =>
    by_cases he : e.1 = k
    · have hj : (j == e.1) = false := beq_eq_false_iff_ne.mpr fun hje => h (hje.trans he)
      rw [remove, List.filter_cons_of_neg (by simpa using he), List.lookup_cons, hj]
      exact ih
    · rw [remove, List.filter_cons_of_pos (by simpa using he), List.lookup_cons, List.lookup_cons]
      split
      · rfl
      · exact ih

theorem lookup_put_of_ne (h : j ≠ k) : (put m k v).lookup j = m.lookup j := by
  rw [put, List.lookup_cons, beq_eq_false_iff_ne.mpr h]
  exact lookup_remove_of_ne h

theorem put_put : put (put m k v) k v = put m k v := by
  have hself : remove (remove m k) k = remove m k := by
    rw [remove, remove, List.filter_filter]
    simp only [Bool.and_self]
  rw [put, put, remove, List.filter_cons_of_neg (by simp)]
  exact congrArg ((k, v) :: ·) hself

theorem mem_keys_put : j ∈ keys (put m k v) ↔ j = k ∨ j ∈ keys m := by
  constructor
  · intro h
    obtain ⟨w, hw⟩ := mem_keys.mp h
    rcases mem_put.mp hw with he | ⟨hm, -⟩
    · exact .inl (congrArg Prod.fst he)
    · exact .inr (mem_keys_of_mem hm)
  · intro h
    by_cases hjk : j = k
    · exact mem_keys.mpr ⟨v, mem_put.mpr (.inl (by rw [hjk]))⟩
    · obtain ⟨w, hw⟩ := mem_keys.mp (h.resolve_left hjk)
      exact mem_keys.mpr ⟨w, mem_put.mpr (.inr ⟨hw, hjk⟩)⟩

theorem mem_of_lookup (h : m.lookup k = some v) : (k, v) ∈ m := by
  induction m with
  | nil => cases h
  | cons e m ih =>
    rw [List.lookup_cons] at h
    split at h
    · rename_i hk
      cases h
      rw [eq_of_beq hk]
      exact List.mem_cons_self
    · exact List.mem_cons_of_mem _ (ih h)

theorem lookup_of_mem (hm : (keys m).Nodup) (h : (k, v) ∈ m) : m.lookup k = some v := by
  induction m with
  | nil => cases h
  | cons e m ih =>
    obtain ⟨hnot, hnodup⟩ := List.nodup_cons.mp hm
    rcases List.mem_cons.mp h with rfl | h
    · exact List.lookup_cons_self
    · have hne : k ≠ e.1 := fun he => hnot (he ▸ mem_keys_of_mem h)
      rw [List.lookup_cons, beq_eq_false_iff_ne.mpr hne]
      exact ih hnodup h

theorem lookup_isSome (h : k ∈ keys m) : (m.lookup k).isSome := by
  obtain ⟨v, hv⟩ := mem_keys.mp h
  by_contra hnone
  rw [Option.not_isSome_iff_eq_none] at hnone
  exact bne_iff_ne.mp (List.lookup_eq_none_iff.mp hnone _ hv) rfl

theorem filter_key (hm : (keys m).Nodup) :
    m.filter (·.1 = k) = (m.lookup k).toList.map (k, ·) := by
  induction m with
  | nil => rfl
  | cons e m ih =>
    obtain ⟨hnot, hnodup⟩ := List.nodup_cons.mp hm
    by_cases hk : e.1 = k
    · have hnone : m.filter (·.1 = k) = [] := by
        refine List.filter_eq_nil_iff.mpr fun d hd => ?_
        rw [decide_eq_true_eq]
        rintro rfl
        exact hnot (hk ▸ mem_keys_of_mem hd)
      rw [List.filter_cons_of_pos (by simpa using hk), hnone, List.lookup_cons, ← hk,
        beq_self_eq_true]
      rfl
    · rw [List.filter_cons_of_neg (by simpa using hk), ih hnodup, List.lookup_cons,
        beq_eq_false_iff_ne.mpr (Ne.symm hk)]

/-! ### Values of another type -/

theorem mapValues_remove : mapValues f (remove m k) = remove (mapValues f m) k :=
  (filter_mapValues (m := m) (f := f) (· ≠ k)).symm

theorem mapValues_put : mapValues f (put m k v) = put (mapValues f m) k (f v) := by
  rw [put, put, ← mapValues_remove]
  rfl

theorem mapValues_others {k : Option κ} : mapValues f (others m k) = others (mapValues f m) k :=
  (filter_mapValues (m := m) (f := f) (some · ≠ k)).symm

theorem lookup_mapValues : (mapValues f m).lookup k = (m.lookup k).map f := by
  induction m with
  | nil => rfl
  | cons e m ih =>
    change List.lookup k ((e.1, f e.2) :: mapValues f m) = _
    rw [List.lookup_cons, List.lookup_cons]
    split
    · rfl
    · exact ih

end GramsTof.Lib.Registry
