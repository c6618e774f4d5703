import Mathlib.Data.List.Dedup
import Mathlib.Data.List.Perm.Basic
import Mathlib.Data.List.Perm.Lattice
import Mathlib.Data.Nat.Notation

/-! Ordered maps that count keys, the smallest key first. A key has an entry from its first occurrence
on; the counts are 32 bits wide and wrap. -/

namespace GramsTof.Lib.Counter

variable {κ : Type*} [LT κ] [DecidableLT κ]

/-- One more of a key. -/
def bump (k : κ) : List (κ × UInt32) → List (κ × UInt32)
  | [] => [(k, 1)]
  | (j, n) :: m =>
    if k < j then (k, 1) :: (j, n) :: m else if j < k then (j, n) :: bump k m else (j, n + 1) :: m

/-- The keys ascend. -/
def Ascending (m : List (κ × UInt32)) : Prop := m.Pairwise fun p q => p.1 < q.1

/-- The map holds the number of times each key occurs in a list. -/
structure Counts [DecidableEq κ] (m : List (κ × UInt32)) (xs : List κ) : Prop where
  ascending : Ascending m
  mem_iff : ∀ k n, (k, n) ∈ m ↔ k ∈ xs ∧ n = UInt32.ofNat (xs.count k)

variable {m : List (κ × UInt32)} {j k : κ} {n : UInt32}

omit [DecidableLT κ] in
theorem counts_nil [DecidableEq κ] : Counts ([] : List (κ × UInt32)) [] where
  ascending := List.Pairwise.nil
  mem_iff _ _ := by simp

theorem mem_keys_bump {p : κ × UInt32} (h : p ∈ bump k m) : p.1 = k ∨ ∃ q ∈ m, q.1 = p.1 := by
  induction m with
  | nil => exact .inl (by rw [List.mem_singleton.mp h])
  | cons q m ih =>
    obtain ⟨j, n⟩ := q
    rw [bump] at h
    split_ifs at h with hlt hgt
    · rcases List.mem_cons.mp h with rfl | h
      · exact .inl rfl
      · exact .inr ⟨p, h, rfl⟩
    · rcases List.mem_cons.mp h with rfl | h
      · exact .inr ⟨_, List.mem_cons_self, rfl⟩
      · exact (ih h).imp id fun ⟨q, hq, he⟩ => ⟨q, List.mem_cons_of_mem _ hq, he⟩
    · rcases List.mem_cons.mp h with rfl | h
      · exact .inr ⟨_, List.mem_cons_self, rfl⟩
      · exact .inr ⟨p, List.mem_cons_of_mem _ h, rfl⟩

variable [LE κ] [Std.IsLinearOrder κ] [Std.LawfulOrderLT κ]

theorem Ascending.bump (h : Ascending m) (k : κ) : Ascending (bump k m) := by
  induction m with
  | nil => exact List.pairwise_singleton _ _
  | cons q m ih =>
    obtain ⟨j, n⟩ := q
    obtain ⟨hj, hm⟩ := List.pairwise_cons.mp h
    rw [Counter.bump]
    split_ifs with hlt hgt
    · refine List.pairwise_cons.mpr ⟨fun p hp => ?_, h⟩
      rcases List.mem_cons.mp hp with rfl | hp
      · exact hlt
      · exact Std.lt_trans hlt (hj p hp)
    · refine List.pairwise_cons.mpr ⟨fun p hp => ?_, ih hm⟩
      rcases mem_keys_bump hp with he | ⟨q, hq, he⟩
      · exact he ▸ hgt
      · exact he ▸ hj q hq
    · exact List.pairwise_cons.mpr ⟨hj, hm⟩

omit [DecidableLT κ] [Std.IsLinearOrder κ] in
theorem Ascending.nodup (h : Ascending m) : m.Nodup := by
  refine List.Pairwise.imp (fun {p q} hlt he => ?_) h
  subst he
  exact Std.lt_irrefl hlt

/-- The entries of the other keys stay. -/
theorem mem_bump_of_ne (hne : j ≠ k) : (j, n) ∈ bump k m ↔ (j, n) ∈ m := by
  induction m with
  | nil => simp [bump, hne]
  | cons q m ih =>
    obtain ⟨j', n'⟩ := q
    rw [bump]
    split_ifs with hlt hgt
    · simp [hne]
    · rw [List.mem_cons, List.mem_cons, ih]
    · obtain rfl : k = j' := Std.le_antisymm (Std.not_lt.mp hgt) (Std.not_lt.mp hlt)
      simp [hne]

/-- The key's own entry goes up by one, or is a new one. -/
theorem mem_bump_self (h : Ascending m) : (k, n) ∈ bump k m ↔
    (∃ n', (k, n') ∈ m ∧ n = n' + 1) ∨ (∀ n', (k, n') ∉ m) ∧ n = 1 := by
  induction m with
  | nil => simp [bump]
  | cons q m ih =>
    obtain ⟨j, n'⟩ := q
    obtain ⟨hj, hm⟩ := List.pairwise_cons.mp h
    rw [bump]
    split_ifs with hlt hgt
    · have hnone : ∀ a, (k, a) ∉ (j, n') :: m := by
        intro a ha
        rcases List.mem_cons.mp ha with he | ha
        · exact Std.lt_irrefl ((Prod.mk.inj he).1 ▸ hlt)
        · exact Std.lt_irrefl (Std.lt_trans hlt (hj _ ha))
      have hmem : (k, n) ∈ (k, 1) :: (j, n') :: m ↔ n = 1 := by
        rw [List.mem_cons, or_iff_left (hnone n), Prod.mk.injEq, eq_self, true_and]
      rw [hmem]
      exact ⟨fun he => .inr ⟨hnone, he⟩, fun he => he.elim (fun ⟨a, ha, _⟩ => absurd ha (hnone a)) And.right⟩
    · have hne : k ≠ j := fun he => Std.lt_irrefl (he ▸ hgt)
      simp only [List.mem_cons, Prod.mk.injEq, hne, false_and, false_or]
      exact ih hm
    · obtain rfl : k = j := Std.le_antisymm (Std.not_lt.mp hgt) (Std.not_lt.mp hlt)
      have hrest : ∀ a, (k, a) ∉ m := fun a ha => Std.lt_irrefl (hj (k, a) ha)
      simp [hrest]

variable [DecidableEq κ] {xs : List κ}

theorem Counts.bump (h : Counts m xs) (k : κ) : Counts (bump k m) (xs ++ [k]) where
  ascending := h.ascending.bump k
  mem_iff j n := by
    by_cases hjk : j = k
    · subst hjk
      rw [mem_bump_self h.ascending, List.count_append, List.count_singleton_self]
      by_cases hmem : j ∈ xs
      · have hin := (h.mem_iff j _).mpr ⟨hmem, rfl⟩
        constructor
        · rintro (⟨n', hn', rfl⟩ | ⟨hnone, -⟩)
          · rw [((h.mem_iff j n').mp hn').2]
            exact ⟨by simp, by rw [UInt32.ofNat_add]; rfl⟩
          · exact absurd hin (hnone _)
        · rintro ⟨-, rfl⟩
          exact .inl ⟨_, hin, by rw [UInt32.ofNat_add]; rfl⟩
      · have hnone : ∀ n', (j, n') ∉ m := fun n' hn' => hmem ((h.mem_iff j n').mp hn').1
        rw [List.count_eq_zero_of_not_mem hmem]
        simp [hnone]
    · rw [mem_bump_of_ne hjk, h.mem_iff, List.count_append, List.count_singleton]
      simp [hjk, Ne.symm hjk]

theorem Counts.foldl_bump (h : Counts m xs) (ks : List κ) :
    Counts (ks.foldl (fun m k => Counter.bump k m) m) (xs ++ ks) := by
  induction ks generalizing m xs with
  | nil => rwa [List.append_nil]
  | cons k ks ih =>
    have := ih (h.bump k)
    rwa [List.append_assoc] at this

omit [DecidableLT κ] [Std.IsLinearOrder κ] in
/-- The entries, up to their order: one for each key that occurs. -/
theorem Counts.perm (h : Counts m xs) : m.Perm (xs.dedup.map fun k => (k, UInt32.ofNat (xs.count k))) := by
  refine (List.perm_ext_iff_of_nodup h.ascending.nodup ?_).mpr fun p => ?_
  · exact (List.nodup_dedup xs).map fun a b he => (Prod.mk.inj he).1
  · obtain ⟨k, n⟩ := p
    rw [h.mem_iff, List.mem_map]
    constructor
    · rintro ⟨hk, rfl⟩
      exact ⟨k, List.mem_dedup.mpr hk, rfl⟩
    · rintro ⟨k', hk', he⟩
      obtain ⟨rfl, rfl⟩ := Prod.mk.inj he
      exact ⟨List.mem_dedup.mp hk', rfl⟩

end GramsTof.Lib.Counter
