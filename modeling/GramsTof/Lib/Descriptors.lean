import Mathlib.Data.List.Perm.Subperm
import Mathlib.Data.Int.Range
import Mathlib.Logic.Function.Basic

/-! A table of descriptor numbers shared by several owners. The table knows who
opened each open number and records every close with what it found. Owners that
close only numbers on their lists of live ones never close what is not theirs. -/

namespace GramsTof.Lib

/-- One close: by whom, of which number, and who had it open. -/
structure Close (ω : Type*) where
  closer : ω
  fd : ℤ
  found : Option ω
  deriving DecidableEq, Repr

/-- The number was open and opened by the one who closes it. -/
def Close.Exclusive {ω : Type*} (c : Close ω) : Prop := c.found = some c.closer

instance {ω : Type*} [DecidableEq ω] (c : Close ω) : Decidable c.Exclusive :=
  inferInstanceAs (Decidable (_ = _))

structure Descriptors (ω : Type*) where
  owner : ℤ → Option ω
  closes : List (Close ω)

namespace Descriptors

variable {ω : Type*}

def empty : Descriptors ω := ⟨fun _ => none, []⟩

def openFD (t : Descriptors ω) (c : ω) (n : ℤ) : Descriptors ω :=
  { t with owner := Function.update t.owner n (some c) }

def closeFD (t : Descriptors ω) (c : ω) (n : ℤ) : Descriptors ω :=
  ⟨Function.update t.owner n none, t.closes ++ [⟨c, n, t.owner n⟩]⟩

/-- Close the number, if there is one. -/
def closeAny (t : Descriptors ω) (c : ω) : Option ℤ → Descriptors ω
  | none => t
  | some n => t.closeFD c n

def IsFree (t : Descriptors ω) (n : ℤ) : Prop := 0 ≤ n ∧ t.owner n = none

/-- The number POSIX prescribes for the next descriptor. -/
def IsLowestFree (t : Descriptors ω) (n : ℤ) : Prop :=
  t.IsFree n ∧ ∀ m, 0 ≤ m → m < n → t.owner m ≠ none

instance (t : Descriptors ω) (n : ℤ) : Decidable (t.IsFree n) := by
  have : Decidable (t.owner n = none) :=
    decidable_of_iff ((t.owner n).isNone = true) Option.isNone_iff_eq_none
  exact inferInstanceAs (Decidable (_ ∧ _))

instance (t : Descriptors ω) (n : ℤ) : Decidable (t.IsLowestFree n) := by
  have : DecidablePred fun m => t.owner m ≠ none := fun m =>
    decidable_of_iff ((t.owner m).isSome = true) Option.isSome_iff_ne_none
  exact inferInstanceAs (Decidable (_ ∧ _))

theorem IsLowestFree.unique {t : Descriptors ω} {m n : ℤ} (hm : t.IsLowestFree m)
    (hn : t.IsLowestFree n) : m = n := by
  rcases lt_trichotomy m n with hlt | heq | hgt
  · exact absurd hm.1.2 (hn.2 m hm.1.1 hlt)
  · exact heq
  · exact absurd hn.1.2 (hm.2 n hn.1.1 hgt)

theorem openFD_self (t : Descriptors ω) (c : ω) (n : ℤ) : (t.openFD c n).owner n = some c :=
  Function.update_self _ _ _

theorem openFD_of_ne (t : Descriptors ω) (c : ω) {m n : ℤ} (h : m ≠ n) :
    (t.openFD c n).owner m = t.owner m := Function.update_of_ne h _ _

theorem closeFD_self (t : Descriptors ω) (c : ω) (n : ℤ) : (t.closeFD c n).owner n = none :=
  Function.update_self _ _ _

theorem closeFD_of_ne (t : Descriptors ω) (c : ω) {m n : ℤ} (h : m ≠ n) :
    (t.closeFD c n).owner m = t.owner m := Function.update_of_ne h _ _

/-- Each owner's live numbers are distinct and open in its name, and so far every close was of the
closer's own. -/
structure Owned (t : Descriptors ω) (live : ω → List ℤ) : Prop where
  nodup : ∀ c, (live c).Nodup
  held : ∀ c, ∀ n ∈ live c, t.owner n = some c
  exclusive : ∀ x ∈ t.closes, x.Exclusive

/-- What one owner does to the table and its live numbers. -/
inductive Effect (t t' : Descriptors ω) (c : ω) (live live' : List ℤ) : Prop where
  | kept (ht : t' = t) (hlive : live'.Subperm live)
  | opened (n : ℤ) (hfree : t.IsFree n) (ht : t' = t.openFD c n) (hlive : live'.Subperm (n :: live))
  | closed (n : ℤ) (ht : t' = t.closeFD c n) (hlive : (n :: live').Subperm live)

variable {t t' : Descriptors ω} {live live' : ω → List ℤ} {c : ω}

theorem nodup_of_subperm {α : Type*} {l l' : List α} (h : l.Subperm l') (hl' : l'.Nodup) :
    l.Nodup := by
  obtain ⟨m, hperm, hsub⟩ := h
  exact hperm.nodup_iff.mp (hsub.nodup hl')

theorem owned_empty : Owned (empty : Descriptors ω) fun _ => [] :=
  ⟨fun _ => List.nodup_nil, by simp, by simp [empty]⟩

/-- Owners that close only what they have live keep the discipline. -/
theorem Owned.effect (h : Owned t live) (heff : Effect t t' c (live c) (live' c))
    (hother : ∀ d, d ≠ c → live' d = live d) : Owned t' live' := by
  cases heff with
  | kept ht hlive =>
    subst ht
    refine ⟨fun d => ?_, fun d n hn => ?_, h.exclusive⟩
    · by_cases hd : d = c
      · subst hd; exact nodup_of_subperm hlive (h.nodup d)
      · rw [hother d hd]; exact h.nodup d
    · by_cases hd : d = c
      · subst hd; exact h.held d n (hlive.subset hn)
      · rw [hother d hd] at hn; exact h.held d n hn
  | opened m hfree ht hlive =>
    subst ht
    have hnew : ∀ d, m ∉ live d := fun d hm => by
      have := h.held d m hm
      rw [hfree.2] at this
      cases this
    refine ⟨fun d => ?_, fun d n hn => ?_, h.exclusive⟩
    · by_cases hd : d = c
      · subst hd; exact nodup_of_subperm hlive (List.nodup_cons.mpr ⟨hnew d, h.nodup d⟩)
      · rw [hother d hd]; exact h.nodup d
    · by_cases hd : d = c
      · subst hd
        rcases List.mem_cons.mp (hlive.subset hn) with rfl | hn
        · exact openFD_self t d n
        · rw [openFD_of_ne t d (ne_of_mem_of_not_mem hn (hnew d))]
          exact h.held d n hn
      · rw [hother d hd] at hn
        rw [openFD_of_ne t c (ne_of_mem_of_not_mem hn (hnew d))]
        exact h.held d n hn
  | closed m ht hlive =>
    subst ht
    have hm : t.owner m = some c := h.held c m (hlive.subset List.mem_cons_self)
    have hnodup := List.nodup_cons.mp (nodup_of_subperm hlive (h.nodup c))
    refine ⟨fun d => ?_, fun d n hn => ?_, fun x hx => ?_⟩
    · by_cases hd : d = c
      · subst hd; exact hnodup.2
      · rw [hother d hd]; exact h.nodup d
    · by_cases hd : d = c
      · subst hd
        rw [closeFD_of_ne t d (ne_of_mem_of_not_mem hn hnodup.1)]
        exact h.held d n (hlive.subset (List.mem_cons_of_mem _ hn))
      · rw [hother d hd] at hn
        have hown := h.held d n hn
        have hne : n ≠ m := by
          rintro rfl
          rw [hm] at hown
          exact hd (Option.some.inj hown).symm
        rw [closeFD_of_ne t c hne]
        exact hown
    · rcases List.mem_append.mp hx with hx | hx
      · exact h.exclusive x hx
      · rw [List.mem_singleton.mp hx]
        exact hm

/-- An owner may also close a number of its own that it has not listed. -/
theorem Owned.close_unlisted (h : Owned t live) {n : ℤ} (hn : t.owner n = some c) (hc : n ∉ live c) :
    Owned (t.closeFD c n) live := by
  refine ⟨h.nodup, fun d m hm => ?_, fun x hx => ?_⟩
  · have hne : m ≠ n := by
      rintro rfl
      have hown := h.held d m hm
      rw [hn] at hown
      cases hown
      exact hc hm
    rw [closeFD_of_ne t c hne]
    exact h.held d m hm
  · rcases List.mem_append.mp hx with hx | hx
    · exact h.exclusive x hx
    · rw [List.mem_singleton.mp hx]
      exact hn

end Descriptors

end GramsTof.Lib
