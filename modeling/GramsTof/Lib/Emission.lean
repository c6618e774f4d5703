import Mathlib.Data.List.Basic
import Mathlib.Data.List.Pairwise

/-! Step functions that may emit something for each input they read. What holds of
all that is emitted, or of all pairs of it, is decided step by step: an invariant
over the state and the inputs still to be read carries the argument. -/

namespace GramsTof.Lib.Emission

variable {σ σ' α α' β γ : Type*}

/-- All that is emitted, in order. -/
def emitted (f : σ → α → σ × Option β) : σ → List α → List β
  | _, [] => []
  | s, a :: as => (f s a).2.toList ++ emitted f (f s a).1 as

/-- `C` holds of every input and of the state it is read in. -/
def Along (f : σ → α → σ × Option β) (C : σ → α → Prop) : σ → List α → Prop
  | _, [] => True
  | s, a :: as => C s a ∧ Along f C (f s a).1 as

variable {f : σ → α → σ × Option β} {C D : σ → α → Prop} {s : σ} {a : α} {as : List α}

@[simp] theorem emitted_nil : emitted f s [] = [] := rfl

theorem emitted_cons :
    emitted f s (a :: as) = (f s a).2.toList ++ emitted f (f s a).1 as := rfl

theorem along_cons : Along f C s (a :: as) ↔ C s a ∧ Along f C (f s a).1 as := Iff.rfl

instance [∀ s a, Decidable (C s a)] : ∀ s as, Decidable (Along f C s as)
  | _, [] => .isTrue trivial
  | s, a :: as =>
    have : Decidable (Along f C (f s a).1 as) := instDecidableAlong _ as
    inferInstanceAs (Decidable (C s a ∧ Along f C (f s a).1 as))

/-- A condition met along a run and an invariant give another along it. -/
theorem Along.of_invariant {I : σ → List α → Prop}
    (hstep : ∀ s a as, I s (a :: as) → C s a → D s a ∧ I (f s a).1 as)
    (h : Along f C s as) (hI : I s as) : Along f D s as := by
  induction as generalizing s with
  | nil => trivial
  | cons a as ih => exact ⟨(hstep s a as hI h.1).1, ih h.2 (hstep s a as hI h.1).2⟩

theorem forall_emitted {Q : β → Prop} (hQ : ∀ s a, ∀ b ∈ (f s a).2, Q b) :
    ∀ b ∈ emitted f s as, Q b := by
  induction as generalizing s with
  | nil => exact fun b hb => absurd hb List.not_mem_nil
  | cons a as ih =>
    rw [emitted_cons, List.forall_mem_append]
    exact ⟨fun b hb => hQ s a b (Option.mem_toList.mp hb), ih⟩

/-- Everything emitted is as wanted exactly when each step meets its condition. -/
theorem forall_emitted_iff {I : σ → List α → Prop} {Q : β → Prop}
    (hC : ∀ s a as, I s (a :: as) → ((∀ b ∈ (f s a).2, Q b) ↔ C s a))
    (hI : ∀ s a as, I s (a :: as) → C s a → I (f s a).1 as) (h : I s as) :
    (∀ b ∈ emitted f s as, Q b) ↔ Along f C s as := by
  induction as generalizing s with
  | nil => exact iff_of_true (fun b hb => absurd hb List.not_mem_nil) trivial
  | cons a as ih =>
    rw [emitted_cons, List.forall_mem_append, along_cons, ← hC s a as h]
    simp only [Option.mem_toList]
    constructor
    · rintro ⟨hnow, hrest⟩
      exact ⟨hnow, (ih (hI s a as h ((hC s a as h).mp hnow))).mp hrest⟩
    · rintro ⟨hnow, hrest⟩
      exact ⟨hnow, (ih (hI s a as h ((hC s a as h).mp hnow))).mpr hrest⟩

/-- The same for pairs. The invariant also sees what has been emitted so far. -/
theorem pairwise_emitted_iff {I : List β → σ → List α → Prop} {R : β → β → Prop} {E : List β}
    (hC : ∀ E s a as, I E s (a :: as) → ((∀ e ∈ E, ∀ b ∈ (f s a).2, R e b) ↔ C s a))
    (hI : ∀ E s a as, I E s (a :: as) → C s a → I (E ++ (f s a).2.toList) (f s a).1 as)
    (h : I E s as) (hE : E.Pairwise R) : (E ++ emitted f s as).Pairwise R ↔ Along f C s as := by
  induction as generalizing E s with
  | nil => simpa [Along] using hE
  | cons a as ih =>
    rw [emitted_cons, ← List.append_assoc, along_cons, ← hC E s a as h]
    have hone : (f s a).2.toList.Pairwise R := by
      cases (f s a).2 with
      | none => exact .nil
      | some b => exact List.pairwise_singleton R b
    constructor
    · intro hp
      have hnow : ∀ e ∈ E, ∀ b ∈ (f s a).2, R e b := by
        intro e he b hb
        have hpair := (List.pairwise_append.mp (List.pairwise_append.mp hp).1).2.2
        exact hpair e he b (Option.mem_toList.mpr hb)
      have hnext := hI E s a as h ((hC E s a as h).mp hnow)
      exact ⟨hnow, (ih hnext (List.pairwise_append.mp hp).1).mp hp⟩
    · rintro ⟨hnow, hrest⟩
      have hpre : (E ++ (f s a).2.toList).Pairwise R :=
        List.pairwise_append.mpr ⟨hE, hone, fun e he b hb => hnow e he b (Option.mem_toList.mp hb)⟩
      exact (ih (hI E s a as h ((hC E s a as h).mp hnow)) hpre).mpr hrest

/-! ### Step functions that do the same on other states and inputs -/

section Images

variable {f' : σ' → α' → σ' × Option γ} {φ : σ → σ'} {ψ : α → α'} {g : β → γ} {I : σ → Prop}

theorem emitted_map
    (h : ∀ s a, I s → I (f s a).1 ∧ f' (φ s) (ψ a) = (φ (f s a).1, (f s a).2.map g)) (hs : I s) :
    emitted f' (φ s) (as.map ψ) = (emitted f s as).map g := by
  induction as generalizing s with
  | nil => rfl
  | cons a as ih =>
    obtain ⟨hnext, heq⟩ := h s a hs
    rw [List.map_cons, emitted_cons, emitted_cons, heq, ih hnext, List.map_append]
    cases (f s a).2 <;> rfl

theorem along_map {C : σ' → α' → Prop} (h : ∀ s a, (f' (φ s) (ψ a)).1 = φ (f s a).1) :
    Along f' C (φ s) (as.map ψ) ↔ Along f (fun s a => C (φ s) (ψ a)) s as := by
  induction as generalizing s with
  | nil => exact Iff.rfl
  | cons a as ih =>
    rw [List.map_cons, along_cons, along_cons, h, ih]

end Images

/-! ### The inputs at which something is emitted -/

section Places

/-- All that is emitted, with the place of its input, counted from `n`. -/
def emittedAt (f : σ → α → σ × Option β) : σ → ℕ → List α → List (ℕ × β)
  | _, _, [] => []
  | s, n, a :: as => (f s a).2.toList.map (n, ·) ++ emittedAt f (f s a).1 (n + 1) as

theorem map_snd_emittedAt (n : ℕ) : (emittedAt f s n as).map Prod.snd = emitted f s as := by
  induction as generalizing s n with
  | nil => rfl
  | cons a as ih =>
    rw [emittedAt, emitted_cons, List.map_append, List.map_map, ih]
    exact congrArg (· ++ _) (List.map_id _)

/-- What is emitted at a place is emitted in a state for which the invariant holds with the inputs
before it. -/
theorem emittedAt_state {I : σ → List α → Prop} {done : List α}
    (hstep : ∀ s done a, I s done → I (f s a).1 (done ++ [a])) (hs : I s done)
    {p : ℕ × β} (hp : p ∈ emittedAt f s done.length as) :
    ∃ t before a after, done ++ as = before ++ a :: after ∧ before.length = p.1 ∧
      I t before ∧ p.2 ∈ (f t a).2 := by
  induction as generalizing s done with
  | nil => cases hp
  | cons a as ih =>
    rcases List.mem_append.mp hp with hnow | hlater
    · obtain ⟨b, hb, rfl⟩ := List.mem_map.mp hnow
      exact ⟨s, done, a, as, rfl, rfl, hs, Option.mem_toList.mp hb⟩
    · have hlength : done.length + 1 = (done ++ [a]).length := by rw [List.length_append]; rfl
      rw [hlength] at hlater
      obtain ⟨t, before, c, after, heq, hrest⟩ := ih (hstep s done a hs) hlater
      exact ⟨t, before, c, after, by rw [← heq, List.append_assoc, List.singleton_append], hrest⟩

end Places

end GramsTof.Lib.Emission
