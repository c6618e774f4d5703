import Mathlib.Data.List.Basic

/-! A loop that a flag in its state ends. Its inputs begin with plain ones; when
the first other input always ends the loop, the run is that over the plain inputs
and at most one step more. -/

namespace GramsTof.Lib

variable {α β σ : Type*}

/-! ### The plain inputs in front -/

/-- The values of `f` up to the first input without one, and the inputs from that one on. -/
def lead (f : α → Option β) : List α → List β × List α
  | [] => ([], [])
  | a :: as =>
    match f a with
    | some b => (b :: (lead f as).1, (lead f as).2)
    | none => ([], a :: as)

section Lead

variable {f : α → Option β} {g : β → α}

@[simp] theorem lead_nil : lead f [] = ([], []) := rfl

theorem lead_cons_some {a : α} {b : β} (h : f a = some b) (as : List α) :
    lead f (a :: as) = (b :: (lead f as).1, (lead f as).2) := by simp [lead, h]

theorem lead_cons_none {a : α} (h : f a = none) (as : List α) :
    lead f (a :: as) = ([], a :: as) := by simp [lead, h]

theorem eq_lead (hg : ∀ a b, f a = some b → g b = a) (as : List α) :
    as = (lead f as).1.map g ++ (lead f as).2 := by
  induction as with
  | nil => rfl
  | cons a as ih =>
    cases h : f a with
    | none => rw [lead_cons_none h]; rfl
    | some b =>
      rw [lead_cons_some h]
      change a :: as = g b :: _
      rw [hg a b h]
      exact congrArg (a :: ·) ih

theorem lead_rest {as : List α} {a : α} (h : a ∈ (lead f as).2.head?) : f a = none := by
  induction as with
  | nil => cases h
  | cons x as ih =>
    cases hx : f x with
    | none =>
      rw [lead_cons_none hx] at h
      cases h
      exact hx
    | some b =>
      rw [lead_cons_some hx] at h
      exact ih h

end Lead

/-! ### The loop -/

section Loop

variable (live : σ → Bool) (step : σ → α → σ)

/-- A step that a state no longer live does not make. -/
def guarded (s : σ) (a : α) : σ := if live s then step s a else s

variable {live step}

theorem guarded_live {s : σ} (h : live s = true) (a : α) : guarded live step s a = step s a :=
  if_pos h

theorem guarded_dead {s : σ} (h : live s = false) (a : α) : guarded live step s a = s :=
  if_neg (by rw [h]; exact Bool.false_ne_true)

theorem foldl_guarded_dead {s : σ} (h : live s = false) (as : List α) :
    as.foldl (guarded live step) s = s := by
  induction as with
  | nil => rfl
  | cons a as ih => rw [List.foldl_cons, guarded_dead h, ih]

variable (live step) in
/-- The run over the plain inputs in front, then a step with the input that ends the loop. -/
theorem foldl_guarded_lead {f : α → Option β} {g : β → α} (hg : ∀ a b, f a = some b → g b = a)
    (s t : σ) (as : List α) (ht : ((lead f as).1.map g).foldl (guarded live step) s = t)
    (hstop : live t = true → ∀ a, f a = none → live (step t a) = false) :
    as.foldl (guarded live step) s =
      match (lead f as).2.head? with
      | none => t
      | some a => guarded live step t a := by
  have has := eq_lead hg as
  cases hrest : (lead f as).2 with
  | nil =>
    rw [hrest, List.append_nil] at has
    rw [has, ht]
    rfl
  | cons a rest =>
    have hnone : f a = none := lead_rest (by rw [hrest]; rfl)
    rw [hrest] at has
    rw [has, List.foldl_append, ht, List.foldl_cons]
    refine foldl_guarded_dead ?_ rest
    cases hlive : live t with
    | false => rw [guarded_dead hlive, hlive]
    | true => rw [guarded_live hlive, hstop hlive a hnone]

/-! ### What holds at each step made -/

variable (live step) in
/-- `P` holds of each live state and the input that it reads. -/
def AtEachStep (P : σ → α → Prop) : σ → List α → Prop
  | _, [] => True
  | s, a :: as => (live s = true → P s a) ∧ AtEachStep P (guarded live step s a) as

theorem atEachStep_dead {P : σ → α → Prop} {s : σ} (h : live s = false) (as : List α) :
    AtEachStep live step P s as := by
  induction as with
  | nil => trivial
  | cons a as ih =>
    refine ⟨fun hlive => ?_, ?_⟩
    · rw [h] at hlive
      cases hlive
    · rw [guarded_dead h]
      exact ih

/-- What the plain inputs never break holds along a run exactly when it holds of the input that ends
the loop. -/
theorem atEachStep_iff_lead {f : α → Option β} {g : β → α} {P : σ → α → Prop} {I : σ → Prop}
    (hg : ∀ a b, f a = some b → g b = a)
    (hplain : ∀ s b, I s → live s = true → P s (g b) ∧ I (step s (g b)))
    (hstop : ∀ s a, I s → f a = none → live (step s a) = false) {s t : σ} (hs : I s)
    {as : List α} (ht : ((lead f as).1.map g).foldl (guarded live step) s = t) :
    AtEachStep live step P s as ↔ ∀ a ∈ (lead f as).2.head?, live t = true → P t a := by
  induction as generalizing s with
  | nil => simp [AtEachStep]
  | cons a as ih =>
    cases hlive : live s with
    | false =>
      rw [foldl_guarded_dead hlive] at ht
      subst ht
      simp [hlive, atEachStep_dead hlive]
    | true =>
      cases ha : f a with
      | none =>
        rw [lead_cons_none ha] at ht ⊢
        subst ht
        have hdead := hstop s a hs ha
        simp [AtEachStep, hlive, guarded_live hlive, atEachStep_dead hdead]
      | some b =>
        have hgb := hg a b ha
        rw [lead_cons_some ha] at ht ⊢
        rw [List.map_cons, List.foldl_cons, hgb, guarded_live hlive] at ht
        have hb := hplain s b hs hlive
        rw [hgb] at hb
        rw [AtEachStep, guarded_live hlive, ih hb.2 ht]
        simp [hb.1]

end Loop

end GramsTof.Lib
