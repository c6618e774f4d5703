import Mathlib.Data.Nat.Notation
import Mathlib.Data.List.Basic

/-! Programs that may fail and whose surroundings may choose, as what they come to:
from each state the results and the states left with them. A triple speaks of all
outcomes, those of a failure included; of a program that comes to nothing it says
nothing. Loops have the rule of an invariant on what is done and what is to come. -/

namespace GramsTof.Lib

universe u

variable {σ ε α β : Type u}

/-- From a state, a result or a failure, with the state that is left. -/
def Program (σ ε α : Type u) : Type u := σ → Except ε α → σ → Prop

namespace Program

instance : Monad (Program σ ε) where
  pure a := fun s r s' => r = .ok a ∧ s' = s
  bind p k := fun s r s'' =>
    (∃ a s', p s (.ok a) s' ∧ k a s' r s'') ∨ ∃ e, p s (.error e) s'' ∧ r = .error e

def throw (e : ε) : Program σ ε α := fun s r s' => r = .error e ∧ s' = s

def get : Program σ ε σ := fun s r s' => r = .ok s ∧ s' = s

def modify (f : σ → σ) : Program σ ε PUnit := fun s r s' => r = .ok ⟨⟩ ∧ s' = f s

/-- Once more, up to `n` times, when it fails in a way that `again` has. -/
def retry (again : ε → Bool) (p : Program σ ε α) : ℕ → Program σ ε α
  | 0 => p
  | n + 1 => fun s r s'' =>
    (∃ e s', p s (.error e) s' ∧ again e = true ∧ retry again p n s' r s'') ∨
      (p s r s'' ∧ ∀ e, r = .error e → again e = false)

/-- A loop over a list. -/
def forEach (body : α → Program σ ε PUnit) : List α → Program σ ε PUnit
  | [] => pure ⟨⟩
  | a :: as => do
    body a
    forEach body as

/-- From the states of `P`, results as `Q` has them and failures as `E` has them. -/
structure Triple (P : σ → Prop) (p : Program σ ε α) (Q : α → σ → Prop) (E : ε → σ → Prop) : Prop where
  ok : ∀ {s a s'}, P s → p s (.ok a) s' → Q a s'
  error : ∀ {s e s'}, P s → p s (.error e) s' → E e s'

namespace Triple

variable {P P' : σ → Prop} {p : Program σ ε α} {Q Q' : α → σ → Prop} {E E' : ε → σ → Prop}

theorem conseq (h : Triple P p Q E) (hP : ∀ s, P' s → P s) (hQ : ∀ a s, Q a s → Q' a s)
    (hE : ∀ e s, E e s → E' e s) : Triple P' p Q' E' where
  ok hs hr := hQ _ _ (h.ok (hP _ hs) hr)
  error hs hr := hE _ _ (h.error (hP _ hs) hr)

/-- One state at a time. -/
theorem of_eq (h : ∀ s₀, P s₀ → Triple (· = s₀) p Q E) : Triple P p Q E where
  ok hs hr := (h _ hs).ok rfl hr
  error hs hr := (h _ hs).error rfl hr

theorem pure {a : α} (h : ∀ s, P s → Q a s) : Triple P (Pure.pure a : Program σ ε α) Q E where
  ok hs hr := by
    obtain ⟨hr, rfl⟩ := hr
    cases hr
    exact h _ hs
  error _ hr := by cases hr.1

theorem throw {e : ε} (h : ∀ s, P s → E e s) : Triple P (Program.throw e : Program σ ε α) Q E where
  ok _ hr := by cases hr.1
  error hs hr := by
    obtain ⟨hr, rfl⟩ := hr
    cases hr
    exact h _ hs

theorem get {Q : σ → σ → Prop} (h : ∀ s, P s → Q s s) : Triple P (Program.get : Program σ ε σ) Q E where
  ok hs hr := by
    obtain ⟨hr, rfl⟩ := hr
    cases hr
    exact h _ hs
  error _ hr := by cases hr.1

/-- A state that is read is known. -/
theorem get_bind {s₀ : σ} {k : σ → Program σ ε α} (h : Triple (· = s₀) (k s₀) Q E) :
    Triple (· = s₀) (Program.get >>= k) Q E where
  ok hs hr := by
    obtain ⟨a, s', ⟨ha, rfl⟩, hr⟩ | ⟨e, -, hr⟩ := hr
    · cases ha
      exact h.ok hs (hs ▸ hr)
    · cases hr
  error hs hr := by
    obtain ⟨a, s', ⟨ha, rfl⟩, hr⟩ | ⟨e, hp, hr⟩ := hr
    · cases ha
      exact h.error hs (hs ▸ hr)
    · cases hp.1

theorem modify {f : σ → σ} {Q : PUnit → σ → Prop} (h : ∀ s, P s → Q ⟨⟩ (f s)) :
    Triple P (Program.modify f : Program σ ε PUnit) Q E where
  ok hs hr := by
    obtain ⟨-, rfl⟩ := hr
    exact h _ hs
  error _ hr := by cases hr.1

/-- One after the other; a failure of the first is a failure of both. -/
theorem bind {R : β → σ → Prop} {k : α → Program σ ε β} (h : Triple P p Q E)
    (hk : ∀ a, Triple (Q a) (k a) R E) : Triple P (p >>= k) R E where
  ok hs hr := by
    obtain ⟨a, s', hp, hr⟩ | ⟨e, -, hr⟩ := hr
    · exact (hk a).ok (h.ok hs hp) hr
    · cases hr
  error hs hr := by
    obtain ⟨a, s', hp, hr⟩ | ⟨e, hp, hr⟩ := hr
    · exact (hk a).error (h.ok hs hp) hr
    · cases hr
      exact h.error hs hp

theorem ite {c : Prop} [Decidable c] {p' : Program σ ε α} (h : c → Triple P p Q E)
    (h' : ¬c → Triple P p' Q E) : Triple P (if c then p else p') Q E := by
  split_ifs with hc
  · exact h hc
  · exact h' hc

/-- What a failure keeps, the next try starts from. -/
theorem retry {again : ε → Bool} (h : Triple P p Q E) (hE : ∀ e s, again e = true → E e s → P s)
    (n : ℕ) : Triple P (Program.retry again p n) Q E := by
  induction n with
  | zero => exact h
  | succ n ih =>
    constructor
    · intro s a s'' hs hr
      obtain ⟨e, s', hp, ha, hr⟩ | ⟨hp, -⟩ := hr
      · exact ih.ok (hE e s' ha (h.error hs hp)) hr
      · exact h.ok hs hp
    · intro s e' s'' hs hr
      obtain ⟨e, s', hp, ha, hr⟩ | ⟨hp, -⟩ := hr
      · exact ih.error (hE e s' ha (h.error hs hp)) hr
      · exact h.error hs hp

/-- The rule of a loop: `I` of the elements done and those to come. -/
theorem forEach {I : List α → List α → σ → Prop} {body : α → Program σ ε PUnit}
    (h : ∀ done a rest, Triple (I done (a :: rest)) (body a) (fun _ => I (done ++ [a]) rest) E)
    (done todo : List α) : Triple (I done todo) (Program.forEach body todo) (fun _ => I (done ++ todo) []) E := by
  induction todo generalizing done with
  | nil =>
    rw [List.append_nil]
    exact pure fun _ hs => hs
  | cons a rest ih =>
    refine bind (h done a rest) fun _ => ?_
    have hrest := ih (done ++ [a])
    rwa [List.append_assoc, List.singleton_append] at hrest

/-- The rule of a loop that carries a value: `I` of the elements done, the value and the state. -/
theorem foldlM {I : List α → β → σ → Prop} {f : β → α → Program σ ε β}
    (h : ∀ done a b, Triple (I done b) (f b a) (I (done ++ [a])) E) (done todo : List α) (b : β) :
    Triple (I done b) (todo.foldlM f b) (I (done ++ todo)) E := by
  induction todo generalizing done b with
  | nil =>
    rw [List.append_nil]
    exact pure fun _ hs => hs
  | cons a rest ih =>
    rw [List.foldlM_cons]
    refine bind (h done a b) fun b' => ?_
    have hrest := ih (done ++ [a]) b'
    rwa [List.append_assoc, List.singleton_append] at hrest

/-- A loop each of whose turns touches a cell of its own: after it every cell of the list is as its own
turn left it, and all others are as they were; a failure leaves the cells done so, spoils the one it was
at, and touches no other. -/
theorem forEach_cells {κ ω : Type*} (view : σ → κ → ω) (cell : α → κ) {body : α → Program σ ε PUnit}
    {Q : α → ω → ω → Prop} {B : ε → α → ω → ω → Prop}
    (h : ∀ a s₀, Triple (· = s₀) (body a)
      (fun _ s => Q a (view s₀ (cell a)) (view s (cell a)) ∧ ∀ k, k ≠ cell a → view s k = view s₀ k)
      (fun e s => B e a (view s₀ (cell a)) (view s (cell a)) ∧ ∀ k, k ≠ cell a → view s k = view s₀ k))
    {as : List α} (hnodup : (as.map cell).Nodup) (s₀ : σ) :
    Triple (· = s₀) (Program.forEach body as)
      (fun _ s => (∀ a ∈ as, Q a (view s₀ (cell a)) (view s (cell a))) ∧
        ∀ k, k ∉ as.map cell → view s k = view s₀ k)
      (fun e s => ∃ done a rest, as = done ++ a :: rest ∧
        (∀ b ∈ done, Q b (view s₀ (cell b)) (view s (cell b))) ∧
        B e a (view s₀ (cell a)) (view s (cell a)) ∧
        ∀ k, k ∉ done.map cell → k ≠ cell a → view s k = view s₀ k) := by
  induction as generalizing s₀ with
  | nil => exact pure fun s hs => ⟨nofun, fun k _ => by rw [hs]⟩
  | cons a rest ih =>
    rw [List.map_cons, List.nodup_cons] at hnodup
    refine bind (conseq (h a s₀) (fun _ hs => hs) (fun _ _ hs => hs) fun e s hs => ?_) fun _ => of_eq fun s₁ h₁ => ?_
    · exact ⟨[], a, rest, rfl, nofun, hs.1, fun k _ hk => hs.2 k hk⟩
    have hsame : ∀ {s}, (∀ k, k ∉ rest.map cell → view s k = view s₁ k) →
        Q a (view s₀ (cell a)) (view s (cell a)) := fun hs => (hs (cell a) hnodup.1).symm ▸ h₁.1
    have hown : ∀ b ∈ rest, view s₁ (cell b) = view s₀ (cell b) := fun b hb =>
      h₁.2 _ fun heq => hnodup.1 (heq ▸ List.mem_map_of_mem hb)
    refine conseq (ih hnodup.2 s₁) (fun _ hs => hs) (fun _ s hs => ?_) fun e s hs => ?_
    · refine ⟨fun b hb => ?_, fun k hk => ?_⟩
      · obtain rfl | hb := List.mem_cons.mp hb
        · exact hsame hs.2
        · exact hown b hb ▸ hs.1 b hb
      · rw [List.map_cons, List.mem_cons, not_or] at hk
        rw [hs.2 k hk.2, h₁.2 k hk.1]
    · obtain ⟨done, c, todo, rfl, hdone, hbad, hrest⟩ := hs
      have hkeep : ∀ k, k ∉ (done ++ c :: todo).map cell → view s k = view s₁ k := fun k hk => by
        rw [List.map_append, List.map_cons, List.mem_append, List.mem_cons, not_or, not_or] at hk
        exact hrest k hk.1 hk.2.1
      refine ⟨a :: done, c, todo, rfl, fun b hb => ?_, ?_, fun k hk hkc => ?_⟩
      · obtain rfl | hb := List.mem_cons.mp hb
        · exact hsame hkeep
        · exact hown b (List.mem_append_left _ hb) ▸ hdone b hb
      · exact hown c (List.mem_append_right _ List.mem_cons_self) ▸ hbad
      · rw [List.map_cons, List.mem_cons, not_or] at hk
        rw [hrest k hk.2 hkc, h₁.2 k hk.1]

end Triple

/-! ### What can come of it -/

/-- From the states of `P` the program can come to a result as `Q` has it. -/
structure Can (P : σ → Prop) (p : Program σ ε α) (Q : α → σ → Prop) : Prop where
  exists_ok : ∀ {s}, P s → ∃ a s', p s (.ok a) s' ∧ Q a s'

namespace Can

variable {P : σ → Prop} {p : Program σ ε α} {Q : α → σ → Prop}

theorem conseq {P' : σ → Prop} {Q' : α → σ → Prop} (h : Can P p Q) (hP : ∀ s, P' s → P s)
    (hQ : ∀ a s, Q a s → Q' a s) : Can P' p Q' where
  exists_ok hs := by
    obtain ⟨a, s', hp, ha⟩ := h.exists_ok (hP _ hs)
    exact ⟨a, s', hp, hQ a s' ha⟩

/-- One state at a time. -/
theorem of_eq (h : ∀ s₀, P s₀ → Can (· = s₀) p Q) : Can P p Q where
  exists_ok hs := (h _ hs).exists_ok rfl

/-- What can come is as all is that comes. -/
theorem triple {R : α → σ → Prop} {E : ε → σ → Prop} (h : Can P p Q) (ht : Triple P p R E) : Can P p R where
  exists_ok hs := by
    obtain ⟨a, s', hp, -⟩ := h.exists_ok hs
    exact ⟨a, s', hp, ht.ok hs hp⟩

theorem pure {a : α} (h : ∀ s, P s → Q a s) : Can P (Pure.pure a : Program σ ε α) Q where
  exists_ok hs := ⟨a, _, ⟨rfl, rfl⟩, h _ hs⟩

/-- A state that is read is known. -/
theorem get_bind {s₀ : σ} {k : σ → Program σ ε α} (h : Can (· = s₀) (k s₀) Q) :
    Can (· = s₀) (Program.get >>= k) Q where
  exists_ok hs := by
    obtain ⟨a, s', hp, ha⟩ := h.exists_ok hs
    exact ⟨a, s', .inl ⟨_, _, ⟨rfl, rfl⟩, hs ▸ hp⟩, ha⟩

theorem modify {f : σ → σ} {Q : PUnit → σ → Prop} (h : ∀ s, P s → Q ⟨⟩ (f s)) :
    Can P (Program.modify f : Program σ ε PUnit) Q where
  exists_ok hs := ⟨⟨⟩, _, ⟨rfl, rfl⟩, h _ hs⟩

theorem bind {R : β → σ → Prop} {k : α → Program σ ε β} (h : Can P p Q) (hk : ∀ a, Can (Q a) (k a) R) :
    Can P (p >>= k) R where
  exists_ok hs := by
    obtain ⟨a, s', hp, ha⟩ := h.exists_ok hs
    obtain ⟨b, s'', hq, hb⟩ := (hk a).exists_ok ha
    exact ⟨b, s'', .inl ⟨a, s', hp, hq⟩, hb⟩

theorem ite {c : Prop} [Decidable c] {p' : Program σ ε α} (h : c → Can P p Q) (h' : ¬c → Can P p' Q) :
    Can P (if c then p else p') Q := by
  split_ifs with hc
  · exact h hc
  · exact h' hc

/-- What can come at once can come with tries to spare. -/
theorem retry (again : ε → Bool) (h : Can P p Q) (n : ℕ) : Can P (Program.retry again p n) Q := by
  cases n with
  | zero => exact h
  | succ n =>
    constructor
    intro s hs
    obtain ⟨a, s', hp, ha⟩ := h.exists_ok hs
    exact ⟨a, s', .inr ⟨hp, nofun⟩, ha⟩

theorem forEach {P : σ → Prop} {body : α → Program σ ε PUnit} {as : List α}
    (h : ∀ a ∈ as, Can P (body a) fun _ => P) : Can P (Program.forEach body as) fun _ => P := by
  induction as with
  | nil => exact pure fun _ hs => hs
  | cons a as ih =>
    exact bind (h a List.mem_cons_self) fun _ => ih fun b hb => h b (List.mem_cons_of_mem a hb)

theorem foldlM {P : σ → Prop} {f : β → α → Program σ ε β} (h : ∀ b a, Can P (f b a) fun _ => P)
    (as : List α) (b : β) : Can P (as.foldlM f b) fun _ => P := by
  induction as generalizing b with
  | nil => exact pure fun _ hs => hs
  | cons a as ih =>
    rw [List.foldlM_cons]
    exact bind (h b a) fun b' => ih b'

end Can

/-! ### Calls -/

/-- Calls one after the other, each from the state that the one before left, whatever that came to. -/
inductive Calls {κ : Type*} (call : κ → Program σ ε α) (s : σ) : List (κ × Except ε α) → σ → Prop where
  | nil : Calls call s [] s
  | snoc {calls : List (κ × Except ε α)} {k : κ} {r : Except ε α} {t u : σ} :
      Calls call s calls t → call k t r u → Calls call s (calls ++ [(k, r)]) u

end Program

/-! ### Loops that fail or go on -/

theorem bind_eq_ok {x : Except ε α} {f : α → Except ε β} {b : β} :
    x >>= f = .ok b ↔ ∃ a, x = .ok a ∧ f a = .ok b := by
  cases x with
  | error e => exact ⟨nofun, fun ⟨_, h, _⟩ => nomatch h⟩
  | ok a => exact ⟨fun h => ⟨a, rfl, h⟩, fun ⟨_, h, hf⟩ => Except.ok.inj h ▸ hf⟩

/-- A loop each of whose turns changes a cell of its own. -/
theorem foldlM_cells {κ ω : Type*} (view : σ → κ → ω) {turn : σ → κ → Except ε σ} {R : κ → ω → ω → Prop}
    (h : ∀ s k s', turn s k = .ok s' → R k (view s k) (view s' k) ∧ ∀ j, j ≠ k → view s' j = view s j)
    {ks : List κ} {s s' : σ} (hnodup : ks.Nodup) (hfold : ks.foldlM turn s = .ok s') :
    (∀ k ∈ ks, R k (view s k) (view s' k)) ∧ ∀ j, j ∉ ks → view s' j = view s j := by
  induction ks generalizing s with
  | nil =>
    obtain rfl : s = s' := Except.ok.inj hfold
    exact ⟨nofun, fun _ _ => rfl⟩
  | cons k ks ih =>
    rw [List.foldlM_cons] at hfold
    rw [List.nodup_cons] at hnodup
    obtain ⟨t, ht, hrest⟩ := bind_eq_ok.mp hfold
    obtain ⟨hown, hothers⟩ := h s k t ht
    obtain ⟨hdone, hkeep⟩ := ih hnodup.2 hrest
    refine ⟨fun j hj => ?_, fun j hj => ?_⟩
    · obtain rfl | hj := List.mem_cons.mp hj
      · exact (hkeep j hnodup.1).symm ▸ hown
      · have hjk : j ≠ k := fun heq => hnodup.1 (heq ▸ hj)
        exact hothers j hjk ▸ hdone j hj
    · rw [List.mem_cons, not_or] at hj
      rw [hkeep j hj.2, hothers j hj.1]

/-- Such a loop goes through when every cell lets its own turn pass. -/
theorem exists_foldlM_cells {κ ω : Type*} (view : σ → κ → ω) {turn : σ → κ → Except ε σ} {G : κ → ω → Prop}
    (h : ∀ s k, G k (view s k) → ∃ s', turn s k = .ok s' ∧ ∀ j, j ≠ k → view s' j = view s j)
    {ks : List κ} {s : σ} (hnodup : ks.Nodup) (hG : ∀ k ∈ ks, G k (view s k)) :
    ∃ s', ks.foldlM turn s = .ok s' := by
  induction ks generalizing s with
  | nil => exact ⟨s, rfl⟩
  | cons k ks ih =>
    rw [List.nodup_cons] at hnodup
    obtain ⟨t, ht, hothers⟩ := h s k (hG k List.mem_cons_self)
    obtain ⟨s', hs'⟩ := ih hnodup.2 fun j hj => by
      rw [hothers j fun heq => hnodup.1 (heq ▸ hj)]
      exact hG j (List.mem_cons_of_mem k hj)
    exact ⟨s', by rw [List.foldlM_cons]; exact bind_eq_ok.mpr ⟨t, ht, hs'⟩⟩

end GramsTof.Lib
