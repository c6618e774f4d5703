import Mathlib.Data.List.Basic
import Mathlib.Data.List.Flatten

/-! Frames written one after another to a byte stream, each of them possibly cut
short. When nothing follows a torn frame, the stream is whole frames and at most
one proper prefix of a further one. -/

namespace GramsTof.Lib

variable {α : Type*}

/-- An attempt to write a frame: what of it went out. -/
structure Write (α : Type*) where
  frame : List α
  sent : List α
  sent_prefix : sent <+: frame

namespace Write

/-- Some of the frame went out, but not all. -/
def Torn (w : Write α) : Prop := w.sent ≠ [] ∧ w.sent ≠ w.frame

/-- All that went out. -/
def stream (ws : List (Write α)) : List α := (ws.map sent).flatten

/-- Whole frames in order, then at most one proper prefix of a frame. -/
def Framed (ws : List (Write α)) : Prop :=
  ∃ (whole : List (List α)) (rest : List α), whole.Sublist (ws.map frame) ∧
    stream ws = whole.flatten ++ rest ∧ (rest = [] ∨ ∃ f ∈ ws.map frame, rest <+: f ∧ rest ≠ f)

/-- Nothing goes out after a torn frame. -/
def Intact (ws : List (Write α)) : Prop := ws.Pairwise fun v w => v.Torn → w.sent = []

variable {ws : List (Write α)} {w : Write α}

theorem stream_cons (w : Write α) (ws : List (Write α)) : stream (w :: ws) = w.sent ++ stream ws := rfl

theorem stream_eq_nil (h : ∀ w ∈ ws, w.sent = []) : stream ws = [] := by
  rw [stream, List.flatten_eq_nil_iff]
  intro l hl
  obtain ⟨w, hw, rfl⟩ := List.mem_map.mp hl
  exact h w hw

theorem intact_nil : Intact ([] : List (Write α)) := List.Pairwise.nil

theorem intact_cons : Intact (w :: ws) ↔ (w.Torn → ∀ v ∈ ws, v.sent = []) ∧ Intact ws :=
  List.pairwise_cons.trans
    (and_congr_left' ⟨fun h ht v hv => h v hv ht, fun h v hv ht => h ht v hv⟩)

theorem Intact.framed (h : Intact ws) : Framed ws := by
  induction ws with
  | nil => exact ⟨[], [], List.Sublist.refl _, rfl, .inl rfl⟩
  | cons w ws ih =>
    obtain ⟨htorn, hrest⟩ := intact_cons.mp h
    by_cases ht : w.Torn
    · refine ⟨[], w.sent, List.nil_sublist _, ?_, .inr ⟨w.frame, by simp, w.sent_prefix, ht.2⟩⟩
      rw [stream_cons, stream_eq_nil (htorn ht)]
      simp
    · obtain ⟨whole, rest, hsub, heq, hprefix⟩ := ih hrest
      have hprefix' : rest = [] ∨ ∃ f ∈ (w :: ws).map frame, rest <+: f ∧ rest ≠ f :=
        hprefix.imp_right fun ⟨f, hf, hp⟩ => ⟨f, List.mem_cons_of_mem _ hf, hp⟩
      by_cases hnil : w.sent = []
      · exact ⟨whole, rest, hsub.cons _, by rw [stream_cons, hnil, heq, List.nil_append], hprefix'⟩
      · have hall : w.sent = w.frame := by
          by_contra hne
          exact ht ⟨hnil, hne⟩
        refine ⟨w.frame :: whole, rest, hsub.cons_cons _, ?_, hprefix'⟩
        rw [stream_cons, heq, hall, List.flatten_cons, List.append_assoc]

theorem intact_iff_split :
    Intact ws ↔ ∀ before w after, ws = before ++ w :: after → w.Torn → ∀ v ∈ after, v.sent = [] := by
  induction ws with
  | nil => simp [intact_nil]
  | cons u ws ih =>
    rw [intact_cons, ih]
    constructor
    · rintro ⟨hu, hws⟩ before w after hsplit
      cases before with
      | nil => cases hsplit; exact hu
      | cons b before => cases hsplit; exact hws before w after rfl
    · intro h
      exact ⟨h [] u ws rfl, fun before w after hsplit => h (u :: before) w after (by rw [hsplit]; rfl)⟩

end Write

end GramsTof.Lib
