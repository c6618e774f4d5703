import Mathlib.Data.List.Basic

/-! A stream read through a buffer that is filled from it, one chunk at a time,
whenever it is empty. A request is served from as many chunks as it takes. -/

namespace GramsTof.Lib

variable {α : Type*}

/-- What the buffer still holds, and what comes after. -/
structure Buffered (α : Type*) where
  buffer : List α
  rest : List α

namespace Buffered

/-- All that is still to be read. -/
def stream (b : Buffered α) : List α := b.buffer ++ b.rest

def refill (chunk : ℕ) (b : Buffered α) : Buffered α :=
  if b.buffer.isEmpty then ⟨b.rest.take chunk, b.rest.drop chunk⟩ else b

/-- Read `count` cells, or all there are; each round takes what the buffer has. -/
def read (chunk : ℕ) : ℕ → Buffered α → ℕ → List α × Buffered α
  | 0, b, _ => ([], b)
  | fuel + 1, b, count =>
    if count = 0 then ([], b)
    else
      let b := b.refill chunk
      let got := b.buffer.take count
      if got.isEmpty then ([], b)
      else
        let next := read chunk fuel ⟨b.buffer.drop count, b.rest⟩ (count - got.length)
        (got ++ next.1, next.2)

variable {b : Buffered α} {chunk fuel count : ℕ}

@[simp] theorem stream_refill (chunk : ℕ) (b : Buffered α) : (b.refill chunk).stream = b.stream := by
  rw [refill]
  split_ifs with h
  · simp [stream, List.isEmpty_iff.mp h]
  · rfl

/-- A buffer is empty after a refill only at the end of the stream. -/
theorem buffer_refill_eq_nil (hchunk : 0 < chunk) :
    (b.refill chunk).buffer = [] → b.stream = [] := by
  rw [refill, stream]
  split_ifs with h
  · intro ht
    have hb := List.isEmpty_iff.mp h
    rcases List.take_eq_nil_iff.mp ht with h0 | hr
    · omega
    · rw [hb, hr, List.append_nil]
  · intro hn
    exact absurd (List.isEmpty_iff.mpr hn) h

theorem read_spec (hchunk : 0 < chunk) (hfuel : count ≤ fuel) :
    (read chunk fuel b count).1 = b.stream.take count ∧
      (read chunk fuel b count).2.stream = b.stream.drop count := by
  induction fuel generalizing b count with
  | zero =>
    obtain rfl : count = 0 := by omega
    exact ⟨rfl, rfl⟩
  | succ fuel ih =>
    by_cases h0 : count = 0
    · subst h0
      exact ⟨rfl, rfl⟩
    rw [read, if_neg h0]
    by_cases hgot : ((b.refill chunk).buffer.take count).isEmpty
    · have hnil : (b.refill chunk).buffer = [] := by
        rcases List.take_eq_nil_iff.mp (List.isEmpty_iff.mp hgot) with hc | hb
        · exact absurd hc h0
        · exact hb
      have hs := buffer_refill_eq_nil hchunk hnil
      simp only [if_pos hgot, stream_refill, hs, List.take_nil, List.drop_nil, and_self]
    · simp only [if_neg hgot]
      have hstream : (b.refill chunk).buffer ++ (b.refill chunk).rest = b.stream := stream_refill chunk b
      set c := b.refill chunk
      have hlen : 0 < (c.buffer.take count).length :=
        List.length_pos_iff.mpr fun he => hgot (List.isEmpty_iff.mpr he)
      obtain ⟨hfst, hsnd⟩ := ih (b := ⟨c.buffer.drop count, c.rest⟩)
        (show count - (c.buffer.take count).length ≤ fuel by omega)
      rw [hfst, hsnd, ← hstream]
      simp only [stream, List.length_take]
      constructor
      · rw [List.take_append, List.take_append]
        rcases Nat.le_total count c.buffer.length with hle | hle
        · simp [Nat.min_eq_left hle, Nat.sub_eq_zero_of_le hle]
        · simp [Nat.min_eq_right hle, List.drop_eq_nil_of_le hle]
      · rw [List.drop_append, List.drop_append]
        rcases Nat.le_total count c.buffer.length with hle | hle
        · simp [Nat.min_eq_left hle, Nat.sub_eq_zero_of_le hle]
        · simp [Nat.min_eq_right hle, List.drop_eq_nil_of_le hle]

end Buffered

end GramsTof.Lib
