import GramsTof.Daqd.Log

/-! What becomes of the frames of an acquisition, in whatever order the worker,
the request loop and the client take their steps. Each frame of each packet is
stored or is lost for one of three reasons, and what the client reads are the
stored frames from its last synchronization on. -/

namespace GramsTof.Daqd

open Lib RawData FrameServer

variable {s s' : FrameServer} {w : Log} {m : Marks}

/-! ### The ring -/

/-- Where the worker is about to put a frame. -/
def Worker.dst : Worker → Option (Option ℕ)
  | .copy dst _ _ _ _ | .parse dst _ _ | .push dst _ _ => some dst
  | _ => none

/-- A slot in hand is the next one of a ring with room; without a slot the ring was found full. -/
def Placed (s : FrameServer) (m : Marks) : Option ℕ → Prop
  | none => m.held = bs
  | some k => k = s.dataFrameWritePointer % bs ∧ m.accepted.length < m.released + bs

/-- What the client believes is so. -/
def Told (s : FrameServer) (m : Marks) : Prop :=
  match s.client with
  | .ready => m.released = m.synced + m.out.length
  | .pointers wr rd =>
    m.released = m.synced + m.out.length ∧ rd = s.dataFrameReadPointer ∧ wr = m.seen % (2 * bs) ∧
      m.released ≤ m.seen ∧ m.seen ≤ m.accepted.length
  | .block wr pos =>
    m.released ≤ m.synced + m.out.length ∧ pos = (m.synced + m.out.length) % (2 * bs) ∧
      ∃ stop, wr = stop % (2 * bs) ∧ m.synced + m.out.length ≤ stop ∧ stop ≤ m.accepted.length

structure RingInv (s : FrameServer) (m : Marks) : Prop where
  ring : Ring.Holds bs (fun k => words (s.slot k)) s.dataFrameWritePointer s.dataFrameReadPointer
    m.accepted m.released
  sized : ∀ f ∈ m.accepted, WellSized f
  synced : m.synced ≤ m.accepted.length
  out : m.out <+: m.accepted.drop m.synced
  told : Told s m
  placed : ∀ dst, s.worker.dst = some dst → Placed s m dst

theorem RingInv.position_le (h : RingInv s m) : m.synced + m.out.length ≤ m.accepted.length := by
  have hlen := h.out.length_le
  have := h.synced
  rw [List.length_drop] at hlen
  omega

/-- Steps that leave the ring alone. -/
theorem RingInv.congr (h : RingInv s m) (hshm : s'.shmPtr = s.shmPtr)
    (hwr : s'.dataFrameWritePointer = s.dataFrameWritePointer)
    (hrd : s'.dataFrameReadPointer = s.dataFrameReadPointer) (hclient : s'.client = s.client)
    (hdst : ∀ dst, s'.worker.dst = some dst → s.worker.dst = some dst) : RingInv s' m where
  ring := by
    have hslot : s'.slot = s.slot := by
      funext k i
      simp only [slot, hshm]
    rw [hslot, hwr, hrd]
    exact h.ring
  sized := h.sized
  synced := h.synced
  out := h.out
  told := by
    rw [Told, hclient, hrd]
    exact h.told
  placed dst hd := by
    have hp := h.placed dst (hdst dst hd)
    cases dst with
    | none => exact hp
    | some k => exact ⟨by rw [hwr]; exact hp.1, hp.2⟩

theorem dst_next (p n : ℕ) : (next p n).dst = none := by
  rw [next]
  split_ifs <;> rfl

/-- A word written to a slot in hand is seen in no frame of the ring. -/
theorem ringInv_word {dst : Option ℕ} {p n size i : ℕ} (v : UInt64) (h : RingInv s m)
    (hw : s.worker = .copy dst p n size i) (hi : i < MaxRawDataFrameSize) :
    RingInv { s.store dst i v with worker := .copy dst p n size (i + 1) } m := by
  have hplaced := h.placed dst (by rw [hw]; rfl)
  refine ⟨?_, h.sized, h.synced, h.out, h.told, ?_⟩
  · cases dst with
    | none => exact h.ring
    | some k =>
      refine h.ring.write_slot hplaced.2 fun k' x hx hk hwords => ?_
      have hne : some k ≠ some k' := fun he => hk (Option.some.inj he ▸ hplaced.1)
      refine words_congr (h.sized x hx) hwords fun j hj => ?_
      have hslot : (s.store (some k) i v).slot k' j = s.slot k' j := slot_store v hi hj hne
      exact hslot
  · intro dst' hd
    obtain rfl := Option.some.inj hd
    cases dst <;> exact hplaced

theorem ringInv_push {dst : Option ℕ} {p n : ℕ} {f : List UInt64} {rest : List (List UInt64)}
    (h : RingInv s m) (hw : s.worker = .push dst p n) (hc : Copied s dst f rest p n) :
    RingInv { s with
      dataFrameWritePointer :=
        if dst.isSome then (s.dataFrameWritePointer + 1) % (2 * bs) else s.dataFrameWritePointer
      worker := next p n }
      (if dst.isSome then { m with accepted := m.accepted ++ [f] } else m) := by
  have hplaced := h.placed dst (by rw [hw]; rfl)
  have hdst : ∀ d, (next p n).dst = some d → s.worker.dst = some d := by
    intro d hd
    rw [dst_next] at hd
    cases hd
  cases dst with
  | none => exact h.congr rfl rfl rfl rfl hdst
  | some k =>
    obtain ⟨rfl, hroom⟩ := hplaced
    refine ⟨h.ring.push hroom (hc.carries.words_eq hc.sized), ?_, ?_, ?_, ?_, ?_⟩
    · intro g hg
      rcases List.mem_append.mp hg with hg | hg
      · exact h.sized g hg
      · rw [List.mem_singleton.mp hg]
        exact hc.sized
    · exact h.synced.trans (by simp)
    · show m.out <+: (m.accepted ++ [f]).drop m.synced
      rw [List.drop_append_of_le_length h.synced]
      exact h.out.trans (List.prefix_append _ _)
    · have ht := h.told
      have hle : m.accepted.length ≤ (m.accepted ++ [f]).length := by simp
      rw [Told] at ht ⊢
      cases hclient : s.client with
      | ready => rwa [hclient] at ht
      | pointers wr rd =>
        rw [hclient] at ht
        exact ⟨ht.1, ht.2.1, ht.2.2.1, ht.2.2.2.1, ht.2.2.2.2.trans hle⟩
      | block wr pos =>
        rw [hclient] at ht
        obtain ⟨hrel, hpos, stop, hwr, hstop, hacc⟩ := ht
        exact ⟨hrel, hpos, stop, hwr, hstop, hacc.trans hle⟩
    · intro d hd
      exact absurd (hdst d hd) (by rw [dst_next] at hd; cases hd)

theorem ringInv_work (h : RingInv s w.toMarks) (hwork : AtWork s w.pending) (hs : s.work = some s') :
    RingInv s' (w.work s).toMarks := by
  cases work_inv hs with
  | head hw =>
    simp only [Log.work, hw]
    exact h.congr rfl rfl rfl rfl fun dst hd => by cases hdie : s.die <;> simp [Worker.dst, hdie] at hd
  | recv hw =>
    simp only [Log.work, hw]
    exact h.congr rfl rfl rfl rfl fun dst hd => by cases hd
  | select hw =>
    simp only [Log.work, hw]
    have hfull := h.ring.isFull_iff (by decide)
    have hroom := h.ring.room
    refine ⟨h.ring, h.sized, h.synced, h.out, h.told, fun dst hd => ?_⟩
    obtain rfl := Option.some.inj hd
    split_ifs with hf
    · have := hfull.mp hf
      show w.accepted.length - w.released = bs
      omega
    · exact ⟨rfl, lt_of_le_of_ne hroom fun he => hf (hfull.mpr he)⟩
  | word hw hlt =>
    simp only [AtWork, hw] at hwork
    obtain ⟨f, rest, -, hb, rfl, -, -⟩ := hwork
    simp only [Log.work, hw]
    exact ringInv_word _ h hw (hlt.trans_le (hb.sized f List.mem_cons_self).2.1)
  | copied hw =>
    simp only [Log.work, hw]
    exact h.congr rfl rfl rfl rfl fun dst hd => by rw [hw]; exact hd
  | malformed hw hparse =>
    simp only [Log.work, hw, hparse]
    exact h.congr rfl rfl rfl rfl fun dst hd => by cases hd
  | old hw hparse hold =>
    simp only [Log.work, hw, hparse, hold]
    exact h.congr rfl rfl rfl rfl fun dst hd => by rw [dst_next] at hd; cases hd
  | young hw hparse hyoung =>
    simp only [Log.work, hw, hparse, not_lt.mpr hyoung]
    exact h.congr rfl rfl rfl rfl fun dst hd => by rw [hw]; exact hd
  | @push dst p n hw =>
    simp only [AtWork, hw] at hwork
    obtain ⟨f, rest, hp, hc, -⟩ := hwork
    have hpush := ringInv_push h hw hc
    simp only [Log.work, hw]
    cases dst with
    | none => exact hpush
    | some k =>
      simp only [Option.isSome_some, if_true, Log.settle, Log.store, hp]
      exact hpush

/-! ### The client -/

/-- Pointers of numbers at most a ring apart: the distance is taken the short way round. -/
theorem nFramesInBlock_eq {r x : ℕ} (hr : r ≤ x) (hx : x ≤ r + bs) (framesToTarget : ℕ) :
    nFramesInBlock (x % (2 * bs)) (r % (2 * bs)) framesToTarget =
      min (min (x - r) framesToTarget) (bs / 2) := by
  have hbs : bs = 16384 := rfl
  simp only [nFramesInBlock, hbs] at hx ⊢
  split_ifs <;> omega

/-- The ring as it looks from the client's position. -/
theorem RingInv.told_ready (h : RingInv s m) (hf : s.client.free) :
    m.released = m.synced + m.out.length := by
  have ht := h.told
  rw [Told] at ht
  cases hc : s.client with
  | ready => rwa [hc] at ht
  | pointers => rw [hc] at ht; exact ht.1
  | block => rw [hc] at hf; cases hf

theorem ringInv_setMinimumFrameID {frameID : ℕ} (h : RingInv s m)
    (hs : s.setMinimumFrameID frameID = some s') :
    RingInv s' { m with since := m.accepted.length, fresh := false } := by
  obtain ⟨hf, rfl⟩ := setMinimumFrameID_inv hs
  exact ⟨h.ring, h.sized, h.synced, h.out, h.told_ready hf, h.placed⟩

theorem ringInv_getPointers (h : RingInv s m) (hs : s.getPointers = some s') :
    RingInv s' { m with seen := m.accepted.length } := by
  obtain ⟨-, hf, rfl⟩ := getPointers_inv hs
  refine ⟨h.ring, h.sized, h.synced, h.out, ?_, fun dst hd => ?_⟩
  · refine ⟨h.told_ready hf, ?_, ?_, h.ring.released, le_rfl⟩
    · rw [h.ring.read, Nat.mod_mod]
    · rw [h.ring.write, Nat.mod_mod]
  · have hp := h.placed dst hd
    cases dst <;> exact hp

theorem ringInv_skip (h : RingInv s m) (hs : s.skip = some s') :
    RingInv s' { m with out := [], synced := m.seen, released := m.seen, fresh := true } := by
  obtain ⟨wr, rd, hc, rfl⟩ := skip_inv hs
  have ht := h.told
  rw [Told, hc] at ht
  obtain ⟨-, -, rfl, hrel, hseen⟩ := ht
  refine ⟨?_, h.sized, hseen, List.nil_prefix, rfl, fun dst hd => ?_⟩
  · simp only [Nat.mod_mod]
    exact h.ring.release hrel hseen
  · have hp := h.placed dst hd
    cases dst with
    | none => exact hp
    | some k =>
      refine ⟨hp.1, ?_⟩
      have := hp.2
      show m.accepted.length < m.seen + bs
      omega

theorem ringInv_send {framesToTarget : ℕ} (h : RingInv s m) (hs : s.send framesToTarget = some s') :
    RingInv s' m := by
  obtain ⟨wr, rd, hc, rfl⟩ := send_inv hs
  have ht := h.told
  rw [Told, hc] at ht
  obtain ⟨hpos, rfl, rfl, hrel, hseen⟩ := ht
  have hroom := h.ring.room
  refine ⟨h.ring, h.sized, h.synced, h.out, ?_, h.placed⟩
  refine ⟨hpos.le, ?_, m.released + nFramesInBlock (m.seen % (2 * bs)) (m.released % (2 * bs))
    framesToTarget, ?_, ?_, ?_⟩
  · rw [h.ring.read, Nat.mod_mod, hpos]
  · rw [h.ring.read, Nat.mod_add_mod]
  · rw [← hpos]
    exact Nat.le_add_right _ _
  · rw [nFramesInBlock_eq hrel (by omega)]
    omega

/-- The frame that `write_raw` reads is the next of those stored. -/
theorem ringInv_read (h : RingInv s w.toMarks) (hs : s.read = some s') :
    RingInv s' (w.read s).toMarks := by
  obtain ⟨wr, pos, hc, hne, rfl⟩ := read_inv hs
  have ht := h.told
  rw [Told, hc] at ht
  obtain ⟨hrel, rfl, stop, rfl, hle, hacc⟩ := ht
  have hlt : w.synced + w.out.length < stop := lt_of_le_of_ne hle fun he => hne (by rw [he])
  have hx := List.getElem?_eq_getElem (hlt.trans_le hacc)
  have hslot := h.ring.slot _ _ hrel hx
  simp only [Log.read, hc]
  refine ⟨h.ring, h.sized, h.synced, ?_, ⟨?_, ?_, stop, rfl, ?_, hacc⟩, h.placed⟩
  · obtain ⟨tl, htl⟩ := h.out
    have hhead : tl[0]? = some w.accepted[w.synced + w.out.length] := by
      rw [← hx, ← List.getElem?_drop, ← htl, List.getElem?_append_right le_rfl, Nat.sub_self]
    obtain ⟨x, tl', rfl⟩ : ∃ x tl', tl = x :: tl' := by
      cases tl with
      | nil => cases hhead
      | cons x tl' => exact ⟨x, tl', rfl⟩
    refine ⟨tl', ?_⟩
    rw [Ring.mod_two_mul_mod, hslot, ← htl, List.append_assoc, List.singleton_append]
    simpa using hhead.symm
  · simp only [List.length_append]
    omega
  · simp only [List.length_append, List.length_singleton, Nat.mod_add_mod, Nat.add_assoc]
  · simp only [List.length_append, List.length_singleton]
    omega

theorem ringInv_setReadPointer (h : RingInv s m) (hs : s.setReadPointer = some s') :
    RingInv s' { m with released := m.synced + m.out.length } := by
  obtain ⟨pos, hc, rfl⟩ := setReadPointer_inv hs
  have ht := h.told
  rw [Told, hc] at ht
  obtain ⟨hrel, rfl, -⟩ := ht
  refine ⟨?_, h.sized, h.synced, h.out, rfl, fun dst hd => ?_⟩
  · simp only [Nat.mod_mod]
    exact h.ring.release hrel h.position_le
  · have hp := h.placed dst hd
    cases dst with
    | none => exact hp
    | some k =>
      refine ⟨hp.1, ?_⟩
      have := hp.2
      show m.accepted.length < m.synced + m.out.length + bs
      omega

/-! ### Fates -/

/-- The reason holds. -/
def Fate.Explains (f : List UInt64) : Fate → Prop
  | .stored => parseDataFrame (ofWords f) = true
  | .full held => parseDataFrame (ofWords f) = true ∧ held = bs
  | .old minimum => parseDataFrame (ofWords f) = true ∧ getFrameID (ofWords f) < minimum
  | .malformed bad => parseDataFrame (ofWords bad) = false

def Fate.isStored : Fate → Bool
  | .stored => true
  | _ => false

/-- Every frame of a packet is in work or has met its fate, and those stored are the ones in the
ring's list. -/
structure FateInv (w : Log) : Prop where
  received : w.received = w.fates.map Prod.fst ++ w.pending
  accepted : w.accepted = (w.fates.filter fun p => p.2.isStored).map Prod.fst

theorem fateInv_work (h : FateInv w) (hwork : AtWork s w.pending) (hs : s.work = some s') :
    FateInv (w.work s) := by
  cases work_inv hs with
  | malformed hw hparse =>
    simp only [Log.work, hw, hparse]
    refine ⟨?_, ?_⟩
    · simp [Log.abandon, h.received, Function.comp_def]
    · simp [Log.abandon, h.accepted, Fate.isStored, List.filter_map]
  | old hw hparse hold =>
    simp only [AtWork, hw] at hwork
    obtain ⟨f, rest, hp, -⟩ := hwork
    simp only [Log.work, hw, hparse, hold]
    refine ⟨?_, ?_⟩
    · simp [Log.settle, h.received, hp]
    · simp [Log.settle, h.accepted, hp, Fate.isStored]
  | young hw hparse hyoung =>
    simp only [Log.work, hw, hparse, not_lt.mpr hyoung]
    exact h
  | @push dst p n hw =>
    simp only [AtWork, hw] at hwork
    obtain ⟨f, rest, hp, -⟩ := hwork
    simp only [Log.work, hw]
    cases dst with
    | none => exact ⟨by simp [Log.settle, h.received, hp], by simp [Log.settle, h.accepted, hp, Fate.isStored]⟩
    | some k =>
      exact ⟨by simp [Log.settle, Log.store, h.received, hp],
        by simp [Log.settle, Log.store, h.accepted, hp, Fate.isStored]⟩
  | head hw | recv hw | select hw | word hw | copied hw =>
    simp only [Log.work, hw]
    exact ⟨h.received, h.accepted⟩

/-- The reasons of the fates hold, and the frame a packet was given up for has the same fate. -/
def Explained (w : Log) : Prop :=
  ∀ p ∈ w.fates, p.2.Explains p.1 ∧ ∀ bad, p.2 = .malformed bad → (bad, p.2) ∈ w.fates

theorem explained_work (h : Explained w) (hring : RingInv s w.toMarks) (hwork : AtWork s w.pending)
    (hs : s.work = some s') : Explained (w.work s) := by
  have hsettle : ∀ (fate : Fate) (f : List UInt64) {v : Log}, fate.Explains f →
      (∀ bad, fate ≠ .malformed bad) → v.fates = w.fates ++ [(f, fate)] → Explained v := by
    intro fate f v hex hne hv p hmem
    rw [hv] at hmem ⊢
    rcases List.mem_append.mp hmem with hmem | hmem
    · exact ⟨(h p hmem).1, fun bad hb => List.mem_append_left _ ((h p hmem).2 bad hb)⟩
    · rw [List.mem_singleton.mp hmem]
      exact ⟨hex, fun bad hb => absurd hb (hne bad)⟩
  cases work_inv hs with
  | malformed hw hparse =>
    simp only [AtWork, hw] at hwork
    obtain ⟨f, rest, hp, hc⟩ := hwork
    simp only [Log.work, hw, hparse]
    intro p hmem
    rcases List.mem_append.mp hmem with hmem | hmem
    · exact ⟨(h p hmem).1, fun bad hb => List.mem_append_left _ ((h p hmem).2 bad hb)⟩
    · obtain ⟨g, -, rfl⟩ := List.mem_map.mp hmem
      rw [hp, List.headD_cons]
      have hbad : parseDataFrame (ofWords f) = false := hc.parse_eq ▸ hparse
      refine ⟨hbad, fun bad hb => List.mem_append_right _ ?_⟩
      obtain rfl : f = bad := by simpa using hb
      rw [hp, List.headD_cons]
      exact List.mem_map_of_mem List.mem_cons_self
  | old hw hparse hold =>
    simp only [AtWork, hw] at hwork
    obtain ⟨f, rest, hp, hc⟩ := hwork
    simp only [Log.work, hw, hparse, hold]
    exact hsettle (.old s.minimumFrameID) f ⟨hc.parse_eq ▸ hparse, hc.id_eq ▸ hold⟩
      (fun _ => Fate.noConfusion) (by simp [Log.settle, hp])
  | young hw hparse hyoung =>
    simp only [Log.work, hw, hparse, not_lt.mpr hyoung]
    exact h
  | @push dst p n hw =>
    simp only [AtWork, hw] at hwork
    obtain ⟨f, rest, hp, hc, hparse⟩ := hwork
    have hplaced := hring.placed dst (by rw [hw]; rfl)
    simp only [Log.work, hw]
    cases dst with
    | none =>
      exact hsettle (.full w.held) f ⟨hparse, hplaced⟩ (fun _ => Fate.noConfusion)
        (by simp [Log.settle, hp])
    | some k =>
      exact hsettle .stored f hparse (fun _ => Fate.noConfusion)
        (by simp [Log.settle, Log.store, hp])
  | head hw | recv hw | select hw | word hw | copied hw =>
    simp only [Log.work, hw]
    exact h

/-! ### Ages -/

/-- Of the frames stored since the client last set the oldest it wants, only the first can be older:
the worker may have had it in hand. -/
structure AgeInv (s : FrameServer) (w : Log) : Prop where
  since : w.since ≤ w.accepted.length
  fresh : w.fresh = true → w.since ≤ w.synced
  told : ∀ wr rd, s.client = .pointers wr rd → w.since ≤ w.seen
  young : ∀ i f, w.since < i → w.accepted[i]? = some f → s.minimumFrameID ≤ getFrameID (ofWords f)
  hand : ∀ dst p n f rest, s.worker = .push dst p n → w.pending = f :: rest →
    s.minimumFrameID ≤ getFrameID (ofWords f) ∨ w.accepted.length = w.since

theorem ageInv_work (h : AgeInv s w) (hwork : AtWork s w.pending) (hs : s.work = some s') :
    AgeInv s' (w.work s) := by
  have hidle : ∀ {v : Log} {pc : Worker}, v.toMarks = w.toMarks → (∀ dst p n, pc ≠ .push dst p n) →
      AgeInv { s with worker := pc } v := by
    intro v pc hv hpc
    refine ⟨?_, ?_, ?_, ?_, fun dst p n _ _ he => absurd he (hpc dst p n)⟩
    all_goals rw [hv]
    exacts [h.since, h.fresh, h.told, h.young]
  have hnext : ∀ p n dst q k, next p n ≠ .push dst q k := by
    intro p n dst q k
    rw [next]
    split_ifs <;> exact Worker.noConfusion
  cases work_inv hs with
  | head hw =>
    simp only [Log.work, hw]
    exact hidle rfl fun _ _ _ => by cases s.die <;> exact Worker.noConfusion
  | recv hw | copied hw =>
    simp only [Log.work, hw]
    exact hidle rfl fun _ _ _ => Worker.noConfusion
  | select hw =>
    simp only [Log.work, hw]
    exact ⟨h.since, h.fresh, h.told, h.young, fun _ _ _ _ _ he => by cases he⟩
  | word hw =>
    simp only [Log.work, hw]
    exact ⟨h.since, h.fresh, h.told, h.young, fun _ _ _ _ _ he => by cases he⟩
  | malformed hw hparse =>
    simp only [Log.work, hw, hparse]
    exact hidle rfl fun _ _ _ => Worker.noConfusion
  | old hw hparse hold =>
    simp only [Log.work, hw, hparse, hold]
    exact hidle rfl (hnext _ _)
  | young hw hparse hyoung =>
    simp only [AtWork, hw] at hwork
    obtain ⟨f, rest, hp, hc⟩ := hwork
    simp only [Log.work, hw, hparse, not_lt.mpr hyoung]
    refine ⟨h.since, h.fresh, h.told, h.young, fun dst p n g tl _ hg => .inl ?_⟩
    obtain ⟨rfl, rfl⟩ : g = f ∧ tl = rest := by simpa using hg.symm.trans hp
    exact hc.id_eq ▸ hyoung
  | @push dst p n hw =>
    simp only [AtWork, hw] at hwork
    obtain ⟨f, rest, hp, -⟩ := hwork
    have hhand := h.hand _ _ _ _ _ hw hp
    have hsince := h.since
    simp only [Log.work, hw]
    cases dst with
    | none => exact ⟨h.since, h.fresh, h.told, h.young, fun _ _ _ _ _ he => absurd he (hnext _ _ _ _ _)⟩
    | some k =>
      refine ⟨?_, h.fresh, h.told, fun i g hi hg => ?_, fun _ _ _ _ _ he => absurd he (hnext _ _ _ _ _)⟩
      · simp only [Log.settle, Log.store, Option.isSome_some, if_true, List.length_append]
        omega
      · simp only [Log.settle, Log.store, Option.isSome_some, if_true, hp, List.take_succ_cons,
          List.take_zero] at hg hi
        rcases lt_trichotomy i w.accepted.length with hlt | rfl | hgt
        · rw [List.getElem?_append_left hlt] at hg
          exact h.young i g hi hg
        · rw [List.getElem?_append_right le_rfl, Nat.sub_self] at hg
          cases hg
          exact hhand.resolve_right (by omega)
        · rw [List.getElem?_eq_none (by simp; omega)] at hg
          cases hg

/-! ### Runs -/

/-- What holds while an acquisition is on. -/
structure Live (s : FrameServer) (w : Log) : Prop where
  ring : RingInv s w.toMarks
  explained : Explained w
  age : AgeInv s w

structure Inv (p : FrameServer × Log) : Prop where
  worker : WorkerInv p.1 p.2
  waiting : p.1.request ≠ .idle → p.1.client = .ready
  fates : FateInv p.2
  live : p.1.Acquiring → Live p.1 p.2

theorem live_work (h : Live s w) (hwork : AtWork s w.pending) (hs : s.work = some s') :
    Live s' (w.work s) :=
  ⟨ringInv_work h.ring hwork hs, explained_work h.explained h.ring hwork hs, ageInv_work h.age hwork hs⟩

theorem ageInv_recv {v : Log} (h : AgeInv s w) (hv : v.toMarks = w.toMarks)
    (hclient : s'.client = s.client) (hmin : s'.minimumFrameID = s.minimumFrameID)
    (hpc : ∀ dst p n, s'.worker ≠ .push dst p n) : AgeInv s' v := by
  refine ⟨?_, ?_, ?_, ?_, fun dst p n _ _ he => absurd he (hpc dst p n)⟩
  all_goals rw [hv]
  exacts [h.since, h.fresh, hclient ▸ h.told, hmin ▸ h.young]

theorem live_recv {packet : List (List UInt64)} (h : Live s w) (hs : s.recv packet.flatten = some s') :
    Live s' (track s (.recv packet) s' w) := by
  obtain ⟨hw, ⟨hm, rfl⟩ | ⟨hm, rfl⟩⟩ := recv_inv hs
  · rw [track, if_pos hm]
    exact ⟨h.ring.congr rfl rfl rfl rfl (by intro _ hd; cases hd), h.explained,
      ageInv_recv h.age rfl rfl rfl fun _ _ _ => Worker.noConfusion⟩
  · rw [track, if_neg (not_not.mpr hm)]
    exact ⟨h.ring.congr rfl rfl rfl rfl (by intro _ hd; cases hd), h.explained,
      ageInv_recv h.age rfl rfl rfl fun _ _ _ => Worker.noConfusion⟩

/-- A started acquisition has an empty ring and no history. -/
theorem live_start (hwr : s.dataFrameWritePointer = 0) (hrd : s.dataFrameReadPointer = 0)
    (hmin : s.minimumFrameID = 0) (hworker : s.worker = .head) (hclient : s.client = .ready) :
    Live s .empty where
  ring := by
    refine ⟨?_, fun _ hf => (by cases hf), le_rfl, List.nil_prefix, ?_, fun _ hd => ?_⟩
    · rw [hwr, hrd]
      exact .empty _ _
    · rw [Told, hclient]
      rfl
    · rw [hworker] at hd
      cases hd
  explained := fun _ hp => by cases hp
  age := by
    refine ⟨le_rfl, fun _ => le_rfl, fun _ _ hc => ?_, fun _ _ _ _ => ?_, fun _ _ _ _ _ he => ?_⟩
    · rw [hclient] at hc
      cases hc
    · rw [hmin]
      exact Nat.zero_le _
    · rw [hworker] at he
      cases he

/-- Between two exchanges of the client the worker's business is as it was. -/
theorem AgeInv.client {c : Client} {rd : ℕ} (h : AgeInv s w) (hc : ∀ x y, c ≠ .pointers x y) :
    AgeInv { s with client := c, dataFrameReadPointer := rd } w :=
  ⟨h.since, h.fresh, fun x y he => absurd he (hc x y), h.young, h.hand⟩

theorem live_client {e : Event} (h : Live s w) (hs : step s e = some s')
    (he : match e with | .work | .recv _ | .join | .acqOnOff _ | .stopWorker => False | _ => True) :
    Live s' (track s e s' w) := by
  cases e with
  | setMinimumFrameID frameID =>
    have hring := ringInv_setMinimumFrameID h.ring hs
    obtain ⟨-, rfl⟩ := setMinimumFrameID_inv hs
    refine ⟨hring, h.explained, le_rfl, fun hf => (by cases hf), fun _ _ hc => (by cases hc),
      fun i f hi hf => ?_, fun _ _ _ _ _ _ _ => Or.inr rfl⟩
    rw [track, List.getElem?_eq_none hi.le] at hf
    cases hf
  | getPointers =>
    have hring := ringInv_getPointers h.ring hs
    obtain ⟨-, -, rfl⟩ := getPointers_inv hs
    exact ⟨hring, h.explained, h.age.since, h.age.fresh, fun _ _ _ => h.age.since, h.age.young,
      h.age.hand⟩
  | skip =>
    have hring := ringInv_skip h.ring hs
    obtain ⟨wr, rd, hc, rfl⟩ := skip_inv hs
    exact ⟨hring, h.explained, h.age.since, fun _ => h.age.told _ _ hc, fun _ _ hc => (by cases hc),
      h.age.young, h.age.hand⟩
  | send framesToTarget =>
    have hring := ringInv_send h.ring hs
    obtain ⟨_, _, -, rfl⟩ := send_inv hs
    exact ⟨hring, h.explained, h.age.client fun _ _ => Client.noConfusion⟩
  | read =>
    have hring := ringInv_read h.ring hs
    obtain ⟨wr, pos, hc, -, rfl⟩ := read_inv hs
    simp only [Log.read, hc] at hring
    simp only [track, Log.read, hc]
    exact ⟨hring, h.explained, h.age.since, h.age.fresh, fun _ _ hc => (by cases hc), h.age.young,
      h.age.hand⟩
  | setReadPointer =>
    have hring := ringInv_setReadPointer h.ring hs
    obtain ⟨_, -, rfl⟩ := setReadPointer_inv hs
    exact ⟨hring, h.explained, h.age.since, h.age.fresh, fun _ _ hc => (by cases hc), h.age.young,
      h.age.hand⟩
  | work | recv | join | acqOnOff | stopWorker => cases he

theorem waiting_step {e : Event} (h : s.request ≠ .idle → s.client = .ready) (hs : step s e = some s') :
    s'.request ≠ .idle → s'.client = .ready := by
  cases e with
  | work =>
    intro hr
    cases work_inv hs <;> exact h hr
  | recv packet =>
    obtain ⟨-, ⟨-, rfl⟩ | ⟨-, rfl⟩⟩ := recv_inv hs <;> exact h
  | acqOnOff acqMode =>
    obtain ⟨mode, rfl⟩ := acqOnOff_inv hs
    exact fun _ => rfl
  | stopWorker =>
    obtain ⟨mode, die, hr, rfl⟩ := stopWorker_inv hs
    exact fun _ => h hr
  | join =>
    obtain ⟨-, -, rfl | ⟨mode, -, rfl⟩⟩ := join_inv hs <;> exact fun hr => absurd rfl hr
  | setMinimumFrameID frameID =>
    obtain ⟨-, rfl⟩ := setMinimumFrameID_inv hs
    exact fun _ => rfl
  | getPointers =>
    obtain ⟨hidle, -, rfl⟩ := getPointers_inv hs
    exact fun hr => absurd hidle hr
  | skip =>
    obtain ⟨_, _, -, rfl⟩ := skip_inv hs
    exact fun _ => rfl
  | setReadPointer =>
    obtain ⟨_, -, rfl⟩ := setReadPointer_inv hs
    exact fun _ => rfl
  | send framesToTarget =>
    obtain ⟨_, _, hc, rfl⟩ := send_inv hs
    exact fun hr => absurd (hc.symm.trans (h hr)) (by simp)
  | read =>
    obtain ⟨_, _, hc, -, rfl⟩ := read_inv hs
    exact fun hr => absurd (hc.symm.trans (h hr)) (by simp)

theorem fateInv_step {e : Event} (h : FateInv w) (hwork : AtWork s w.pending)
    (hs : step s e = some s') : FateInv (track s e s' w) := by
  cases e with
  | work => exact fateInv_work h hwork hs
  | recv packet =>
    obtain ⟨hw, -⟩ := recv_inv hs
    simp only [AtWork, hw] at hwork
    have hrec := h.received
    rw [hwork, List.append_nil] at hrec
    rw [track]
    split_ifs
    · exact ⟨by simp [hrec], h.accepted⟩
    · exact h
  | join =>
    rw [track]
    split_ifs
    · exact ⟨rfl, rfl⟩
    · exact h
  | read =>
    obtain ⟨_, _, hc, -⟩ := read_inv hs
    simp only [track, Log.read, hc]
    exact ⟨h.received, h.accepted⟩
  | _ => exact ⟨h.received, h.accepted⟩

theorem live_step {e : Event} (h : Inv (s, w)) (hs : step s e = some s') (ha : s'.Acquiring) :
    Live s' (track s e s' w) := by
  cases e with
  | work =>
    have hreq : s'.request = s.request ∧ s'.hasWorker = s.hasWorker := by
      cases work_inv hs <;> exact ⟨rfl, rfl⟩
    exact live_work (h.live ⟨hreq.1 ▸ ha.1, hreq.2 ▸ ha.2⟩) h.worker.atWork hs
  | recv packet =>
    have hreq : s'.request = s.request ∧ s'.hasWorker = s.hasWorker := by
      obtain ⟨-, ⟨-, rfl⟩ | ⟨-, rfl⟩⟩ := recv_inv hs <;> exact ⟨rfl, rfl⟩
    exact live_recv (h.live ⟨hreq.1 ▸ ha.1, hreq.2 ▸ ha.2⟩) hs
  | acqOnOff acqMode =>
    obtain ⟨mode, rfl⟩ := acqOnOff_inv hs
    cases ha.1
  | stopWorker =>
    obtain ⟨mode, die, -, rfl⟩ := stopWorker_inv hs
    cases ha.1
  | join =>
    obtain ⟨hbusy, -, rfl | ⟨mode, -, rfl⟩⟩ := join_inv hs
    · cases ha.2
    · exact live_start rfl rfl rfl rfl (h.waiting hbusy)
  | setMinimumFrameID =>
    have hlive : s.Acquiring := by
      obtain ⟨-, rfl⟩ := setMinimumFrameID_inv hs
      exact ha
    exact live_client (h.live hlive) hs trivial
  | getPointers =>
    have hlive : s.Acquiring := by
      obtain ⟨-, -, rfl⟩ := getPointers_inv hs
      exact ha
    exact live_client (h.live hlive) hs trivial
  | skip =>
    have hlive : s.Acquiring := by
      obtain ⟨_, _, -, rfl⟩ := skip_inv hs
      exact ha
    exact live_client (h.live hlive) hs trivial
  | send =>
    have hlive : s.Acquiring := by
      obtain ⟨_, _, -, rfl⟩ := send_inv hs
      exact ha
    exact live_client (h.live hlive) hs trivial
  | read =>
    have hlive : s.Acquiring := by
      obtain ⟨_, _, -, -, rfl⟩ := read_inv hs
      exact ha
    exact live_client (h.live hlive) hs trivial
  | setReadPointer =>
    have hlive : s.Acquiring := by
      obtain ⟨_, -, rfl⟩ := setReadPointer_inv hs
      exact ha
    exact live_client (h.live hlive) hs trivial

theorem inv_of_reach {p : FrameServer × Log} (h : logged.Reach (fun p e => Packets p.1 e) p) : Inv p := by
  refine h.invariant_history (fun s h0 => ?_) fun s w e s' hi hp hs =>
    ⟨workerInv_step hi.worker hp hs, waiting_step hi.waiting hs,
      fateInv_step hi.fates hi.worker.atWork hs, live_step hi hs⟩
  obtain ⟨-, -, -, -, -, hhas, hworker, hreq, hclient⟩ := h0
  refine ⟨⟨?_, fun _ => hworker⟩, fun hr => absurd hreq hr, ⟨rfl, rfl⟩, fun ha => ?_⟩
  · simp only [AtWork, hworker]
    rfl
  · exact absurd (hhas.symm.trans ha.2) (by decide)

/-- Where the client is in the ring. -/
def FrameServer.position (s : FrameServer) : ℕ :=
  match s.client with
  | .block _ pos => pos
  | _ => s.dataFrameReadPointer

/-- The frames of the ring that the client has not read. -/
def FrameServer.unread (s : FrameServer) : List (List UInt64) :=
  Ring.window bs (fun k => words (s.slot k)) s.position
    (Ring.level bs s.dataFrameWritePointer s.position)

/-- The ring as it looks from the client's position. -/
theorem RingInv.holds_position (h : RingInv s m) :
    Ring.Holds bs (fun k => words (s.slot k)) s.dataFrameWritePointer s.position m.accepted
      (m.synced + m.out.length) := by
  have ht := h.told
  rw [Told] at ht
  rw [position]
  cases hc : s.client with
  | ready =>
    rw [hc] at ht
    exact ht ▸ h.ring
  | pointers =>
    rw [hc] at ht
    exact ht.1 ▸ h.ring
  | block =>
    rw [hc] at ht
    obtain ⟨hrel, rfl, -⟩ := ht
    exact h.ring.release hrel h.position_le

/-- What has been read and what is in the ring are what was stored. -/
theorem RingInv.out_unread {s : FrameServer} {m : Marks} (h : RingInv s m) :
    m.accepted.drop m.synced = m.out ++ s.unread := by
  have hpos := h.holds_position
  obtain ⟨tl, htl⟩ := h.out
  have hlevel := hpos.level_eq (by decide)
  have hlen := hpos.released
  rw [FrameServer.unread, hlevel, hpos.window_eq (by omega), List.take_of_length_le (by simp),
    ← List.drop_drop, ← htl, List.drop_left]

/-- The client reads the stored frames, each once and in their order, whatever the worker writes
meanwhile: what it has read since it last synchronized and what it has not read yet are the stored
frames from then on. -/
theorem read_exact {p : FrameServer × Log} (h : logged.Reach (fun p e => Packets p.1 e) p)
    (ha : p.1.Acquiring) : p.2.accepted.drop p.2.synced = p.2.out ++ p.1.unread :=
  ((inv_of_reach h).live ha).ring.out_unread

/-- A server whose memory is blank. -/
def initial : FrameServer :=
  ⟨fun _ => 0, fun _ => 0, fun _ => 0, 0, 0, 0, 0, true, false, .absent, .idle, .ready⟩

/-- A packet of three frames comes in; the client gives up those before the sixth while the worker has
the first in hand, and reads one. -/
def sampleRun : List Event :=
  [.acqOnOff 1, .stopWorker, .join, .work, .recv [frame 5 [], frame 4 [], frame 6 [77]]] ++
  List.replicate 5 .work ++ [.setMinimumFrameID 6, .getPointers, .skip] ++ List.replicate 13 .work ++
  [.getPointers, .send 10, .read]

theorem sampleRun_end : ∃ p : FrameServer × Log, logged.Reach (fun p e => Packets p.1 e) p ∧
    p.1.Acquiring ∧ p.1.minimumFrameID = 6 ∧ p.1.unread = [frame 6 [77]] ∧ p.2.out = [frame 5 []] ∧
    p.2.fresh = true ∧ p.2.fates =
      [(frame 5 [], .stored), (frame 4 [], .old 6), (frame 6 [77], .stored)] := by
  obtain ⟨p, h, hp⟩ := Machine.exists_reach_of_runIn logged (fun p e => Packets p.1 e) (initial, .empty)
    (fun p => decide (p.1.Acquiring ∧ p.1.minimumFrameID = 6 ∧ p.1.unread = [frame 6 [77]] ∧
      p.2.out = [frame 5 []] ∧ p.2.fresh = true ∧ p.2.fates =
        [(frame 5 [], .stored), (frame 4 [], .old 6), (frame 6 [77], .stored)])) sampleRun
    ⟨⟨rfl, rfl, rfl, rfl, rfl, rfl, rfl, rfl, rfl⟩, rfl⟩ (by decide +kernel)
  exact ⟨p, h, of_decide_eq_true hp⟩

theorem read_exact_sample : ∃ p : FrameServer × Log, p.2.out = [frame 5 []] ∧
    p.1.unread = [frame 6 [77]] ∧ p.2.accepted.drop p.2.synced = p.2.out ++ p.1.unread := by
  obtain ⟨p, h, ha, -, hunread, hout, -⟩ := sampleRun_end
  exact ⟨p, hout, hunread, read_exact h ha⟩

/-- Every frame of every packet is in work or is settled, in the order of arrival; the frames of the
ring are those settled as stored, and no frame is lost but for a reason: it is older than wanted,
the ring was full, or a malformed frame ended its packet. -/
theorem fates_exact {p : FrameServer × Log} (h : logged.Reach (fun p e => Packets p.1 e) p)
    (ha : p.1.Acquiring) :
    p.2.received = p.2.fates.map Prod.fst ++ p.2.pending ∧
      p.2.accepted = (p.2.fates.filter fun q => q.2.isStored).map Prod.fst ∧
      ∀ q ∈ p.2.fates, q.2.Explains q.1 ∧ ∀ bad, q.2 = .malformed bad → (bad, q.2) ∈ p.2.fates :=
  have hi := inv_of_reach h
  ⟨hi.fates.received, hi.fates.accepted, (hi.live ha).explained⟩

theorem fates_exact_sample : ∃ p : FrameServer × Log,
    p.2.fates = [(frame 5 [], .stored), (frame 4 [], .old 6), (frame 6 [77], .stored)] ∧
      p.2.accepted = (p.2.fates.filter fun q => q.2.isStored).map Prod.fst := by
  obtain ⟨p, h, ha, -, -, -, -, hfates⟩ := sampleRun_end
  exact ⟨p, hfates, (fates_exact h ha).2.1⟩

/-- After a synchronization, of the frames that the client reads and has yet to read only the first
can be older than it wants. -/
theorem synced_young {p : FrameServer × Log} (h : logged.Reach (fun p e => Packets p.1 e) p)
    (ha : p.1.Acquiring) (hf : p.2.fresh = true) :
    ∀ f ∈ (p.2.out ++ p.1.unread).tail, p.1.minimumFrameID ≤ getFrameID (ofWords f) := by
  intro f hmem
  have hlive := (inv_of_reach h).live ha
  rw [← hlive.ring.out_unread, List.tail_drop] at hmem
  have hage := hlive.age
  obtain ⟨i, hi⟩ := List.getElem?_of_mem hmem
  rw [List.getElem?_drop] at hi
  have := hage.fresh hf
  exact hage.young _ f (by omega) hi

theorem synced_young_sample : ∃ p : FrameServer × Log, p.1.minimumFrameID = 6 ∧
    p.2.out = [frame 5 []] ∧
      ∀ f ∈ (p.2.out ++ p.1.unread).tail, p.1.minimumFrameID ≤ getFrameID (ofWords f) := by
  obtain ⟨p, h, ha, hmin, -, hout, hfresh, -⟩ := sampleRun_end
  exact ⟨p, hmin, hout, synced_young h ha hfresh⟩

end GramsTof.Daqd
