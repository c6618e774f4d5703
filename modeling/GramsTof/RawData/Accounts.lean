import GramsTof.RawData.ReadBack

/-! The writer's accounts of a step against those of a reader of its file. Frames,
events and frames with some data lost agree; of frames with all data lost the reader
counts more where frames without events follow skipped frame numbers, since these are
left out after the mark of the skip. -/

namespace GramsTof.RawData

open Lib

/-- Frames without events, none of them lost, that follow skipped frame numbers with nothing else in
between. -/
def misread : ℤ → Bool → List Data → ℕ
  | _, _, [] => 0
  | last, marked, f :: fs =>
    if (marked || decide (0 ≤ last ∧ (getFrameID f : ℤ) ≠ last + 1)) && !getFrameLost f &&
        getNEvents f == 0 then
      1 + misread (getFrameID f) true fs
    else misread (getFrameID f) false fs

/-- A reader of the records written so far is level with the writer, except for the frame numbers up
to `last` that left no record, and has counted `extra` frames too many as lost. -/
structure Level (w : Writer) (a : Accounts) (last extra : ℤ) : Prop where
  nonneg : 0 ≤ a.lastFrameID
  le : a.lastFrameID ≤ last
  frames : a.nFrames + (last - a.lastFrameID) = w.stepAllFrames
  lost0 : a.nFramesLost0 + (if a.lastFrameWasLost0 then last - a.lastFrameID else 0) =
    w.stepLostFrames0 + extra
  lostN : a.nFramesLostN = w.stepLostFramesN
  events : a.nEventsNoLost + a.nEventsSomeLost = w.stepEvents
  zeroData : w.lastFrameType = .zeroData → a.lastFrameWasLost0 = true

/-- A record for the next frame number. -/
theorem frame_next {w : Writer} {a : Accounts} {last extra : ℤ} (h : Level w a last extra)
    (hspan : last - a.lastFrameID < 2 ^ 31) (N : ℕ) (frameLost : Bool) :
    a.frame (last + 1) N frameLost =
      { lastFrameID := last + 1
        lastFrameWasLost0 := frameLost && N == 0
        nFrames := w.stepAllFrames + 1
        nFramesLost0 := w.stepLostFrames0 + extra + if frameLost && N == 0 then 1 else 0
        nFramesLostN := w.stepLostFramesN + if frameLost && N != 0 then 1 else 0
        nEventsNoLost := a.nEventsNoLost + if frameLost then 0 else (N : ℤ)
        nEventsSomeLost := a.nEventsSomeLost + if frameLost then (N : ℤ) else 0 } := by
  have hnonneg := h.nonneg
  have hle := h.le
  have hne : a.lastFrameID ≠ -1 := by omega
  have hskip : (if last + 1 ≠ a.lastFrameID + 1 then toInt (last + 1 - a.lastFrameID - 1) else 0) =
      last - a.lastFrameID := by
    rw [toInt, show last + 1 - a.lastFrameID - 1 = last - a.lastFrameID by omega]
    split_ifs with hn
    · exact Int.bmod_eq_of_le (by omega) (by omega)
    · omega
  rw [Accounts.frame]
  simp only [hne, if_false, hskip, ← h.frames, ← h.lost0, ← h.lostN]

theorem getFrameID_lostFrameBuffer {n : ℤ} (h0 : 0 ≤ n) (h : n < 2 ^ 36) :
    (getFrameID (ofWords (Writer.lostFrameBuffer n)) : ℤ) = n := by
  obtain ⟨k, rfl⟩ := Int.eq_ofNat_of_zero_le h0
  have hk : k < 2 ^ 36 := by omega
  have hor : 2 <<< 36 ||| k = 2 <<< 36 + k := (Nat.shiftLeft_add_eq_or_of_lt hk 2).symm
  have hword : (ofWords (Writer.lostFrameBuffer k) 0).toNat = 2 <<< 36 + k := by
    show ((2 : UInt64) <<< 36 ||| UInt64.ofNat (k : ℤ).toNat).toNat = _
    rw [UInt64.toNat_or, UInt64.toNat_ofNat', Int.toNat_natCast, Nat.mod_eq_of_lt (by omega), ← hor]
    rfl
  rw [getFrameID_eq, hword]
  omega

/-- What is counted too much after a frame, and whether the last record is then the mark of a skip. -/
def nextMarked (last : ℤ) (marked : Bool) (f : Data) : Bool :=
  (marked || decide (0 ≤ last ∧ (getFrameID f : ℤ) ≠ last + 1)) && !getFrameLost f && getNEvents f == 0

theorem misread_cons (last : ℤ) (marked : Bool) (f : Data) (fs : List Data) :
    misread last marked (f :: fs) =
      (nextMarked last marked f).toNat + misread (getFrameID f) (nextMarked last marked f) fs := by
  rw [misread, nextMarked]
  split_ifs with h
  · rw [h]
    rfl
  · rw [Bool.eq_false_iff.mpr h]
    exact (Nat.zero_add _).symm

/-- The last record is the mark of a skip. -/
def Marked (w : Writer) (a : Accounts) (marked : Bool) : Prop :=
  w.lastFrameType = .allLost ∧ a.lastFrameWasLost0 = true ↔ marked = true

/-- Skipped frame numbers leave a record for the first of them. -/
theorem level_skip {w : Writer} {a : Accounts} {extra x : ℤ} {marked : Bool}
    (h : Level w a w.lastFrameID extra) (hm : Marked w a marked) (hx : w.lastFrameID < x)
    (hid : x < 2 ^ 36) (hspan : x - a.lastFrameID < 2 ^ 31) :
    ∃ recs : List (List UInt64), (w.skip x).dataFile = w.dataFile ++ recs.flatten ∧
      (∀ f ∈ recs, Readable f) ∧ Level (w.skip x) (accountFrames a recs) (x - 1) extra ∧
      a.lastFrameID ≤ (accountFrames a recs).lastFrameID ∧
      Marked (w.skip x) (accountFrames a recs)
        (marked || decide (0 ≤ w.lastFrameID ∧ x ≠ w.lastFrameID + 1)) := by
  have hnonneg := h.nonneg
  have hle := h.le
  rw [Writer.skip, if_neg (by omega)]
  split_ifs with hgap
  · have hrec := frame_next h (by omega) 0 true
    have hID := getFrameID_lostFrameBuffer (show 0 ≤ w.lastFrameID + 1 by omega) (by omega)
    have hacc : accountFrames a [Writer.lostFrameBuffer (w.lastFrameID + 1)] =
        a.frame (w.lastFrameID + 1) 0 true := by
      have hN : getNEvents (ofWords (Writer.lostFrameBuffer (w.lastFrameID + 1))) = 0 := by
        show (((1 : UInt64) <<< 16) &&& 0x7FFF).toNat = 0
        decide
      have hlost : getFrameLost (ofWords (Writer.lostFrameBuffer (w.lastFrameID + 1))) = true := by
        show ((((1 : UInt64) <<< 16) &&& 0x18000) != 0) = true
        decide
      simp only [accountFrames, List.foldl_cons, List.foldl_nil, hID, hN, hlost]
    refine ⟨[Writer.lostFrameBuffer (w.lastFrameID + 1)], by simp, fun f hf => ?_, ?_, ?_, ?_⟩
    · rw [List.mem_singleton.mp hf]
      exact readable_lostFrameBuffer _
    · rw [hacc, hrec]
      refine ⟨by show 0 ≤ w.lastFrameID + 1; omega, by show w.lastFrameID + 1 ≤ x - 1; omega, ?_, ?_, ?_, ?_,
        fun hz => by cases hz⟩
      · show w.stepAllFrames + 1 + (x - 1 - (w.lastFrameID + 1)) = w.stepAllFrames + (x - w.lastFrameID - 1)
        omega
      · show w.stepLostFrames0 + extra + 1 + (x - 1 - (w.lastFrameID + 1)) =
          w.stepLostFrames0 + (x - w.lastFrameID - 1) + extra
        omega
      · show w.stepLostFramesN + 0 = w.stepLostFramesN
        omega
      · have := h.events
        show a.nEventsNoLost + 0 + (a.nEventsSomeLost + ((0 : ℕ) : ℤ)) = w.stepEvents
        omega
    · rw [hacc, hrec]
      show a.lastFrameID ≤ w.lastFrameID + 1
      omega
    · rw [hacc, hrec]
      simp [Marked, hgap]
  · refine ⟨[], by simp, fun _ hf => (by cases hf), ?_, le_rfl, ?_⟩
    · obtain rfl : x = w.lastFrameID + 1 := by
        by_contra hne
        exact hgap ⟨by omega, hne⟩
      rw [show w.lastFrameID + 1 - 1 = w.lastFrameID by omega]
      exact h
    · rw [decide_eq_false hgap, Bool.or_false]
      exact hm

/-- A frame whose number comes next is accounted for and, unless it goes on a run without events,
written. -/
theorem level_put {w : Writer} {a : Accounts} {extra : ℤ} {marked : Bool} {data : Data}
    (hd : Sound data) (h : Level w a (getFrameID data - 1) extra) (hm : Marked w a marked)
    (hspan : (getFrameID data : ℤ) - a.lastFrameID < 2 ^ 31) :
    let v := w.account (getFrameID data) (getNEvents data) (getFrameLost data)
    let type := Writer.frameType (getFrameLost data) (getNEvents data)
    let late := marked && !getFrameLost data && getNEvents data == 0
    (v.lastFrameType = .zeroData ∧ type = v.lastFrameType ∨
        v.lastFrameType = .allLost ∧ type = v.lastFrameType →
      Level v a (getFrameID data) (extra + late.toNat) ∧ Marked v a late) ∧
    (¬(v.lastFrameType = .zeroData ∧ type = v.lastFrameType ∨
        v.lastFrameType = .allLost ∧ type = v.lastFrameType) →
      late = false ∧
        Level { v with lastFrameType := type, dataFile := v.dataFile ++ words data }
          (accountFrames a [words data]) (getFrameID data) extra ∧
        (accountFrames a [words data]).lastFrameID = getFrameID data ∧
        Marked { v with lastFrameType := type, dataFile := v.dataFile ++ words data }
          (accountFrames a [words data]) false) := by
  intro v type late
  have hnonneg := h.nonneg
  have hle := h.le
  have hframes := h.frames
  have hlost0 := h.lost0
  have hlostN := h.lostN
  have hevents := h.events
  constructor
  · intro hrun
    have h0 : getNEvents data = 0 := by
      rcases hrun with ⟨ht, he⟩ | ⟨ht, he⟩
      · exact nEvents_eq_zero_of_frameType (.inl (he.trans ht))
      · exact nEvents_eq_zero_of_frameType (.inr (he.trans ht))
    have hlost : a.nFramesLost0 + (if a.lastFrameWasLost0 then getFrameID data - a.lastFrameID else 0) =
        v.stepLostFrames0 + (extra + late.toNat) ∧ Marked v a late := by
      rcases hrun with ⟨ht, he⟩ | ⟨ht, he⟩
      · have hwas := h.zeroData ht
        have hfl : getFrameLost data = true := by
          by_contra hf
          have : type = .allLost := by simp [type, Writer.frameType, hf, h0]
          rw [this, ht] at he
          cases he
        refine ⟨?_, ?_⟩
        · simp only [hwas, if_true] at hlost0 ⊢
          simp only [v, late, Writer.account, hfl, h0]
          simp
          omega
        · simp [Marked, late, hfl, ht]
      · have hfl : getFrameLost data = false := by
          by_contra hf
          have : type = .zeroData := by simp [type, Writer.frameType, hf, h0]
          rw [this, ht] at he
          cases he
        have hwas : a.lastFrameWasLost0 = marked := by
          have hw : w.lastFrameType = .allLost := ht
          rw [Marked, hw] at hm
          simpa using hm
        refine ⟨?_, ?_⟩
        · simp only [hwas] at hlost0 ⊢
          simp only [v, late, Writer.account, hfl, h0]
          cases marked <;> simp at hlost0 ⊢ <;> omega
        · simp [Marked, late, hfl, h0, ht, hwas]
    refine ⟨⟨hnonneg, by omega, ?_, hlost.1, ?_, ?_, h.zeroData⟩, hlost.2⟩
    · show _ = w.stepAllFrames + 1
      omega
    · show _ = w.stepLostFramesN + if getFrameLost data && getNEvents data != 0 then 1 else 0
      simp [h0, hlostN]
    · show _ = w.stepEvents + (getNEvents data : ℤ)
      rw [h0, hevents]
      simp
  · intro hrun
    have hlate : late = false := by
      by_contra hl
      have hl : late = true := by simpa using hl
      simp only [late, Bool.and_eq_true, Bool.not_eq_true', beq_iff_eq] at hl
      refine hrun (.inr ⟨(hm.mpr hl.1.1).1, ?_⟩)
      show type = w.lastFrameType
      rw [(hm.mpr hl.1.1).1]
      simp [type, Writer.frameType, hl.1.2, hl.2]
    have hacc : accountFrames a [words data] =
        a.frame (getFrameID data - 1 + 1) (getNEvents data) (getFrameLost data) := by
      simp only [accountFrames, List.foldl_cons, List.foldl_nil, hd.getFrameID_words,
        hd.getNEvents_words, hd.getFrameLost_words, Int.sub_add_cancel]
    rw [hacc, frame_next h (by omega)]
    refine ⟨hlate, ⟨by show (0 : ℤ) ≤ _ - 1 + 1; omega, by show (_ : ℤ) - 1 + 1 ≤ _; omega, ?_, ?_, ?_, ?_, ?_⟩,
      by show (_ : ℤ) - 1 + 1 = _; omega, ?_⟩
    · show w.stepAllFrames + 1 + (_ - (_ - 1 + 1)) = w.stepAllFrames + 1
      omega
    · show _ + (if _ then (getFrameID data : ℤ) - (getFrameID data - 1 + 1) else 0) = v.stepLostFrames0 + extra
      simp only [Int.sub_add_cancel, Int.sub_self, ite_self, v, Writer.account]
      omega
    · rfl
    · show _ + _ + (_ + _) = w.stepEvents + (getNEvents data : ℤ)
      cases getFrameLost data <;> simp <;> omega
    · intro hz
      simp only [type, Writer.frameType] at hz
      show (getFrameLost data && getNEvents data == 0) = true
      split_ifs at hz with hl h0
      simp [hl, h0]
    · simp only [Marked, type, Writer.frameType]
      split_ifs with hl h0 h0 <;> simp [hl, h0]

/-- From one state to another, with the records written between them: a reader stays level. -/
structure Follows (w w' : Writer) (a a' : Accounts) (last extra : ℤ) (marked : Bool) : Prop where
  written : ∃ recs : List (List UInt64), w'.dataFile = w.dataFile ++ recs.flatten ∧
    (∀ f ∈ recs, Readable f) ∧ a' = accountFrames a recs
  lastID : w'.lastFrameID = last
  level : Level w' a' last extra
  mono : a.lastFrameID ≤ a'.lastFrameID
  marked : Marked w' a' marked

theorem Follows.append {w w' w'' : Writer} {a a' a'' : Accounts} {last last' extra extra' : ℤ}
    {marked marked' : Bool} (h : Follows w w' a a' last extra marked)
    (h' : Follows w' w'' a' a'' last' extra' marked') : Follows w w'' a a'' last' extra' marked' where
  written := by
    obtain ⟨recs, hdata, hread, rfl⟩ := h.written
    obtain ⟨recs', hdata', hread', rfl⟩ := h'.written
    refine ⟨recs ++ recs', ?_, fun f hf => (List.mem_append.mp hf).elim (hread f) (hread' f), ?_⟩
    · rw [hdata', hdata, List.flatten_append, List.append_assoc]
    · exact (List.foldl_append ..).symm
  lastID := h'.lastID
  level := h'.level
  mono := h.mono.trans h'.mono
  marked := h'.marked

theorem accountFrames_append (a : Accounts) (fs gs : List (List UInt64)) :
    accountFrames a (fs ++ gs) = accountFrames (accountFrames a fs) gs := List.foldl_append

theorem level_frame {w : Writer} {a : Accounts} {extra : ℤ} {marked : Bool} {data : Data}
    (hd : Sound data) (h : Level w a w.lastFrameID extra) (hm : Marked w a marked)
    (hlt : w.lastFrameID < getFrameID data) (hspan : (getFrameID data : ℤ) - a.lastFrameID < 2 ^ 31) :
    ∃ a', Follows w (w.frame 1 data) a a' (getFrameID data)
        (extra + (nextMarked w.lastFrameID marked data).toNat) (nextMarked w.lastFrameID marked data) ∧
      (getNEvents data ≠ 0 → a'.lastFrameID = getFrameID data) := by
  have hid : (getFrameID data : ℤ) < 2 ^ 36 := by
    rw [getFrameID_eq]
    omega
  obtain ⟨recs, hdata, hread, hlevel, hmono, hmark⟩ := level_skip h hm hlt hid hspan
  obtain ⟨hrun, hput⟩ := level_put hd hlevel hmark (by omega)
  by_cases hshort : (w.skip (getFrameID data)).lastFrameType = .zeroData ∧
      Writer.frameType (getFrameLost data) (getNEvents data) = (w.skip (getFrameID data)).lastFrameType ∨
    (w.skip (getFrameID data)).lastFrameType = .allLost ∧
      Writer.frameType (getFrameLost data) (getNEvents data) = (w.skip (getFrameID data)).lastFrameType
  · obtain ⟨hl, hmk⟩ := hrun hshort
    have hframe : w.frame 1 data =
        (w.skip (getFrameID data)).account (getFrameID data) (getNEvents data) (getFrameLost data) := by
      rw [Writer.frame]
      split_ifs with hz ha
      · rfl
      · rfl
      · exact absurd hshort fun hs => hs.elim (fun hs => hz ⟨rfl, hs⟩) fun hs => ha ⟨rfl, hs⟩
    refine ⟨accountFrames a recs, ⟨⟨recs, ?_, hread, rfl⟩, ?_, ?_, hmono, ?_⟩, fun hne => ?_⟩
    · rw [hframe]
      exact hdata
    · rw [hframe]
      rfl
    · rw [hframe]
      exact hl
    · rw [hframe]
      exact hmk
    · refine absurd ?_ hne
      exact nEvents_eq_zero_of_frameType
        (hshort.imp (fun hs => hs.2.trans hs.1) fun hs => hs.2.trans hs.1)
  · obtain ⟨hlate, hl, hlast, hmk⟩ := hput hshort
    have hframe : w.frame 1 data =
        { (w.skip (getFrameID data)).account (getFrameID data) (getNEvents data) (getFrameLost data) with
          lastFrameType := Writer.frameType (getFrameLost data) (getNEvents data)
          dataFile := (w.skip (getFrameID data)).dataFile ++ words data } := by
      rw [Writer.frame]
      split_ifs with hz ha
      · exact absurd (.inl hz.2) hshort
      · exact absurd (.inr ha.2) hshort
      · rfl
    have hnext : nextMarked w.lastFrameID marked data = false := hlate
    refine ⟨accountFrames a (recs ++ [words data]), ⟨⟨recs ++ [words data], ?_, ?_, rfl⟩, ?_, ?_, ?_, ?_⟩,
      fun _ => ?_⟩
    · rw [hframe]
      simp [hdata]
    · intro f hf
      rcases List.mem_append.mp hf with hf | hf
      · exact hread f hf
      · rw [List.mem_singleton.mp hf]
        exact hd.readable
    · rw [hframe]
      rfl
    · rw [hframe, hnext, accountFrames_append, Bool.toNat_false, Nat.cast_zero, Int.add_zero]
      exact hl
    · rw [accountFrames_append, hlast]
      have := hlevel.le
      omega
    · rw [hframe, hnext, accountFrames_append]
      exact hmk
    · rw [accountFrames_append, hlast]

/-- Frames with increasing numbers: the reader stays level all along. -/
theorem level_frames {fs : List Data} (hs : ∀ f ∈ fs, Sound f) {w : Writer} {a : Accounts} {extra : ℤ}
    {marked : Bool} (h : Level w a w.lastFrameID extra) (hm : Marked w a marked)
    (hinc : List.Pairwise (· < ·) (w.lastFrameID :: fs.map fun f => (getFrameID f : ℤ)))
    (hspan : ∀ f ∈ fs, (getFrameID f : ℤ) - a.lastFrameID < 2 ^ 31) :
    ∃ a' marked', Follows w (fs.foldl (Writer.frame 1) w) a a' (fs.foldl (Writer.frame 1) w).lastFrameID
        (extra + misread w.lastFrameID marked fs) marked' ∧
      ∀ f, fs.getLast? = some f → getNEvents f ≠ 0 →
        a'.lastFrameID = (fs.foldl (Writer.frame 1) w).lastFrameID := by
  induction fs generalizing w a extra marked with
  | nil =>
    refine ⟨a, marked, ⟨⟨[], by simp, fun _ hf => (by cases hf), rfl⟩, rfl, ?_, le_rfl, hm⟩,
      fun _ hf => by cases hf⟩
    simpa [misread] using h
  | cons f fs ih =>
    rw [List.map_cons, List.pairwise_cons, List.pairwise_cons] at hinc
    obtain ⟨hlt, hhead, htail⟩ := hinc
    obtain ⟨a₁, hf, hexact⟩ := level_frame (hs f List.mem_cons_self) h hm (hlt _ List.mem_cons_self)
      (hspan f List.mem_cons_self)
    have hlast := hf.lastID
    have hlevel := hf.level
    have hmark := hf.marked
    rw [← hlast] at hlevel
    obtain ⟨a', marked', hfs, hexact'⟩ := ih (fun g hg => hs g (List.mem_cons_of_mem _ hg)) hlevel hmark
      (by rw [hlast]; exact List.pairwise_cons.mpr ⟨hhead, htail⟩)
      (fun g hg => by
        have := hspan g (List.mem_cons_of_mem _ hg)
        have := hf.mono
        omega)
    have hextra : extra + (nextMarked w.lastFrameID marked f).toNat +
        misread (w.frame 1 f).lastFrameID (nextMarked w.lastFrameID marked f) fs =
        extra + misread w.lastFrameID marked (f :: fs) := by
      rw [misread_cons, hlast]
      push_cast
      exact Int.add_assoc ..
    rw [hextra] at hfs
    rw [List.foldl_cons]
    refine ⟨a', marked', hf.append hfs, ?_⟩
    · intro g hg hne
      cases fs with
      | nil =>
        obtain rfl : f = g := by simpa using hg
        have h0 := hexact hne
        simp only [List.foldl_nil] at hfs hexact' ⊢
        have hle := hfs.level.le
        have hmono := hfs.mono
        omega
      | cons f' fs' =>
        exact hexact' g (by rwa [List.getLast?_cons_cons] at hg) hne

/-- The first frame of a step is written whatever it is. -/
theorem level_first {w : Writer} {data : Data} (hd : Sound data) :
    let a := accountFrames .initial [words data]
    Follows w.start (w.start.frame 1 data) .initial a (getFrameID data) 0 false ∧
      a.lastFrameID = getFrameID data := by
  intro a
  have ha : a = Accounts.initial.frame (getFrameID data) (getNEvents data) (getFrameLost data) := by
    simp only [a, accountFrames, List.foldl_cons, List.foldl_nil, hd.getFrameID_words,
      hd.getNEvents_words, hd.getFrameLost_words]
  have hskip : w.start.skip (getFrameID data) = w.start := by
    rw [Writer.skip, if_neg (by show ¬((getFrameID data : ℤ) ≤ -1); omega)]
    exact if_neg fun h => absurd h.1 (show ¬(0 : ℤ) ≤ -1 by decide)
  have hframe : w.start.frame 1 data =
      { w.start.account (getFrameID data) (getNEvents data) (getFrameLost data) with
        lastFrameType := Writer.frameType (getFrameLost data) (getNEvents data)
        dataFile := w.start.dataFile ++ words data } := by
    rw [Writer.frame, hskip]
    split_ifs with hz ha
    · cases hz.2.1
    · cases ha.2.1
    · rfl
  have hacc : a = ⟨getFrameID data, getFrameLost data && getNEvents data == 0, 1,
      if getFrameLost data && getNEvents data == 0 then 1 else 0,
      if getFrameLost data && getNEvents data != 0 then 1 else 0,
      if getFrameLost data then 0 else getNEvents data,
      if getFrameLost data then getNEvents data else 0⟩ := by
    rw [ha]
    simp [Accounts.frame, Accounts.initial]
  refine ⟨⟨⟨[words data], ?_, ?_, rfl⟩, ?_, ?_, ?_, ?_⟩, by rw [hacc]⟩
  · rw [hframe]
    simp
  · intro f hf
    rw [List.mem_singleton.mp hf]
    exact hd.readable
  · rw [hframe]
    rfl
  · rw [hframe, hacc]
    refine ⟨Int.natCast_nonneg _, le_rfl, ?_, ?_, ?_, ?_, fun hz => ?_⟩
    · show (1 : ℤ) + ((getFrameID data : ℤ) - getFrameID data) = 0 + 1
      omega
    · simp [Writer.account, Writer.start]
    · simp [Writer.account, Writer.start]
    · cases hl : getFrameLost data <;> simp [Writer.account, Writer.start]
    · simp only [Writer.frameType] at hz
      split_ifs at hz with hl h0
      simp [hl, h0]
  · rw [hacc]
    show (-1 : ℤ) ≤ getFrameID data
    omega
  · rw [hframe, hacc]
    simp only [Marked, Writer.frameType]
    split_ifs with hl h0 h0 <;> simp [hl, h0]

/-- The blocks the acquisition sends for a step: its frames in blocks of type 1, between a block that
opens the step and one that closes it. -/
structure Acquired (bs : Blocks) (fs : List Data) : Prop where
  shape : ∃ h₀ mid h₂, bs = (h₀, []) :: mid ++ [(h₂, [])] ∧ h₀.blockType = 0 ∧ h₂.blockType = 2 ∧
    (∀ b ∈ mid, b.1.blockType = 1) ∧ fs = mid.flatMap Prod.snd
  sound : ∀ f ∈ fs, Sound f

theorem blocks_mid {mid : Blocks} (h : ∀ b ∈ mid, b.1.blockType = 1) (w : Writer) :
    w.blocks mid = (mid.flatMap Prod.snd).foldl (Writer.frame 1) w := by
  induction mid generalizing w with
  | nil => rfl
  | cons b mid ih =>
    have hb : w.block b.1 b.2 = b.2.foldl (Writer.frame 1) w := by
      simp only [Writer.block, h b List.mem_cons_self]
      rw [if_neg (by decide), if_neg (by decide)]
    rw [List.flatMap_cons, List.foldl_append, ← hb]
    exact ih (fun c hc => h c (List.mem_cons_of_mem _ hc)) _

theorem Acquired.blocks_eq {bs : Blocks} {fs : List Data} (h : Acquired bs fs) (w : Writer) :
    ∃ step1 step2, w.blocks bs = (fs.foldl (Writer.frame 1) w.start).finish step1 step2 := by
  obtain ⟨h₀, mid, h₂, rfl, ht₀, ht₂, hmid, rfl⟩ := h.shape
  have hopen : w.block h₀ [] = w.start := by
    simp only [Writer.block, ht₀, List.foldl_nil]
    exact if_neg (by decide)
  have hclose : ∀ v : Writer, v.block h₂ [] = v.finish h₂.step1 h₂.step2 := by
    intro v
    simp only [Writer.block, ht₂, List.foldl_nil]
    rw [if_neg (show ¬(2 : ℤ) = 0 by decide)]
    rfl
  refine ⟨h₂.step1, h₂.step2, ?_⟩
  rw [← blocks_mid hmid, ← hclose, ← hopen]
  simp [Writer.blocks]

/-- A reader of an acquired step counts the frames the writer counted, but for a tail without events
that left no record; it agrees on the events and on the frames with some data lost; and of frames with
all data lost it counts those frames too many that had no events after a skip. -/
theorem accounts_read_back {bs : Blocks} {fs : List Data} (h : Acquired bs fs) (hne : fs ≠ [])
    (hinc : (fs.map fun f => (getFrameID f : ℤ)).Pairwise (· < ·))
    (hspan : ∀ f ∈ fs, ∀ g ∈ fs, (getFrameID f : ℤ) - getFrameID g < 2 ^ 31) (w : Writer)
    (after : List UInt64) :
    ∃ (line : IndexLine) (r : Progress) (tail : ℕ),
      (w.blocks bs).indexFile = w.indexFile ++ [line] ∧
      processStep ((w.blocks bs).dataFile ++ after) line.stepBegin line.stepEnd = some r ∧
      r.accounts.nFrames + tail = (w.blocks bs).stepAllFrames ∧
      r.accounts.nFramesLost0 + (if r.accounts.lastFrameWasLost0 then (tail : ℤ) else 0) =
        (w.blocks bs).stepLostFrames0 + misread (-1) false fs ∧
      r.accounts.nFramesLostN = (w.blocks bs).stepLostFramesN ∧
      r.accounts.nEventsNoLost + r.accounts.nEventsSomeLost = (w.blocks bs).stepEvents ∧
      ∀ f, fs.getLast? = some f → getNEvents f ≠ 0 → tail = 0 := by
  obtain ⟨step1, step2, hblocks⟩ := h.blocks_eq w
  obtain ⟨f, fs, rfl⟩ := List.exists_cons_of_ne_nil hne
  obtain ⟨hfirst, hexact⟩ := level_first (w := w) (h.sound f List.mem_cons_self)
  have hlast := hfirst.lastID
  have hlevel := hfirst.level
  rw [← hlast] at hlevel
  rw [List.map_cons, List.pairwise_cons] at hinc
  obtain ⟨a', marked', hfs, hexact'⟩ := level_frames
    (fun g hg => h.sound g (List.mem_cons_of_mem _ hg)) hlevel hfirst.marked
    (by rw [hlast]; exact List.pairwise_cons.mpr hinc)
    (fun g hg => by
      rw [hexact]
      exact hspan g (List.mem_cons_of_mem _ hg) f List.mem_cons_self)
  set v := fs.foldl (Writer.frame 1) (w.start.frame 1 f)
  obtain ⟨recs, hdata, hread, ha'⟩ := (hfirst.append hfs).written
  have hext : Extends w.start v _ := extends_frames h.sound 1 w.start
  have hv : w.blocks bs = v.finish step1 step2 := hblocks
  obtain ⟨r, hr, hacc, -⟩ := processStep_spec w.dataFile after hread
  have hracc : r.accounts = a' := hacc.trans ha'.symm
  have hl := hfs.level
  obtain ⟨tail, htail⟩ := Int.eq_ofNat_of_zero_le (Int.sub_nonneg_of_le hl.le)
  have hmis : misread (-1) false (f :: fs) = misread (getFrameID f) false fs := by
    rw [misread_cons]
    exact Nat.zero_add _
  refine ⟨⟨v.stepStartOffset, v.ftell, v.stepFirstFrameID, v.lastFrameID, step1, step2⟩, r, tail,
    ?_, ?_, ?_, ?_, ?_, ?_, fun g hg hev => ?_⟩
  · rw [hv, Writer.finish, hext.index]
    rfl
  · have hstart : v.stepStartOffset = 8 * w.dataFile.length := hext.start
    have hend : v.ftell = 8 * (w.dataFile ++ recs.flatten).length := by
      rw [Writer.ftell, hdata]
      rfl
    rw [hv, hstart, hend]
    show processStep (v.dataFile ++ after) _ _ = _
    rw [hdata]
    exact hr
  · rw [hracc, hv, ← htail]
    exact hl.frames
  · rw [hracc, hv, ← htail, hmis, ← hlast]
    have h0 := hl.lost0
    rw [Int.zero_add] at h0
    exact h0
  · rw [hracc, hv]
    exact hl.lostN
  · rw [hracc, hv]
    exact hl.events
  · have h0 : a'.lastFrameID = v.lastFrameID := by
      cases fs with
      | nil =>
        have hmono := hfs.mono
        have hle := hl.le
        rw [hexact] at hmono
        have hvl : v.lastFrameID = getFrameID f := hlast
        omega
      | cons f' fs' => exact hexact' g (by rwa [List.getLast?_cons_cons] at hg) hev
    omega

theorem acquired_sampleBlocks : Acquired sampleBlocks sampleFrames where
  shape := ⟨_, [(⟨0, 0, 4, 0, 1⟩, sampleFrames)], _, rfl, rfl, rfl, fun b hb => by
    rw [List.mem_singleton.mp hb], by simp⟩
  sound := sound_sampleFrames

theorem accounts_read_back_sample : misread (-1) false sampleFrames = 2 ∧
    ∃ (line : IndexLine) (r : Progress) (tail : ℕ),
      processStep (((Writer.opened []).blocks sampleBlocks).dataFile ++ []) line.stepBegin line.stepEnd =
        some r ∧
      r.accounts.nFramesLost0 + (if r.accounts.lastFrameWasLost0 then (tail : ℤ) else 0) =
        ((Writer.opened []).blocks sampleBlocks).stepLostFrames0 + misread (-1) false sampleFrames := by
  obtain ⟨line, r, tail, -, hr, -, hlost, -⟩ := accounts_read_back acquired_sampleBlocks
    (List.cons_ne_nil _ _) (by decide) (by decide) (.opened []) []
  exact ⟨by decide, line, r, tail, hr, hlost⟩

end GramsTof.RawData
