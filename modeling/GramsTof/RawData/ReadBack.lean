import GramsTof.RawData.RawReader
import Mathlib.Data.List.Forall2
import Mathlib.Data.Nat.Bitwise

/-! What `write_raw` writes is what `RawReader` reads: the lines of the index cut the
data file at the steps, and the buffers of a step hold the events of all its frames
in order, whichever frames without events were left out. -/

namespace GramsTof.RawData

open Lib

/-- The event words of a frame. -/
def events (f : List UInt64) : List UInt64 := f.drop 2

/-- The events of a frame, each with the frame's number. -/
def tagged (f : List UInt64) : List (ℤ × UInt64) :=
  (events f).map fun w => (getFrameID (ofWords f), w)

/-- A frame that can be read back: two header words and as many events as they announce. -/
structure Readable (f : List UInt64) : Prop where
  length : f.length = 2 + getNEvents (ofWords f)
  fits : f.length ≤ MaxRawDataFrameSize

/-- A frame in the shared memory, as the frame server lets it pass. -/
structure Sound (data : Data) : Prop where
  parses : parseDataFrame data = true
  fits : getFrameSize data ≤ MaxRawDataFrameSize

instance (data : Data) : Decidable (Sound data) :=
  decidable_of_iff (parseDataFrame data = true ∧ getFrameSize data ≤ MaxRawDataFrameSize)
    ⟨fun h => ⟨h.1, h.2⟩, fun h => ⟨h.1, h.2⟩⟩

section

variable {data : Data} {f : List UInt64}

theorem Sound.length_words (h : Sound data) : (words data).length = 2 + getNEvents data := by
  rw [words, List.length_map, List.length_range, frameSize_of_parse h.parses]

theorem Sound.ofWords_words (h : Sound data) {i : ℕ} (hi : i < 2) : ofWords (words data) i = data i := by
  have hlen := h.length_words
  rw [ofWords, List.getD_eq_getElem _ _ (by omega)]
  simp [words]

theorem Sound.getNEvents_words (h : Sound data) : getNEvents (ofWords (words data)) = getNEvents data := by
  rw [getNEvents, getNEvents, h.ofWords_words (by decide)]

theorem Sound.getFrameLost_words (h : Sound data) :
    getFrameLost (ofWords (words data)) = getFrameLost data := by
  rw [getFrameLost, getFrameLost, h.ofWords_words (by decide)]

theorem Sound.getFrameID_words (h : Sound data) : getFrameID (ofWords (words data)) = getFrameID data := by
  rw [getFrameID, getFrameID, h.ofWords_words (by decide)]

theorem Sound.readable (h : Sound data) : Readable (words data) where
  length := by rw [h.getNEvents_words, h.length_words]
  fits := by rw [h.length_words, ← frameSize_of_parse h.parses]; exact h.fits

theorem Readable.length_events (h : Readable f) : (events f).length = getNEvents (ofWords f) := by
  rw [events, List.length_drop, h.length, Nat.add_sub_cancel_left]

theorem Readable.take_two (h : Readable f) (tl : List UInt64) :
    (f ++ tl).take 2 = f.take 2 ∧ (f.take 2).length = 2 := by
  have := h.length
  constructor
  · rw [List.take_append_of_le_length (by omega)]
  · rw [List.length_take]
    omega

end

/-! ### Reading -/

theorem readFromDataFile_spec (file : Buffered UInt64) (count : ℕ) :
    (Progress.readFromDataFile file count).1 = file.stream.take count ∧
      (Progress.readFromDataFile file count).2.stream = file.stream.drop count :=
  Buffered.read_spec (by decide) le_rfl

/-- The accounts of frames as they are read. -/
def accountFrames (a : Accounts) (fs : List (List UInt64)) : Accounts :=
  fs.foldl (fun a f => a.frame (getFrameID (ofWords f)) (getNEvents (ofWords f)) (getFrameLost (ofWords f))) a

/-- The buffers of frames as they are read; those without events are passed over. -/
def packFrames (p : Packing) (fs : List (List UInt64)) : Packing :=
  fs.foldl (fun p f => if (events f).isEmpty then p else p.push (getFrameID (ofWords f)) (events f)) p

theorem body_spec {r : Progress} {f tl : List UInt64} (hf : Readable f) (hs : r.file.stream = f ++ tl) :
    ∃ r', r.body = some r' ∧ r'.file.stream = tl ∧ r'.currentPosition = r.currentPosition + 8 * f.length ∧
      r'.accounts = accountFrames r.accounts [f] ∧ r'.packing = packFrames r.packing [f] := by
  obtain ⟨hhead, hrest⟩ := readFromDataFile_spec r.file 2
  obtain ⟨htake, hlen⟩ := hf.take_two tl
  have hflen := hf.length
  have hfits := hf.fits
  rw [hs, htake] at hhead
  have hword : ∀ i < 2, ofWords (f.take 2) i = ofWords f i := by
    intro i hi
    rw [ofWords, ofWords, List.getD_eq_getElem _ _ (by omega), List.getD_eq_getElem _ _ (by omega),
      List.getElem_take]
  have hN : getNEvents (ofWords (f.take 2)) = getNEvents (ofWords f) := by
    rw [getNEvents, getNEvents, hword 1 (by decide)]
  have hID : getFrameID (ofWords (f.take 2)) = getFrameID (ofWords f) := by
    rw [getFrameID, getFrameID, hword 0 (by decide)]
  have hLost : getFrameLost (ofWords (f.take 2)) = getFrameLost (ofWords f) := by
    rw [getFrameLost, getFrameLost, hword 1 (by decide)]
  have hevents : (events f).length = getNEvents (ofWords f) := hf.length_events
  rw [Progress.body]
  generalize hrd : Progress.readFromDataFile r.file 2 = rd at hhead hrest
  obtain ⟨head, file⟩ := rd
  obtain rfl : head = f.take 2 := hhead
  simp only [hlen, hN, hID, hLost, ne_eq, not_true_eq_false, if_false]
  rw [if_neg (by omega)]
  have hdrop : file.stream = events f ++ tl := by
    have hr : file.stream = r.file.stream.drop 2 := hrest
    rw [hr, hs, List.drop_append_of_le_length (by omega), events]
  by_cases h0 : getNEvents (ofWords f) = 0
  · have hnil : events f = [] := List.length_eq_zero_iff.mp (hevents.trans h0)
    rw [if_pos h0]
    refine ⟨_, rfl, ?_, ?_, rfl, ?_⟩
    · rw [hdrop, hnil, List.nil_append]
    · show _ + 8 * 2 = _ + 8 * f.length
      omega
    · simp [packFrames, hnil]
  · rw [if_neg h0]
    obtain ⟨hev, hrest'⟩ := readFromDataFile_spec file (getNEvents (ofWords f))
    rw [hdrop, ← hevents, List.take_left] at hev
    rw [hdrop, ← hevents, List.drop_left] at hrest'
    rw [← hevents]
    generalize hrd' : Progress.readFromDataFile file (events f).length = rd' at hev hrest'
    obtain ⟨evs, file'⟩ := rd'
    obtain rfl : evs = events f := hev
    simp only [not_true_eq_false, if_false]
    refine ⟨_, rfl, hrest', ?_, ?_, ?_⟩
    · show _ + 8 * 2 + 8 * (events f).length = _ + 8 * f.length
      omega
    · simp only [accountFrames, List.foldl_cons, List.foldl_nil, hevents]
    · have hne : (events f).isEmpty = false := by
        rw [List.isEmpty_eq_false_iff, ← List.length_pos_iff]
        omega
      simp only [packFrames, List.foldl_cons, List.foldl_nil, hne]
      rfl

theorem loop_spec {stepEnd fuel : ℕ} {r : Progress} {fs : List (List UInt64)} {tl : List UInt64}
    (hfs : ∀ f ∈ fs, Readable f) (hs : r.file.stream = fs.flatten ++ tl)
    (hend : r.currentPosition + 8 * fs.flatten.length = stepEnd) (hfuel : fs.length ≤ fuel) :
    ∃ r', Progress.loop stepEnd fuel r = some r' ∧
      r'.accounts = accountFrames r.accounts fs ∧ r'.packing = packFrames r.packing fs := by
  induction fs generalizing fuel r with
  | nil =>
    have hle : ¬r.currentPosition < stepEnd := by
      rw [← hend]
      simp
    refine ⟨r, ?_, rfl, rfl⟩
    cases fuel <;> rw [Progress.loop, if_neg hle]
  | cons f fs ih =>
    obtain ⟨fuel, rfl⟩ : ∃ n, fuel = n + 1 := ⟨fuel - 1, by rw [List.length_cons] at hfuel; omega⟩
    have hf := hfs f List.mem_cons_self
    have hflen := hf.length
    rw [List.flatten_cons, List.append_assoc] at hs
    rw [List.flatten_cons, List.length_append] at hend
    obtain ⟨r', hbody, hstream, hpos, hacc, hpack⟩ := body_spec hf hs
    obtain ⟨r'', hloop, hacc', hpack'⟩ := ih (fun g hg => hfs g (List.mem_cons_of_mem _ hg)) hstream
      (by omega) (Nat.le_of_succ_le_succ hfuel)
    refine ⟨r'', ?_, ?_, ?_⟩
    · rw [Progress.loop, if_pos (by omega), hbody]
      exact hloop
    · rw [hacc', hacc]
      rfl
    · rw [hpack', hpack]
      rfl

/-- A step is read frame by frame. -/
theorem processStep_spec (before after : List UInt64) {fs : List (List UInt64)}
    (hfs : ∀ f ∈ fs, Readable f) :
    ∃ r, processStep (before ++ fs.flatten ++ after) (8 * before.length)
        (8 * (before ++ fs.flatten).length) = some r ∧
      r.accounts = accountFrames .initial fs ∧ r.packing = packFrames .initial fs := by
  have hlen : ∀ gs : List (List UInt64), (∀ f ∈ gs, Readable f) → gs.length ≤ gs.flatten.length := by
    intro gs hgs
    induction gs with
    | nil => exact Nat.zero_le _
    | cons g gs ih =>
      have := (hgs g List.mem_cons_self).length
      have := ih fun f hf => hgs f (List.mem_cons_of_mem _ hf)
      rw [List.flatten_cons, List.length_append, List.length_cons]
      omega
  have hle := hlen fs hfs
  have hstream : (⟨[], (before ++ fs.flatten ++ after).drop (8 * before.length / 8)⟩ :
      Buffered UInt64).stream = fs.flatten ++ after := by
    rw [Buffered.stream, Nat.mul_div_cancel_left _ (show 0 < 8 by decide), List.nil_append,
      List.append_assoc, List.drop_left]
  refine loop_spec hfs hstream ?_ ?_
  · simp only [List.length_append]
    omega
  · simp only [List.length_append]
    omega

/-! ### Packing -/

/-- The events of a buffer, each with its frame's number. -/
def absolute (b : EventBuffer UndecodedHit) : List (UInt64 × UInt64) :=
  b.events.map fun h => (h.frameID + UInt64.ofInt (b.tMin / 1024), h.eventWord)

/-- How a step's buffers stand: numbered in order, none past its capacity, each starting at a frame,
and the last one at the current first frame. -/
structure Packed (p : Packing) : Prop where
  numbered : p.all.map EventBuffer.seqN = (List.range p.seqN).map (· % 2 ^ 32)
  fits : ∀ b ∈ p.all, b.events.length ≤ b.capacity
  aligned : ∀ b ∈ p.all, 1024 ∣ b.tMin
  first : ∀ b, p.outBuffer = some b → b.tMin = p.currentBufferFirstFrame * 1024

theorem packed_initial : Packed .initial where
  numbered := rfl
  fits _ hb := by cases hb
  aligned _ hb := by cases hb
  first _ hb := by cases hb

theorem packed_fresh {p : Packing} (h : Packed p) (frameID : ℤ) (N : ℕ) : Packed (p.fresh frameID N) where
  numbered := by
    have hn := h.numbered
    rw [Packing.all] at hn
    simp only [Packing.all, Packing.fresh, List.map_append, List.range_succ] at hn ⊢
    rw [hn]
    rfl
  fits b hb := by
    rcases List.mem_append.mp hb with hb | hb
    · exact h.fits b hb
    · rw [List.mem_singleton.mp hb]
      exact Nat.zero_le _
  aligned b hb := by
    rcases List.mem_append.mp hb with hb | hb
    · exact h.aligned b hb
    · rw [List.mem_singleton.mp hb]
      exact Dvd.intro_left frameID rfl
  first b hb := by
    obtain rfl := Option.some.inj hb
    rfl

/-- There is a buffer, and the frame's events fit into it. -/
theorem ready_spec {p : Packing} (h : Packed p) (frameID : ℤ) (N : ℕ) :
    Packed (p.ready frameID N) ∧ ∃ b, (p.ready frameID N).outBuffer = some b ∧
      b.events.length + N ≤ b.capacity ∧
      (p.ready frameID N).all.flatMap absolute = p.all.flatMap absolute := by
  have hnew : ∃ b, (p.fresh frameID N).outBuffer = some b ∧ b.events.length + N ≤ b.capacity ∧
      (p.fresh frameID N).all.flatMap absolute = p.all.flatMap absolute := by
    refine ⟨_, rfl, ?_, ?_⟩
    · show 0 + N ≤ (max N 2048 / 1024 + 1) * 1024
      omega
    · simp [Packing.all, Packing.fresh, EventBuffer.make, absolute]
  rw [Packing.ready]
  cases hout : p.outBuffer with
  | none => exact ⟨packed_fresh h _ _, hnew⟩
  | some b =>
    simp only
    split_ifs with hfull
    · exact ⟨packed_fresh h _ _, hnew⟩
    · have hb : b.events.length ≤ b.capacity := h.fits b (by simp [Packing.all, hout])
      refine ⟨h, b, hout, ?_, rfl⟩
      rw [not_or, EventBuffer.getFree] at hfull
      omega

theorem fill_spec {p : Packing} {b : EventBuffer UndecodedHit} {evs : List UInt64} (frameID : ℤ)
    (h : Packed p) (hout : p.outBuffer = some b) (hroom : b.events.length + evs.length ≤ b.capacity) :
    Packed (p.fill frameID evs) ∧
      (p.fill frameID evs).all.flatMap absolute =
        p.all.flatMap absolute ++ evs.map fun w => (UInt64.ofInt frameID, w) := by
  have hfirst := h.first b hout
  have hdiv : b.tMin / 1024 = p.currentBufferFirstFrame := by
    rw [hfirst, Int.mul_ediv_cancel _ (by decide)]
  refine ⟨⟨?_, ?_, ?_, ?_⟩, ?_⟩
  · have hn := h.numbered
    simp only [Packing.all, hout, List.map_append] at hn
    simp only [Packing.fill, Packing.all, hout, List.map_append]
    exact hn
  · intro c hc
    simp only [Packing.fill, Packing.all, hout] at hc
    rcases List.mem_append.mp hc with hc | hc
    · exact h.fits c (List.mem_append_left _ hc)
    · rw [List.mem_singleton.mp hc]
      simpa using hroom
  · intro c hc
    simp only [Packing.fill, Packing.all, hout] at hc
    rcases List.mem_append.mp hc with hc | hc
    · exact h.aligned c (List.mem_append_left _ hc)
    · rw [List.mem_singleton.mp hc]
      exact h.aligned b (by simp [Packing.all, hout])
  · intro c hc
    simp only [Packing.fill, hout, Option.map_some, Option.some.injEq] at hc
    rw [← hc]
    exact hfirst
  · have hrel : ∀ w : UInt64, (UInt64.ofInt (frameID - p.currentBufferFirstFrame) +
        UInt64.ofInt p.currentBufferFirstFrame, w) = (UInt64.ofInt frameID, w) := by
      intro w
      rw [← UInt64.ofInt_add, Int.sub_add_cancel]
    simp [Packing.fill, Packing.all, hout, absolute, hdiv, List.map_map, Function.comp_def, hrel]

theorem push_spec {p : Packing} (h : Packed p) (frameID : ℤ) (evs : List UInt64) :
    Packed (p.push frameID evs) ∧
      (p.push frameID evs).all.flatMap absolute =
        p.all.flatMap absolute ++ evs.map fun w => (UInt64.ofInt frameID, w) := by
  obtain ⟨hready, b, hout, hroom, hall⟩ := ready_spec h frameID evs.length
  obtain ⟨hfill, habs⟩ := fill_spec frameID hready hout hroom
  exact ⟨hfill, habs.trans (by rw [hall])⟩

/-- The events of all buffers are the events of all frames. -/
theorem packFrames_spec {p : Packing} (h : Packed p) (fs : List (List UInt64)) :
    Packed (packFrames p fs) ∧
      (packFrames p fs).all.flatMap absolute =
        p.all.flatMap absolute ++ (fs.flatMap tagged).map fun q => (UInt64.ofInt q.1, q.2) := by
  induction fs generalizing p with
  | nil => exact ⟨h, by simp [packFrames]⟩
  | cons f fs ih =>
    rw [packFrames, List.foldl_cons]
    split_ifs with hempty
    · obtain ⟨hp, habs⟩ := ih h
      refine ⟨hp, habs.trans ?_⟩
      rw [List.flatMap_cons, tagged, List.isEmpty_iff.mp hempty, List.map_nil, List.nil_append]
    · obtain ⟨hpush, habs⟩ := push_spec h (getFrameID (ofWords f)) (events f)
      obtain ⟨hp, habs'⟩ := ih hpush
      refine ⟨hp, habs'.trans ?_⟩
      rw [habs, List.flatMap_cons, List.map_append, List.append_assoc]
      simp [tagged]

/-- A buffer of these events starts at the frame of the first, and has for each how many frames later it
came. -/
def StartsAt (b : EventBuffer UndecodedHit) (part : List (ℤ × UInt64)) : Prop :=
  ∃ q rest, part = q :: rest ∧ b.tMin = q.1 * 1024 ∧
    b.events = part.map fun e => ⟨UInt64.ofInt (e.1 - q.1), e.2⟩

/-- The buffers of a step share out these parts. -/
structure Parted (p : Packing) (done current : List (List (ℤ × UInt64))) : Prop where
  queued : List.Forall₂ StartsAt p.queued done
  out : List.Forall₂ StartsAt p.outBuffer.toList current
  first : ∀ b, p.outBuffer = some b → b.tMin = p.currentBufferFirstFrame * 1024

theorem parted_fresh {p : Packing} {done current : List (List (ℤ × UInt64))} (h : Parted p done current)
    (frameID : ℤ) {evs : List UInt64} (hne : evs ≠ []) :
    Parted ((p.fresh frameID evs.length).fill frameID evs) (done ++ current) [evs.map (frameID, ·)] where
  queued := List.rel_append h.queued h.out
  out := by
    obtain ⟨w, rest, rfl⟩ := List.exists_cons_of_ne_nil hne
    refine .cons ⟨(frameID, w), rest.map (frameID, ·), rfl, rfl, ?_⟩ .nil
    simp [EventBuffer.make, Packing.fresh]
  first b hb := by
    obtain rfl := Option.some.inj hb
    rfl

theorem Parted.fill {p : Packing} {done current : List (List (ℤ × UInt64))} (h : Parted p done current)
    {b : EventBuffer UndecodedHit} (hout : p.outBuffer = some b) (frameID : ℤ) (evs : List UInt64) :
    ∃ current', Parted (p.fill frameID evs) done current' ∧
      current'.flatten = current.flatten ++ evs.map (frameID, ·) := by
  have hcurrent := h.out
  rw [hout] at hcurrent
  obtain ⟨part, hpart, rfl⟩ : ∃ part, StartsAt b part ∧ current = [part] := by
    cases hcurrent with
    | cons hb htail =>
      cases htail
      exact ⟨_, hb, rfl⟩
  obtain ⟨q, rest, rfl, htMin, hevents⟩ := hpart
  have hq : q.1 = p.currentBufferFirstFrame := by
    have := h.first b hout
    omega
  refine ⟨[q :: rest ++ evs.map (frameID, ·)], ⟨h.queued, ?_, fun c hc => ?_⟩, by simp⟩
  · simp only [Packing.fill, hout, Option.map_some, Option.toList_some]
    refine .cons ⟨q, rest ++ evs.map (frameID, ·), rfl, htMin, ?_⟩ .nil
    rw [List.map_append, hevents, hq, List.map_map]
    rfl
  · simp only [Packing.fill, hout, Option.map_some, Option.some.injEq] at hc
    rw [← hc]
    exact h.first b hout

theorem Parted.push {p : Packing} {done current : List (List (ℤ × UInt64))} (h : Parted p done current)
    (frameID : ℤ) {evs : List UInt64} (hne : evs ≠ []) :
    ∃ done' current', Parted (p.push frameID evs) done' current' ∧
      (done' ++ current').flatten = (done ++ current).flatten ++ evs.map (frameID, ·) := by
  have hfresh : ∃ done' current', Parted ((p.fresh frameID evs.length).fill frameID evs) done' current' ∧
      (done' ++ current').flatten = (done ++ current).flatten ++ evs.map (frameID, ·) :=
    ⟨_, _, parted_fresh h frameID hne, by simp⟩
  rw [Packing.push, Packing.ready]
  cases hout : p.outBuffer with
  | none => exact hfresh
  | some b =>
    simp only
    split_ifs with hfull
    · exact hfresh
    · obtain ⟨current', hcurrent, hflat⟩ := h.fill hout frameID evs
      refine ⟨done, current', hcurrent, ?_⟩
      rw [List.flatten_append, hflat, List.flatten_append, List.append_assoc]

/-- The buffers share out the events of all frames, in order. -/
theorem Parted.packFrames {p : Packing} {done current : List (List (ℤ × UInt64))} (h : Parted p done current)
    (fs : List (List UInt64)) :
    ∃ done' current', Parted (packFrames p fs) done' current' ∧
      (done' ++ current').flatten = (done ++ current).flatten ++ fs.flatMap tagged := by
  induction fs generalizing p done current with
  | nil => exact ⟨done, current, h, by simp⟩
  | cons f fs ih =>
    rw [RawData.packFrames, List.foldl_cons]
    split_ifs with hempty
    · obtain ⟨done', current', h', hflat⟩ := ih h
      refine ⟨done', current', h', hflat.trans ?_⟩
      rw [List.flatMap_cons, tagged, List.isEmpty_iff.mp hempty, List.map_nil, List.nil_append]
    · obtain ⟨done₁, current₁, h₁, hflat₁⟩ := h.push (getFrameID (ofWords f)) fun he =>
        hempty (List.isEmpty_iff.mpr he)
      obtain ⟨done', current', h', hflat⟩ := ih h₁
      refine ⟨done', current', h', hflat.trans ?_⟩
      rw [hflat₁, List.flatMap_cons, List.append_assoc]
      rfl

theorem length_push_le (p : Packing) (frameID : ℤ) (evs : List UInt64) :
    (p.push frameID evs).all.length ≤ p.all.length + 1 := by
  have hfill : ∀ q : Packing, (q.fill frameID evs).all.length = q.all.length := by
    intro q
    cases hq : q.outBuffer <;> simp [Packing.fill, Packing.all, hq]
  have hfresh : (p.fresh frameID evs.length).all.length = p.all.length + 1 := by
    simp [Packing.fresh, Packing.all]
    omega
  rw [Packing.push, hfill, Packing.ready]
  split
  · exact hfresh.le
  · split_ifs
    · exact hfresh.le
    · exact Nat.le_succ _

/-- A buffer is begun for an event at least. -/
theorem length_packFrames_le (p : Packing) (fs : List (List UInt64)) :
    (packFrames p fs).all.length ≤ p.all.length + (fs.flatMap tagged).length := by
  induction fs generalizing p with
  | nil => exact Nat.le_add_right ..
  | cons f fs ih =>
    rw [packFrames, List.foldl_cons, List.flatMap_cons, List.length_append, tagged, List.length_map]
    split_ifs with hempty
    · have h := ih p
      rw [packFrames] at h
      omega
    · have h := ih (p.push (getFrameID (ofWords f)) (events f))
      rw [packFrames] at h
      have hpush := length_push_le p (getFrameID (ofWords f)) (events f)
      have hpos := List.length_pos_iff.mpr fun h => hempty (List.isEmpty_iff.mpr h)
      omega

/-! ### Writing -/

/-- From one state of the writer to another: some frames were written, whose events are `evs`. -/
structure Extends (w w' : Writer) (evs : List (ℤ × UInt64)) : Prop where
  index : w'.indexFile = w.indexFile
  start : w'.stepStartOffset = w.stepStartOffset
  written : ∃ recs : List (List UInt64), w'.dataFile = w.dataFile ++ recs.flatten ∧
    (∀ f ∈ recs, Readable f) ∧ recs.flatMap tagged = evs

namespace Extends

variable {w w' w'' : Writer} {evs evs' : List (ℤ × UInt64)}

theorem refl (w : Writer) : Extends w w [] := ⟨rfl, rfl, [], by simp, fun _ hf => (by cases hf), rfl⟩

theorem trans (h : Extends w w' evs) (h' : Extends w' w'' evs') : Extends w w'' (evs ++ evs') := by
  obtain ⟨recs, hdata, hread, hev⟩ := h.written
  obtain ⟨recs', hdata', hread', hev'⟩ := h'.written
  refine ⟨h'.index.trans h.index, h'.start.trans h.start, recs ++ recs', ?_, ?_, ?_⟩
  · rw [hdata', hdata, List.flatten_append, List.append_assoc]
  · intro f hf
    exact (List.mem_append.mp hf).elim (hread f) (hread' f)
  · rw [List.flatMap_append, hev, hev']

end Extends

theorem readable_lostFrameBuffer (frameID : ℤ) : Readable (Writer.lostFrameBuffer frameID) where
  length := by
    have h : getNEvents (ofWords (Writer.lostFrameBuffer frameID)) = 0 := by
      show (((1 : UInt64) <<< 16) &&& 0x7FFF).toNat = 0
      decide
    rw [h]
    rfl
  fits := (by decide : 2 ≤ MaxRawDataFrameSize)

theorem extends_skip (w : Writer) (frameID : ℤ) : Extends w (w.skip frameID) [] := by
  rw [Writer.skip]
  split_ifs with hle hskip
  · exact .refl w
  · refine ⟨rfl, rfl, [Writer.lostFrameBuffer (w.lastFrameID + 1)], by simp, fun f hf => ?_, rfl⟩
    rw [List.mem_singleton.mp hf]
    exact readable_lostFrameBuffer _
  · exact .refl w

theorem extends_account (w : Writer) (frameID : ℤ) (nEvents : ℕ) (frameLost : Bool) :
    Extends w (w.account frameID nEvents frameLost) [] :=
  ⟨rfl, rfl, [], by simp [Writer.account], fun _ hf => (by cases hf), rfl⟩

/-- The types whose runs are shortened are those of frames without events. -/
theorem nEvents_eq_zero_of_frameType {frameLost : Bool} {nEvents : ℕ}
    (h : Writer.frameType frameLost nEvents = .zeroData ∨ Writer.frameType frameLost nEvents = .allLost) :
    nEvents = 0 := by
  by_contra hne
  cases frameLost <;> simp [Writer.frameType, hne] at h

theorem extends_frame {data : Data} (hd : Sound data) (blockType : ℤ) (w : Writer) :
    Extends w (w.frame blockType data) (tagged (words data)) := by
  have hacc := (extends_skip w (getFrameID data)).trans
    (extends_account (w.skip (getFrameID data)) (getFrameID data) (getNEvents data) (getFrameLost data))
  have hnil : getNEvents data = 0 → tagged (words data) = [] := by
    intro h0
    have hlen := hd.readable.length_events
    rw [hd.getNEvents_words, h0] at hlen
    rw [tagged, List.length_eq_zero_iff.mp hlen, List.map_nil]
  rw [Writer.frame]
  split_ifs with hzero hall
  · rw [hnil (nEvents_eq_zero_of_frameType (.inl (hzero.2.2.trans hzero.2.1)))]
    exact hacc
  · rw [hnil (nEvents_eq_zero_of_frameType (.inr (hall.2.2.trans hall.2.1)))]
    exact hacc
  · refine hacc.trans ⟨rfl, rfl, [words data], by simp, fun f hf => ?_,
      List.flatMap_singleton _ _⟩
    rw [List.mem_singleton.mp hf]
    exact hd.readable

theorem extends_frames {fs : List Data} (hfs : ∀ f ∈ fs, Sound f) (blockType : ℤ) (w : Writer) :
    Extends w (fs.foldl (Writer.frame blockType) w) (fs.flatMap fun f => tagged (words f)) := by
  induction fs generalizing w with
  | nil => exact .refl w
  | cons f fs ih =>
    have hf := extends_frame (hfs f List.mem_cons_self) blockType w
    exact hf.trans (ih (fun g hg => hfs g (List.mem_cons_of_mem _ hg)) _)

/-- Blocks with the frames they cover. -/
abbrev Blocks := List (BlockHeader × List Data)

namespace Writer

def blocks (w : Writer) (bs : Blocks) : Writer := bs.foldl (fun w b => w.block b.1 b.2) w

end Writer

/-- The blocks of a step: one that opens it, one that closes it, and others between them. -/
structure IsStep (bs : Blocks) : Prop where
  shape : ∃ h₀ fs₀ mid h₂ fs₂, bs = (h₀, fs₀) :: mid ++ [(h₂, fs₂)] ∧ h₀.blockType = 0 ∧
    h₂.blockType = 2 ∧ ∀ b ∈ mid, b.1.blockType ≠ 0 ∧ b.1.blockType ≠ 2
  sound : ∀ b ∈ bs, ∀ f ∈ b.2, Sound f

/-- All events of the frames of some blocks. -/
def eventsOf (bs : Blocks) : List (ℤ × UInt64) := bs.flatMap fun b => b.2.flatMap fun f => tagged (words f)

theorem extends_mid {mid : Blocks} (hs : ∀ b ∈ mid, ∀ f ∈ b.2, Sound f)
    (hmid : ∀ b ∈ mid, b.1.blockType ≠ 0 ∧ b.1.blockType ≠ 2) (w : Writer) :
    Extends w (w.blocks mid) (eventsOf mid) := by
  induction mid generalizing w with
  | nil => exact .refl w
  | cons b mid ih =>
    obtain ⟨h0, h2⟩ := hmid b List.mem_cons_self
    have hb : w.block b.1 b.2 = b.2.foldl (Writer.frame b.1.blockType) w := by
      rw [Writer.block, if_neg h0]
      exact if_neg h2
    have hframes := extends_frames (hs b List.mem_cons_self) b.1.blockType w
    rw [← hb] at hframes
    exact hframes.trans (ih (fun c hc => hs c (List.mem_cons_of_mem _ hc))
      (fun c hc => hmid c (List.mem_cons_of_mem _ hc)) _)

/-- A step is written behind what is there, and its line of the index has the two ends. -/
theorem step_spec {bs : Blocks} (h : IsStep bs) (w : Writer) :
    ∃ (recs : List (List UInt64)) (line : IndexLine),
      (w.blocks bs).dataFile = w.dataFile ++ recs.flatten ∧
        (w.blocks bs).indexFile = w.indexFile ++ [line] ∧
        line.stepBegin = 8 * w.dataFile.length ∧
        line.stepEnd = 8 * (w.dataFile ++ recs.flatten).length ∧
        (∀ f ∈ recs, Readable f) ∧ recs.flatMap tagged = eventsOf bs := by
  obtain ⟨h₀, fs₀, mid, h₂, fs₂, rfl, ht₀, ht₂, hmid⟩ := h.shape
  have hfirst : w.block h₀ fs₀ = fs₀.foldl (Writer.frame h₀.blockType) w.start := by
    simp only [Writer.block, ht₀]
    exact if_neg (by decide)
  have e₀ := extends_frames (h.sound _ List.mem_cons_self) h₀.blockType w.start
  rw [← hfirst] at e₀
  have e₁ := e₀.trans (extends_mid (fun b hb => h.sound b (List.mem_cons_of_mem _ (List.mem_append_left _ hb)))
    hmid (w.block h₀ fs₀))
  have e₂ := e₁.trans (extends_frames (h.sound (h₂, fs₂) (by simp)) h₂.blockType _)
  set v := fs₂.foldl (Writer.frame h₂.blockType) ((w.block h₀ fs₀).blocks mid)
  have hlast : w.blocks ((h₀, fs₀) :: mid ++ [(h₂, fs₂)]) = v.finish h₂.step1 h₂.step2 := by
    have hb : ((w.block h₀ fs₀).blocks mid).block h₂ fs₂ = v.finish h₂.step1 h₂.step2 := by
      have h0 : h₂.blockType ≠ 0 := by
        rw [ht₂]
        decide
      rw [Writer.block, if_neg h0]
      exact if_pos ht₂
    rw [← hb]
    simp [Writer.blocks]
  obtain ⟨recs, hdata, hread, hev⟩ := e₂.written
  refine ⟨recs, ⟨v.stepStartOffset, v.ftell, v.stepFirstFrameID, v.lastFrameID, h₂.step1, h₂.step2⟩,
    ?_, ?_, ?_, ?_, hread, ?_⟩
  · rw [hlast]
    exact hdata
  · rw [hlast, Writer.finish, e₂.index]
    rfl
  · exact e₂.start
  · show 8 * v.dataFile.length = _
    rw [hdata]
    rfl
  · rw [hev]
    simp [eventsOf]

/-- The reader, sent to the step of a line, comes back with the events of the step's frames, in buffers
numbered in order that start at a frame and hold no more than they were allocated for; there are no
more buffers than events, and each starts at the frame of its first event. -/
def ReadsBack (dataFile : List UInt64) (line : IndexLine) (bs : Blocks) : Prop :=
  ∃ r, processStep dataFile line.stepBegin line.stepEnd = some r ∧
    r.packing.all.flatMap absolute = (eventsOf bs).map (fun q => (UInt64.ofInt q.1, q.2)) ∧
    r.packing.all.map EventBuffer.seqN = (List.range r.packing.all.length).map (· % 2 ^ 32) ∧
    (∀ b ∈ r.packing.all, b.events.length ≤ b.capacity ∧ 1024 ∣ b.tMin) ∧
    r.packing.all.length ≤ (eventsOf bs).length ∧
    ∃ parts, List.Forall₂ StartsAt r.packing.all parts ∧ parts.flatten = eventsOf bs

theorem readsBack_of_written (after : List UInt64) {before : List UInt64} {recs : List (List UInt64)}
    {line : IndexLine} {bs : Blocks} (hread : ∀ f ∈ recs, Readable f) (hev : recs.flatMap tagged = eventsOf bs)
    (hb : line.stepBegin = 8 * before.length) (he : line.stepEnd = 8 * (before ++ recs.flatten).length) :
    ReadsBack (before ++ recs.flatten ++ after) line bs := by
  obtain ⟨r, hr, -, hpack⟩ := processStep_spec before after hread
  obtain ⟨hp, habs⟩ := packFrames_spec packed_initial recs
  rw [← hpack] at hp habs
  have hle := length_packFrames_le .initial recs
  rw [← hpack, hev] at hle
  have hinitial : Parted .initial [] [] := ⟨.nil, .nil, fun b hb => by cases hb⟩
  obtain ⟨done, current, hparted, hflat⟩ := hinitial.packFrames recs
  rw [← hpack] at hparted
  refine ⟨r, by rw [hb, he]; exact hr, ?_, ?_, fun b hb => ⟨hp.fits b hb, hp.aligned b hb⟩, ?_,
    done ++ current, List.rel_append hparted.queued hparted.out, hflat.trans hev⟩
  · rw [habs, hev]
    rfl
  · have hlen := congrArg List.length hp.numbered
    rw [List.length_map, List.length_map, List.length_range] at hlen
    rw [hlen]
    exact hp.numbered
  · exact hle.trans_eq (Nat.zero_add _)

theorem readsBack_steps {steps : List Blocks} (hs : ∀ bs ∈ steps, IsStep bs) (w : Writer) :
    ∃ lines more, (steps.foldl Writer.blocks w).indexFile = w.indexFile ++ lines ∧
      (steps.foldl Writer.blocks w).dataFile = w.dataFile ++ more ∧
      ∀ after, List.Forall₂ (ReadsBack (w.dataFile ++ more ++ after)) lines steps := by
  induction steps generalizing w with
  | nil => exact ⟨[], [], by simp, by simp, fun _ => .nil⟩
  | cons bs steps ih =>
    obtain ⟨recs, line, hdata, hindex, hb, he, hread, hev⟩ := step_spec (hs bs List.mem_cons_self) w
    obtain ⟨lines, more, hlines, hmore, hall⟩ :=
      ih (fun c hc => hs c (List.mem_cons_of_mem _ hc)) (w.blocks bs)
    refine ⟨line :: lines, recs.flatten ++ more, ?_, ?_, fun after => ?_⟩
    · rw [List.foldl_cons, hlines, hindex, List.append_assoc, List.singleton_append]
    · rw [List.foldl_cons, hmore, hdata, List.append_assoc]
    · refine .cons ?_ ?_
      · have h := readsBack_of_written (more ++ after) hread hev hb he
        simpa only [List.append_assoc] using h
      · have h := hall after
        rw [hdata] at h
        simpa only [List.append_assoc] using h

/-! ### The header -/

theorem and_bit_ne_zero_iff {x b : UInt64} {i : ℕ} (hb : b.toNat = 2 ^ i) :
    x &&& b ≠ 0 ↔ x.toNat.testBit i = true := by
  rw [ne_eq, ← UInt64.toNat_inj, UInt64.toNat_and, hb, Nat.and_two_pow]
  cases x.toNat.testBit i <;> simp

theorem toNat_frequencyWord {f : ℕ} (hf : f < 2 ^ 32) (qdc : Bool) :
    (UInt64.ofNat f ||| (if qdc then (0x1 : UInt64) else 0x0) <<< 32).toNat = 2 ^ 32 * qdc.toNat + f := by
  have hlt : f < 2 ^ 64 := by omega
  rw [UInt64.toNat_or, UInt64.toNat_ofNat_of_lt' hlt]
  cases qdc with
  | false => exact (Nat.or_zero f).trans (Nat.zero_add f).symm
  | true =>
    rw [Nat.or_comm]
    exact (Nat.two_pow_add_eq_or_of_lt hf 1).symm

theorem frequencyWord_spec {f : ℕ} (hf : f < 2 ^ 32) (qdc : Bool) {w : UInt64}
    (hw : w = UInt64.ofNat f ||| (if qdc then (0x1 : UInt64) else 0x0) <<< 32) :
    (w &&& 0xFFFFFFFF).toNat = f ∧ (w &&& 0x100000000 != 0) = qdc := by
  have hword : w.toNat = 2 ^ 32 * qdc.toNat + f := hw ▸ toNat_frequencyWord hf qdc
  constructor
  · rw [UInt64.toNat_and, hword]
    show _ &&& (2 ^ 32 - 1) = f
    rw [Nat.and_two_pow_sub_one_eq_mod, Nat.mul_add_mod, Nat.mod_eq_of_lt hf]
  · have hbit : w.toNat.testBit 32 = qdc := by
      rw [hword, Nat.testBit_two_pow_mul_add _ hf, if_neg (Nat.lt_irrefl 32)]
      cases qdc <;> rfl
    rw [Bool.eq_iff_iff, bne_iff_ne, and_bit_ne_zero_iff (i := 32) rfl, hbit]

theorem triggerWord_spec {t : ℕ} (ht : t < 2 ^ 15) {w : UInt64} (hw : w = UInt64.ofNat (0x8000 + t)) :
    w &&& 0x8000 ≠ 0 ∧ (w &&& 0x7FFF).toNat = t := by
  have hword : w.toNat = 2 ^ 15 * 1 + t := by
    rw [hw]
    exact UInt64.toNat_ofNat_of_lt' (show 0x8000 + t < 2 ^ 64 by omega)
  constructor
  · rw [and_bit_ne_zero_iff (i := 15) rfl, hword, Nat.testBit_two_pow_mul_add _ ht, if_neg (Nat.lt_irrefl 15)]
    rfl
  · rw [UInt64.toNat_and, hword]
    show _ &&& (2 ^ 15 - 1) = t
    rw [Nat.and_two_pow_sub_one_eq_mod, Nat.mul_add_mod, Nat.mod_eq_of_lt ht]

/-- The reader takes from the header what the writer was told. -/
theorem openFile_header {systemFrequency triggerID : ℤ} (hlow : 0 ≤ systemFrequency)
    (hhigh : systemFrequency < 2 ^ 32) (htrig : -1 ≤ triggerID) (htrig' : triggerID < 2 ^ 15) (mode : Mode)
    (acquisitionStartTime : UInt64) (after : List UInt64) :
    openFile (header systemFrequency mode acquisitionStartTime triggerID ++ after) =
      some ⟨systemFrequency.toNat, triggerID, if mode = .mixed then none else some (mode = .qdc)⟩ := by
  obtain ⟨f, rfl⟩ := Int.eq_ofNat_of_zero_le hlow
  set head := header f mode acquisitionStartTime triggerID with hhead
  have hlen : ¬(head ++ after).length < 8 := by
    rw [List.length_append]
    exact Nat.not_lt.mpr (Nat.le_add_right 8 _)
  have htake : (head ++ after).take 8 = head := List.take_left' rfl
  have hmod : ((f : ℤ) % 2 ^ 32).toNat = f := by omega
  obtain ⟨hfrequency, hqdc⟩ := frequencyWord_spec (f := f) (by omega) (mode = .qdc) (w := ofWords head 0) (by
    simp only [ofWords, hhead, header, hmod, List.getD_cons_zero, decide_eq_true_eq])
  have htrigger : (if ofWords head 2 &&& 0x8000 ≠ 0 then ((ofWords head 2 &&& 0x7FFF).toNat : ℤ) else -1) =
      triggerID := by
    by_cases hnone : triggerID = -1
    · have h2 : ofWords head 2 = 0 := if_neg (not_not.mpr hnone)
      rw [h2, hnone]
      rfl
    · obtain ⟨t, rfl⟩ := Int.eq_ofNat_of_zero_le (show 0 ≤ triggerID by omega)
      have h2 : ofWords head 2 = UInt64.ofNat (0x8000 + t) := by
        have hsum : ((0x8000 + (t : ℤ)) % 2 ^ 64).toNat = 0x8000 + t := by omega
        simp only [ofWords, hhead, header, hsum, List.getD_cons_succ, List.getD_cons_zero]
        exact if_pos hnone
      obtain ⟨hset, ht⟩ := triggerWord_spec (by omega) h2
      rw [if_pos hset, ht]
  have hmixed : (ofWords head 3 ≠ 0) = (mode = .mixed) := by
    have h3 : ofWords head 3 = if mode = .mixed then 0x1 else 0 := rfl
    rw [h3]
    split_ifs with hm <;> simp [hm]
  rw [openFile, if_neg hlen, htake]
  simp only [hfrequency, hqdc, htrigger, hmixed]
  rfl

/-- Behind the header the steps are written, and the reader finds the header in front of them. -/
theorem openFile_written {systemFrequency triggerID : ℤ} (hlow : 0 ≤ systemFrequency)
    (hhigh : systemFrequency < 2 ^ 32) (htrig : -1 ≤ triggerID) (htrig' : triggerID < 2 ^ 15) (mode : Mode)
    (acquisitionStartTime : UInt64) {steps : List Blocks} (hs : ∀ bs ∈ steps, IsStep bs) :
    openFile (steps.foldl Writer.blocks
        (.opened (header systemFrequency mode acquisitionStartTime triggerID))).dataFile =
      some ⟨systemFrequency.toNat, triggerID, if mode = .mixed then none else some (mode = .qdc)⟩ := by
  obtain ⟨_, more, -, hmore, -⟩ :=
    readsBack_steps hs (.opened (header systemFrequency mode acquisitionStartTime triggerID))
  rw [hmore]
  exact openFile_header hlow hhigh htrig htrig' mode acquisitionStartTime more

/-! ### The files -/

/-- Whatever steps are written, the reader that follows the index gets, step by step, the events of the
frames of the blocks, in order. -/
theorem written_reads_back (head : List UInt64) {steps : List Blocks} (hs : ∀ bs ∈ steps, IsStep bs) :
    List.Forall₂ (ReadsBack (steps.foldl Writer.blocks (.opened head)).dataFile)
      (steps.foldl Writer.blocks (.opened head)).indexFile steps := by
  obtain ⟨lines, more, hlines, hmore, hall⟩ := readsBack_steps hs (.opened head)
  have h := hall []
  rw [List.append_nil] at h
  rw [hlines, hmore]
  exact h

/-- Four frames, two of them empty and behind a skip. -/
def sampleFrames : List Data := [frame 5 [77], frame 8 [], frame 9 [], frame 10 [78]].map ofWords

def sampleBlocks : Blocks :=
  [(⟨0, 0, 0, 0, 0⟩, []), (⟨0, 0, 4, 0, 1⟩, sampleFrames), (⟨0, 0, 4, 4, 2⟩, [])]

theorem sound_sampleFrames : ∀ f ∈ sampleFrames, Sound f := by
  intro f hf
  simp only [sampleFrames, List.map_cons, List.map_nil, List.mem_cons, List.not_mem_nil, or_false] at hf
  rcases hf with rfl | rfl | rfl | rfl <;> decide

theorem isStep_sampleBlocks : IsStep sampleBlocks where
  shape := ⟨_, [], [(⟨0, 0, 4, 0, 1⟩, sampleFrames)], _, [], rfl, rfl, rfl, by
    intro b hb
    rw [List.mem_singleton.mp hb]
    decide⟩
  sound b hb f hf := by
    simp only [sampleBlocks, List.mem_cons, List.not_mem_nil, or_false] at hb
    rcases hb with rfl | rfl | rfl
    · cases hf
    · exact sound_sampleFrames f hf
    · cases hf

theorem written_reads_back_sample : eventsOf sampleBlocks = [(5, 77), (10, 78)] ∧
    List.Forall₂ (ReadsBack ([sampleBlocks].foldl Writer.blocks (.opened [0, 0, 0, 0, 0, 0, 0, 0])).dataFile)
      ([sampleBlocks].foldl Writer.blocks (.opened [0, 0, 0, 0, 0, 0, 0, 0])).indexFile [sampleBlocks] :=
  ⟨by decide, written_reads_back _ fun bs hbs => List.mem_singleton.mp hbs ▸ isStep_sampleBlocks⟩

end GramsTof.RawData
