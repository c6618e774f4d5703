import GramsTof.Daqd.FrameServer

/-! The history of an acquisition, kept beside the frame server: the frames of
its packets, what became of each, and how far the client is with those stored.
The worker has one packet in hand, and its destination holds what it has copied
of the packet's first frame. -/

namespace GramsTof.Daqd

open Lib RawData FrameServer

/-- What became of a frame, with what decided it. -/
inductive Fate where
  | stored
  | full (held : ℕ)
  | old (minimum : ℕ)
  | malformed (bad : List UInt64)
  deriving DecidableEq

/-- The stored frames of an acquisition, numbered from its start, and how far each party is with
them: `released` is the number the read pointer stands for, `seen` that of the write pointer the
client was last told, `synced` the one at which the client began to read `out`, `since` that at
which it last set the oldest frame it wants. -/
structure Marks where
  accepted : List (List UInt64)
  out : List (List UInt64)
  held : ℕ
  released : ℕ
  seen : ℕ
  synced : ℕ
  since : ℕ
  fresh : Bool

/-- The history of an acquisition: the frames of its packets, those of the packet in work, and what
became of the others. -/
structure Log extends Marks where
  received : List (List UInt64)
  pending : List (List UInt64)
  fates : List (List UInt64 × Fate)

namespace Log

def empty : Log := ⟨⟨[], [], 0, 0, 0, 0, 0, true⟩, [], [], []⟩

/-- The frame in the worker's hands is done with. -/
def settle (w : Log) (fate : Fate) : Log :=
  { w with pending := w.pending.tail, fates := w.fates ++ (w.pending.take 1).map fun f => (f, fate) }

def store (w : Log) : Log := { w with accepted := w.accepted ++ w.pending.take 1 }

/-- The rest of the packet is given up. -/
def abandon (w : Log) : Log :=
  { w with
    pending := []
    fates := w.fates ++ w.pending.map fun f => (f, .malformed (w.pending.headD [])) }

def work (w : Log) (s : FrameServer) : Log :=
  match s.worker with
  | .select _ _ => { w with held := w.accepted.length - w.released }
  | .parse dst _ _ =>
    if !parseDataFrame (s.target dst) then w.abandon
    else if getFrameID (s.target dst) < s.minimumFrameID then w.settle (.old s.minimumFrameID)
    else w
  | .push dst _ _ => if dst.isSome then (w.store).settle .stored else w.settle (.full w.held)
  | _ => w

/-- `write_raw` has read the frame of a slot. -/
def read (w : Log) (s : FrameServer) : Log :=
  match s.client with
  | .block _ pos => { w with out := w.out ++ [words (s.slot (pos % bs))] }
  | _ => w

end Log

def track (s : FrameServer) (e : Event) (s' : FrameServer) (w : Log) : Log :=
  match e with
  | .work => w.work s
  | .recv packet =>
    if s.acquisitionMode ≠ 0 then { w with received := w.received ++ packet, pending := packet } else w
  | .join => if s'.hasWorker then .empty else w
  | .setMinimumFrameID _ => { w with since := w.accepted.length, fresh := false }
  | .getPointers => { w with seen := w.accepted.length }
  | .skip => { w with out := [], synced := w.seen, released := w.seen, fresh := true }
  | .read => w.read s
  | .setReadPointer => { w with released := w.synced + w.out.length }
  | _ => w

/-- The machine with its history. -/
abbrev logged : Machine (FrameServer × Log) Event := machine.withHistory .empty track

variable {s s' : FrameServer} {w : Log}

/-! ### The worker and its packet -/

/-- The frames `rest` make up the words from `p` to the packet's end. -/
structure Buffered (s : FrameServer) (rest : List (List UInt64)) (p nWords : ℕ) : Prop where
  sized : ∀ f ∈ rest, WellSized f
  stop : p + rest.flatten.length = nWords
  word : ∀ i < rest.flatten.length, s.dataBuffer (p + i) = ofWords rest.flatten i

theorem ofWords_append_left {xs ys : List UInt64} {i : ℕ} (h : i < xs.length) :
    ofWords (xs ++ ys) i = ofWords xs i := List.getD_append _ _ _ _ h

theorem ofWords_append_right {xs ys : List UInt64} (i : ℕ) :
    ofWords (xs ++ ys) (xs.length + i) = ofWords ys i := by
  rw [ofWords, List.getD_append_right _ _ _ _ (Nat.le_add_right _ _), Nat.add_sub_cancel_left]
  rfl

theorem Buffered.head_word {f : List UInt64} {rest : List (List UInt64)} {p n i : ℕ}
    (h : Buffered s (f :: rest) p n) (hi : i < f.length) : s.dataBuffer (p + i) = ofWords f i := by
  have hw := h.word i (by rw [List.flatten_cons, List.length_append]; omega)
  rwa [List.flatten_cons, ofWords_append_left hi] at hw

theorem Buffered.tail {f : List UInt64} {rest : List (List UInt64)} {p n : ℕ}
    (h : Buffered s (f :: rest) p n) : Buffered s rest (p + f.length) n where
  sized g hg := h.sized g (List.mem_cons_of_mem _ hg)
  stop := by
    have := h.stop
    rw [List.flatten_cons, List.length_append] at this
    omega
  word i hi := by
    have hw := h.word (f.length + i) (by rw [List.flatten_cons, List.length_append]; omega)
    rwa [List.flatten_cons, ofWords_append_right, ← Nat.add_assoc] at hw

/-- The size the worker takes from the buffer is that of the frame. -/
theorem Buffered.frameSize_eq {f : List UInt64} {rest : List (List UInt64)} {p n : ℕ}
    (h : Buffered s (f :: rest) p n) : ((s.dataBuffer p >>> 36) &&& 0x7FFF).toNat = f.length := by
  have hf := h.sized f List.mem_cons_self
  have h0 := h.head_word (List.length_pos_iff.mpr hf.1)
  rw [Nat.add_zero] at h0
  rw [h0]
  exact hf.2.2

/-- A packet over is a packet of which no frames are left. -/
theorem Buffered.lt_iff {rest : List (List UInt64)} {p n : ℕ} (h : Buffered s rest p n) :
    p < n ↔ rest ≠ [] := by
  have hs := h.stop
  constructor
  · rintro hlt rfl
    rw [List.flatten_nil, List.length_nil] at hs
    omega
  · intro hne
    obtain ⟨f, tl, rfl⟩ := List.exists_cons_of_ne_nil hne
    have := List.length_pos_iff.mpr (h.sized f List.mem_cons_self).1
    rw [List.flatten_cons, List.length_append] at hs
    omega

/-- The frame `f` stands complete at the destination, `rest` still in the buffer. -/
structure Copied (s : FrameServer) (dst : Option ℕ) (f : List UInt64) (rest : List (List UInt64))
    (p nWords : ℕ) : Prop where
  sized : WellSized f
  carries : Carries (s.target dst) f
  buffered : Buffered s rest p nWords

/-- What the worker has in hand. -/
def AtWork (s : FrameServer) (pending : List (List UInt64)) : Prop :=
  match s.worker with
  | .absent | .head | .recv | .exited => pending = []
  | .select p n => pending ≠ [] ∧ Buffered s pending p n
  | .copy dst p n size i =>
    ∃ f rest, pending = f :: rest ∧ Buffered s (f :: rest) p n ∧ size = f.length ∧ i ≤ size ∧
      ∀ j < i, s.target dst j = ofWords f j
  | .parse dst p n => ∃ f rest, pending = f :: rest ∧ Copied s dst f rest p n
  | .push dst p n =>
    ∃ f rest, pending = f :: rest ∧ Copied s dst f rest p n ∧ parseDataFrame (ofWords f) = true

theorem target_store (s : FrameServer) (dst : Option ℕ) (i : ℕ) (v : UInt64) (j : ℕ) :
    (s.store dst i v).target dst j = if j = i then v else s.target dst j := by
  cases dst with
  | none => exact Function.update_apply _ _ _ _
  | some k =>
    have hiff : k * MaxRawDataFrameSize + j = k * MaxRawDataFrameSize + i ↔ j = i :=
      Nat.add_left_cancel_iff
    simp only [target, slot, FrameServer.store, Function.update_apply, hiff]

theorem cell_ne {m k k' i j : ℕ} (hi : i < m) (hj : j < m) (hk : k' ≠ k) :
    k * m + j ≠ k' * m + i := by
  intro he
  have hq := congrArg (· / m) he
  have hpos : 0 < m := by omega
  simp only [Nat.mul_comm _ m, Nat.mul_add_div hpos, Nat.div_eq_of_lt hi, Nat.div_eq_of_lt hj,
    Nat.add_zero] at hq
  exact hk hq.symm

/-- A word stored inside one array is in no other. -/
theorem slot_store {s : FrameServer} {dst : Option ℕ} {i j k : ℕ} (v : UInt64)
    (hi : i < MaxRawDataFrameSize) (hj : j < MaxRawDataFrameSize) (hk : dst ≠ some k) :
    (s.store dst i v).slot k j = s.slot k j := by
  cases dst with
  | none => rfl
  | some k' =>
    have hne := cell_ne hi hj fun he => hk (congrArg some he)
    simp only [slot, FrameServer.store, Function.update_of_ne hne]

theorem atWork_next {rest : List (List UInt64)} {p n : ℕ} (h : Buffered s rest p n)
    (hw : s'.worker = next p n) (hd : s'.dataBuffer = s.dataBuffer) : AtWork s' rest := by
  have hb : Buffered s' rest p n := ⟨h.sized, h.stop, by rw [hd]; exact h.word⟩
  rw [AtWork, hw, next]
  split_ifs with hlt
  · exact ⟨h.lt_iff.mp hlt, hb⟩
  · exact not_not.mp fun hne => hlt (h.lt_iff.mpr hne)

/-- The frame at a destination is judged as the frame of the packet would be. -/
theorem Copied.parse_eq {dst : Option ℕ} {f : List UInt64} {rest : List (List UInt64)} {p n : ℕ}
    (h : Copied s dst f rest p n) : parseDataFrame (s.target dst) = parseDataFrame (ofWords f) :=
  h.carries.parseDataFrame_eq h.sized

theorem Copied.id_eq {dst : Option ℕ} {f : List UInt64} {rest : List (List UInt64)} {p n : ℕ}
    (h : Copied s dst f rest p n) : getFrameID (s.target dst) = getFrameID (ofWords f) :=
  h.carries.getFrameID_eq h.sized

theorem atWork_work (h : AtWork s w.pending) (hs : s.work = some s') :
    AtWork s' (w.work s).pending := by
  cases work_inv hs with
  | head hw =>
    simp only [AtWork, hw] at h
    cases hd : s.die <;> simp [AtWork, Log.work, hw, h]
  | recv hw =>
    simp only [AtWork, hw] at h
    simpa [AtWork, Log.work, hw] using h
  | select hw =>
    simp only [AtWork, hw] at h
    obtain ⟨hne, hb⟩ := h
    obtain ⟨f, rest, hp⟩ := List.exists_cons_of_ne_nil hne
    simp only [AtWork, Log.work, hw]
    rw [hp] at hb ⊢
    exact ⟨f, rest, rfl, ⟨hb.sized, hb.stop, hb.word⟩, hb.frameSize_eq, Nat.zero_le _,
      fun j hj => absurd hj (Nat.not_lt_zero j)⟩
  | @word dst p n size i hw hlt =>
    simp only [AtWork, hw] at h
    obtain ⟨f, rest, hp, hb, rfl, hi, hcopied⟩ := h
    simp only [Log.work, hw]
    refine ⟨f, rest, hp, ⟨hb.sized, hb.stop, hb.word⟩, rfl, hlt, fun j hj => ?_⟩
    refine (target_store s dst i _ j).trans ?_
    split_ifs with he
    · rw [he]
      exact hb.head_word hlt
    · exact hcopied j (by omega)
  | copied hw hle =>
    simp only [AtWork, hw] at h
    obtain ⟨f, rest, hp, hb, rfl, hi, hcopied⟩ := h
    obtain rfl := le_antisymm hle hi
    simp only [Log.work, hw]
    exact ⟨f, rest, hp, hb.sized f List.mem_cons_self, hcopied, hb.tail.sized, hb.tail.stop,
      hb.tail.word⟩
  | malformed hw hparse =>
    simp [AtWork, Log.work, Log.abandon, hw, hparse]
  | old hw hparse hold =>
    simp only [AtWork, hw] at h
    obtain ⟨f, rest, hp, hc⟩ := h
    simp only [Log.work, hw, hparse, hold, Log.settle, hp]
    exact atWork_next hc.buffered rfl rfl
  | young hw hparse hyoung =>
    simp only [AtWork, hw] at h
    obtain ⟨f, rest, hp, hc⟩ := h
    simp only [Log.work, hw, hparse, not_lt.mpr hyoung]
    exact ⟨f, rest, hp, ⟨hc.sized, hc.carries, hc.buffered.sized, hc.buffered.stop,
      hc.buffered.word⟩, hc.parse_eq ▸ hparse⟩
  | push hw =>
    simp only [AtWork, hw] at h
    obtain ⟨f, rest, hp, hc, -⟩ := h
    have hpending : (w.work s).pending = rest := by
      simp only [Log.work, hw]
      split_ifs <;> simp only [Log.settle, Log.store, hp, List.tail_cons]
    rw [hpending]
    exact atWork_next hc.buffered rfl rfl

/-- What the worker has in hand is nobody else's business. -/
theorem AtWork.congr {pending : List (List UInt64)} (h : AtWork s pending)
    (hworker : s'.worker = s.worker) (hbuf : s'.dataBuffer = s.dataBuffer)
    (hshm : s'.shmPtr = s.shmPtr) (hnull : s'.devNull = s.devNull) : AtWork s' pending := by
  have hslot : s'.slot = s.slot := by
    funext k i
    simp only [slot, hshm]
  have ht : s'.target = s.target := by
    funext dst
    cases dst <;> simp only [target, hslot, hnull]
  have hb : ∀ {rest p n}, Buffered s rest p n → Buffered s' rest p n := fun h =>
    ⟨h.sized, h.stop, by rw [hbuf]; exact h.word⟩
  have hc : ∀ {dst f rest p n}, Copied s dst f rest p n → Copied s' dst f rest p n := fun h =>
    ⟨h.sized, by rw [ht]; exact h.carries, hb h.buffered⟩
  rw [AtWork, hworker]
  rw [AtWork] at h
  cases hw : s.worker <;> rw [hw] at h
  case select => exact ⟨h.1, hb h.2⟩
  case copy =>
    obtain ⟨f, rest, hp, hbuf, hsize, hi, hcopied⟩ := h
    exact ⟨f, rest, hp, hb hbuf, hsize, hi, by rw [ht]; exact hcopied⟩
  case parse =>
    obtain ⟨f, rest, hp, hcop⟩ := h
    exact ⟨f, rest, hp, hc hcop⟩
  case push =>
    obtain ⟨f, rest, hp, hcop, hparse⟩ := h
    exact ⟨f, rest, hp, hc hcop, hparse⟩
  all_goals exact h

/-- The worker's part of the invariant. -/
structure WorkerInv (s : FrameServer) (w : Log) : Prop where
  atWork : AtWork s w.pending
  absent : s.hasWorker = false → s.worker = .absent

theorem WorkerInv.congr {w' : Log} (h : WorkerInv s w) (hworker : s'.worker = s.worker)
    (hbuf : s'.dataBuffer = s.dataBuffer) (hshm : s'.shmPtr = s.shmPtr)
    (hnull : s'.devNull = s.devNull) (hhas : s'.hasWorker = s.hasWorker)
    (hp : w'.pending = w.pending) : WorkerInv s' w' where
  atWork := by rw [hp]; exact h.atWork.congr hworker hbuf hshm hnull
  absent := by rw [hhas, hworker]; exact h.absent

theorem workerInv_work (h : WorkerInv s w) (hs : s.work = some s') : WorkerInv s' (w.work s) where
  atWork := atWork_work h.atWork hs
  absent := by
    intro hf
    have hhas : s'.hasWorker = s.hasWorker := by cases work_inv hs <;> rfl
    rw [FrameServer.work, h.absent (hhas ▸ hf)] at hs
    cases hs

theorem buffered_fill {packet : List (List UInt64)} (h : ∀ f ∈ packet, WellSized f)
    (hbuf : s'.dataBuffer = (s.fill packet.flatten).dataBuffer) :
    Buffered s' packet 0 packet.flatten.length where
  sized := h
  stop := Nat.zero_add _
  word i hi := by
    rw [hbuf, Nat.zero_add, ofWords, List.getD_eq_getElem _ _ hi]
    simp only [FrameServer.fill, List.getElem?_eq_getElem hi, Option.getD_some]

theorem workerInv_recv {packet : List (List UInt64)} (h : WorkerInv s w)
    (hp : packet ≠ [] ∧ ∀ f ∈ packet, WellSized f) (hs : s.recv packet.flatten = some s') :
    WorkerInv s' (track s (.recv packet) s' w) := by
  obtain ⟨hw, hs⟩ := recv_inv hs
  have habsent : s.hasWorker = false → s.worker = .absent := h.absent
  have hhas : s.hasWorker ≠ false := by
    intro hf
    rw [hw] at habsent
    cases habsent hf
  have hnil := h.atWork
  simp only [AtWork, hw] at hnil
  rcases hs with ⟨hm, rfl⟩ | ⟨hm, rfl⟩
  · rw [track, if_pos hm]
    exact ⟨⟨hp.1, buffered_fill hp.2 rfl⟩, fun hf => absurd hf hhas⟩
  · rw [track, if_neg (not_not.mpr hm)]
    exact ⟨hnil, fun hf => absurd hf hhas⟩

theorem workerInv_join (h : WorkerInv s w) (hs : s.join = some s') :
    WorkerInv s' (track s .join s' w) := by
  obtain ⟨-, hexit, rfl | ⟨mode, -, rfl⟩⟩ := join_inv hs
  · have hnil : w.pending = [] := by
      have ha := h.atWork
      cases hhas : s.hasWorker with
      | false => simpa only [AtWork, h.absent hhas] using ha
      | true => simpa only [AtWork, hexit hhas] using ha
    exact ⟨hnil, fun _ => rfl⟩
  · exact ⟨rfl, fun hf => by cases hf⟩

theorem workerInv_step {e : Event} (h : WorkerInv s w) (hp : Packets s e)
    (hs : step s e = some s') : WorkerInv s' (track s e s' w) := by
  cases e with
  | work => exact workerInv_work h hs
  | recv packet => exact workerInv_recv h hp hs
  | join => exact workerInv_join h hs
  | acqOnOff acqMode =>
    obtain ⟨mode, rfl⟩ := acqOnOff_inv hs
    exact h.congr rfl rfl rfl rfl rfl rfl
  | stopWorker =>
    obtain ⟨mode, die, -, rfl⟩ := stopWorker_inv hs
    exact h.congr rfl rfl rfl rfl rfl rfl
  | setMinimumFrameID frameID =>
    obtain ⟨-, rfl⟩ := setMinimumFrameID_inv hs
    exact h.congr rfl rfl rfl rfl rfl rfl
  | getPointers =>
    obtain ⟨-, -, rfl⟩ := getPointers_inv hs
    exact h.congr rfl rfl rfl rfl rfl rfl
  | skip =>
    obtain ⟨_, _, -, rfl⟩ := skip_inv hs
    exact h.congr rfl rfl rfl rfl rfl rfl
  | send framesToTarget =>
    obtain ⟨_, _, -, rfl⟩ := send_inv hs
    exact h.congr rfl rfl rfl rfl rfl rfl
  | read =>
    obtain ⟨wr, pos, hc, -, rfl⟩ := read_inv hs
    exact h.congr rfl rfl rfl rfl rfl (by simp only [track, Log.read, hc])
  | setReadPointer =>
    obtain ⟨_, -, rfl⟩ := setReadPointer_inv hs
    exact h.congr rfl rfl rfl rfl rfl rfl

end GramsTof.Daqd
