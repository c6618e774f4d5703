import GramsTof.CommandClient.ReadLoop

/-! What the read loop of a connection achieves, as a function of the whole
stream: the frames are taken off the left, and the first one that does not parse
or whose ACK is not sent ends the connection. The loop computes this function
however the stream is split into `recv` chunks. -/

namespace GramsTof.CommandClient

open Codec Lib Net

/-- What a connection has done and whether it is closed. -/
structure Outcome where
  queued : List Packet
  acks : List Packet
  closed : Bool
  residue : List UInt8

def ReadState.outcome (s : ReadState) : Outcome := ⟨s.queued, s.acks, !s.active, s.incoming⟩

/-- The frame at position `i` does not parse, or its ACK is not sent. -/
def refused (ackOk : ℕ → Bool) (f : List UInt8) (i : ℕ) : Bool := (accepted f).isNone || !ackOk i

/-- The number of frames before the first refused one, the first frame having position `i`. -/
def honoured (ackOk : ℕ → Bool) (fs : List (List UInt8)) (i : ℕ) : ℕ :=
  (fs.zipIdx i).findIdx fun x => refused ackOk x.1 x.2

/-- The ACK of a frame: its packet's code and its size in bytes. -/
def frameAck (f : List UInt8) : Option Packet :=
  (accepted f).map fun p => { code := p.code, argc := 1, argv := [UInt32.ofNat f.length] }

/-- The outcome for a stream, read off its frames: those before the first refused one are queued,
and each frame that parses is acknowledged up to and including the refused one. -/
def reference (ackOk : ℕ → Bool) (stream : List UInt8) : Outcome :=
  let (fs, rest) := commandFraming.cut stream
  let n := honoured ackOk fs 0
  { queued := (fs.take n).filterMap accepted
    acks := (fs.take (n + 1)).filterMap frameAck
    closed := n < fs.length
    residue := if n < fs.length then [] else rest }

theorem honoured_cons (ackOk : ℕ → Bool) (f : List UInt8) (fs : List (List UInt8)) (i : ℕ) :
    honoured ackOk (f :: fs) i = if refused ackOk f i then 0 else honoured ackOk fs (i + 1) + 1 := by
  simp only [honoured, List.zipIdx_cons, List.findIdx_cons]
  cases refused ackOk f i <;> rfl

/-- A frame that parses is exactly one packet. -/
theorem ackFor_eq {f : List UInt8} {p : Packet} (hf : commandFraming.size f = some f.length)
    (h : accepted f = some p) : frameAck f = some (ackFor p) := by
  obtain ⟨hp, hpre⟩ := accepted_eq_some_iff.mp h
  have hfields := (wire_prefix_iff_fields hp).mp hpre
  have hargc : peekArgc f = p.argc := hfields.argc
  simp only [commandFraming] at hf
  split_ifs at hf
  rw [hargc, Option.some.injEq] at hf
  rw [frameAck, h, Option.map_some, ackFor, getPacketSize, ← hf]
  rfl

theorem handleAll_onFrame (ackOk : ℕ → Bool) {fs : List (List UInt8)}
    (hfs : ∀ f ∈ fs, commandFraming.size f = some f.length) (acks queued : List Packet) :
    handleAll (onFrame ackOk) (acks, queued) fs =
      ((acks ++ (fs.take (honoured ackOk fs acks.length + 1)).filterMap frameAck,
        queued ++ (fs.take (honoured ackOk fs acks.length)).filterMap accepted),
        decide (honoured ackOk fs acks.length < fs.length)) := by
  induction fs generalizing acks queued with
  | nil => simp [honoured]
  | cons f fs ih =>
    have hrest : ∀ g ∈ fs, commandFraming.size g = some g.length :=
      fun g hg => hfs g (List.mem_cons_of_mem _ hg)
    rw [handleAll_cons, honoured_cons, refused]
    cases hacc : accepted f with
    | none => simp [onFrame, hacc, frameAck]
    | some p =>
      have hack := ackFor_eq (hfs f List.mem_cons_self) hacc
      by_cases hok : ackOk acks.length = true
      · simp [onFrame, hacc, hok, ih hrest, hack]
      · simp [onFrame, hacc, hok, hack]

theorem outcome_eq_of_session (s : ReadState) :
    s.outcome = ⟨s.session.state.2, s.session.state.1, !s.session.live, s.session.buffer⟩ := rfl

/-- The whole stream at once gives the reference outcome. -/
theorem onePiece_reference (ackOk : ℕ → Bool) (stream : List UInt8) :
    (onePiece ackOk stream).outcome = reference ackOk stream := by
  rw [outcome_eq_of_session, onePiece_session, Framing.absorb_live _ _ rfl]
  simp only [ReadState.session, ReadState.fresh, List.nil_append,
    handleAll_onFrame ackOk fun f => commandFraming.size_of_mem_cut, List.length_nil, reference,
    decide_eq_true_eq]
  split_ifs with h <;> simp [h]

/-! ### Streams of whole packets -/

theorem size_wire {p : Packet} (hp : p.WellSized) :
    commandFraming.size (wire p) = some (wire p).length := by
  have hfields := (wire_prefix_iff_fields hp).mp (List.prefix_refl _)
  have hargc : peekArgc (wire p) = p.argc := hfields.argc
  have hlen := length_wire p
  rw [← hp] at hlen
  simp only [commandFraming, hargc, minPacketSize]
  rw [if_pos (by omega), hlen, mul_comm]

theorem accepted_wire {p : Packet} (hp : p.WellSized) : accepted (wire p) = some p :=
  accepted_eq_some_iff.mpr ⟨hp, List.prefix_refl _⟩

theorem honoured_wire {ackOk : ℕ → Bool} (hack : ∀ i, ackOk i = true) {ps : List Packet}
    (hps : ∀ p ∈ ps, p.WellSized) (i : ℕ) : honoured ackOk (ps.map wire) i = ps.length := by
  induction ps generalizing i with
  | nil => rfl
  | cons p ps ih =>
    rw [List.map_cons, honoured_cons, refused, accepted_wire (hps p List.mem_cons_self), hack,
      ih fun q hq => hps q (List.mem_cons_of_mem _ hq)]
    rfl

theorem filterMap_accepted_wire {ps : List Packet} (hps : ∀ p ∈ ps, p.WellSized) :
    (ps.map wire).filterMap accepted = ps := by
  rw [List.filterMap_map]
  exact (List.filterMap_congr fun p hp => accepted_wire (hps p hp)).trans List.filterMap_some

theorem reference_wire {ackOk : ℕ → Bool} (hack : ∀ i, ackOk i = true) {ps : List Packet}
    (hps : ∀ p ∈ ps, p.WellSized) :
    reference ackOk (ps.map wire).flatten = ⟨ps, ps.map ackFor, false, []⟩ := by
  have hcut : commandFraming.cut (ps.map wire).flatten = (ps.map wire, []) := by
    apply Framing.cut_whole
    intro f hf
    obtain ⟨p, hp, rfl⟩ := List.mem_map.mp hf
    exact size_wire (hps p hp)
  have hacc := filterMap_accepted_wire hps
  have hacks : (ps.map wire).filterMap frameAck = ps.map ackFor := by
    rw [List.filterMap_map, ← List.filterMap_eq_map]
    exact List.filterMap_congr fun p hp =>
      ackFor_eq (size_wire (hps p hp)) (accepted_wire (hps p hp))
  simp only [reference, hcut, honoured_wire hack hps, List.length_map]
  rw [List.take_of_length_le (by simp), List.take_of_length_le (by simp), hacc, hacks]
  simp

/-- The serialized packets of a list are the encodings of what they send. -/
theorem serialize_all {ps : List Packet} {frames : List (List UInt8)}
    (h : ps.mapM (fun p => serialize p none) = some frames) :
    frames = (ps.map Packet.sent).map wire ∧ ∀ p ∈ ps.map Packet.sent, p.WellSized := by
  induction ps generalizing frames with
  | nil =>
    cases h
    simp
  | cons p ps ih =>
    rw [List.mapM_cons] at h
    obtain ⟨f, hf, h⟩ := Option.bind_eq_some_iff.mp h
    obtain ⟨fs, hfs, h⟩ := Option.bind_eq_some_iff.mp h
    cases h
    obtain ⟨hp, rfl⟩ := serialize_eq_some hf
    obtain ⟨rfl, hrest⟩ := ih hfs
    refine ⟨rfl, fun q hq => ?_⟩
    rcases List.mem_cons.mp hq with rfl | hq
    · exact hp
    · exact hrest q hq

/-- The read loop does not see where `recv` cuts the stream: its outcome is that of the stream in
one piece and equals the reference. On a concatenation of serialized packets with every ACK sent,
each packet is queued and acknowledged once and nothing is left over. -/
theorem readLoop_chunk_independent (ackOk : ℕ → Bool) (cs : List (Chunk tempSize)) :
    let stream := (cs.map Chunk.bytes).flatten
    let final := (readLoop ackOk .fresh (cs.map ReadyEvent.ofChunk)).outcome
    final = (onePiece ackOk stream).outcome ∧ final = reference ackOk stream ∧
    ∀ (ps : List Packet) (frames : List (List UInt8)),
      ps.mapM (fun p => serialize p none) = some frames → stream = frames.flatten →
      (∀ i, ackOk i = true) →
      final = ⟨ps.map Packet.sent, (ps.map Packet.sent).map ackFor, false, []⟩ ∧
      ((∀ p ∈ ps, p.WellSized) → final.queued = ps) := by
  intro stream final
  have hone : final = (onePiece ackOk stream).outcome := by
    rw [outcome_eq_of_session, ← readLoop_eq_onePiece]
    rfl
  have href : final = reference ackOk stream := hone.trans (onePiece_reference ackOk stream)
  refine ⟨hone, href, fun ps frames hser hstream hack => ?_⟩
  obtain ⟨rfl, hps⟩ := serialize_all hser
  rw [href, hstream, reference_wire hack hps]
  refine ⟨rfl, fun hwell => ?_⟩
  exact (List.map_congr_left fun p hp => Packet.sent_eq (hwell p hp)).trans (List.map_id' ps)

end GramsTof.CommandClient
