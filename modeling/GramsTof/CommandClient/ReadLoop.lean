import GramsTof.Codec.Canonical
import GramsTof.Lib.Framing
import GramsTof.Net.Recv

/-! The read loop of one hub connection. Bytes from `recv` are appended to
`incoming_buffer`; complete packets are taken off its front, acknowledged and
queued. -/

namespace GramsTof.CommandClient

open Codec Lib Net

def minPacketSize : ℕ := 14

/-- The `MAX_ARGC` of the read loop. -/
def maxArgc : ℕ := 0xFFFF

/-- `buffer_size` of `run`. -/
def bufferSize : ℕ := 1024

/-- What the read loop keeps for one connection, with the record of what it has done: the ACK
packets it tried to send and the packets it queued, oldest first. -/
structure ReadState where
  readBuffer : List UInt8
  incoming : List UInt8
  acks : List Packet
  queued : List Packet
  shouldClose : Bool
  active : Bool

/-- A connection just established. -/
def ReadState.fresh : ReadState := ⟨[], [], [], [], false, true⟩

/-- `ackPkt`. -/
def ackFor (pkt : Packet) : Packet :=
  { code := pkt.code, argc := 1, argv := [UInt32.ofNat (getPacketSize pkt)] }

/-- `argc` as peeked at byte offset 6 of the buffer. -/
def peekArgc (buf : List UInt8) : UInt16 := pack16 (buf.getD 6 0) (buf.getD 7 0)

/-- The body of the packet loop; the flag is false when it leaves the loop by `break`. `ackOk i`
tells whether the `i`-th ACK of this connection is sent. -/
def packetBody (ackOk : ℕ → Bool) (s : ReadState) : ReadState × Bool :=
  let argc := peekArgc s.incoming
  if argc.toNat > maxArgc then ({ s with shouldClose := true }, false)
  else
    let expectedSize := minPacketSize + argc.toNat * 4
    if s.incoming.length < expectedSize then (s, false)
    else
      let packetData := s.incoming.take expectedSize
      let s' := { s with incoming := s.incoming.drop expectedSize }
      match accepted packetData with
      | none => ({ s' with shouldClose := true }, false)
      | some pkt =>
        if ackOk s.acks.length then
          ({ s' with acks := s.acks ++ [ackFor pkt], queued := s.queued ++ [pkt] }, true)
        else ({ s' with acks := s.acks ++ [ackFor pkt], shouldClose := true }, false)

theorem packetBody_shrinks {ackOk : ℕ → Bool} {s : ReadState}
    (hmin : minPacketSize ≤ s.incoming.length) (h : (packetBody ackOk s).2 = true) :
    (packetBody ackOk s).1.incoming.length < s.incoming.length := by
  rw [minPacketSize] at hmin
  simp only [packetBody] at h ⊢
  cases hacc : accepted (s.incoming.take (minPacketSize + (peekArgc s.incoming).toNat * 4)) <;>
    simp only [hacc] at h ⊢ <;> split_ifs at h ⊢
  simp only [List.length_drop, minPacketSize]
  omega

/-- Process all complete packets currently in the buffer. -/
def processPackets (ackOk : ℕ → Bool) (s : ReadState) : ReadState :=
  if _hmin : minPacketSize ≤ s.incoming.length then
    if _hnext : (packetBody ackOk s).2 then processPackets ackOk (packetBody ackOk s).1
    else (packetBody ackOk s).1
  else s
termination_by s.incoming.length
decreasing_by exact packetBody_shrinks _hmin _hnext

/-- The teardown at the end of an iteration. -/
def teardown (s : ReadState) : ReadState :=
  if s.shouldClose then { s with readBuffer := [], incoming := [], active := false } else s

theorem teardown_open {s : ReadState} (h : s.shouldClose = false) : teardown s = s := by
  rw [teardown, h]
  rfl

/-- One iteration of the read loop after `epoll_pwait` reported the connection. -/
def onReady (ackOk : ℕ → Bool) (hup err : Bool) (r : RecvResult tempSize) (s : ReadState) :
    ReadState :=
  let (nRead, bytes, readBuffer) := Client.recvData bufferSize s.readBuffer r
  let s := { s with readBuffer := readBuffer, shouldClose := false }
  teardown <|
    if nRead ≤ 0 ∨ hup ∨ err then { s with shouldClose := true }
    else processPackets ackOk { s with incoming := s.incoming ++ bytes }

/-- One epoll event: its hang-up and error flags and the `recv` that follows. -/
structure ReadyEvent where
  hup : Bool
  err : Bool
  recv : RecvResult tempSize

/-- The read loop on the events of one connection; it ends with the connection. -/
def readLoop (ackOk : ℕ → Bool) (s : ReadState) (evs : List ReadyEvent) : ReadState :=
  evs.foldl (fun s ev => if s.active then onReady ackOk ev.hup ev.err ev.recv s else s) s

/-- The event of bytes arriving. -/
def ReadyEvent.ofChunk (c : Chunk tempSize) : ReadyEvent := ⟨false, false, .data c⟩

/-- Append a whole stream at once and process it. -/
def onePiece (ackOk : ℕ → Bool) (stream : List UInt8) : ReadState :=
  teardown (processPackets ackOk { ReadState.fresh with incoming := stream })

/-! ### Frames -/

theorem peekArgc_append {b : List UInt8} (h : minPacketSize ≤ b.length) (t : List UInt8) :
    peekArgc (b ++ t) = peekArgc b := by
  rw [minPacketSize] at h
  rw [peekArgc, peekArgc, List.getD_append _ _ _ _ (by omega), List.getD_append _ _ _ _ (by omega)]

/-- Command frames announce `14 + 4 * argc` bytes, `argc` being bytes 6 and 7. -/
def commandFraming : Framing UInt8 where
  size b := if minPacketSize ≤ b.length then some (minPacketSize + (peekArgc b).toNat * 4) else none
  size_pos h := by
    split_ifs at h
    cases h
    rw [minPacketSize]
    omega
  size_append h t := by
    split_ifs at h with hb
    cases h
    rw [if_pos (by rw [List.length_append]; omega), peekArgc_append hb]
  size_take {b n} h hn := by
    split_ifs at h with hb
    have hmin : minPacketSize ≤ n := by cases h; omega
    have hpeek := peekArgc_append (b := b.take n) (by rw [List.length_take]; omega) (b.drop n)
    rw [List.take_append_drop] at hpeek
    rw [if_pos (by rw [List.length_take]; omega), ← hpeek]
    exact h

/-! ### The loop handles frame after frame -/

/-- One frame: ACK and queue it, or ask to stop. The state holds the ACKs tried and the packets
queued. -/
def onFrame (ackOk : ℕ → Bool) (s : List Packet × List Packet) (f : List UInt8) :
    (List Packet × List Packet) × Bool :=
  match accepted f with
  | none => (s, true)
  | some pkt =>
    if ackOk s.1.length then ((s.1 ++ [ackFor pkt], s.2 ++ [pkt]), false)
    else ((s.1 ++ [ackFor pkt], s.2), true)

theorem argc_not_gt_maxArgc (argc : UInt16) : ¬ argc.toNat > maxArgc := by
  have := argc.toNat_lt
  rw [maxArgc]
  omega

theorem first_eq_none {b : List UInt8} (h : b.length < minPacketSize) :
    commandFraming.first b = none := by
  simp [Framing.first, commandFraming, Nat.not_le.mpr h]

theorem first_eq_ite {b : List UInt8} (h : minPacketSize ≤ b.length) :
    commandFraming.first b =
      if b.length < minPacketSize + (peekArgc b).toNat * 4 then none
      else some (minPacketSize + (peekArgc b).toNat * 4) := by
  simp only [Framing.first, commandFraming, if_pos h, Option.filter_some, decide_eq_true_eq]
  split_ifs <;> first | rfl | omega

theorem packetBody_short {ackOk : ℕ → Bool} {s : ReadState}
    (hmin : minPacketSize ≤ s.incoming.length) (h : commandFraming.first s.incoming = none) :
    packetBody ackOk s = (s, false) := by
  rw [first_eq_ite hmin] at h
  rw [packetBody, if_neg (argc_not_gt_maxArgc _), if_pos (by by_contra hn; simp [hn] at h)]

theorem packetBody_frame (ackOk : ℕ → Bool) {s : ReadState} {n : ℕ}
    (h : commandFraming.first s.incoming = some n) :
    let r := onFrame ackOk (s.acks, s.queued) (s.incoming.take n)
    packetBody ackOk s =
      ({ s with incoming := s.incoming.drop n, acks := r.1.1, queued := r.1.2,
                shouldClose := s.shouldClose || r.2 }, !r.2) := by
  have hmin : minPacketSize ≤ s.incoming.length := by
    by_contra hn
    rw [first_eq_none (Nat.not_le.mp hn)] at h
    cases h
  rw [first_eq_ite hmin] at h
  split_ifs at h with hlen
  cases h
  simp only [packetBody, if_neg (argc_not_gt_maxArgc _), if_neg hlen, onFrame]
  cases accepted (s.incoming.take (minPacketSize + (peekArgc s.incoming).toNat * 4)) with
  | none => simp
  | some pkt => by_cases hack : ackOk s.acks.length <;> simp [hack]

/-- The inner loop cuts the buffer and handles the frames; a frame that stops it closes the
connection, otherwise the residue stays in the buffer. -/
theorem teardown_processPackets (ackOk : ℕ → Bool) (s : ReadState) (hs : s.shouldClose = false) :
    let fs := commandFraming.cut s.incoming
    let r := handleAll (onFrame ackOk) (s.acks, s.queued) fs.1
    teardown (processPackets ackOk s) =
      if r.2 then { s with readBuffer := [], incoming := [], acks := r.1.1, queued := r.1.2,
                           shouldClose := true, active := false }
      else { s with incoming := fs.2, acks := r.1.1, queued := r.1.2 } := by
  induction s using processPackets.induct ackOk with
  | case1 s hmin hnext ih =>
    cases hfirst : commandFraming.first s.incoming with
    | none => rw [packetBody_short hmin hfirst] at hnext; cases hnext
    | some n =>
      have hbody := packetBody_frame ackOk hfirst
      simp only at hbody
      rw [hbody] at hnext ih
      rw [Bool.not_eq_true'] at hnext
      simp only [hs, hnext, Bool.false_or] at ih
      rw [processPackets, dif_pos hmin, dif_pos (by rw [hbody, hnext]; rfl), hbody]
      simp only [hs, hnext, Bool.or_false]
      rw [ih trivial, Framing.cut_of_some _ hfirst]
      simp only [handleAll_cons, hnext, Bool.false_eq_true, if_false]
  | case2 s hmin hnext =>
    rw [processPackets, dif_pos hmin, dif_neg hnext]
    cases hfirst : commandFraming.first s.incoming with
    | none =>
      rw [packetBody_short hmin hfirst, Framing.cut_of_none _ hfirst]
      exact teardown_open hs
    | some n =>
      have hbody := packetBody_frame ackOk hfirst
      simp only at hbody
      rw [hbody] at hnext ⊢
      simp only [Bool.not_eq_true', Bool.not_eq_false] at hnext
      rw [Framing.cut_of_some _ hfirst]
      simp [handleAll_cons, hnext, teardown]
  | case3 s hmin =>
    rw [processPackets, dif_neg hmin, Framing.cut_of_none _ (first_eq_none (Nat.not_le.mp hmin))]
    exact teardown_open hs

/-! ### The loop as a session -/

/-- The read loop's state as a receiving session of the command framing. -/
def ReadState.session (s : ReadState) : Session UInt8 (List Packet × List Packet) :=
  ⟨(s.acks, s.queued), s.incoming, s.active⟩

/-- A connection between two iterations: nothing is left in the client's own buffer. -/
structure Settled (s : ReadState) : Prop where
  readBuffer : s.readBuffer = []
  shouldClose : s.active = true → s.shouldClose = false

theorem settled_fresh : Settled ReadState.fresh := ⟨rfl, fun _ => rfl⟩

/-- Processing the buffer of an open connection is absorbing its last piece. -/
theorem session_processPackets (ackOk : ℕ → Bool) {s : ReadState} (hs : Settled s)
    (hactive : s.active = true) (c : List UInt8) :
    let s' := teardown (processPackets ackOk { s with incoming := s.incoming ++ c })
    Settled s' ∧ s'.session = commandFraming.absorb (onFrame ackOk) s.session c := by
  have htear := teardown_processPackets ackOk { s with incoming := s.incoming ++ c }
    (hs.shouldClose hactive)
  simp only at htear
  rw [htear, Framing.absorb_live _ _ (by exact hactive)]
  by_cases hstop : (handleAll (onFrame ackOk) (s.acks, s.queued)
      (commandFraming.cut (s.incoming ++ c)).1).2 = true
  · rw [if_pos hstop]
    exact ⟨⟨rfl, fun h => by cases h⟩, (if_pos hstop).symm⟩
  · rw [if_neg hstop]
    refine ⟨⟨hs.readBuffer, hs.shouldClose⟩, Eq.trans ?_ (if_neg hstop).symm⟩
    simp only [ReadState.session, hactive]

theorem onReady_ofChunk (ackOk : ℕ → Bool) {s : ReadState} (hs : Settled s)
    (hactive : s.active = true) (c : Chunk tempSize) :
    onReady ackOk false false (.data c) s =
      teardown (processPackets ackOk { s with incoming := s.incoming ++ c.bytes }) := by
  have hpos := c.pos
  have hdata := Client.recvData_data bufferSize le_rfl c
  obtain ⟨readBuffer, incoming, acks, queued, shouldClose, active⟩ := s
  obtain ⟨rfl, hclose⟩ := hs
  cases hclose hactive
  simp only [onReady, hdata, Bool.false_eq_true, or_false]
  rw [if_neg (by omega)]

/-- Bytes arriving are absorbed by the session. -/
theorem session_ofChunk (ackOk : ℕ → Bool) {s : ReadState} (hs : Settled s) (c : Chunk tempSize) :
    let s' := if s.active then onReady ackOk false false (.data c) s else s
    Settled s' ∧ s'.session = commandFraming.absorb (onFrame ackOk) s.session c.bytes := by
  cases hactive : s.active with
  | false =>
    rw [Framing.absorb_dead _ _ (by exact hactive)]
    exact ⟨hs, rfl⟩
  | true =>
    rw [if_pos rfl, onReady_ofChunk ackOk hs hactive]
    exact session_processPackets ackOk hs hactive c.bytes

theorem readLoop_session (ackOk : ℕ → Bool) (cs : List (Chunk tempSize)) {s : ReadState}
    (hs : Settled s) :
    (readLoop ackOk s (cs.map ReadyEvent.ofChunk)).session =
      (cs.map Chunk.bytes).foldl (commandFraming.absorb (onFrame ackOk)) s.session := by
  induction cs generalizing s with
  | nil => rfl
  | cons c cs ih =>
    obtain ⟨hset, hstep⟩ := session_ofChunk ackOk hs c
    rw [List.map_cons, List.map_cons, List.foldl_cons, ← hstep, ← ih hset]
    rfl

theorem onePiece_session (ackOk : ℕ → Bool) (stream : List UInt8) :
    (onePiece ackOk stream).session =
      commandFraming.absorb (onFrame ackOk) ReadState.fresh.session stream :=
  (session_processPackets ackOk settled_fresh rfl stream).2

/-- However the stream is split into pieces, the session ends as if it came at once. -/
theorem readLoop_eq_onePiece (ackOk : ℕ → Bool) (cs : List (Chunk tempSize)) :
    (readLoop ackOk .fresh (cs.map ReadyEvent.ofChunk)).session =
      (onePiece ackOk (cs.map Chunk.bytes).flatten).session := by
  rw [readLoop_session ackOk cs settled_fresh, onePiece_session, Framing.foldl_absorb]
  exact Framing.absorb_nil_of_first _ _ (first_eq_none (by decide))

end GramsTof.CommandClient
