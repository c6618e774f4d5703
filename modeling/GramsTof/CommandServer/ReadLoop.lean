import GramsTof.EventClient.ReadLoop

/-! The read loops that parse one `recv` buffer at a time: the event client, and the
command server, whose ACK is built without the argument that it counts. Neither
hands over what a stream carries unless the stream is cut between its packets. -/

namespace GramsTof.CommandServer

open Codec Lib Net
open CommandClient (ReadyEvent)

/-- `buffer_size` of `run`. -/
def bufferSize : ℕ := 1024

/-- What the loop keeps for one client, with the packets handed to `handler_`, oldest first. -/
structure ReadState where
  readBuffer : List UInt8
  handled : List Packet
  active : Bool

/-- A client just accepted. -/
def ReadState.fresh : ReadState := ⟨[], [], true⟩

/-- `ackPkt`, with the code of an ACK and its arguments cleared. -/
def ackPkt : Packet := { code := 0x5FFF, argc := 1, argv := [] }

/-- One event of the client; no result when `serialize` reads outside `argv`, which is before the
packet is handed over. -/
def onReady (hup err : Bool) (r : RecvResult tempSize) (s : ReadState) : Option ReadState :=
  let (n, buffer, readBuffer) := Client.recvData bufferSize s.readBuffer r
  if n ≤ 0 ∨ hup ∨ err then some { s with readBuffer := [], active := false }
  else
    match accepted buffer with
    | some pkt => do
      let _ ← serialize ackPkt none
      some { s with readBuffer := readBuffer, handled := s.handled ++ [pkt] }
    | none => some { s with readBuffer := readBuffer }

/-- The loop on the events of one client; it ends with the connection. -/
def readLoop (s : ReadState) (evs : List ReadyEvent) : Option ReadState :=
  evs.foldlM (fun s ev => if s.active then onReady ev.hup ev.err ev.recv s else some s) s

/-! ### The command server -/

theorem serialize_ackPkt : serialize ackPkt none = none := by
  rw [serialize_eq_ite, if_neg (by decide)]

theorem onReady_ofChunk {s : ReadState} (hs : s.readBuffer = []) (c : Chunk tempSize) :
    onReady false false (.data c) s = if (accepted c.bytes).isSome then none else some s := by
  have hpos := c.pos
  have hdata := Client.recvData_data bufferSize le_rfl c
  obtain ⟨readBuffer, handled, active⟩ := s
  cases hs
  simp only [onReady, hdata, Bool.false_eq_true, or_false]
  rw [if_neg (by omega)]
  cases accepted c.bytes with
  | none => rfl
  | some pkt => simp [serialize_ackPkt]

/-- It gets through a list of pieces only when none of them parses, and then hands nothing over. -/
theorem readLoop_pieces (cs : List (Chunk tempSize)) :
    readLoop .fresh (cs.map ReadyEvent.ofChunk) =
      if ∃ c ∈ cs, (accepted c.bytes).isSome then none else some .fresh := by
  induction cs with
  | nil => simp [readLoop]
  | cons c cs ih =>
    rw [readLoop, List.map_cons, List.foldlM_cons]
    change (onReady false false (.data c) .fresh).bind
      (fun s => readLoop s (cs.map ReadyEvent.ofChunk)) = _
    rw [onReady_ofChunk rfl]
    by_cases hc : (accepted c.bytes).isSome
    · simp [hc]
    · simp [hc, ih]

/-! ### Packets against pieces -/

theorem wire_prefix_of_accepted {b : List UInt8} {p : Packet} (h : accepted b = some p) :
    wire p <+: b := (accepted_eq_some_iff.mp h).2

/-- The packets found at the front of the pieces take up no more than these. -/
theorem length_wires_le (bs : List (List UInt8)) :
    ((bs.filterMap accepted).map wire).flatten.length ≤ bs.flatten.length := by
  induction bs with
  | nil => rfl
  | cons b bs ih =>
    rw [List.filterMap_cons, List.flatten_cons, List.length_append]
    cases hb : accepted b with
    | none => exact ih.trans (Nat.le_add_left _ _)
    | some p =>
      have hle := (wire_prefix_of_accepted hb).length_le
      simp only [List.map_cons, List.flatten_cons, List.length_append]
      omega

/-- They take up all of them only when the pieces are the packets. -/
theorem eq_map_wire {bs : List (List UInt8)} (hne : ∀ b ∈ bs, b ≠ [])
    (h : bs.flatten.length ≤ ((bs.filterMap accepted).map wire).flatten.length) :
    bs = (bs.filterMap accepted).map wire := by
  induction bs with
  | nil => rfl
  | cons b bs ih =>
    have hrest := length_wires_le bs
    have hpos := List.length_pos_iff.mpr (hne b List.mem_cons_self)
    rw [List.filterMap_cons] at h ⊢
    cases hb : accepted b with
    | none =>
      simp only [hb, List.flatten_cons, List.length_append] at h
      omega
    | some p =>
      have hpre := wire_prefix_of_accepted hb
      have hle := hpre.length_le
      simp only [hb, List.map_cons, List.flatten_cons, List.length_append] at h ⊢
      rw [← hpre.eq_of_length (by omega), ← ih (fun x hx => hne x (List.mem_cons_of_mem _ hx))
        (by omega)]

section Stream

variable {ps : List Packet} {frames : List (List UInt8)} {cs : List (Chunk tempSize)}

theorem pieces_ne_nil (cs : List (Chunk tempSize)) : ∀ b ∈ cs.map Chunk.bytes, b ≠ [] := by
  intro b hb
  obtain ⟨c, -, rfl⟩ := List.mem_map.mp hb
  exact List.ne_nil_of_length_pos c.pos

theorem event_handled_iff (hser : ps.mapM (fun p => serialize p none) = some frames)
    (hcs : (cs.map Chunk.bytes).flatten = frames.flatten) :
    (EventClient.readLoop .fresh (cs.map ReadyEvent.ofChunk)).handled = ps.map Packet.sent ↔
      cs.map Chunk.bytes = frames := by
  obtain ⟨rfl, hps⟩ := CommandClient.serialize_all hser
  rw [EventClient.readLoop_pieces cs rfl rfl]
  constructor
  · intro h
    change (cs.map Chunk.bytes).filterMap accepted = ps.map Packet.sent at h
    rw [← h] at hcs ⊢
    exact eq_map_wire (pieces_ne_nil cs) (by rw [hcs])
  · intro h
    rw [h]
    exact CommandClient.filterMap_accepted_wire hps

theorem server_handled_iff (hser : ps.mapM (fun p => serialize p none) = some frames)
    (hcs : (cs.map Chunk.bytes).flatten = frames.flatten) :
    (∃ s, readLoop .fresh (cs.map ReadyEvent.ofChunk) = some s ∧ s.handled = ps.map Packet.sent) ↔
      ps = [] := by
  obtain ⟨rfl, -⟩ := CommandClient.serialize_all hser
  rw [readLoop_pieces]
  constructor
  · rintro ⟨s, hs, hhandled⟩
    split_ifs at hs
    cases hs
    exact List.map_eq_nil_iff.mp hhandled.symm
  · rintro rfl
    have hnil : cs = [] := by
      cases cs with
      | nil => rfl
      | cons c cs =>
        rw [List.map_cons, List.flatten_cons] at hcs
        exact absurd (List.append_eq_nil_iff.mp hcs).1 (List.ne_nil_of_length_pos c.pos)
    rw [hnil, if_neg (by simp)]
    exact ⟨_, rfl, rfl⟩

/-- On a stream of packets the event client hands them over exactly when every `recv` returns one
whole packet; the command server only when there are none. -/
theorem handed_over_iff (hser : ps.mapM (fun p => serialize p none) = some frames)
    (hcs : (cs.map Chunk.bytes).flatten = frames.flatten) :
    ((EventClient.readLoop .fresh (cs.map ReadyEvent.ofChunk)).handled = ps.map Packet.sent ↔
      cs.map Chunk.bytes = frames) ∧
    ((∃ s, readLoop .fresh (cs.map ReadyEvent.ofChunk) = some s ∧
        s.handled = ps.map Packet.sent) ↔ ps = []) :=
  ⟨event_handled_iff hser hcs, server_handled_iff hser hcs⟩

end Stream

def heartBeat : Packet := ⟨0xFFFF, 0, []⟩

theorem heartBeat_serialize : serialize heartBeat none = some (wire heartBeat) :=
  serialize_eq_wire rfl

/-- Two packets that arrive together. -/
def together : Chunk tempSize := ⟨wire heartBeat ++ wire heartBeat, by decide, by decide⟩

theorem handed_over_together :
    ((EventClient.readLoop .fresh ([together].map ReadyEvent.ofChunk)).handled =
        [heartBeat, heartBeat].map Packet.sent ↔
      [together].map Chunk.bytes = [wire heartBeat, wire heartBeat]) ∧
    ((∃ s, readLoop .fresh ([together].map ReadyEvent.ofChunk) = some s ∧
        s.handled = [heartBeat, heartBeat].map Packet.sent) ↔ [heartBeat, heartBeat] = []) :=
  handed_over_iff (by simp [heartBeat_serialize]) (by simp [together])

theorem not_handed_over_together :
    (EventClient.readLoop .fresh ([together].map ReadyEvent.ofChunk)).handled ≠
        [heartBeat, heartBeat].map Packet.sent ∧
    ¬ ∃ s, readLoop .fresh ([together].map ReadyEvent.ofChunk) = some s ∧
        s.handled = [heartBeat, heartBeat].map Packet.sent := by
  have hser : [heartBeat, heartBeat].mapM (fun p => serialize p none) =
      some [wire heartBeat, wire heartBeat] := by simp [heartBeat_serialize]
  have hcs : ([together].map Chunk.bytes).flatten = [wire heartBeat, wire heartBeat].flatten := by
    simp [together]
  rw [Ne, event_handled_iff hser hcs, server_handled_iff hser hcs]
  simp

end GramsTof.CommandServer
