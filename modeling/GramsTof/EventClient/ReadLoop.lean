import GramsTof.CommandClient.Teardown

/-! The read loop of the event client. It parses what one `recv` returns and throws
away what the parse leaves over, and it closes the connection in the same cases as
the command client, framing apart. -/

namespace GramsTof.EventClient

open Codec Lib Net
open CommandClient (ReadyEvent calmPieces calmStream lastEvent)

/-- `buffer_size` of `run`. -/
def bufferSize : ℕ := 1024

/-- What the loop keeps for one connection, with the packets handed to `handler_`, oldest first. -/
structure ReadState where
  readBuffer : List UInt8
  handled : List Packet
  active : Bool

/-- A connection just established. -/
def ReadState.fresh : ReadState := ⟨[], [], true⟩

/-- One iteration of the read loop after `epoll_pwait` reported the connection. -/
def onReady (hup err : Bool) (r : RecvResult tempSize) (s : ReadState) : ReadState :=
  let (n, buffer, readBuffer) := Client.recvData bufferSize s.readBuffer r
  if n ≤ 0 ∨ hup ∨ err then
    -- `client.closeFD()`, which clears `readBuffer_`, and `hubConnection_.reset()`
    { s with readBuffer := [], active := false }
  else
    match accepted buffer with
    | some pkt => { s with readBuffer := readBuffer, handled := s.handled ++ [pkt] }
    | none => { s with readBuffer := readBuffer }

def onEvent (s : ReadState) (ev : ReadyEvent) : ReadState := onReady ev.hup ev.err ev.recv s

/-- The read loop on the events of one connection; it ends with the connection. -/
def readLoop (s : ReadState) (evs : List ReadyEvent) : ReadState :=
  evs.foldl (guarded ReadState.active onEvent) s

/-! ### One event -/

theorem onEvent_ofChunk {s : ReadState} (hs : s.readBuffer = []) (c : Chunk tempSize) :
    onEvent s (.ofChunk c) = { s with handled := s.handled ++ (accepted c.bytes).toList } := by
  have hpos := c.pos
  have hdata := Client.recvData_data bufferSize le_rfl c
  obtain ⟨readBuffer, handled, active⟩ := s
  cases hs
  simp only [onEvent, onReady, ReadyEvent.ofChunk, hdata, Bool.false_eq_true, or_false]
  rw [if_neg (by omega)]
  cases accepted c.bytes <;> simp

theorem onEvent_last {s : ReadState} (hs : s.readBuffer = []) {ev : ReadyEvent}
    (h : ev.piece = none) : onEvent s ev = { s with active := false } := by
  have hlost := CommandClient.lost_of_piece_none bufferSize h
  obtain ⟨readBuffer, handled, active⟩ := s
  cases hs
  simp only [onEvent, onReady, if_pos hlost]

/-- Pieces are parsed one by one. -/
theorem readLoop_pieces (cs : List (Chunk tempSize)) {s : ReadState} (hs : s.readBuffer = [])
    (hactive : s.active = true) :
    readLoop s (cs.map ReadyEvent.ofChunk) =
      { s with handled := s.handled ++ (cs.map Chunk.bytes).filterMap accepted } := by
  induction cs generalizing s with
  | nil => simp [readLoop]
  | cons c cs ih =>
    have hstep := onEvent_ofChunk hs c
    change readLoop (guarded ReadState.active onEvent s (.ofChunk c)) (cs.map ReadyEvent.ofChunk) = _
    rw [guarded_live hactive, hstep, ih (by exact hs) (by exact hactive), List.map_cons,
      List.filterMap_cons]
    cases accepted c.bytes <;> simp

/-! ### Why a connection is closed -/

/-- The connection is closed at an event only for cause, and an idle read changes nothing. -/
def ForCause (s : ReadState) (ev : ReadyEvent) : Prop :=
  ((onEvent s ev).active = false → ev.broken = true) ∧ (ev.idle = true → onEvent s ev = s)

theorem forCause_piece {s : ReadState} (hs : s.readBuffer = []) (hactive : s.active = true)
    (c : Chunk tempSize) : ForCause s (.ofChunk c) := by
  refine ⟨fun hclosed => ?_, fun hidle => by cases hidle⟩
  rw [onEvent_ofChunk hs, hactive] at hclosed
  cases hclosed

theorem forCause_last {s : ReadState} (hs : s.readBuffer = []) (hactive : s.active = true)
    {ev : ReadyEvent} (h : ev.piece = none) : ForCause s ev ↔ ev.idle = false := by
  have hclosed : (onEvent s ev).active = false := by rw [onEvent_last hs h]
  -- nothing but a broken connection counts here
  simpa only [ForCause, or_false] using CommandClient.closed_forCause_iff h hactive hclosed False

/-- The event client closes its connection for cause exactly when the event that ends it is not an
idle read. -/
theorem forCause_iff (evs : List ReadyEvent) :
    AtEachStep ReadState.active onEvent ForCause .fresh evs ↔
      ∀ ev ∈ lastEvent evs, ev.idle = false := by
  have hrun := readLoop_pieces (calmPieces evs) (s := .fresh) rfl rfl
  rw [atEachStep_iff_lead (I := fun s => s.readBuffer = []) ReadyEvent.ofChunk_of_piece ?_
    (fun s ev hs hev => by rw [onEvent_last hs hev]) rfl hrun]
  · refine forall₂_congr fun ev hev => ?_
    rw [forCause_last rfl rfl (lead_rest hev)]
    exact forall_prop_of_true rfl
  · intro s c hs hactive
    refine ⟨forCause_piece hs hactive c, ?_⟩
    rw [onEvent_ofChunk hs]
    exact hs

/-- Each client closes its connection only for cause and survives an idle read exactly when no idle
read ends what comes before the first real end. -/
theorem closed_for_cause_iff (ackOk : ℕ → Bool) (evs : List ReadyEvent) :
    (AtEachStep CommandClient.ReadState.active
        (fun s ev => CommandClient.onReady ackOk ev.hup ev.err ev.recv s)
        (CommandClient.ForCause ackOk) .fresh evs ↔
      ∀ ev ∈ lastEvent evs,
        (CommandClient.reference ackOk (calmStream evs)).closed = true ∨ ev.idle = false) ∧
    (AtEachStep ReadState.active onEvent ForCause .fresh evs ↔
      ∀ ev ∈ lastEvent evs, ev.idle = false) :=
  ⟨CommandClient.forCause_iff ackOk evs, forCause_iff evs⟩

/-- The first bytes of a packet, and then a read that finds nothing. -/
def partialThenIdle : List ReadyEvent :=
  [.ofChunk ⟨[0xEB, 0x90, 0x5B, 0x6A], by decide, by decide⟩, ⟨false, false, .wouldBlock⟩]

theorem not_for_cause_partialThenIdle :
    ¬ AtEachStep CommandClient.ReadState.active
        (fun s ev => CommandClient.onReady (fun _ => true) ev.hup ev.err ev.recv s)
        (CommandClient.ForCause fun _ => true) .fresh partialThenIdle ∧
    ¬ AtEachStep ReadState.active onEvent ForCause .fresh partialThenIdle := by
  have hlast : lastEvent partialThenIdle = some ⟨false, false, .wouldBlock⟩ := rfl
  have hcalm : calmStream partialThenIdle = [0xEB, 0x90, 0x5B, 0x6A] := rfl
  have hcut := CommandClient.commandFraming.cut_of_none
    (CommandClient.first_eq_none (show (calmStream partialThenIdle).length < 14 by decide))
  rw [CommandClient.forCause_iff, forCause_iff, hlast]
  simp [CommandClient.reference, hcut, CommandClient.honoured, ReadyEvent.idle]

end GramsTof.EventClient
