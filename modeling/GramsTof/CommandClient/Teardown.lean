import GramsTof.CommandClient.Reference
import GramsTof.Lib.Guarded

/-! The end of a connection. An event that brings no bytes, or a hang-up or an error
with them, closes it at once: bytes read together with the hang-up are dropped, and
a read that found nothing is taken for the end of the stream. -/

namespace GramsTof.CommandClient

open Codec Lib Net

/-- The bytes of an event that is nothing but bytes arriving. -/
def ReadyEvent.piece : ReadyEvent → Option (Chunk tempSize)
  | ⟨false, false, .data c⟩ => some c
  | _ => none

/-- The bytes that `recv` returns, whatever is reported with them. -/
def ReadyEvent.bytes (ev : ReadyEvent) : List UInt8 :=
  match ev.recv with
  | .data c => c.bytes
  | _ => []

/-- The pieces received before the first event that is more or less than bytes. -/
def calmPieces (evs : List ReadyEvent) : List (Chunk tempSize) := (lead ReadyEvent.piece evs).1

/-- That first other event. -/
def lastEvent (evs : List ReadyEvent) : Option ReadyEvent := (lead ReadyEvent.piece evs).2.head?

def calmStream (evs : List ReadyEvent) : List UInt8 := ((calmPieces evs).map Chunk.bytes).flatten

/-- All that `recv` returns until the connection is torn down. -/
def received (evs : List ReadyEvent) : List UInt8 :=
  calmStream evs ++ ((lastEvent evs).map ReadyEvent.bytes).getD []

theorem ReadyEvent.ofChunk_of_piece (ev : ReadyEvent) (c : Chunk tempSize)
    (h : ev.piece = some c) : ReadyEvent.ofChunk c = ev := by
  obtain ⟨hup, err, recv⟩ := ev
  cases hup <;> cases err <;> cases recv <;> simp_all [piece, ofChunk]

/-! ### The event that ends a connection -/

theorem recvData_nonpos (size : ℕ) {r : RecvResult tempSize} (h : ∀ c, r ≠ .data c) :
    (Client.recvData size [] r).1 ≤ 0 := by
  cases r with
  | data c => exact absurd rfl (h c)
  | eof => simp [Client.recvData, FDManager.recvData, copyOut]
  | wouldBlock => simp [Client.recvData, FDManager.recvData, copyOut]
  | interrupted => simp [Client.recvData, FDManager.recvData, copyOut]
  | error => simp [Client.recvData, FDManager.recvData, RecvResult.again]
  | absent staleAgain =>
    cases staleAgain <;> simp [Client.recvData, FDManager.recvData, RecvResult.again, copyOut]

/-- The test of the read loops, with nothing in the client's own buffer. -/
theorem lost_of_piece_none (size : ℕ) {ev : ReadyEvent} (h : ev.piece = none) :
    (Client.recvData size [] ev.recv).1 ≤ 0 ∨ ev.hup = true ∨ ev.err = true := by
  obtain ⟨hup, err, recv⟩ := ev
  cases recv with
  | data c => cases hup <;> cases err <;> simp_all [ReadyEvent.piece]
  | _ => exact .inl (recvData_nonpos size (by simp))

/-- It closes the connection and processes nothing. -/
theorem onReady_last (ackOk : ℕ → Bool) {s : ReadState} (hs : Settled s) {ev : ReadyEvent}
    (h : ev.piece = none) :
    onReady ackOk ev.hup ev.err ev.recv s =
      { s with incoming := [], shouldClose := true, active := false } := by
  obtain ⟨readBuffer, incoming, acks, queued, shouldClose, active⟩ := s
  obtain ⟨rfl, -⟩ := hs
  have hlost := lost_of_piece_none bufferSize h
  simp only [onReady, if_pos hlost, teardown, if_true]

theorem readLoop_settled (ackOk : ℕ → Bool) (cs : List (Chunk tempSize)) {s : ReadState}
    (hs : Settled s) : Settled (readLoop ackOk s (cs.map ReadyEvent.ofChunk)) := by
  induction cs generalizing s with
  | nil => exact hs
  | cons c cs ih => exact ih (session_ofChunk ackOk hs c).1

theorem readLoop_guarded (ackOk : ℕ → Bool) (s : ReadState) (evs : List ReadyEvent) :
    readLoop ackOk s evs =
      evs.foldl (guarded ReadState.active fun s ev => onReady ackOk ev.hup ev.err ev.recv s) s := rfl

/-- A connection is its calm pieces and the event that ends it. -/
theorem readLoop_eq (ackOk : ℕ → Bool) (evs : List ReadyEvent) {s : ReadState}
    (hs : readLoop ackOk .fresh ((calmPieces evs).map ReadyEvent.ofChunk) = s) :
    readLoop ackOk .fresh evs =
      match lastEvent evs with
      | none => s
      | some _ =>
        if s.active then { s with incoming := [], shouldClose := true, active := false } else s := by
  have hset : Settled s := by
    rw [← hs]
    exact readLoop_settled ackOk _ settled_fresh
  rw [readLoop_guarded] at hs ⊢
  rw [foldl_guarded_lead _ _ ReadyEvent.ofChunk_of_piece _ s evs hs
    fun _ ev hev => by rw [onReady_last ackOk hset hev], lastEvent]
  cases hlast : (lead ReadyEvent.piece evs).2.head? with
  | none => rfl
  | some ev =>
    have hnone : ev.piece = none := lead_rest hlast
    simp only [guarded, onReady_last ackOk hset hnone]

theorem readLoop_pieces (ackOk : ℕ → Bool) (cs : List (Chunk tempSize)) :
    (readLoop ackOk .fresh (cs.map ReadyEvent.ofChunk)).outcome =
      reference ackOk (cs.map Chunk.bytes).flatten := by
  rw [← onePiece_reference, outcome_eq_of_session, readLoop_eq_onePiece]
  rfl

theorem queued_readLoop (ackOk : ℕ → Bool) (evs : List ReadyEvent) :
    (readLoop ackOk .fresh evs).queued = (reference ackOk (calmStream evs)).queued := by
  rw [readLoop_eq ackOk evs rfl, calmStream, ← readLoop_pieces]
  cases lastEvent evs with
  | none => rfl
  | some ev =>
    simp only
    split_ifs <;> rfl

/-! ### Why a connection is closed -/

/-- A hang-up, an error, the end of the stream, or a descriptor that is gone. -/
def ReadyEvent.broken (ev : ReadyEvent) : Bool :=
  ev.hup || ev.err ||
    match ev.recv with
    | .eof => true
    | .error => true
    | .absent _ => true
    | _ => false

/-- A read that found nothing or was interrupted, with nothing else reported. -/
def ReadyEvent.idle (ev : ReadyEvent) : Bool :=
  !(ev.hup || ev.err) &&
    match ev.recv with
    | .wouldBlock => true
    | .interrupted => true
    | _ => false

/-- A frame that the bytes complete does not parse, or its ACK is not sent. -/
def ReadState.refuses (ackOk : ℕ → Bool) (s : ReadState) (bytes : List UInt8) : Bool :=
  ((commandFraming.cut (s.incoming ++ bytes)).1.zipIdx s.acks.length).any fun x =>
    refused ackOk x.1 x.2

/-- The connection is closed at an event only for cause, and an idle read changes nothing. -/
def ForCause (ackOk : ℕ → Bool) (s : ReadState) (ev : ReadyEvent) : Prop :=
  let s' := onReady ackOk ev.hup ev.err ev.recv s
  (s'.active = false → ev.broken = true ∨ s.refuses ackOk ev.bytes = true) ∧
    (ev.idle = true → s' = s)

theorem idle_eq_not_broken {ev : ReadyEvent} (h : ev.piece = none) : ev.idle = !ev.broken := by
  obtain ⟨hup, err, recv⟩ := ev
  cases hup <;> cases err <;> cases recv <;>
    simp_all [ReadyEvent.piece, ReadyEvent.idle, ReadyEvent.broken]

theorem honoured_lt_iff {ackOk : ℕ → Bool} {fs : List (List UInt8)} {i : ℕ} :
    honoured ackOk fs i < fs.length ↔ ∃ x ∈ fs.zipIdx i, refused ackOk x.1 x.2 = true := by
  rw [honoured, ← List.findIdx_lt_length, List.length_zipIdx]

theorem refuses_eq (ackOk : ℕ → Bool) (s : ReadState) (bytes : List UInt8) :
    s.refuses ackOk bytes =
      (handleAll (onFrame ackOk) (s.acks, s.queued)
        (commandFraming.cut (s.incoming ++ bytes)).1).2 := by
  rw [handleAll_onFrame ackOk fun f => commandFraming.size_of_mem_cut, ReadState.refuses,
    Bool.eq_iff_iff, List.any_eq_true, decide_eq_true_eq, honoured_lt_iff]

/-- Bytes close the connection only by a refused frame. -/
theorem forCause_piece (ackOk : ℕ → Bool) {s : ReadState} (hs : Settled s)
    (hactive : s.active = true) (c : Chunk tempSize) : ForCause ackOk s (.ofChunk c) := by
  obtain ⟨-, hsession⟩ := session_processPackets ackOk hs hactive c.bytes
  refine ⟨fun hclosed => .inr ?_, fun hidle => by cases hidle⟩
  change (onReady ackOk false false (.data c) s).active = false at hclosed
  rw [onReady_ofChunk ackOk hs hactive] at hclosed
  have hlive : (commandFraming.absorb (onFrame ackOk) s.session c.bytes).live = false := by
    rw [← hsession]
    exact hclosed
  rw [Framing.absorb_live _ _ (by exact hactive)] at hlive
  change s.refuses ackOk c.bytes = true
  rw [refuses_eq]
  by_contra hgo
  rw [if_neg (by exact hgo)] at hlive
  cases hlive

/-- An event without a piece that closes the connection has a cause exactly when it is not an idle
read, whatever else would count as one. -/
theorem closed_forCause_iff {σ : Type} {active : σ → Bool} {s s' : σ} {ev : ReadyEvent}
    (h : ev.piece = none) (hbefore : active s = true) (hafter : active s' = false) (Refused : Prop) :
    (active s' = false → ev.broken = true ∨ Refused) ∧ (ev.idle = true → s' = s) ↔
      ev.idle = false := by
  have hidle := idle_eq_not_broken h
  constructor
  · rintro ⟨-, hsame⟩
    by_contra hn
    rw [hsame (by simpa using hn), hbefore] at hafter
    cases hafter
  · intro hn
    refine ⟨fun _ => .inl ?_, fun hi => ?_⟩
    · rw [hn] at hidle
      simpa using hidle.symm
    · rw [hn] at hi
      cases hi

theorem forCause_last (ackOk : ℕ → Bool) {s : ReadState} (hs : Settled s)
    (hactive : s.active = true) {ev : ReadyEvent} (h : ev.piece = none) :
    ForCause ackOk s ev ↔ ev.idle = false := by
  have hclosed : (onReady ackOk ev.hup ev.err ev.recv s).active = false := by
    rw [onReady_last ackOk hs h]
  exact closed_forCause_iff h hactive hclosed _

/-- The command client closes its connection for cause exactly when the event that ends it is not an
idle read, or a refused frame has closed it before. -/
theorem forCause_iff (ackOk : ℕ → Bool) (evs : List ReadyEvent) :
    AtEachStep ReadState.active (fun s ev => onReady ackOk ev.hup ev.err ev.recv s) (ForCause ackOk)
        .fresh evs ↔
      ∀ ev ∈ lastEvent evs,
        (reference ackOk (calmStream evs)).closed = true ∨ ev.idle = false := by
  have hset := readLoop_settled ackOk (calmPieces evs) settled_fresh
  have hclosed : (!(readLoop ackOk .fresh ((calmPieces evs).map ReadyEvent.ofChunk)).active) =
      (reference ackOk (calmStream evs)).closed :=
    congrArg Outcome.closed (readLoop_pieces ackOk (calmPieces evs))
  generalize ht : readLoop ackOk .fresh ((calmPieces evs).map ReadyEvent.ofChunk) = t
    at hset hclosed
  rw [readLoop_guarded] at ht
  rw [atEachStep_iff_lead (I := Settled) ReadyEvent.ofChunk_of_piece ?_
    (fun s ev hs hev => by rw [onReady_last ackOk hs hev]) settled_fresh ht]
  · refine forall₂_congr fun ev hev => ?_
    rw [← hclosed]
    cases hactive : t.active with
    | false => simp
    | true => simp [forCause_last ackOk hset hactive (lead_rest hev)]
  · intro s c hs hactive
    have hstep := (session_ofChunk ackOk hs c).1
    rw [if_pos hactive] at hstep
    exact ⟨forCause_piece ackOk hs hactive c, hstep⟩

/-! ### What is lost at the end -/

theorem honoured_append (ackOk : ℕ → Bool) (fs gs : List (List UInt8)) (i : ℕ) :
    honoured ackOk (fs ++ gs) i =
      if honoured ackOk fs i < fs.length then honoured ackOk fs i
      else honoured ackOk gs (i + fs.length) + fs.length := by
  rw [honoured, List.zipIdx_append, List.findIdx_append, List.length_zipIdx]
  rfl

theorem honoured_le (ackOk : ℕ → Bool) (fs : List (List UInt8)) (i : ℕ) :
    honoured ackOk fs i ≤ fs.length := by
  have : honoured ackOk fs i ≤ (fs.zipIdx i).length := List.findIdx_le_length
  rwa [List.length_zipIdx] at this

theorem honoured_eq_zero_iff {ackOk : ℕ → Bool} {fs : List (List UInt8)} {i : ℕ} :
    honoured ackOk fs i = 0 ↔ ∀ f ∈ fs.head?, refused ackOk f i = true := by
  cases fs with
  | nil => simp [honoured]
  | cons f fs =>
    rw [honoured_cons]
    cases hrefused : refused ackOk f i <;> simp [hrefused]

/-- Every frame before the first refused one gives a packet. -/
theorem length_queued (ackOk : ℕ → Bool) (fs : List (List UInt8)) (i : ℕ) :
    ((fs.take (honoured ackOk fs i)).filterMap accepted).length = honoured ackOk fs i := by
  induction fs generalizing i with
  | nil => rfl
  | cons f fs ih =>
    rw [honoured_cons]
    cases hrefused : refused ackOk f i with
    | true => simp
    | false =>
      obtain ⟨p, hp⟩ : ∃ p, accepted f = some p := by
        rw [refused, Bool.or_eq_false_iff] at hrefused
        exact Option.isSome_iff_exists.mp (by simpa using hrefused.1)
      simp [hp, ih]

/-- Bytes after a stream add no packet exactly when the stream has closed the connection, or they
complete no frame, or the first one they complete is refused. -/
theorem reference_queued_append_iff (ackOk : ℕ → Bool) (stream tail : List UInt8) :
    (reference ackOk (stream ++ tail)).queued = (reference ackOk stream).queued ↔
      (reference ackOk stream).closed = true ∨
        ∀ f ∈ (commandFraming.cut ((commandFraming.cut stream).2 ++ tail)).1.head?,
          refused ackOk f (commandFraming.cut stream).1.length = true := by
  simp only [reference, commandFraming.cut_append stream tail, honoured_append, zero_add]
  generalize (commandFraming.cut stream).1 = fs
  generalize (commandFraming.cut ((commandFraming.cut stream).2 ++ tail)).1 = gs
  by_cases hclosed : honoured ackOk fs 0 < fs.length
  · rw [if_pos hclosed, List.take_append_of_le_length hclosed.le]
    simp [hclosed]
  · have hall : honoured ackOk fs 0 = fs.length := by
      have := honoured_le ackOk fs 0
      omega
    rw [if_neg hclosed, hall, Nat.add_comm, List.take_length_add_append, List.filterMap_append,
      List.take_length, List.append_right_eq_self, ← List.length_eq_zero_iff, length_queued,
      honoured_eq_zero_iff]
    simp

/-- Everything received is queued exactly when the bytes of the last event, read with a hang-up or an
error, add no packet: the connection is closed before them, or they complete no frame that parses
and whose ACK is sent. -/
theorem queued_received_iff (ackOk : ℕ → Bool) (evs : List ReadyEvent) :
    (readLoop ackOk .fresh evs).queued = (reference ackOk (received evs)).queued ↔
      ∀ ev ∈ lastEvent evs, (reference ackOk (calmStream evs)).closed = true ∨
        ∀ f ∈ (commandFraming.cut ((commandFraming.cut (calmStream evs)).2 ++ ev.bytes)).1.head?,
          refused ackOk f (commandFraming.cut (calmStream evs)).1.length = true := by
  rw [queued_readLoop, received]
  cases hlast : lastEvent evs with
  | none => simp
  | some ev =>
    rw [Option.map_some, Option.getD_some, eq_comm, reference_queued_append_iff]
    simp

def stopCommand : Packet := ⟨0x5001, 0, []⟩

/-- The hub sends a command and closes: both are reported at once. -/
def sentAndClosed : ReadyEvent := ⟨true, false, .data ⟨wire stopCommand, by decide, by decide⟩⟩

theorem not_queued_sentAndClosed :
    ¬ (readLoop (fun _ => true) .fresh [sentAndClosed]).queued =
      (reference (fun _ => true) (received [sentAndClosed])).queued := by
  have hcalm : calmStream [sentAndClosed] = (([] : List Packet).map wire).flatten := rfl
  have hreceived : received [sentAndClosed] = ([stopCommand].map wire).flatten := by
    rw [List.map_singleton, List.flatten_singleton]
    rfl
  have hwell : ∀ p ∈ [stopCommand], p.WellSized := fun p hp => by
    rw [List.mem_singleton.mp hp]
    rfl
  rw [queued_readLoop, hcalm, hreceived, reference_wire (fun _ => rfl) (by simp),
    reference_wire (fun _ => rfl) hwell]
  simp

end GramsTof.CommandClient
