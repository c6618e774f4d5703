import GramsTof.CommandClient.ReadLoop
import GramsTof.Lib.Writes
import GramsTof.Net.FDManager

/-! The ACKs of the read loop as bytes on the connection. Whether an ACK is sent
is what `sendData` returns for it; the loop closes the connection after the first
one that is not. -/

namespace GramsTof.CommandClient

open Codec Lib Net

def ackBytes (ack : Packet) : List UInt8 := (serialize ack none).getD []

/-- `client.sendData` on a serialized ACK: the bytes sent and the value returned. -/
def sendAck (m : FDManager) (fd : ℤ) (rs : List SendResult) (ack : Packet) :
    List UInt8 × Option ℤ :=
  let (client, m) := Client.new fd m
  client.sendData m (ackBytes ack) rs

/-- Whether the `i`-th ACK, with the results `res i`, is sent: all ACKs have one size. An ACK whose
`::send` never returns counts as not sent, nothing coming after it. -/
def ackOk (m : FDManager) (fd : ℤ) (res : ℕ → List SendResult) (i : ℕ) : Bool :=
  (sendAck m fd (res i) (ackFor default)).2.any fun n => 0 < n

theorem sendAck_prefix (m : FDManager) (fd : ℤ) (rs : List SendResult) (ack : Packet) :
    (sendAck m fd rs ack).1 <+: ackBytes ack := Client.sendData_prefix _ _ _ _

/-- The ACKs of a connection as writes, the `i`-th with the results `res i`. -/
def ackWrites (m : FDManager) (fd : ℤ) (res : ℕ → List SendResult) (acks : List Packet) :
    List (Write UInt8) :=
  acks.mapIdx fun i ack => ⟨ackBytes ack, (sendAck m fd (res i) ack).1, sendAck_prefix _ _ _ _⟩

theorem length_ackBytes (pkt : Packet) : (ackBytes (ackFor pkt)).length = 18 := by
  have hwell : (ackFor pkt).WellSized := rfl
  rw [ackBytes, serialize_eq_wire hwell, Option.getD_some, length_wire]
  rfl

/-- A positive return value means that all of the ACK went out. -/
theorem sendAck_complete {m : FDManager} {fd : ℤ} {rs : List SendResult} {p q : Packet}
    (h : (sendAck m fd rs (ackFor p)).2.any (fun n => 0 < n) = true) :
    (sendAck m fd rs (ackFor q)).1 = ackBytes (ackFor q) := by
  have hp := length_ackBytes p
  have hq := length_ackBytes q
  simp only [sendAck, Client.sendData, FDManager.sendToClient] at h ⊢
  split_ifs at h ⊢ with hfd
  · simp at h
  · cases hreg : (Client.new fd m).2.clientFDs (Client.new fd m).1.fd with
    | none => simp [hreg] at h
    | some s =>
      simp only [hreg, SafeFD.sendData] at h ⊢
      split_ifs at h ⊢
      · simp at h
      · rw [sendLoop_snd (Nat.zero_le _)] at h
        rw [sendLoop_fst, List.drop_zero]
        split_ifs at h with hroom hfail
        · exact List.take_of_length_le (by omega)
        · simp at h
        · simp at h

/-! ### Only the last ACK can fail -/

/-- Every ACK but the last was sent, and the last one too when the connection is still `live`. -/
structure AckTrail (ok : ℕ → Bool) (acks : List Packet) (live : Bool) : Prop where
  form : ∀ a ∈ acks, ∃ p, a = ackFor p
  before : ∀ i, i + 1 < acks.length → ok i = true
  all : live = true → ∀ i < acks.length, ok i = true

variable {ok : ℕ → Bool} {acks : List Packet} {live : Bool}

theorem AckTrail.mono {live' : Bool} (h : AckTrail ok acks live) (hl : live' = true → live = true) :
    AckTrail ok acks live' := ⟨h.form, h.before, fun h' => h.all (hl h')⟩

theorem AckTrail.snoc (h : AckTrail ok acks true) (pkt : Packet) :
    AckTrail ok (acks ++ [ackFor pkt]) (ok acks.length) := by
  refine ⟨?_, ?_, ?_⟩
  · intro a ha
    rcases List.mem_append.mp ha with ha | ha
    · exact h.form a ha
    · exact ⟨pkt, List.mem_singleton.mp ha⟩
  · intro i hi
    rw [List.length_append, List.length_singleton] at hi
    exact h.all rfl i (by omega)
  · intro hok i hi
    rw [List.length_append, List.length_singleton] at hi
    rcases Nat.lt_succ_iff_lt_or_eq.mp hi with hi | rfl
    · exact h.all rfl i hi
    · exact hok

theorem packetBody_trail {s : ReadState} (h : AckTrail ok s.acks true) :
    let r := packetBody ok s
    AckTrail ok r.1.acks (r.2 || !r.1.shouldClose) := by
  simp only [packetBody]
  cases accepted (s.incoming.take (minPacketSize + (peekArgc s.incoming).toNat * 4)) with
  | none => split_ifs <;> exact h.mono fun _ => rfl
  | some pkt =>
    split_ifs with hargc hlen hok
    · exact h.mono fun _ => rfl
    · exact h.mono fun _ => rfl
    · exact (h.snoc pkt).mono fun _ => hok
    · exact (h.snoc pkt).mono fun hlive => by simp at hlive

theorem processPackets_trail {s : ReadState} (h : AckTrail ok s.acks true) :
    AckTrail ok (processPackets ok s).acks (!(processPackets ok s).shouldClose) := by
  induction s using processPackets.induct ok with
  | case1 s hmin hnext ih =>
    have hbody := packetBody_trail h
    rw [processPackets, dif_pos hmin, dif_pos hnext]
    exact ih (hbody.mono fun _ => by rw [hnext]; rfl)
  | case2 s hmin hnext =>
    have hbody := packetBody_trail h
    rw [processPackets, dif_pos hmin, dif_neg hnext]
    exact hbody.mono fun hopen => by rw [hopen, Bool.or_true]
  | case3 s hmin =>
    rw [processPackets, dif_neg hmin]
    exact h.mono fun _ => rfl

theorem teardown_trail {s : ReadState} (h : AckTrail ok s.acks (!s.shouldClose)) :
    AckTrail ok (teardown s).acks (teardown s).active := by
  rw [teardown]
  split_ifs with hclose
  · exact h.mono fun hlive => by cases hlive
  · exact h.mono fun _ => by simp [hclose]

theorem onReady_trail {s : ReadState} (h : AckTrail ok s.acks true) (hup err : Bool)
    (r : RecvResult tempSize) :
    AckTrail ok (onReady ok hup err r s).acks (onReady ok hup err r s).active := by
  simp only [onReady]
  split_ifs
  · exact teardown_trail (h.mono fun _ => rfl)
  · exact teardown_trail (processPackets_trail (by exact h))

theorem readLoop_trail {s : ReadState} (h : AckTrail ok s.acks s.active) (evs : List ReadyEvent) :
    AckTrail ok (readLoop ok s evs).acks (readLoop ok s evs).active := by
  induction evs generalizing s with
  | nil => exact h
  | cons ev evs ih =>
    refine ih ?_
    by_cases hactive : s.active = true
    · simp only [hactive, if_true]
      exact onReady_trail (h.mono fun _ => hactive) _ _ _
    · simp only [hactive]
      exact h

/-- On the command connection nothing follows an ACK that was cut short. -/
theorem ackWrites_intact (m : FDManager) (fd : ℤ) (res : ℕ → List SendResult)
    (evs : List ReadyEvent) :
    Write.Intact (ackWrites m fd res (readLoop (ackOk m fd res) .fresh evs).acks) := by
  have htrail : AckTrail (ackOk m fd res) (readLoop (ackOk m fd res) .fresh evs).acks _ :=
    readLoop_trail ⟨by simp [ReadState.fresh], by simp [ReadState.fresh], by simp [ReadState.fresh]⟩ evs
  refine List.pairwise_iff_getElem.mpr fun i j hi hj hij htorn => ?_
  simp only [ackWrites, List.length_mapIdx] at hi hj
  have hsent := htrail.before i (by omega)
  obtain ⟨p, hp⟩ := htrail.form _ (List.getElem_mem hi)
  simp only [ackWrites, List.getElem_mapIdx, Write.Torn, hp] at htorn
  exact absurd (sendAck_complete hsent) htorn.2

end GramsTof.CommandClient
