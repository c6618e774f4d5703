import GramsTof.CommandClient.Ack
import GramsTof.EventClient.Send

/-! When the bytes on a hub connection are a packet stream. `sendPacket` takes the
`-1` of a failed `sendData` for a success and leaves the connection open, so the
event stream is torn as soon as something follows a packet cut short; the command
client closes the connection instead. -/

namespace GramsTof.EventClient

open CommandClient Lib Net

/-- The event connection carries a packet stream exactly when no call finds room after one that was
cut short; the ACKs on the command connection always form one. -/
theorem packetStream_iff_nothing_after_cut (m : FDManager) (fd : ℤ) :
    (∀ ops : List Op, PacketStream (writes (Link.connected m fd) ops) ↔
      fd ≤ 2 ∨ (served ops).Pairwise fun a b => CutShort a → room b.2 = 0) ∧
    ∀ (res : ℕ → List SendResult) (evs : List ReadyEvent),
      PacketStream
        (ackWrites m fd res (CommandClient.readLoop (ackOk m fd res) .fresh evs).acks) := by
  refine ⟨fun ops => ?_, fun res evs => packetStream_iff.mpr (ackWrites_intact m fd res evs)⟩
  rw [packetStream_iff]
  by_cases hfd : fd ≤ 2
  · exact ⟨fun _ => .inl hfd, fun _ => intact_of_mute (writes_mute (mute_connected hfd) ops)⟩
  · rw [intact_writes_iff (by omega)]
    exact ⟨.inr, fun h => h.resolve_left hfd⟩

/-- A callback cut short after four bytes by a full socket buffer, then another one. -/
def cutHistory : List Op :=
  [.sendPacket (statusCallback 0x5001 0) [.count 4, .eagain],
    .sendPacket (statusCallback 0x5000 0) [.count 22]]

theorem not_packetStream_cutHistory :
    ¬ PacketStream (writes (Link.connected .empty 5) cutHistory) := by
  rw [packetStream_iff, intact_writes_iff (by decide)]
  intro h
  have hserved : served cutHistory =
      [(statusCallback 0x5001 0, [.count 4, .eagain]), (statusCallback 0x5000 0, [.count 22])] := by
    simp [cutHistory, served, returns, SendResult.fails]
  rw [hserved] at h
  have hcut : CutShort (statusCallback 0x5001 0, [.count 4, .eagain]) := by
    simp [CutShort, Sendable.length_bytes, statusCallback]
  have hsilent := (List.pairwise_cons.mp h).1 _ List.mem_cons_self hcut
  simp at hsilent

end GramsTof.EventClient
