import GramsTof.CommandClient.ReadLoop
import GramsTof.EventClient.Send
import GramsTof.Telemetry.LogCodec

/-! The packets that the flight program builds and hands to `serialize`. The
argument count is set apart from the arguments, by a cast of their number or by a
constant, and says how many of them `serialize` writes. -/

namespace GramsTof.Telemetry

open Codec

/-- What a packet is built from, one case for each place that builds one. -/
inductive Outgoing where
  | monitorData (code : UInt16) (data : MonitorData)
  | graphData (code : UInt16) (data : GraphData)
  | parameterData (code : UInt16) (data : ParameterData)
  | logData (code : UInt16) (data : LogData)
  | sendCallback (args : List UInt32)
  | sendHeartbeat
  | statusCallback (code : UInt16) (status : UInt32)
  | commandClientAck (pkt : Packet)
  | commandServerAck

namespace Outgoing

/-- `ackPkt` of `GRAMS_TOF_CommandServer`, with code `ACK`. -/
def serverAck : Packet := ⟨0x5FFF, 1, []⟩

/-- The packet handed to `serialize`, with code `CALLBACK` for `sendCallback` and `HEART_BEAT` for
`sendHeartbeat`. The encoders' packets get the code that `sendMonitorData` and `sendLogData` are
called with. -/
def packet (host : Host) : Outgoing → Option Packet
  | monitorData code data => some { data.encode host with code := code }
  | graphData code data => (data.encode host).map fun pkt => { pkt with code := code }
  | parameterData code data => some { data.encode host with code := code }
  | logData code data => some { data.encode host with code := code }
  | sendCallback args => some ⟨0x5FFE, UInt16.ofNat args.length, args⟩
  | sendHeartbeat => some ⟨0xFFFF, 0, []⟩
  | statusCallback code status => some (EventClient.statusCallback code status).pkt
  | commandClientAck pkt => some (CommandClient.ackFor pkt)
  | commandServerAck => some serverAck

/-- The count field can hold the number of arguments, and there are as many as the constants say. -/
def Fits : Outgoing → Prop
  | monitorData _ data => data.bins.length ≤ 65523
  | graphData _ data => data.nPoints.toNat ≤ 16382
  | parameterData _ _ => True
  | logData _ _ => True
  | sendCallback args => args.length ≤ 65535
  | sendHeartbeat => True
  | statusCallback _ _ => True
  | commandClientAck _ => True
  | commandServerAck => False

end Outgoing

/-- A count made by a cast is right exactly when the number of arguments has 16 bits. -/
theorem wellSized_cast_iff {code : UInt16} {argv : List UInt32} :
    Packet.WellSized ⟨code, UInt16.ofNat argv.length, argv⟩ ↔ argv.length ≤ 65535 := by
  simp only [Packet.WellSized, UInt16.toNat_ofNat']
  omega

/-- `serialize` stays inside `argv` and writes all of it exactly when the count is right. -/
theorem serialize_whole_iff (p : Packet) :
    (∃ bytes, serialize p none = some bytes ∧ bytes.length = 14 + 4 * p.argv.length) ↔
      p.WellSized := by
  constructor
  · rintro ⟨bytes, hser, hlen⟩
    have hle : p.argc.toNat ≤ p.argv.length := by
      by_contra hgt
      rw [serialize_eq_ite, if_neg hgt] at hser
      cases hser
    obtain ⟨-, rfl⟩ := serialize_eq_some hser
    rw [length_wire, Packet.sent, List.length_take_of_le hle] at hlen
    rw [Packet.WellSized]
    omega
  · intro h
    exact ⟨wire p, serialize_eq_wire h, length_wire p⟩

theorem Outgoing.packet_wellSized_iff (host : Host) {o : Outgoing} {p : Packet}
    (h : o.packet host = some p) : p.WellSized ↔ o.Fits := by
  cases o with
  | monitorData code data =>
    obtain rfl := Option.some.inj h
    have hlen := data.length_words host
    simp only [MonitorData.encode_eq, streamPacket, wellSized_cast_iff, Fits]
    omega
  | graphData code data =>
    simp only [packet, GraphData.encode_eq_ite] at h
    split_ifs at h with hzip
    · obtain rfl := Option.some.inj h
      have hlen := data.length_words host
      have hpoints : data.points.length = data.nPoints.toNat := List.length_take_of_le hzip
      simp only [streamPacket, wellSized_cast_iff, Fits]
      omega
    · cases h
  | parameterData code data =>
    obtain rfl := Option.some.inj h
    have hlen := data.length_words host
    simp only [ParameterData.encode_eq, streamPacket, wellSized_cast_iff]
    exact iff_of_true (by omega) trivial
  | logData code data =>
    obtain rfl := Option.some.inj h
    exact iff_of_true (data.encode_wellSized host) trivial
  | sendCallback args =>
    obtain rfl := Option.some.inj h
    exact wellSized_cast_iff
  | commandServerAck =>
    obtain rfl := Option.some.inj h
    exact iff_of_false (by decide) (fun hf => hf)
  | sendHeartbeat | statusCallback | commandClientAck =>
    obtain rfl := Option.some.inj h
    exact iff_of_true rfl trivial

/-- A packet handed to `serialize` counts its arguments right, and is written with all of them,
exactly when it is not the acknowledgement of the command server and its arguments fit the count
field. -/
theorem outgoing_sized_iff (host : Host) (o : Outgoing) (p : Packet)
    (h : o.packet host = some p) :
    (p.argc.toNat = p.argv.length ↔ o.Fits) ∧
    ((∃ bytes, serialize p none = some bytes ∧ bytes.length = 14 + 4 * p.argv.length) ↔
      o.Fits) :=
  ⟨Outgoing.packet_wellSized_iff host h,
    (serialize_whole_iff p).trans (Outgoing.packet_wellSized_iff host h)⟩

theorem outgoing_sized_iff_callback :
    ((1 : ℕ) = 1 ↔ (Outgoing.sendCallback [9]).Fits) ∧
    ((∃ bytes, serialize ⟨0x5FFE, 1, [9]⟩ none = some bytes ∧ bytes.length = 14 + 4 * 1) ↔
      (Outgoing.sendCallback [9]).Fits) :=
  outgoing_sized_iff .little (.sendCallback [9]) ⟨0x5FFE, 1, [9]⟩ rfl

/-- The acknowledgement of the command server counts an argument that it does not have, and
`serialize` reads it. -/
theorem serverAck_unsized :
    Outgoing.commandServerAck.packet .little = some Outgoing.serverAck ∧
      ¬ Outgoing.serverAck.argc.toNat = Outgoing.serverAck.argv.length ∧
      serialize Outgoing.serverAck none = none := by
  refine ⟨rfl, by decide, ?_⟩
  rw [serialize_eq_ite, if_neg (by decide)]

end GramsTof.Telemetry
