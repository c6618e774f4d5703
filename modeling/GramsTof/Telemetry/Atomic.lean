import GramsTof.Telemetry.LogCodec

/-! What a decoder leaves in the object that it is given when it fails. Four of the
five make all their checks first; the log decoder writes three fields and then
checks the length of the message. -/

namespace GramsTof.Telemetry

open Codec Lib

/-- A check that rejects leaves the packet alone if all that comes after it does. -/
theorem reject_ite_atomic {c : Prop} [Decidable c] {out : Packet} {x : Bool × Packet}
    (h : x.1 = false → x.2 = out) :
    (if c then (false, out) else x).1 = false → (if c then (false, out) else x).2 = out := by
  split_ifs
  · exact fun _ => rfl
  · exact h

theorem parse_atomic (data : List UInt8) (out : Packet) (h : (parse data out).val.1 = false) :
    (parse data out).val.2 = out := by
  revert h
  simp only [parse, apply_ite Traced.val, Traced.bind_val, Traced.pure_val]
  -- the eight checks in their order, then the packet is accepted
  iterate 8 apply reject_ite_atomic
  intro h
  cases h

theorem MonitorData.decode_atomic (host : Host) (packet : Packet) (out : MonitorData)
    (h : (MonitorData.decode host packet out).1 = false) :
    (MonitorData.decode host packet out).2 = out := by
  rw [decode] at h ⊢
  split_ifs at h ⊢ with hshort
  rfl

theorem GraphData.decode_atomic (host : Host) (packet : Packet) (out o : GraphData)
    (h : GraphData.decode host packet out = some (false, o)) : o = out := by
  rw [decode] at h
  split_ifs at h with hshort htype
  · cases h
    rfl
  · cases h
    rfl
  · -- once the loop is entered the decoder can only succeed
    obtain ⟨points, -, hpoints⟩ := Option.bind_eq_some_iff.mp h
    cases hpoints

theorem ParameterData.decode_atomic (host : Host) (packet : Packet) (out : ParameterData)
    (h : (ParameterData.decode host packet out).1 = false) :
    (ParameterData.decode host packet out).2 = out := by
  rw [decode] at h ⊢
  split_ifs at h ⊢ with hshort htype
  · rfl
  · rfl

/-- A failed call of the log decoder changes nothing exactly when the packet has no header, or room
for the message it announces, or the fields written before the check had these values already. -/
theorem LogData.decode_atomic_iff (host : Host) (packet : Packet) (out : LogData) :
    (∀ o, LogData.decode host packet out = some (false, o) → o = out) ↔
      ∀ _h : 9 ≤ packet.argv.length,
        9 + ((packet.argv[4] + 3) / 4).toNat ≤ packet.argv.length ∨
          out.runNumber = packet.argv[0] ∧
            out.timestampMs = joinWords packet.argv[1] packet.argv[2] ∧
            out.level = (packet.argv[3] &&& 0xFF).toUInt8 := by
  rw [decode]
  by_cases hshort : packet.argv.length < 9
  · rw [dif_pos hshort]
    refine iff_of_true ?_ fun h => absurd hshort (Nat.not_lt.mpr h)
    rintro o ⟨⟩
    rfl
  · rw [dif_neg hshort, forall_prop_of_true (Nat.not_lt.mp hshort)]
    by_cases hroom : packet.argv.length < 9 + ((packet.argv[4] + 3) / 4).toNat
    · rw [or_iff_right (Nat.not_le.mpr hroom)]
      simp only [if_pos hroom]
      constructor
      · intro h
        have hsame := LogData.ext_iff.mp (h _ rfl)
        exact ⟨hsame.1.symm, hsame.2.1.symm, hsame.2.2.1.symm⟩
      · rintro ⟨hrun, htime, hlevel⟩ o ⟨⟩
        rw [← hrun, ← htime, ← hlevel]
    · simp only [if_neg hroom]
      refine iff_of_true ?_ (.inl (Nat.not_lt.mp hroom))
      intro o h
      split_ifs at h
      cases h

/-- All five decoders: the packet parser and the three monitor decoders leave their output alone when
they fail, the log decoder under a condition. -/
theorem decoders_atomic_iff (host : Host) (data : List UInt8) (packet outPacket : Packet)
    (outMonitor : MonitorData) (outGraph : GraphData) (outParameter : ParameterData)
    (outLog : LogData) :
    ((parse data outPacket).val.1 = false → (parse data outPacket).val.2 = outPacket) ∧
    ((MonitorData.decode host packet outMonitor).1 = false →
      (MonitorData.decode host packet outMonitor).2 = outMonitor) ∧
    (∀ o, GraphData.decode host packet outGraph = some (false, o) → o = outGraph) ∧
    ((ParameterData.decode host packet outParameter).1 = false →
      (ParameterData.decode host packet outParameter).2 = outParameter) ∧
    ((∀ o, LogData.decode host packet outLog = some (false, o) → o = outLog) ↔
      ∀ _h : 9 ≤ packet.argv.length,
        9 + ((packet.argv[4] + 3) / 4).toNat ≤ packet.argv.length ∨
          outLog.runNumber = packet.argv[0] ∧
            outLog.timestampMs = joinWords packet.argv[1] packet.argv[2] ∧
            outLog.level = (packet.argv[3] &&& 0xFF).toUInt8) :=
  ⟨parse_atomic data outPacket, MonitorData.decode_atomic host packet outMonitor,
    GraphData.decode_atomic host packet outGraph,
    ParameterData.decode_atomic host packet outParameter,
    LogData.decode_atomic_iff host packet outLog⟩

/-- A header that announces one byte, and no message. -/
def headerOnly : Packet := ⟨loggerDataStream, 9, [7, 0, 0, 0, 1, 0, 0, 0, 0]⟩

def blankLog : LogData := ⟨0, 0, 0, Vector.replicate 16 0, []⟩

theorem not_atomic_headerOnly :
    ¬ ∀ o, LogData.decode .little headerOnly blankLog = some (false, o) → o = blankLog := by
  rw [LogData.decode_atomic_iff]
  decide

end GramsTof.Telemetry
