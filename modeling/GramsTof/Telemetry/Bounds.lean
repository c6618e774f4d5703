import GramsTof.Telemetry.LogCodec

/-! How far the decoders read. A packet may be sound on the wire and still announce
more than it carries: the length of a log message is compared with the packet in 32
bits, where the rounding up to words wraps, and the number of points of a graph is
compared with nothing. -/

namespace GramsTof.Telemetry

open Codec Lib

/-! ### Log messages -/

/-- The words that `decode` asks for, when the length does not wrap. -/
theorem requiredWords_eq {msgLen : UInt32} (h : msgLen.toNat + 3 < 2 ^ 32) :
    ((msgLen + 3) / 4).toNat = (msgLen.toNat + 3) / 4 := by
  simp only [UInt32.toNat_div, UInt32.toNat_add, UInt32.reduceToNat]
  rw [Nat.mod_eq_of_lt h]

/-- The three lengths next to `2 ^ 32` need no words at all. -/
theorem requiredWords_wrapped {msgLen : UInt32} (h : ¬ msgLen.toNat + 3 < 2 ^ 32) :
    ((msgLen + 3) / 4).toNat = 0 := by
  have := msgLen.toNat_lt
  simp only [UInt32.toNat_div, UInt32.toNat_add, UInt32.reduceToNat]
  omega

/-- The message runs past the end of the packet when its length wraps in the check and it is not all
there. -/
theorem log_decode_eq_none_iff (host : Host) (packet : Packet) (out : LogData) :
    LogData.decode host packet out = none ↔
      ∃ _h : 8 < packet.argv.length, 2 ^ 32 ≤ packet.argv[4].toNat + 3 ∧
        4 * packet.argv.length < 9 * 4 + packet.argv[4].toNat := by
  have hcells : (host.rep.memory (packet.argv.drop 9)).length = (packet.argv.length - 9) * 4 := by
    rw [host.rep.length_memory, List.length_drop, host.rep_width]
  rw [LogData.decode]
  by_cases hshort : packet.argv.length < 9
  · rw [dif_pos hshort]
    refine iff_of_false (by simp) ?_
    rintro ⟨h, -⟩
    omega
  · rw [dif_neg hshort, exists_prop_of_true (show 8 < packet.argv.length by omega)]
    simp only [hcells]
    by_cases hwrap : packet.argv[4].toNat + 3 < 2 ^ 32
    · -- without a wrap the words asked for hold the message
      rw [requiredWords_eq hwrap]
      have hnot : ¬ 2 ^ 32 ≤ packet.argv[4].toNat + 3 := Nat.not_le.mpr hwrap
      split_ifs with hrequired hfits
      · exact iff_of_false (by simp) fun h => hnot h.1
      · exact iff_of_false (by simp) fun h => hnot h.1
      · omega
    · rw [requiredWords_wrapped hwrap, if_neg (by omega)]
      split_ifs with hfits
      · exact iff_of_false (by simp) (by omega)
      · exact iff_of_true rfl (by omega)

/-- `LogCodec::decode` stays inside the packet exactly when the message length does not wrap in the
check, or the message is all there. -/
theorem log_decode_in_bounds_iff (host : Host) (packet : Packet) (out : LogData) :
    LogData.decode host packet out ≠ none ↔
      ∀ _h : 8 < packet.argv.length, packet.argv[4].toNat + 3 < 2 ^ 32 ∨
        9 * 4 + packet.argv[4].toNat ≤ 4 * packet.argv.length := by
  rw [Ne, log_decode_eq_none_iff, not_exists]
  refine forall_congr' fun h => ?_
  simp only [not_and_or, Nat.not_le, Nat.not_lt]

/-- Nine words that announce four gigabytes. -/
def longMessage : Packet := ⟨loggerDataStream, 9, [7, 0, 0, 0, 0xFFFFFFFF, 0, 0, 0, 0]⟩

theorem log_decode_out_of_bounds :
    ¬ ∀ (host : Host) (packet : Packet) (out : LogData), LogData.decode host packet out ≠ none := by
  intro h
  refine h .little longMessage ⟨0, 0, 0, Vector.replicate 16 0, []⟩ ?_
  rw [log_decode_eq_none_iff]
  exact ⟨by decide, by decide, by decide⟩

/-! ### Points -/

theorem isSome_bind_pure {α β : Type} (x : Option α) (f : α → β) :
    (x >>= fun a => pure (f a)).isSome = x.isSome := by cases x <;> rfl

/-- A loop that collects values ends when every turn gives one. -/
theorem foldlM_collect_isSome {α : Type} (f : ℕ → Option α) (n : ℕ) (acc : List α) :
    ((List.range n).foldlM (fun acc i => do
      let a ← f i
      pure (acc ++ [a])) acc).isSome ↔ ∀ i < n, (f i).isSome := by
  induction n with
  | zero => simp
  | succ n ih =>
    rw [List.range_succ, List.foldlM_append, Nat.forall_lt_succ_right, ← ih]
    cases hloop : (List.range n).foldlM (fun acc i => do
      let a ← f i
      pure (acc ++ [a])) acc with
    | none => simp
    | some acc' => cases hf : f n <;> simp [hf]

theorem GraphData.point_isSome_iff (argv : List UInt32) {i : ℕ} (hi : i ≤ 65535) :
    (GraphData.point argv (UInt32.ofNat i)).isSome ↔ 7 + 4 * i + 3 < argv.length := by
  have hidx : ∀ c : UInt32, c.toNat < 4 →
      (7 + UInt32.ofNat i * 4 + c).toNat = 7 + 4 * i + c.toNat := fun c hc => by
    simp only [UInt32.toNat_add, UInt32.toNat_mul, UInt32.toNat_ofNat', UInt32.reduceToNat]
    omega
  have h0 : (7 + UInt32.ofNat i * 4).toNat = 7 + 4 * i := by
    rw [← UInt32.add_zero (7 + UInt32.ofNat i * 4)]
    exact hidx 0 (by decide)
  have h1 : (7 + UInt32.ofNat i * 4 + 1).toNat = 7 + 4 * i + 1 := hidx 1 (by decide)
  have h2 : (7 + UInt32.ofNat i * 4 + 2).toNat = 7 + 4 * i + 2 := hidx 2 (by decide)
  have h3 : (7 + UInt32.ofNat i * 4 + 3).toNat = 7 + 4 * i + 3 := hidx 3 (by decide)
  rw [point, h0, h1, h2, h3]
  by_cases hlast : 7 + 4 * i + 3 < argv.length
  · rw [List.getElem?_eq_getElem hlast, List.getElem?_eq_getElem (show 7 + 4 * i + 2 < _ by omega),
      List.getElem?_eq_getElem (show 7 + 4 * i + 1 < _ by omega),
      List.getElem?_eq_getElem (show 7 + 4 * i < _ by omega)]
    simp [hlast]
  · rw [List.getElem?_eq_none (Nat.not_lt.mp hlast)]
    simp [hlast]

/-- A packet whose count is right is too short for the wrapped indices to fall inside it again before
the first one that falls outside. -/
theorem points_isSome_iff {argv : List UInt32} (hargv : argv.length ≤ 65535)
    (hhead : 7 ≤ argv.length) (n : ℕ) :
    (∀ i < n, (GraphData.point argv (UInt32.ofNat i)).isSome) ↔ 7 + 4 * n ≤ argv.length := by
  constructor
  · intro h
    by_contra hn
    have hfirst := h ((argv.length - 7) / 4) (by omega)
    rw [GraphData.point_isSome_iff argv (by omega)] at hfirst
    omega
  · intro h i hi
    rw [GraphData.point_isSome_iff argv (by omega)]
    omega

theorem graph_decode_isSome_iff (host : Host) {packet : Packet} (hsize : packet.WellSized)
    (out : GraphData) :
    (GraphData.decode host packet out).isSome ↔
      ∀ _h : 7 ≤ packet.argv.length, packet.argv[5] = DataType.tGraph.toUInt32 →
        7 + 4 * packet.argv[6].toNat ≤ packet.argv.length := by
  have hlt := packet.argc.toNat_lt
  rw [Packet.WellSized] at hsize
  rw [GraphData.decode]
  by_cases hshort : packet.argv.length < 7
  · rw [dif_pos hshort]
    exact iff_of_true rfl fun h => absurd hshort (Nat.not_lt.mpr h)
  · have hhead := Nat.not_lt.mp hshort
    rw [dif_neg hshort, forall_prop_of_true hhead]
    by_cases htype : packet.argv[5] = DataType.tGraph.toUInt32
    · rw [if_neg (not_not.mpr htype), forall_prop_of_true htype,
        ← points_isSome_iff (by omega) hhead, ← foldlM_collect_isSome _ _ []]
      exact Bool.eq_iff_iff.mp (isSome_bind_pure _ _)
    · rw [if_pos htype]
      exact iff_of_true rfl fun h => absurd h htype

/-- `MonitorCodec::decode` of a graph stays inside the packet exactly when the points it announces are
all there. -/
theorem graph_decode_in_bounds_iff (host : Host) {packet : Packet} (hsize : packet.WellSized)
    (out : GraphData) :
    GraphData.decode host packet out ≠ none ↔
      ∀ _h : 7 ≤ packet.argv.length, packet.argv[5] = DataType.tGraph.toUInt32 →
        7 + 4 * packet.argv[6].toNat ≤ packet.argv.length := by
  rw [Option.ne_none_iff_isSome, graph_decode_isSome_iff host hsize]

/-- A graph of one point, without the point. -/
def lostPoint : Packet := ⟨monitorDataStream, 7, [7, 0, 0, 0, 0, 4, 1]⟩

theorem graph_decode_in_bounds_lostPoint :
    GraphData.decode .little lostPoint sampleGraph ≠ none ↔
      ∀ _h : 7 ≤ lostPoint.argv.length, lostPoint.argv[5] = DataType.tGraph.toUInt32 →
        7 + 4 * lostPoint.argv[6].toNat ≤ lostPoint.argv.length :=
  graph_decode_in_bounds_iff .little (by decide) sampleGraph

theorem graph_decode_out_of_bounds : ¬ GraphData.decode .little lostPoint sampleGraph ≠ none := by
  have hsize : lostPoint.WellSized := rfl
  rw [Option.ne_none_iff_isSome, graph_decode_isSome_iff .little hsize]
  decide

end GramsTof.Telemetry
