import GramsTof.Codec.Packet

/-! `parse` and `serialize` agree: the buffers accepted with packet `p` are
those that begin with the canonical encoding of `p`, and an accepting call looks
at these bytes and at no others. -/

namespace GramsTof.Codec

open Lib

/-! ### The argument loop of the decoder -/

/-- The `n` big-endian words from `i` on. -/
def words (data : List UInt8) (i n : ℕ) : List UInt32 :=
  (List.range n).map fun k => (read32 data (i + k * 4)).val

@[simp] theorem length_words (data : List UInt8) (i n : ℕ) : (words data i n).length = n := by
  simp [words]

theorem words_succ (data : List UInt8) (i n : ℕ) :
    words data i (n + 1) = (read32 data i).val :: words data (i + 4) n := by
  simp only [words, List.range_succ_eq_map, List.map_cons, List.map_map, zero_mul, add_zero,
    List.cons.injEq, true_and]
  apply List.map_congr_left
  intro k _
  rw [Function.comp_apply, show i + k.succ * 4 = i + 4 + k * 4 by rw [Nat.succ_eq_add_one]; ring]

theorem argLoop_val (data : List UInt8) (n : ℕ) (argv : List UInt32) :
    ((List.range n).foldlM (fun argv i => do
      let arg ← read32 data (8 + i * 4)
      pure (argv ++ [arg])) argv : Traced (List UInt32)).val = argv ++ words data 8 n := by
  rw [Traced.foldlM_val, words]
  induction n with
  | zero => simp
  | succ n ih =>
    rw [List.range_succ, List.foldl_append, ih]
    simp

theorem argLoop_reads (data : List UInt8) (n : ℕ) (argv : List UInt32) :
    ((List.range n).foldlM (fun argv i => do
      let arg ← read32 data (8 + i * 4)
      pure (argv ++ [arg])) argv : Traced (List UInt32)).reads =
      (List.range n).flatMap fun i => [8 + i * 4, 8 + i * 4 + 1, 8 + i * 4 + 2, 8 + i * 4 + 3] :=
  Traced.foldlM_reads
    (g := fun i => [8 + i * 4, 8 + i * 4 + 1, 8 + i * 4 + 2, 8 + i * 4 + 3])
    (fun _ _ => rfl) argv _

/-- A run of argument words stands at `i` exactly when reading it back gives it. -/
theorem flatMap_bytes32_prefix_iff {data : List UInt8} (ws : List UInt32) {i : ℕ}
    (hi : i ≤ data.length) :
    ws.flatMap bytes32 <+: data.drop i ↔
      i + 4 * ws.length ≤ data.length ∧ words data i ws.length = ws := by
  induction ws generalizing i with
  | nil => simp [words, hi]
  | cons w ws ih =>
    rw [List.flatMap_cons, append_prefix_iff, bytes32_prefix_iff, List.length_cons, words_succ,
      List.cons.injEq, length_bytes32, List.drop_drop]
    constructor
    · rintro ⟨⟨hlen, hw⟩, hrest⟩
      obtain ⟨hlen', hws⟩ := (ih hlen).mp hrest
      exact ⟨by omega, hw, hws⟩
    · rintro ⟨hlen, hw, hws⟩
      exact ⟨⟨by omega, hw⟩, (ih (by omega)).mpr ⟨by omega, hws⟩⟩

/-! ### Acceptance -/

theorem argc_le_maxArgc (argc : UInt16) : argc.toNat ≤ maxArgc := by
  have := argc.toNat_lt
  rw [maxArgc]
  omega

/-- A failed check of `parse` leaves by the rejecting exit. -/
theorem reject_ite_iff {c : Prop} [Decidable c] {out p : Packet} {x : Bool × Packet} :
    (if c then (false, out) else x) = (true, p) ↔ ¬ c ∧ x = (true, p) := by
  by_cases h : c <;> simp [h]

/-- What the checks of `parse` establish, field by field, for the packet it stores. -/
structure Fields (data : List UInt8) (p : Packet) : Prop where
  header1 : (read16 data 0).val = 0xEB90
  header2 : (read16 data 2).val = 0x5B6A
  code : (read16 data 4).val = p.code
  argc : (read16 data 6).val = p.argc
  size : 14 + p.argc.toNat * 4 ≤ data.length
  crc : (read16 data (8 + p.argc.toNat * 4)).val = crc16 (data.take (8 + p.argc.toNat * 4))
  footer1 : (read16 data (8 + p.argc.toNat * 4 + 2)).val = 0xC5A4
  footer2 : (read16 data (8 + p.argc.toNat * 4 + 4)).val = 0xD279
  argv : words data 8 p.argc.toNat = p.argv

theorem Fields.wellSized {data : List UInt8} {p : Packet} (h : Fields data p) : p.WellSized := by
  rw [Packet.WellSized, ← h.argv, length_words]

theorem parse_true_iff_fields {data : List UInt8} {out p : Packet} :
    (parse data out).val = (true, p) ↔ Fields data p := by
  have hmax := argc_le_maxArgc (read16 data 6).val
  have hargc : maxArgc = 0xFFFF := rfl
  have hsize : sizeMax = 2 ^ 64 - 1 := rfl
  obtain ⟨code, argc, argv⟩ := p
  simp only [parse, apply_ite Traced.val, Traced.bind_val, Traced.pure_val, argLoop_val,
    List.nil_append, reject_ite_iff, Prod.mk.injEq, true_and, Packet.mk.injEq]
  constructor
  · rintro ⟨h1, h2, h3, h4, h5, h6, h7, h8, rfl, rfl, h9⟩
    rw [crc_val (by omega)] at h7
    push Not at h2 h7 h8
    exact ⟨h2.1, h2.2, rfl, rfl, by simp only; omega, h7, h8.1, h8.2, h9⟩
  · rintro ⟨h1, h2, rfl, rfl, h5, h6, h7, h8, h9⟩
    simp only at h5 h6 h7 h8 h9
    rw [crc_val (by omega)]
    exact ⟨by omega, by simp [h1, h2], by omega, by omega, by omega, by omega, by simp [h6],
      by simp [h7, h8], rfl, rfl, h9⟩

/-- The payload stands at the front of a buffer long enough for the whole packet exactly when
the header, the two counts and the arguments read back. -/
theorem payload_prefix_iff {data : List UInt8} {p : Packet} (hp : p.WellSized)
    (hsize : 14 + p.argc.toNat * 4 ≤ data.length) :
    payload p <+: data ↔
      (read16 data 0).val = 0xEB90 ∧ (read16 data 2).val = 0x5B6A ∧
      (read16 data 4).val = p.code ∧ (read16 data 6).val = p.argc ∧
      words data 8 p.argc.toNat = p.argv := by
  have h0 : bytes16 0xEB90 <+: data ↔ bytes16 0xEB90 <+: data.drop 0 := by rw [List.drop_zero]
  rw [Packet.WellSized] at hp
  rw [payload, append_prefix_iff, append_prefix_iff, append_prefix_iff, append_prefix_iff]
  simp only [h0, List.length_append, length_bytes16, bytes16_prefix_iff]
  constructor
  · rintro ⟨⟨⟨⟨⟨-, h1⟩, -, h2⟩, -, h3⟩, -, h4⟩, hargs⟩
    rw [flatMap_bytes32_prefix_iff _ (by omega), ← hp] at hargs
    exact ⟨h1, h2, h3, h4, hargs.2⟩
  · rintro ⟨h1, h2, h3, h4, hargs⟩
    refine ⟨⟨⟨⟨⟨by omega, h1⟩, by omega, h2⟩, by omega, h3⟩, by omega, h4⟩, ?_⟩
    rw [flatMap_bytes32_prefix_iff _ (by omega), ← hp]
    exact ⟨by omega, hargs⟩

theorem wire_prefix_iff_fields {p : Packet} {data : List UInt8} (hp : p.WellSized) :
    wire p <+: data ↔ Fields data p := by
  have hlen : (payload p).length = 8 + p.argc.toNat * 4 := by rw [length_payload, hp, mul_comm]
  have htake : payload p <+: data → data.take (8 + p.argc.toNat * 4) = payload p := fun h => by
    rw [← hlen]
    exact (List.prefix_iff_eq_take.mp h).symm
  rw [wire, append_prefix_iff, append_prefix_iff, append_prefix_iff]
  simp only [List.length_append, length_bytes16, hlen, bytes16_prefix_iff]
  constructor
  · rintro ⟨⟨⟨hpre, -, hcrc⟩, -, hf1⟩, hend, hf2⟩
    have hsize : 14 + p.argc.toNat * 4 ≤ data.length := by omega
    obtain ⟨h1, h2, h3, h4, h9⟩ := (payload_prefix_iff hp hsize).mp hpre
    exact ⟨h1, h2, h3, h4, hsize, by rw [hcrc, htake hpre], hf1, hf2, h9⟩
  · intro h
    have hsize := h.size
    have hpre := (payload_prefix_iff hp hsize).mpr ⟨h.header1, h.header2, h.code, h.argc, h.argv⟩
    exact ⟨⟨⟨hpre, by omega, by rw [h.crc, htake hpre]⟩, by omega, h.footer1⟩, by omega, h.footer2⟩

/-- A buffer is accepted with `p` exactly when it begins with the canonical encoding of `p`. -/
theorem parse_true_iff_wire {data : List UInt8} (out : Packet) {p : Packet} :
    (parse data out).val = (true, p) ↔ p.WellSized ∧ wire p <+: data := by
  rw [parse_true_iff_fields]
  constructor
  · intro h
    exact ⟨h.wellSized, (wire_prefix_iff_fields h.wellSized).mpr h⟩
  · rintro ⟨hp, h⟩
    exact (wire_prefix_iff_fields hp).mp h

theorem accepted_eq_some_iff {data : List UInt8} {p : Packet} :
    accepted data = some p ↔ p.WellSized ∧ wire p <+: data := by
  rw [← parse_true_iff_wire default, accepted]
  split <;> rename_i h <;> simp [h]

theorem parse_wire {p : Packet} (hp : p.WellSized) (out : Packet) :
    (parse (wire p) out).val = (true, p) :=
  (parse_true_iff_wire out).mpr ⟨hp, List.prefix_rfl⟩

/-! ### What an accepting call reads -/

theorem parse_reads {data : List UInt8} {out p : Packet} (h : (parse data out).val = (true, p)) :
    (parse data out).reads =
      [0, 1, 2, 3, 4, 5, 6, 7] ++ [8 + p.argc.toNat * 4, 8 + p.argc.toNat * 4 + 1] ++
      List.range (8 + p.argc.toNat * 4) ++
      [8 + p.argc.toNat * 4 + 2, 8 + p.argc.toNat * 4 + 3,
        8 + p.argc.toNat * 4 + 4, 8 + p.argc.toNat * 4 + 5] ++
      (List.range p.argc.toNat).flatMap
        fun i => [8 + i * 4, 8 + i * 4 + 1, 8 + i * 4 + 2, 8 + i * 4 + 3] := by
  obtain ⟨h1, h2, -, h4, h5, h6, h7, h8, -⟩ := parse_true_iff_fields.mp h
  have hmax := argc_le_maxArgc p.argc
  have hargc : maxArgc = 0xFFFF := rfl
  have hsize : sizeMax = 2 ^ 64 - 1 := rfl
  rw [← crc_val (by omega)] at h6
  simp only [parse, apply_ite Traced.reads, Traced.bind_reads, Traced.pure_reads, argLoop_reads,
    crc_reads, read16_reads, h1, h2, h4, h6, h7, h8]
  rw [if_neg (by omega), if_neg (by simp), if_neg (by omega), if_neg (by omega), if_neg (by omega),
    if_neg (by omega), if_neg (by simp), if_neg (by simp)]
  simp

/-- The cells an accepting call reads are the first `getPacketSize p` ones. -/
theorem mem_parse_reads {data : List UInt8} {out p : Packet}
    (h : (parse data out).val = (true, p)) (i : ℕ) :
    i ∈ (parse data out).reads ↔ i < getPacketSize p := by
  rw [parse_reads h, getPacketSize, fixedOverhead, argSize]
  simp only [List.mem_append, List.mem_cons, List.not_mem_nil, or_false, List.mem_range,
    List.mem_flatMap]
  constructor
  · rintro ((((h | h) | h) | h) | ⟨k, hk, h⟩) <;> omega
  · intro hi
    omega

/-- No call reads past the end of the data, accepting or not. -/
theorem parse_within (data : List UInt8) (out : Packet) :
    Traced.Within data.length (parse data out) := by
  have hread16 : ∀ {i : ℕ}, i + 2 ≤ data.length → Traced.Within data.length (read16 data i) :=
    fun h => Traced.within_bind (Traced.within_read _ (by omega))
      (Traced.within_bind (Traced.within_read _ (by omega)) (Traced.within_pure _ _))
  rw [parse]
  refine Traced.within_ite (fun _ => Traced.within_pure _ _) fun hmin => ?_
  refine Traced.within_bind (hread16 (by omega)) (Traced.within_bind (hread16 (by omega)) ?_)
  refine Traced.within_ite (fun _ => Traced.within_pure _ _) fun _ => ?_
  refine Traced.within_bind (hread16 (by omega)) (Traced.within_bind (hread16 (by omega)) ?_)
  refine Traced.within_ite (fun _ => Traced.within_pure _ _) fun _ => ?_
  refine Traced.within_ite (fun _ => Traced.within_pure _ _) fun _ => ?_
  refine Traced.within_ite (fun _ => Traced.within_pure _ _) fun _ => ?_
  refine Traced.within_ite (fun _ => Traced.within_pure _ _) fun hsize => ?_
  refine Traced.within_bind (hread16 (by omega)) (Traced.within_bind ?_ ?_)
  · intro i hi
    rw [crc_reads, List.mem_range] at hi
    omega
  refine Traced.within_ite (fun _ => Traced.within_pure _ _) fun _ => ?_
  refine Traced.within_bind (hread16 (by omega)) (Traced.within_bind (hread16 (by omega)) ?_)
  refine Traced.within_ite (fun _ => Traced.within_pure _ _) fun _ => ?_
  refine Traced.within_bind ?_ (Traced.within_pure _ _)
  intro i hi
  rw [argLoop_reads, List.mem_flatMap] at hi
  obtain ⟨k, hk, hi⟩ := hi
  simp only [List.mem_range, List.mem_cons, List.not_mem_nil, or_false] at hk hi
  omega

/-- The decoder accepts exactly the canonical encodings, each followed by any tail, and reads
the encoding and nothing of the tail. -/
theorem parse_accepts_canonical (d : List UInt8) (out p : Packet) :
    ((parse d out).val = (true, p) ↔
      p.argc.toNat = p.argv.length ∧ ∃ s t, serialize p none = some s ∧ d = s ++ t) ∧
    ((parse d out).val = (true, p) →
      (∃ s, serialize p none = some s ∧ getPacketSize p = s.length) ∧
      getPacketSize p = 14 + 4 * p.argc.toNat ∧
      (∀ i, i ∈ (parse d out).reads ↔ i < getPacketSize p) ∧
      ∀ t out', (parse (d.take (getPacketSize p) ++ t) out').val = (true, p)) := by
  refine ⟨?_, fun h => ?_⟩
  · rw [parse_true_iff_wire]
    refine and_congr_right fun hp => ?_
    rw [serialize_eq_wire hp]
    constructor
    · rintro ⟨t, rfl⟩
      exact ⟨_, t, rfl, rfl⟩
    · rintro ⟨s, t, hs, rfl⟩
      exact ⟨t, by rw [Option.some.inj hs]⟩
  · obtain ⟨hp, hpre⟩ := (parse_true_iff_wire out).mp h
    refine ⟨⟨_, serialize_eq_wire hp, getPacketSize_eq hp⟩, ?_, mem_parse_reads h, fun t out' => ?_⟩
    · rw [getPacketSize, fixedOverhead, argSize, mul_comm]
    · rw [parse_true_iff_wire, getPacketSize_eq hp, ← List.prefix_iff_eq_take.mp hpre]
      exact ⟨hp, List.prefix_append _ _⟩

end GramsTof.Codec
