import GramsTof.Codec.Bytes
import Mathlib.Tactic.Ring

/-! The command packet codec. A packet on the wire is two header words, code,
argument count, the arguments, a CRC-16 over all of these, and two footer words.
`parse` is modelled over a read-recording buffer, so that how far it looks into
the data is part of the result. -/

namespace GramsTof.Codec

open Lib

/-- `GRAMS_TOF_CommandCodec::Packet`. `argc` is kept apart from the length of `argv`. -/
structure Packet where
  code : UInt16
  argc : UInt16
  argv : List UInt32
  deriving DecidableEq, Repr, Inhabited

/-- The count field agrees with the arguments carried. -/
def Packet.WellSized (p : Packet) : Prop := p.argc.toNat = p.argv.length

instance (p : Packet) : Decidable p.WellSized := inferInstanceAs (Decidable (_ = _))

/-- `SIZE_MAX` of the 64-bit targets. -/
def sizeMax : ℕ := 2 ^ 64 - 1

/-! ### CRC-16, reflected polynomial 0x8408 -/

/-- One turn of the inner loop. -/
def crcBit (crc : UInt16) : UInt16 :=
  if crc &&& 1 ≠ 0 then (crc >>> 1) ^^^ 0x8408 else crc >>> 1

/-- One turn of the outer loop. -/
def crcByte (crc : UInt16) (b : UInt8) : UInt16 := crcBit^[8] (crc ^^^ b.toUInt16)

def computeCRC16_CCITT_8408 (data : List UInt8) (len : ℕ) : Traced UInt16 :=
  (List.range len).foldlM (fun crc i => do
    let b ← Traced.read data i
    pure (crcByte crc b)) 0

/-! ### Encoder -/

/-- `serialize`; `none` is the out-of-range read of `argv` when `argc` exceeds its size. -/
def serialize (pkt : Packet) (fixedCrc : Option UInt16) : Option (List UInt8) := do
  let buf := write16 [] 0xEB90
  let buf := write16 buf 0x5B6A
  let buf := write16 buf pkt.code
  let buf := write16 buf pkt.argc
  let buf ← (List.range pkt.argc.toNat).foldlM (fun buf i => (pkt.argv[i]?).map (write32 buf)) buf
  let crc := match fixedCrc with
    | some crc => crc
    | none => (computeCRC16_CCITT_8408 buf buf.length).val
  let buf := write16 buf crc
  let buf := write16 buf 0xC5A4
  let buf := write16 buf 0xD279
  pure buf

def fixedOverhead : ℕ := 14

def argSize : ℕ := 4

def getPacketSize (packet : Packet) : ℕ := fixedOverhead + packet.argc.toNat * argSize

/-! ### Decoder -/

/-- The `MAX_ARGC` of `parse`. -/
def maxArgc : ℕ := 0xFFFF

/-- `parse`: the returned flag and the output packet after the call. -/
def parse (data : List UInt8) (outPacket : Packet) : Traced (Bool × Packet) :=
  if data.length < 12 then pure (false, outPacket) else do
  let header1 ← read16 data 0
  let header2 ← read16 data 2
  if header1 ≠ 0xEB90 ∨ header2 ≠ 0x5B6A then pure (false, outPacket) else do
  let code ← read16 data 4
  let argc ← read16 data 6
  if argc.toNat > maxArgc then pure (false, outPacket) else
  if argc.toNat > (sizeMax - 8) / 4 then pure (false, outPacket) else
  let payloadSize := 8 + argc.toNat * 4
  if payloadSize > sizeMax - 6 then pure (false, outPacket) else
  let expectedSize := payloadSize + 2 + 2 + 2
  if data.length < expectedSize then pure (false, outPacket) else do
  let receivedCRC ← read16 data payloadSize
  let computedCRC ← computeCRC16_CCITT_8408 data payloadSize
  if receivedCRC ≠ computedCRC then pure (false, outPacket) else do
  let footer1 ← read16 data (payloadSize + 2)
  let footer2 ← read16 data (payloadSize + 4)
  if footer1 ≠ 0xC5A4 ∨ footer2 ≠ 0xD279 then pure (false, outPacket) else do
  let argv ← (List.range argc.toNat).foldlM (fun argv i => do
    let arg ← read32 data (8 + i * 4)
    pure (argv ++ [arg])) []
  pure (true, ⟨code, argc, argv⟩)

/-- The packet of an accepting call. -/
def accepted (data : List UInt8) : Option Packet :=
  match (parse data default).val with
  | (true, p) => some p
  | (false, _) => none

/-! ### The canonical encoding -/

/-- Everything the CRC covers. -/
def payload (p : Packet) : List UInt8 :=
  bytes16 0xEB90 ++ bytes16 0x5B6A ++ bytes16 p.code ++ bytes16 p.argc ++ p.argv.flatMap bytes32

/-- The CRC-16 of a byte string. -/
def crc16 (bytes : List UInt8) : UInt16 := bytes.foldl crcByte 0

/-- The canonical encoding of a packet whose count field is right. -/
def wire (p : Packet) : List UInt8 :=
  payload p ++ bytes16 (crc16 (payload p)) ++ bytes16 0xC5A4 ++ bytes16 0xD279

theorem length_flatMap_bytes32 (ws : List UInt32) : (ws.flatMap bytes32).length = 4 * ws.length := by
  induction ws with
  | nil => rfl
  | cons w ws ih =>
    rw [List.flatMap_cons, List.length_append, ih, length_bytes32, List.length_cons]
    ring

theorem length_payload (p : Packet) : (payload p).length = 8 + 4 * p.argv.length := by
  simp only [payload, List.length_append, length_bytes16, length_flatMap_bytes32]

theorem length_wire (p : Packet) : (wire p).length = 14 + 4 * p.argv.length := by
  simp only [wire, List.length_append, length_payload, length_bytes16]
  ring

theorem getPacketSize_eq {p : Packet} (h : p.WellSized) : getPacketSize p = (wire p).length := by
  rw [length_wire, getPacketSize, h, fixedOverhead, argSize, mul_comm]

theorem crc_val {data : List UInt8} {len : ℕ} (h : len ≤ data.length) :
    (computeCRC16_CCITT_8408 data len).val = crc16 (data.take len) := by
  rw [computeCRC16_CCITT_8408, Traced.foldlM_val, crc16]
  induction len with
  | zero => rfl
  | succ n ih =>
    rw [List.range_succ, List.foldl_append, ih (by omega), List.take_succ_eq_append_getElem (by omega),
      List.foldl_append]
    simp [Traced.read_val, List.getD_eq_getElem?_getD, List.getElem?_eq_getElem (show n < data.length by omega)]

theorem crc_reads (data : List UInt8) (len : ℕ) :
    (computeCRC16_CCITT_8408 data len).reads = List.range len := by
  rw [computeCRC16_CCITT_8408, Traced.foldlM_reads (g := fun i => [i]) (by intro b a; rfl)]
  simp

/-- The argument loop of the encoder writes the first `n` arguments, when it has them. -/
theorem foldlM_write32 (argv : List UInt32) (buf : List UInt8) (n : ℕ) :
    (List.range n).foldlM (fun buf i => (argv[i]?).map (write32 buf)) buf =
      if n ≤ argv.length then some (buf ++ (argv.take n).flatMap bytes32) else none := by
  induction n with
  | zero => simp
  | succ n ih =>
    rw [List.range_succ, List.foldlM_append, ih]
    by_cases hn : n + 1 ≤ argv.length
    · have hlt : n < argv.length := by omega
      rw [if_pos (by omega), if_pos hn, List.take_succ_eq_append_getElem hlt,
        List.flatMap_append, List.flatMap_singleton, ← List.append_assoc]
      simp [List.getElem?_eq_getElem hlt, write32]
    · rw [if_neg hn]
      split_ifs with h
      · simp [List.getElem?_eq_none (show argv.length ≤ n by omega)]
      · rfl

/-- The packet that the bytes of a serialized packet describe. -/
def Packet.sent (p : Packet) : Packet := { p with argv := p.argv.take p.argc.toNat }

theorem Packet.sent_eq {p : Packet} (h : p.WellSized) : p.sent = p := by
  rw [Packet.WellSized] at h
  rw [Packet.sent, h, List.take_length]

/-- A packet that has the arguments it counts is written as the canonical encoding of these. -/
theorem serialize_eq_ite (p : Packet) :
    serialize p none =
      if p.argc.toNat ≤ p.argv.length then some (wire p.sent) else none := by
  simp only [serialize, foldlM_write32]
  split_ifs
  · simp only [Option.bind_eq_bind, Option.bind_some, Option.pure_def, crc_val le_rfl,
      List.take_length, write16, List.nil_append]
    rfl
  · rfl

theorem serialize_eq_some {p : Packet} {bytes : List UInt8} (h : serialize p none = some bytes) :
    p.sent.WellSized ∧ bytes = wire p.sent := by
  rw [serialize_eq_ite] at h
  split_ifs at h with hle
  cases h
  exact ⟨by rw [Packet.WellSized, Packet.sent, List.length_take, Nat.min_eq_left hle], rfl⟩

theorem serialize_eq_wire {p : Packet} (h : p.WellSized) : serialize p none = some (wire p) := by
  rw [serialize_eq_ite, if_pos h.le, Packet.sent_eq h]

end GramsTof.Codec
