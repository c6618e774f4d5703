import GramsTof.Telemetry.MonitorCodec

/-! `GRAMS_TOF_LogCodec`: log entries as packets, the message clamped and packed
four bytes to a word. -/

namespace GramsTof.Telemetry

open Codec Lib

/-- `MAX_LOG_LENGTH`. -/
def maxLogLength : ℕ := 10000

/-- `"... [TRUNCATED]"`. -/
def truncatedMark : List UInt8 :=
  [0x2E, 0x2E, 0x2E, 0x20, 0x5B, 0x54, 0x52, 0x55, 0x4E, 0x43, 0x41, 0x54, 0x45, 0x44, 0x5D]

@[ext]
structure LogData where
  runNumber : UInt32
  timestampMs : UInt64
  level : UInt8
  component : Name
  message : List UInt8
  deriving DecidableEq

/-- `TOFCommandCode::LOGGER_DATA_STREAM`. -/
def loggerDataStream : UInt16 := 0x5401

/-- The `safe_msg` of `encode`. -/
def safeMsg (message : List UInt8) : List UInt8 :=
  if message.length > maxLogLength then message.take maxLogLength ++ truncatedMark else message

def LogData.encode (host : Host) (data : LogData) : Packet :=
  let msg := safeMsg data.message
  let msgLen := UInt32.ofNat msg.length
  let argv := [data.runNumber]
  let argv := argv ++ [((data.timestampMs >>> 32) &&& 0xFFFFFFFF).toUInt32]
  let argv := argv ++ [(data.timestampMs &&& 0xFFFFFFFF).toUInt32]
  let argv := argv ++ [data.level.toUInt32]
  let argv := argv ++ [msgLen]
  let argv := argv ++ nameWords host data.component
  -- each word starts as zero and takes `min(4, msg_len - i * 4)` bytes
  let argv := argv ++ host.rep.load ((msgLen + 3) / 4).toNat msg
  ⟨loggerDataStream, UInt16.ofNat argv.length, argv⟩

/-- The returned flag and `outData` after the call; no result when the message runs past the end of
`argv`, for a length whose `msg_len + 3` wraps around. -/
def LogData.decode (host : Host) (packet : Packet) (outData : LogData) : Option (Bool × LogData) :=
  if h : packet.argv.length < 9 then some (false, outData)
  else
    let outData := { outData with
      runNumber := packet.argv[0]
      timestampMs := joinWords packet.argv[1] packet.argv[2]
      level := (packet.argv[3] &&& 0xFF).toUInt8 }
    let msgLen := packet.argv[4]
    let requiredWords := 9 + ((msgLen + 3) / 4).toNat
    if packet.argv.length < requiredWords then some (false, outData)
    else
      let component := (copyName host packet.argv 5 (by omega)).set 15 0
      let cells := host.rep.memory (packet.argv.drop 9)
      if msgLen.toNat ≤ cells.length then
        some (true, { outData with component := component, message := cells.take msgLen.toNat })
      else none

/-- What arrives of an entry: the component is terminated and the message clamped. -/
def LogData.clamped (v : LogData) : LogData :=
  { v with component := v.component.set 15 0, message := safeMsg v.message }

/-! ### The message -/

theorem length_truncatedMark : truncatedMark.length = 15 := rfl

theorem length_safeMsg (message : List UInt8) :
    (safeMsg message).length = if message.length ≤ 10000 then message.length else 10015 := by
  have hmax : maxLogLength = 10000 := rfl
  rw [safeMsg, hmax]
  split_ifs with h h' h'
  · omega
  · rw [List.length_append, List.length_take_of_le (by omega), length_truncatedMark]
  · rfl
  · omega

theorem length_safeMsg_le (message : List UInt8) : (safeMsg message).length ≤ 10015 := by
  rw [length_safeMsg]
  split_ifs <;> omega

theorem safeMsg_of_le {message : List UInt8} (h : message.length ≤ 10000) :
    safeMsg message = message := if_neg (by rw [maxLogLength]; omega)

/-- The number of message words. -/
def msgWords (message : List UInt8) : ℕ := ((safeMsg message).length + 3) / 4

theorem msgWords_eq (message : List UInt8) :
    ((UInt32.ofNat (safeMsg message).length + 3) / 4).toNat = msgWords message := by
  have h := length_safeMsg_le message
  simp only [UInt32.toNat_div, UInt32.toNat_add, UInt32.toNat_ofNat', UInt32.reduceToNat, msgWords]
  omega

/-- The words of a log entry. -/
def LogData.words (host : Host) (v : LogData) : List UInt32 :=
  [v.runNumber, highWord v.timestampMs, lowWord v.timestampMs, v.level.toUInt32,
    UInt32.ofNat (safeMsg v.message).length] ++ (nameWords host v.component ++
    host.rep.load (msgWords v.message) (safeMsg v.message))

theorem highWord_mask (bits : UInt64) :
    ((bits >>> 32) &&& 0xFFFFFFFF).toUInt32 = highWord bits := by
  have h := highWord_toNat bits
  have hlt := bits.toNat_lt
  apply UInt32.toNat_inj.mp
  simp only [h, UInt64.toNat_toUInt32, UInt64.toNat_and, UInt64.toNat_shiftRight,
    UInt64.reduceToNat, Nat.reduceMod, Nat.shiftRight_eq_div_pow]
  rw [show (4294967295 : ℕ) = 2 ^ 32 - 1 from rfl, Nat.and_two_pow_sub_one_eq_mod]
  omega

theorem LogData.encode_eq (host : Host) (v : LogData) :
    v.encode host =
      ⟨loggerDataStream, UInt16.ofNat (v.words host).length, v.words host⟩ := by
  simp only [encode, msgWords_eq, highWord_mask, words, List.cons_append, List.nil_append,
    lowWord]

theorem LogData.length_words (host : Host) (v : LogData) :
    (v.words host).length = 9 + msgWords v.message := by
  simp only [words, List.length_append, List.length_cons, List.length_nil, length_nameWords,
    WordRep.length_load]
  omega

theorem LogData.length_words_le (host : Host) (v : LogData) : (v.words host).length ≤ 2513 := by
  have h := length_safeMsg_le v.message
  rw [length_words, msgWords]
  omega

theorem LogData.encode_wellSized (host : Host) (v : LogData) : (v.encode host).WellSized := by
  have h := v.length_words_le host
  rw [encode_eq]
  simp only [Packet.WellSized, UInt16.toNat_ofNat']
  omega

theorem level_of_word (level : UInt8) : (level.toUInt32 &&& 0xFF).toUInt8 = level := by
  have h := level.toNat_lt
  apply UInt8.toNat_inj.mp
  simp only [UInt32.toNat_toUInt8, UInt32.toNat_and, UInt8.toNat_toUInt32, UInt32.reduceToNat]
  rw [show (255 : ℕ) = 2 ^ 8 - 1 from rfl, Nat.and_two_pow_sub_one_eq_mod]
  omega

theorem LogData.decode_encode (host : Host) (v out : LogData) :
    LogData.decode host (v.encode host) out = some (true, v.clamped) := by
  have hlen := v.length_words host
  have hmsg := length_safeMsg_le v.message
  have hroom : (safeMsg v.message).length ≤ msgWords v.message * host.rep.width := by
    rw [msgWords, host.rep_width]
    omega
  have hcells : (v.words host).drop 9 =
      host.rep.load (msgWords v.message) (safeMsg v.message) := by
    simp [words]
  have hcount : (v.words host)[4].toNat = (safeMsg v.message).length := by
    simp only [words, List.getElem_cons_succ, List.getElem_cons_zero, List.cons_append]
    rw [UInt32.toNat_ofNat']
    omega
  have hrequired : (((v.words host)[4] + 3) / 4).toNat = msgWords v.message := by
    simpa [words] using msgWords_eq v.message
  have hfits : (safeMsg v.message).length ≤
      (host.rep.memory (host.rep.load (msgWords v.message) (safeMsg v.message))).length := by
    rw [host.rep.length_memory, WordRep.length_load]
    exact hroom
  have hdrop : (v.words host).drop 5 = nameWords host v.component ++
      host.rep.load (msgWords v.message) (safeMsg v.message) := rfl
  simp only [encode_eq, decode, hcells, hcount, hrequired]
  rw [dif_neg (by omega), if_neg (by omega), if_pos hfits]
  congr 2
  ext1
  case runNumber => rfl
  case timestampMs => exact joinWords_split v.timestampMs
  case level => exact level_of_word v.level
  case component =>
    change (copyName host (v.words host) 5 _).set 15 0 = v.component.set 15 0
    rw [copyName_of_drop host (by omega) hdrop]
  case message => exact host.rep.take_memory_load hroom

/-- Log entries of any message come back from the wire clamped, and an entry that came back comes
back again as it is unless its message was cut. -/
theorem log_round_trip (host : Host) (v out out' : LogData) (outPacket : Packet) :
    ∃ bytes p w, serialize (v.encode host) none = some bytes ∧
      (parse bytes outPacket).val = (true, p) ∧
      LogData.decode host p out = some (true, w) ∧
      w.runNumber = v.runNumber ∧ w.timestampMs = v.timestampMs ∧ w.level = v.level ∧
      w.component = v.component.set 15 0 ∧
      w.message = (if v.message.length ≤ 10000 then v.message
        else v.message.take 10000 ++ truncatedMark) ∧
      (w.message.length ≤ 10000 → LogData.decode host (w.encode host) out' = some (true, w)) := by
  have hwell := v.encode_wellSized host
  refine ⟨_, _, v.clamped, serialize_eq_wire hwell, parse_wire hwell outPacket,
    v.decode_encode host out, rfl, rfl, rfl, rfl, ?_, fun hmsg => ?_⟩
  · change safeMsg v.message = _
    rw [safeMsg, maxLogLength]
    split_ifs <;> first | rfl | omega
  · have hsame : v.clamped.clamped = v.clamped := by
      ext1
      case runNumber => rfl
      case timestampMs => rfl
      case level => rfl
      case component => simp [LogData.clamped]
      case message => exact safeMsg_of_le hmsg
    rw [LogData.decode_encode, hsame]

end GramsTof.Telemetry
