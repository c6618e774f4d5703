import GramsTof.Codec.Bytes
import GramsTof.Lib.Words

/-! The order in which the flight computer keeps the bytes of a word, which is
what a `memcpy` between a character array and an array of words depends on. -/

namespace GramsTof.Telemetry

open Codec Lib

/-- The byte order of a machine. -/
inductive Host where
  | little
  | big
  deriving DecidableEq, Repr

namespace Host

/-- The four bytes of a `uint32_t` object. -/
def bytes : Host → UInt32 → List UInt8
  | little, w => (bytes32 w).reverse
  | big, w => bytes32 w

/-- The `uint32_t` whose object has the given four bytes. -/
def word : Host → List UInt8 → UInt32
  | little, [b0, b1, b2, b3] => pack32 b3 b2 b1 b0
  | big, [b0, b1, b2, b3] => pack32 b0 b1 b2 b3
  | _, _ => 0

theorem word_bytes (host : Host) (w : UInt32) : host.word (host.bytes w) = w := by
  cases host <;> exact pack32_bytes32 w

theorem bytes_word (host : Host) {bs : List UInt8} (h : bs.length = 4) :
    host.bytes (host.word bs) = bs := by
  obtain ⟨b0, b1, b2, b3, rfl⟩ := List.length_eq_four.mp h
  cases host
  · rw [word, bytes, bytes32_pack32]
    rfl
  · rw [word, bytes, bytes32_pack32]

/-- Words of the machine as strings of bytes. -/
def rep (host : Host) : WordRep UInt8 UInt32 where
  width := 4
  blank := 0
  bytes := host.bytes
  word := host.word
  length_bytes w := by cases host <;> rfl
  word_bytes := host.word_bytes
  bytes_word _ := host.bytes_word

@[simp] theorem rep_width (host : Host) : host.rep.width = 4 := rfl

end Host

/-- A `char[16]`. -/
abbrev Name := Vector UInt8 16

/-- The four words that `memcpy` makes of a name. -/
def nameWords (host : Host) (name : Name) : List UInt32 := host.rep.load 4 name.toList

/-- `pushName`. -/
def pushName (host : Host) (argv : List UInt32) (name : Name) : List UInt32 :=
  argv ++ nameWords host name

/-- `copyName`: sixteen bytes from the words that begin at `startIdx`. -/
def copyName (host : Host) (argv : List UInt32) (startIdx : ℕ) (h : startIdx + 4 ≤ argv.length) :
    Name where
  toArray := ((host.rep.memory (argv.drop startIdx)).take 16).toArray
  size_toArray := by
    rw [List.size_toArray, List.length_take, host.rep.length_memory, List.length_drop,
      host.rep_width]
    omega

@[simp] theorem length_nameWords (host : Host) (name : Name) :
    (nameWords host name).length = 4 := by simp [nameWords]

theorem memory_nameWords (host : Host) (name : Name) :
    host.rep.memory (nameWords host name) = name.toList := by
  have hlen : name.toList.length = 16 := Vector.length_toList
  have hroom : name.toList.length ≤ 4 * host.rep.width := by rw [hlen, host.rep_width]
  rw [nameWords, host.rep.memory_load hroom, hlen, host.rep_width, Nat.sub_self, List.replicate_zero, List.append_nil]

/-- The name copied out of the words it was copied to. -/
theorem copyName_of_drop (host : Host) {argv rest : List UInt32} {startIdx : ℕ} {name : Name}
    (h : startIdx + 4 ≤ argv.length) (hdrop : argv.drop startIdx = nameWords host name ++ rest) :
    copyName host argv startIdx h = name := by
  have hlen : name.toList.length = 16 := Vector.length_toList
  apply Vector.toList_inj.mp
  change (((host.rep.memory (argv.drop startIdx)).take 16).toArray).toList = name.toList
  rw [hdrop, WordRep.memory, List.flatMap_append]
  change ((host.rep.memory (nameWords host name) ++ _).take 16) = name.toList
  rw [memory_nameWords, List.take_left' hlen]

end GramsTof.Telemetry
