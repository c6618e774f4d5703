import Mathlib.Data.List.Basic
import Mathlib.Algebra.Order.Ring.Int

/-! Reading from a connection: `GRAMS_TOF_FDManager::recvData` over the
non-blocking `::recv`, and `GRAMS_TOF_Client::recvData` with its own buffer
between the two. -/

namespace GramsTof.Net

/-- The bytes of a successful `::recv` into `n` bytes. -/
structure Chunk (n : ℕ) where
  bytes : List UInt8
  pos : 0 < bytes.length
  le : bytes.length ≤ n

/-- What one call of `FDManager::recvData` meets. `absent` is an unregistered or closed
descriptor; its flag says whether `errno`, left over from an earlier call, is `EAGAIN`. -/
inductive RecvResult (n : ℕ) where
  | data (chunk : Chunk n)
  | eof
  | wouldBlock
  | interrupted
  | error
  | absent (staleAgain : Bool)

/-- `FDManager::recvData`: the returned count and the bytes stored. -/
def FDManager.recvData {n : ℕ} : RecvResult n → ℤ × List UInt8
  | .data chunk => (chunk.bytes.length, chunk.bytes)
  | .eof => (0, [])
  | .wouldBlock => (0, [])
  | .interrupted => (0, [])
  | .error => (-1, [])
  | .absent _ => (-1, [])

/-- Whether `errno` reads `EWOULDBLOCK` or `EAGAIN` after a negative return. -/
def RecvResult.again {n : ℕ} : RecvResult n → Bool
  | .absent staleAgain => staleAgain
  | _ => false

/-- `uint8_t temp[1024]`. -/
def tempSize : ℕ := 1024

/-- Copy up to `size` bytes out of the client's buffer: count, bytes, and what stays. -/
def copyOut (size : ℕ) (readBuffer : List UInt8) : ℤ × List UInt8 × List UInt8 :=
  let toCopy := min size readBuffer.length
  (toCopy, readBuffer.take toCopy, readBuffer.drop toCopy)

/-- `Client::recvData`: the returned count, the bytes stored, and `readBuffer_` afterwards. -/
def Client.recvData (size : ℕ) (readBuffer : List UInt8) (r : RecvResult tempSize) :
    ℤ × List UInt8 × List UInt8 :=
  let (n, temp) := FDManager.recvData r
  if n > 0 then copyOut size (readBuffer ++ temp)
  else if n < 0 then
    if r.again then copyOut size readBuffer else (-1, [], readBuffer)
  else copyOut size readBuffer

/-- A read no larger than the destination passes straight through the client's buffer. -/
theorem Client.recvData_data (size : ℕ) (hsize : tempSize ≤ size) (c : Chunk tempSize) :
    Client.recvData size [] (.data c) = ((c.bytes.length : ℤ), c.bytes, []) := by
  have hpos := c.pos
  have hmin : min size c.bytes.length = c.bytes.length := Nat.min_eq_right (c.le.trans hsize)
  simp only [Client.recvData, FDManager.recvData, List.nil_append, copyOut, hmin, List.take_length,
    List.drop_length]
  rw [if_pos (by omega)]

end GramsTof.Net
