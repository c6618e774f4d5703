import GramsTof.Net.Recv
import Mathlib.Logic.Function.Basic

/-! `GRAMS_TOF_FDManager`: the registered server and client descriptors, what
each operation closes, and the sending loop of `SafeFD`. -/

namespace GramsTof.Net

inductive ServerKind where
  | command
  | event
  | daq
  deriving DecidableEq, Repr

/-- `SafeFD`: the number held, or `-1`. -/
structure SafeFD where
  fd : ℤ
  deriving DecidableEq, Repr

/-- The number `::close` is called with when a `SafeFD` gives up `old`. -/
def SafeFD.closing (old : ℤ) : Option ℤ := if old > 2 then some old else none

def SafeFD.setFD (s : SafeFD) (fd : ℤ) : SafeFD × Option ℤ := (⟨fd⟩, closing s.fd)

def SafeFD.closeFD (s : SafeFD) : SafeFD × Option ℤ := (⟨-1⟩, closing s.fd)

/-- The two registries. No operation changes the number of a registered client. -/
structure FDManager where
  serverFDs : ServerKind → SafeFD
  clientFDs : ℤ → Option SafeFD
  keyed : ∀ fd s, clientFDs fd = some s → s.fd = fd

namespace FDManager

def empty : FDManager := ⟨fun _ => ⟨-1⟩, fun _ => none, by simp⟩

/-- The manager afterwards, and the number closed. -/
def setServerFD (m : FDManager) (kind : ServerKind) (fd : ℤ) : FDManager × Option ℤ :=
  let (s, closed) := (m.serverFDs kind).setFD fd
  ({ m with serverFDs := Function.update m.serverFDs kind s }, closed)

def removeServerFD (m : FDManager) (kind : ServerKind) : FDManager × Option ℤ :=
  let (s, closed) := (m.serverFDs kind).closeFD
  ({ m with serverFDs := Function.update m.serverFDs kind s }, closed)

theorem keyed_insert (m : FDManager) (fd n : ℤ) (s : SafeFD)
    (h : Function.update m.clientFDs fd (some ⟨fd⟩) n = some s) : s.fd = n := by
  by_cases hn : n = fd
  · subst hn
    rw [Function.update_self] at h
    cases h
    rfl
  · rw [Function.update_of_ne hn] at h
    exact m.keyed n s h

theorem keyed_erase (m : FDManager) (fd n : ℤ) (s : SafeFD)
    (h : Function.update m.clientFDs fd none n = some s) : s.fd = n := by
  by_cases hn : n = fd
  · subst hn
    rw [Function.update_self] at h
    cases h
  · rw [Function.update_of_ne hn] at h
    exact m.keyed n s h

def addClientFD (m : FDManager) (fd : ℤ) : FDManager :=
  match m.clientFDs fd with
  | some _ => m
  | none =>
    { m with clientFDs := Function.update m.clientFDs fd (some ⟨fd⟩), keyed := m.keyed_insert fd }

/-- Erasing the entry runs `~SafeFD`. -/
def removeClientFD (m : FDManager) (fd : ℤ) : FDManager × Option ℤ :=
  match m.clientFDs fd with
  | some s =>
    ({ m with clientFDs := Function.update m.clientFDs fd none, keyed := m.keyed_erase fd },
      s.closeFD.2)
  | none => (m, none)

/-- Erasing a client closes the number it is registered under, or nothing. -/
theorem removeClientFD_closed (m : FDManager) (fd : ℤ) :
    (m.removeClientFD fd).2 = none ∨ (m.removeClientFD fd).2 = SafeFD.closing fd := by
  rw [removeClientFD]
  split
  · rename_i s hs
    exact .inr (by rw [SafeFD.closeFD, m.keyed fd s hs])
  · exact .inl rfl

theorem removeServerFD_server (m : FDManager) (kind k : ServerKind) :
    ((m.removeServerFD kind).1.serverFDs k).fd = if k = kind then -1 else (m.serverFDs k).fd := by
  by_cases hk : k = kind
  · subst hk; simp [removeServerFD, SafeFD.closeFD]
  · simp [removeServerFD, hk]

theorem setServerFD_server (m : FDManager) (kind k : ServerKind) (fd : ℤ) :
    ((m.setServerFD kind fd).1.serverFDs k).fd = if k = kind then fd else (m.serverFDs k).fd := by
  by_cases hk : k = kind
  · subst hk; simp [setServerFD, SafeFD.setFD]
  · simp [setServerFD, hk]

@[simp] theorem removeClientFD_server (m : FDManager) (fd : ℤ) :
    (m.removeClientFD fd).1.serverFDs = m.serverFDs := by
  rw [removeClientFD]
  split <;> rfl

@[simp] theorem addClientFD_server (m : FDManager) (fd : ℤ) :
    (m.addClientFD fd).serverFDs = m.serverFDs := by
  rw [addClientFD]
  split <;> rfl

end FDManager

/-! ### Sending -/

/-- What one call of `::send` returns. -/
inductive SendResult where
  /-- The kernel takes `n` of the bytes offered, or all when there are fewer. -/
  | count (n : ℕ)
  | eintr
  | eagain
  | error
  deriving DecidableEq, Repr

/-- The send loop on `data` of which `total` bytes are out: the further bytes the kernel takes, and
the value returned. It is `none` when the results end before the loop does. -/
def sendLoop (data : List UInt8) : ℕ → List SendResult → List UInt8 × Option ℤ
  | total, [] => ([], if total < data.length then none else some total)
  | total, r :: rs =>
    if total < data.length then
      match r with
      | .count n =>
        let n := min n (data.length - total)
        let (bytes, ret) := sendLoop data (total + n) rs
        ((data.drop total).take n ++ bytes, ret)
      | .eintr => sendLoop data total rs
      | .eagain => ([], some (-1))
      | .error => ([], some (-1))
    else ([], some total)

def SafeFD.sendData (s : SafeFD) (data : List UInt8) (rs : List SendResult) :
    List UInt8 × Option ℤ :=
  if s.fd ≤ 2 then ([], some (-1)) else sendLoop data 0 rs

def FDManager.sendToClient (m : FDManager) (fd : ℤ) (data : List UInt8) (rs : List SendResult) :
    List UInt8 × Option ℤ :=
  match m.clientFDs fd with
  | none => ([], some (-1))
  | some s => s.sendData data rs

/-- `GRAMS_TOF_Client`, as far as sending and closing go. -/
structure Client where
  fd : ℤ
  deriving DecidableEq, Repr

def Client.sendData (c : Client) (m : FDManager) (data : List UInt8) (rs : List SendResult) :
    List UInt8 × Option ℤ :=
  if c.fd < 0 then ([], some (-1)) else m.sendToClient c.fd data rs

/-- `GRAMS_TOF_Client::closeFD`: the client and the manager afterwards, and the number closed. -/
def Client.closeFD (c : Client) (m : FDManager) : Client × FDManager × Option ℤ :=
  if c.fd ≥ 0 then
    let (m, closed) := m.removeClientFD c.fd
    (⟨-1⟩, m, closed)
  else (c, m, none)

/-- The constructor of `GRAMS_TOF_Client`. -/
def Client.new (fd : ℤ) (m : FDManager) : Client × FDManager :=
  if fd ≥ 0 then (⟨fd⟩, m.addClientFD fd) else (⟨fd⟩, m)

/-! ### What a sequence of results sends -/

/-- `EAGAIN`, or another error than `EINTR`. -/
def SendResult.fails : SendResult → Bool
  | .eagain => true
  | .error => true
  | _ => false

def SendResult.amount : SendResult → ℕ
  | .count n => n
  | _ => 0

/-- The bytes the kernel would take before the first failure. -/
def room (rs : List SendResult) : ℕ := ((rs.takeWhile fun r => !r.fails).map SendResult.amount).sum

@[simp] theorem room_count (n : ℕ) (rs : List SendResult) : room (.count n :: rs) = n + room rs := by
  simp [room, SendResult.fails, SendResult.amount]

@[simp] theorem room_eintr (rs : List SendResult) : room (.eintr :: rs) = room rs := by
  simp [room, SendResult.fails, SendResult.amount]

@[simp] theorem room_eagain (rs : List SendResult) : room (.eagain :: rs) = 0 := rfl

@[simp] theorem room_error (rs : List SendResult) : room (.error :: rs) = 0 := rfl

theorem sendLoop_done {data : List UInt8} {total : ℕ} (h : data.length ≤ total)
    (rs : List SendResult) : sendLoop data total rs = ([], some (total : ℤ)) := by
  cases rs <;> simp [sendLoop, Nat.not_lt.mpr h]

/-- The kernel gets the next bytes of the data, as many as it has room for. -/
theorem sendLoop_fst (data : List UInt8) (total : ℕ) (rs : List SendResult) :
    (sendLoop data total rs).1 = (data.drop total).take (room rs) := by
  induction rs generalizing total with
  | nil => rfl
  | cons r rs ih =>
    by_cases hlt : total < data.length
    · cases r with
      | count n =>
        simp only [sendLoop, if_pos hlt, ih, room_count]
        by_cases hn : n ≤ data.length - total
        · rw [Nat.min_eq_left hn, ← List.drop_drop, List.take_add]
        · rw [Nat.min_eq_right (by omega), List.drop_eq_nil_of_le (i := total + _) (by omega),
            List.take_nil, List.append_nil, List.take_of_length_le (by simp),
            List.take_of_length_le (by simp; omega)]
      | eintr => simp only [sendLoop, if_pos hlt, ih, room_eintr]
      | eagain => simp [sendLoop, hlt]
      | error => simp [sendLoop, hlt]
    · rw [sendLoop_done (by omega), List.drop_eq_nil_of_le (by omega), List.take_nil]

/-- The loop returns the size when there is room for all of the data and `-1` when a failure comes
first; it has not returned when neither happened. -/
theorem sendLoop_snd {data : List UInt8} {total : ℕ} (htotal : total ≤ data.length)
    (rs : List SendResult) :
    (sendLoop data total rs).2 =
      if data.length ≤ total + room rs then some (data.length : ℤ)
      else if rs.any SendResult.fails then some (-1) else none := by
  by_cases hlt : total < data.length
  · induction rs generalizing total with
    | nil => simp [sendLoop, hlt, room]
    | cons r rs ih =>
      cases r with
      | count n =>
        simp only [sendLoop, if_pos hlt, room_count, List.any_cons]
        by_cases hn : n < data.length - total
        · rw [Nat.min_eq_left hn.le, ih (by omega) (by omega), Nat.add_assoc]
          rfl
        · rw [sendLoop_done (by omega), if_pos (by omega),
            show total + min n (data.length - total) = data.length by omega]
      | eintr =>
        simp only [sendLoop, if_pos hlt, room_eintr, List.any_cons]
        rw [ih htotal hlt]
        rfl
      | eagain => simp [sendLoop, hlt, SendResult.fails]
      | error => simp [sendLoop, hlt, SendResult.fails]
  · rw [sendLoop_done (by omega), if_pos (by omega), show total = data.length by omega]

theorem Client.sendData_prefix (c : Client) (m : FDManager) (data : List UInt8)
    (rs : List SendResult) : (c.sendData m data rs).1 <+: data := by
  rw [Client.sendData, FDManager.sendToClient]
  split_ifs
  · exact List.nil_prefix
  · cases m.clientFDs c.fd with
    | none => exact List.nil_prefix
    | some s =>
      simp only [SafeFD.sendData]
      split_ifs
      · exact List.nil_prefix
      · rw [sendLoop_fst]
        exact List.take_prefix _ _

theorem Client.new_registered {fd : ℤ} (hfd : 0 ≤ fd) (m : FDManager) :
    (Client.new fd m).1 = ⟨fd⟩ ∧ (Client.new fd m).2.clientFDs fd = some ⟨fd⟩ := by
  rw [Client.new, if_pos hfd]
  refine ⟨rfl, ?_⟩
  simp only [FDManager.addClientFD]
  split
  · rename_i s hs
    rw [hs, ← m.keyed fd s hs]
  · simp

end GramsTof.Net
