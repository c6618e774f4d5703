import GramsTof.EventClient.Send

/-! What a `true` of `sendPacket` is worth. The byte count that `sendData` returns is
read as a boolean, so that `-1`, its answer for every failure, counts as a success,
and `sendStatusCallback` does not try a lost callback again. -/

namespace GramsTof.EventClient

open Codec Lib Net

/-! ### One call -/

/-- When a call of `sendPacket` does not report a packet that it lost: there is no connection, or
the connection is registered under a descriptor that may be written to, and the kernel does not fail
before it has all `14 + 4 * argc` bytes. -/
def Honest (hubConnection : Option Client) (m : FDManager) (packet : Sendable)
    (rs : List SendResult) : Prop :=
  ∀ client, hubConnection = some client →
    2 < client.fd ∧ (m.clientFDs client.fd).isSome ∧
      (14 + 4 * packet.pkt.argc.toNat ≤ room rs ∨ ∀ r ∈ rs, r.fails = false)

theorem sendPacket_none (m : FDManager) (packet : Sendable) (rs : List SendResult) :
    sendPacket none m packet rs = ([], some false) := by
  rw [sendPacket]
  split_ifs <;> rfl

/-- With a connection object, every call that returns reports a success. -/
theorem sendPacket_some (client : Client) (m : FDManager) (packet : Sendable)
    (rs : List SendResult) :
    sendPacket (some client) m packet rs =
      if 2 < client.fd ∧ (m.clientFDs client.fd).isSome then
        (packet.bytes.take (room rs),
          if packet.bytes.length ≤ room rs ∨ ∃ r ∈ rs, r.fails = true then some true else none)
      else ([], some true) := by
  have hne : packet.bytes.isEmpty = false := List.isEmpty_eq_false_iff.mpr packet.bytes_ne_nil
  simp only [sendPacket, hne, Bool.false_eq_true, if_false, Client.sendData,
    FDManager.sendToClient]
  by_cases hneg : client.fd < 0
  · rw [if_pos hneg, if_neg (by omega)]
    rfl
  rw [if_neg hneg]
  cases hreg : m.clientFDs client.fd with
  | none => simp
  | some s =>
    have hfd := m.keyed _ _ hreg
    simp only [SafeFD.sendData, hfd, Option.isSome_some, and_true]
    by_cases hstd : client.fd ≤ 2
    · rw [if_pos hstd, if_neg (by omega)]
      rfl
    · rw [if_neg hstd, if_pos (by omega), sendLoop_fst, List.drop_zero,
        sendLoop_snd (Nat.zero_le _), Nat.zero_add]
      by_cases hroom : packet.bytes.length ≤ room rs
      · simp [hroom, packet.bytes_ne_nil]
      · by_cases hfail : ∃ r ∈ rs, r.fails = true <;> simp [hroom, hfail, List.any_eq_true]

theorem sendPacket_honest_iff (hub : Option Client) (m : FDManager) (packet : Sendable)
    (rs : List SendResult) :
    ((sendPacket hub m packet rs).2 = some true → (sendPacket hub m packet rs).1 = packet.bytes) ↔
      Honest hub m packet rs := by
  cases hub with
  | none => simp [sendPacket_none, Honest]
  | some client =>
    have hne : packet.bytes ≠ [] := packet.bytes_ne_nil
    simp only [sendPacket_some, Honest, Option.some.injEq, forall_eq', ← packet.length_bytes]
    by_cases hopen : 2 < client.fd ∧ (m.clientFDs client.fd).isSome
    · rw [if_pos hopen]
      simp only [hopen, true_and, List.take_eq_self_iff]
      by_cases hroom : packet.bytes.length ≤ room rs
      · simp [hroom]
      · by_cases hfail : ∃ r ∈ rs, r.fails = true
        · have hnot : ¬ ∀ r ∈ rs, r.fails = false := by
            obtain ⟨r, hr, hbad⟩ := hfail
            exact fun h => by simp [h r hr] at hbad
          simp [hroom, hfail, hnot]
        · have hall : ∀ r ∈ rs, r.fails = false := fun r hr =>
            Bool.eq_false_iff.mpr fun h => hfail ⟨r, hr, h⟩
          rw [if_neg (not_or.mpr ⟨hroom, hfail⟩)]
          exact ⟨fun _ => .inr hall, fun _ h => by cases h⟩
    · rw [if_neg hopen]
      constructor
      · intro h
        exact absurd (h rfl).symm hne
      · intro h
        exact absurd ⟨h.1, h.2.1⟩ hopen

/-! ### The attempts of a status callback -/

/-- An attempt: the connection it meets, and the results of its `::send` calls. -/
structure Attempt where
  link : Link
  results : List SendResult

def Attempt.send (a : Attempt) (cb : Sendable) : List UInt8 × Option Bool :=
  sendPacket a.link.hubConnection a.link.manager cb a.results

/-- The attempts made by the loop of `sendStatusCallback`, of those that there would be: another one
after each that reports a failure. -/
def retried (cb : Sendable) : ℕ → List Attempt → List Attempt
  | 0, _ => []
  | _ + 1, [] => []
  | n + 1, a :: as => a :: if (a.send cb).2 = some false then retried cb n as else []

/-- Another attempt after each that returned without having delivered the callback. -/
def redelivered (cb : Sendable) : ℕ → List Attempt → List Attempt
  | 0, _ => []
  | _ + 1, [] => []
  | n + 1, a :: as =>
    a :: if (a.send cb).2.isSome ∧ (a.send cb).1 ≠ cb.bytes then redelivered cb n as else []

/-- On one connection these are the calls of `sendStatusCallback`. -/
theorem sendStatusCallback_eq (l : Link) (code : UInt16) (status : UInt32)
    (attempts : List (List SendResult)) :
    sendStatusCallback l code status attempts =
      (retried (statusCallback code status) maxRetries (attempts.map (Attempt.mk l))).map
        fun a => .sendPacket (statusCallback code status) a.results := by
  rw [sendStatusCallback]
  -- with any number of attempts in place of `maxRetries`
  induction maxRetries generalizing attempts with
  | zero => rfl
  | succ n ih =>
    cases attempts with
    | nil => rfl
    | cons rs attempts =>
      rw [retry, List.map_cons, retried, List.map_cons]
      change _ :: (if (Attempt.send ⟨l, rs⟩ _).2 = some false then _ else _) = _
      by_cases hfalse : (Attempt.send ⟨l, rs⟩ (statusCallback code status)).2 = some false
      · rw [if_pos hfalse, if_pos hfalse, ih]
      · rw [if_neg hfalse, if_neg hfalse]
        rfl

/-- The attempts from the first that meets a connection. -/
def fromConnected (attempts : List Attempt) : List Attempt :=
  attempts.dropWhile fun a => a.link.hubConnection.isNone

theorem fromConnected_cons (a : Attempt) (as : List Attempt) :
    fromConnected (a :: as) =
      if a.link.hubConnection.isNone then fromConnected as else a :: as := List.dropWhile_cons

theorem send_disconnected {a : Attempt} (h : a.link.hubConnection.isNone = true) (cb : Sendable) :
    a.send cb = ([], some false) := by
  have hnone : a.link.hubConnection = none := Option.isNone_iff_eq_none.mp h
  rw [Attempt.send, hnone, sendPacket_none]

theorem send_connected {a : Attempt} (h : ¬ a.link.hubConnection.isNone = true) (cb : Sendable) :
    (a.send cb).2 = some true ∨ (a.send cb).2 = none := by
  have hsome : a.link.hubConnection ≠ none := fun hn => h (by rw [hn]; rfl)
  obtain ⟨client, hclient⟩ := Option.ne_none_iff_exists'.mp hsome
  rw [Attempt.send, hclient, sendPacket_some]
  split_ifs <;> simp

theorem redelivered_eq_nil {cb : Sendable} {n : ℕ} {attempts : List Attempt} :
    redelivered cb n attempts = [] ↔ attempts.take n = [] := by
  cases n with
  | zero => simp [redelivered]
  | succ n => cases attempts <;> simp [redelivered]

/-- The loop goes on as it should exactly when the first attempt on a connection, unless it is the
last one, does not report a lost packet. -/
theorem retried_eq_redelivered_iff (cb : Sendable) (n : ℕ) (attempts : List Attempt) :
    retried cb n attempts = redelivered cb n attempts ↔
      (fromConnected (attempts.take n)).length ≤ 1 ∨
        ∀ a ∈ (fromConnected (attempts.take n)).head?,
          Honest a.link.hubConnection a.link.manager cb a.results := by
  induction n generalizing attempts with
  | zero => simp [retried, redelivered, fromConnected]
  | succ n ih =>
    cases attempts with
    | nil => simp [retried, redelivered, fromConnected]
    | cons a attempts =>
      rw [retried, redelivered, List.cons_inj_right, List.take_succ_cons, fromConnected_cons]
      by_cases hdown : a.link.hubConnection.isNone = true
      · have hne : [] ≠ cb.bytes := cb.bytes_ne_nil.symm
        rw [if_pos hdown, send_disconnected hdown]
        simpa [hne] using ih attempts
      · have hnot : (a.send cb).2 ≠ some false := by
          rcases send_connected hdown cb with h | h <;> simp [h]
        rw [if_neg hdown, if_neg hnot]
        have hlast : (a :: attempts.take n).length ≤ 1 ↔ attempts.take n = [] := by
          rw [List.length_cons, ← List.length_eq_zero_iff]
          omega
        simp only [hlast, List.head?_cons, Option.mem_some_iff, forall_eq',
          ← sendPacket_honest_iff]
        change _ ↔ _ ∨ ((a.send cb).2 = some true → (a.send cb).1 = cb.bytes)
        rcases send_connected hdown cb with h | h
        · by_cases hall : (a.send cb).1 = cb.bytes
          · simp [hall]
          · rw [if_pos ⟨by rw [h]; rfl, hall⟩, eq_comm (a := []), redelivered_eq_nil]
            simp [h, hall]
        · simp [h]

/-- A reported success means a delivered packet exactly when the call is honest. The loop tries again
exactly what was not delivered when its first attempt on a connection is honest, or the last. -/
theorem sendPacket_true_delivered_iff (hub : Option Client) (m : FDManager) (packet : Sendable)
    (rs : List SendResult) (code : UInt16) (status : UInt32) (attempts : List Attempt) :
    (((sendPacket hub m packet rs).2 = some true → (sendPacket hub m packet rs).1 = packet.bytes) ↔
      Honest hub m packet rs) ∧
    (retried (statusCallback code status) maxRetries attempts =
        redelivered (statusCallback code status) maxRetries attempts ↔
      (fromConnected (attempts.take maxRetries)).length ≤ 1 ∨
        ∀ a ∈ (fromConnected (attempts.take maxRetries)).head?,
          Honest a.link.hubConnection a.link.manager (statusCallback code status) a.results) :=
  ⟨sendPacket_honest_iff hub m packet rs, retried_eq_redelivered_iff _ maxRetries attempts⟩

/-- A full socket buffer: nothing is sent, and `sendPacket` says it was. -/
theorem sendPacket_true_lost :
    ¬ ((sendPacket (some ⟨5⟩) (Client.new 5 .empty).2 (statusCallback 0x5001 0) [.eagain]).2 =
          some true →
        (sendPacket (some ⟨5⟩) (Client.new 5 .empty).2 (statusCallback 0x5001 0) [.eagain]).1 =
          (statusCallback 0x5001 0).bytes) := by
  rw [sendPacket_honest_iff]
  intro h
  obtain ⟨-, -, h⟩ := h _ rfl
  simp [statusCallback, SendResult.fails] at h

end GramsTof.EventClient
