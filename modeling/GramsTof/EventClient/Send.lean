import GramsTof.Codec.Packet
import GramsTof.Lib.Writes
import GramsTof.Net.FDManager
import Mathlib.Data.List.TakeDrop

/-! `GRAMS_TOF_EventClient::sendPacket` on one connection, and the bytes that
the calls on it put on the wire for given results of `::send`. -/

namespace GramsTof.EventClient

open Codec Lib Net

/-- A packet with all the arguments it counts: `serialize` stays inside `argv`. -/
structure Sendable where
  pkt : Packet
  enough : pkt.argc.toNat ≤ pkt.argv.length

def Sendable.bytes (p : Sendable) : List UInt8 := (serialize p.pkt none).getD []

/-- The bytes sent and the value returned; no value while a `::send` is still out. -/
def sendPacket (hubConnection : Option Client) (m : FDManager) (packet : Sendable)
    (rs : List SendResult) : List UInt8 × Option Bool :=
  if packet.bytes.isEmpty then ([], some false)
  else
    match hubConnection with
    | none => ([], some false)
    | some client =>
      let (bytes, ret) := client.sendData m packet.bytes rs
      -- `if (hubConnection_->sendData(..))`: any return value but 0 is a success
      (bytes, ret.map fun n => n ≠ 0)

/-- The connection object and the manager it is registered with. -/
structure Link where
  hubConnection : Option Client
  manager : FDManager

/-- `hubConnection_` just made of a connected descriptor. -/
def Link.connected (m : FDManager) (fd : ℤ) : Link :=
  let (client, m) := Client.new fd m
  ⟨some client, m⟩

/-- `hubConnection_->closeFD()`, in `run` followed by `hubConnection_.reset()`. -/
def Link.close (l : Link) (reset : Bool) : Link :=
  match l.hubConnection with
  | none => l
  | some client =>
    let (client, m, _) := client.closeFD l.manager
    ⟨if reset then none else some client, m⟩

/-- What happens to a connection: a call of `sendPacket` by any thread, with the results its
`::send` calls get, or the connection is closed. -/
inductive Op where
  | sendPacket (packet : Sendable) (rs : List SendResult)
  | close (reset : Bool)

/-- The packet of a status callback, with code `TOF_Callback`. -/
def statusCallback (code : UInt16) (status : UInt32) : Sendable where
  pkt := ⟨0x5FFE, 2, [code.toUInt32, status]⟩
  enough := le_rfl

def maxRetries : ℕ := 10

/-- The attempts of `sendStatusCallback` on a connection, each with its own results, up to the
first that `sendPacket` reports as a success. -/
def retry (l : Link) (cb : Sendable) : ℕ → List (List SendResult) → List Op
  | 0, _ => []
  | _ + 1, [] => []
  | n + 1, rs :: attempts =>
    .sendPacket cb rs ::
      if (sendPacket l.hubConnection l.manager cb rs).2 = some false then retry l cb n attempts
      else []

def sendStatusCallback (l : Link) (code : UInt16) (status : UInt32)
    (attempts : List (List SendResult)) : List Op :=
  retry l (statusCallback code status) maxRetries attempts

/-! ### What goes out -/

theorem sendPacket_prefix (hub : Option Client) (m : FDManager) (packet : Sendable)
    (rs : List SendResult) : (sendPacket hub m packet rs).1 <+: packet.bytes := by
  unfold sendPacket
  split_ifs
  · exact List.nil_prefix
  · cases hub with
    | none => exact List.nil_prefix
    | some c => exact Client.sendData_prefix c m packet.bytes rs

/-- The packets that calls on a connection try to write, oldest first. A call whose `::send` does
not return holds the locks, so that nothing comes after it. -/
def writes : Link → List Op → List (Write UInt8)
  | _, [] => []
  | l, .sendPacket packet rs :: ops =>
    let r := sendPacket l.hubConnection l.manager packet rs
    ⟨packet.bytes, r.1, sendPacket_prefix _ _ _ _⟩ :: if r.2.isNone then [] else writes l ops
  | l, .close reset :: ops => writes (l.close reset) ops

/-- Whole packets in order and then at most one proper prefix of a packet, after which nothing is
written. -/
def PacketStream (ws : List (Write UInt8)) : Prop :=
  Write.Framed ws ∧
    ∀ before w after, ws = before ++ w :: after → w.Torn → ∀ v ∈ after, v.sent = []

theorem packetStream_iff {ws : List (Write UInt8)} : PacketStream ws ↔ Write.Intact ws :=
  ⟨fun h => Write.intact_iff_split.mpr h.2, fun h => ⟨h.framed, Write.intact_iff_split.mp h⟩⟩

/-! ### Calls on the open connection -/

/-- The results let a call return: room for the whole packet, or a failure. -/
def returns (packet : Sendable) (rs : List SendResult) : Bool :=
  decide (packet.bytes.length ≤ room rs) || rs.any SendResult.fails

/-- The calls made while the connection is open and every earlier one has returned. -/
def served : List Op → List (Sendable × List SendResult)
  | [] => []
  | .sendPacket packet rs :: ops =>
    (packet, rs) :: if returns packet rs then served ops else []
  | .close _ :: _ => []

/-- `::send` fails, or does not return, after the kernel has taken some of the packet but not all. -/
def CutShort (call : Sendable × List SendResult) : Prop :=
  0 < room call.2 ∧ room call.2 < call.1.bytes.length

theorem Sendable.length_bytes (p : Sendable) : p.bytes.length = 14 + 4 * p.pkt.argc.toNat := by
  rw [Sendable.bytes, serialize_eq_ite, if_pos p.enough, Option.getD_some, length_wire, Packet.sent,
    List.length_take, Nat.min_eq_left p.enough]

theorem Sendable.bytes_ne_nil (p : Sendable) : p.bytes ≠ [] := by
  have := p.length_bytes
  exact List.ne_nil_of_length_pos (by omega)

theorem sendPacket_connected {m : FDManager} {fd : ℤ} (hfd : 2 < fd) (packet : Sendable)
    (rs : List SendResult) :
    let l := Link.connected m fd
    (sendPacket l.hubConnection l.manager packet rs).1 = packet.bytes.take (room rs) ∧
      (sendPacket l.hubConnection l.manager packet rs).2.isNone = !returns packet rs := by
  obtain ⟨hclient, hreg⟩ := Client.new_registered (show 0 ≤ fd by omega) m
  have hne : packet.bytes.isEmpty = false := by
    rw [List.isEmpty_eq_false_iff]
    exact packet.bytes_ne_nil
  simp only [Link.connected, sendPacket, hne, Bool.false_eq_true, if_false, hclient,
    Client.sendData, if_neg (show ¬ fd < 0 by omega), FDManager.sendToClient, hreg,
    SafeFD.sendData, if_neg (show ¬ fd ≤ 2 by omega), sendLoop_fst, List.drop_zero,
    sendLoop_snd (Nat.zero_le _), Nat.zero_add, returns, true_and]
  by_cases hroom : packet.bytes.length ≤ room rs
  · simp [hroom]
  · cases hany : rs.any SendResult.fails <;> simp [hroom]

/-- On an open connection no call reports a failure. -/
theorem sendPacket_ne_false {m : FDManager} {fd : ℤ} (packet : Sendable) (rs : List SendResult) :
    let l := Link.connected m fd
    (sendPacket l.hubConnection l.manager packet rs).2 ≠ some false := by
  have hne : packet.bytes.isEmpty = false := List.isEmpty_eq_false_iff.mpr packet.bytes_ne_nil
  have hpos := List.length_pos_iff.mpr packet.bytes_ne_nil
  have hret : ∀ (c : Client) (m : FDManager),
      (c.sendData m packet.bytes rs).2.map (fun n => decide (n ≠ 0)) ≠ some false := by
    intro c m
    rw [Client.sendData, FDManager.sendToClient]
    split_ifs
    · simp
    · cases m.clientFDs c.fd with
      | none => simp
      | some s =>
        simp only [SafeFD.sendData]
        split_ifs
        · simp
        · rw [sendLoop_snd (Nat.zero_le _)]
          split_ifs <;> simp [packet.bytes_ne_nil]
  simp only [Link.connected, sendPacket, hne, Bool.false_eq_true, if_false]
  exact hret _ _

/-- So a status callback is never retried there, even when it was cut short. -/
theorem sendStatusCallback_once (m : FDManager) (fd : ℤ) (code : UInt16) (status : UInt32)
    (rs : List SendResult) (attempts : List (List SendResult)) :
    sendStatusCallback (Link.connected m fd) code status (rs :: attempts) =
      [.sendPacket (statusCallback code status) rs] := by
  rw [sendStatusCallback, maxRetries, retry, if_neg (sendPacket_ne_false _ _)]

/-- A closed connection, or one on a standard descriptor, sends nothing. -/
def Mute (l : Link) : Prop :=
  ∀ packet rs, (sendPacket l.hubConnection l.manager packet rs).1 = []

theorem mute_of_negative {c : Client} (hc : c.fd < 0) (m : FDManager) : Mute ⟨some c, m⟩ := by
  intro packet rs
  simp only [sendPacket, Client.sendData, if_pos hc]
  split_ifs <;> rfl

theorem mute_close (l : Link) (reset : Bool) : Mute (l.close reset) := by
  obtain ⟨hub, m⟩ := l
  have hnone : ∀ m, Mute ⟨none, m⟩ := fun m packet rs => by
    simp only [sendPacket]
    split_ifs <;> rfl
  cases hub with
  | none => exact hnone m
  | some c =>
    simp only [Link.close, Client.closeFD]
    split_ifs with hc hr
    · exact hnone _
    · exact hnone _
    · exact mute_of_negative (show (-1 : ℤ) < 0 by decide) _
    · exact mute_of_negative (show c.fd < 0 by omega) _

theorem mute_connected {m : FDManager} {fd : ℤ} (hfd : fd ≤ 2) : Mute (Link.connected m fd) := by
  by_cases hneg : fd < 0
  · simp only [Link.connected, Client.new, if_neg (show ¬ fd ≥ 0 by omega)]
    exact mute_of_negative hneg m
  · obtain ⟨hclient, hreg⟩ := Client.new_registered (show 0 ≤ fd by omega) m
    intro packet rs
    simp only [Link.connected, sendPacket, hclient, Client.sendData, if_neg hneg,
      FDManager.sendToClient, hreg, SafeFD.sendData, if_pos hfd]
    split_ifs <;> rfl

theorem writes_mute {l : Link} (hl : Mute l) (ops : List Op) : ∀ w ∈ writes l ops, w.sent = [] := by
  induction ops generalizing l with
  | nil => simp [writes]
  | cons op ops ih =>
    cases op with
    | sendPacket packet rs =>
      intro w hw
      rcases List.mem_cons.mp hw with rfl | hw
      · exact hl packet rs
      · split_ifs at hw
        · cases hw
        · exact ih hl w hw
    | close reset => exact ih (mute_close l reset)

theorem intact_of_mute {ws : List (Write UInt8)} (h : ∀ w ∈ ws, w.sent = []) : Write.Intact ws :=
  List.Pairwise.imp_of_mem (R := fun _ _ => True) (fun _ hw _ _ => h _ hw)
    (List.pairwise_of_forall fun _ _ => trivial)

theorem torn_iff (packet : Sendable) (rs : List SendResult) {w : Write UInt8}
    (hframe : w.frame = packet.bytes) (hsent : w.sent = packet.bytes.take (room rs)) :
    w.Torn ↔ CutShort (packet, rs) := by
  have hne := packet.bytes_ne_nil
  rw [Write.Torn, hframe, hsent, CutShort, Ne, Ne, List.take_eq_nil_iff]
  refine and_congr ?_ ?_
  · simp only [hne, or_false]
    exact Nat.pos_iff_ne_zero.symm
  · rw [List.take_eq_self_iff, Nat.not_le]

/-- Nothing goes out after the first call exactly when no served call finds room. -/
theorem writes_silent_iff {m : FDManager} {fd : ℤ} (hfd : 2 < fd) (ops : List Op) :
    (∀ w ∈ writes (Link.connected m fd) ops, w.sent = []) ↔ ∀ c ∈ served ops, room c.2 = 0 := by
  induction ops with
  | nil => simp [writes, served]
  | cons op ops ih =>
    cases op with
    | close reset =>
      have := writes_mute (mute_close (Link.connected m fd) reset) ops
      simpa [writes, served] using this
    | sendPacket packet rs =>
      obtain ⟨hsent, hret⟩ := sendPacket_connected (m := m) hfd packet rs
      rw [writes, served, List.forall_mem_cons, List.forall_mem_cons]
      simp only [hsent, hret, List.take_eq_nil_iff, packet.bytes_ne_nil, or_false]
      refine and_congr_right' ?_
      cases returns packet rs
      · simp
      · simpa using ih

theorem intact_writes_iff {m : FDManager} {fd : ℤ} (hfd : 2 < fd) (ops : List Op) :
    Write.Intact (writes (Link.connected m fd) ops) ↔
      (served ops).Pairwise fun a b => CutShort a → room b.2 = 0 := by
  induction ops with
  | nil => simp [writes, served, Write.intact_nil]
  | cons op ops ih =>
    cases op with
    | close reset =>
      have := intact_of_mute (writes_mute (mute_close (Link.connected m fd) reset) ops)
      simpa [writes, served] using this
    | sendPacket packet rs =>
      obtain ⟨hsent, hret⟩ := sendPacket_connected (m := m) hfd packet rs
      rw [writes, served, Write.intact_cons, List.pairwise_cons,
        torn_iff packet rs rfl hsent]
      simp only [hret]
      cases returns packet rs
      · simp [Write.intact_nil]
      · simp only [Bool.not_true, Bool.false_eq_true, if_false, if_true, writes_silent_iff hfd, ih]
        refine and_congr_left' ⟨fun h c hc hcut => h hcut c hc, fun h hcut c hc => h c hc hcut⟩

end GramsTof.EventClient
