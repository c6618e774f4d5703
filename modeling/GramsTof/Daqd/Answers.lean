import GramsTof.Daqd.Command
import Mathlib.Data.List.GetD

/-! A reply that the caller gets is the answer of the front end to this very command,
whatever was lost, doubled or overtaken: the numbers tell the attempts apart as long
as no reply is as late as they come round. -/

namespace GramsTof.Daqd

open Lib

/-! ### The numbers -/

theorem ofChar_toNat (c : UInt8) : (ofChar c).toNat = if c.toNat < 128 then c.toNat else c.toNat + 65280 := by
  have hall : ∀ n : Fin 256, (ofChar (UInt8.ofFin n)).toNat =
      if (UInt8.ofFin n).toNat < 128 then (UInt8.ofFin n).toNat else (UInt8.ofFin n).toNat + 65280 := by
    decide +kernel
  exact hall c.toFin

theorem serialBytes_getD {sn i : ℕ} (hi : i < 16) (answer : List UInt8) :
    (serialBytes sn ++ answer).getD i 0 = UInt8.ofNat (sn >>> (8 * i)) := by
  have hlen : (serialBytes sn).length = 16 := by rw [serialBytes, List.length_map, List.length_range]
  rw [List.getD_eq_getElem _ _ (by rw [List.length_append]; omega),
    List.getElem_append_left (by omega)]
  simp [serialBytes]

/-- What the server makes of a number of 15 bits. -/
theorem serialOf_serialBytes {sn : ℕ} (h : sn < 2 ^ 15) (answer : List UInt8) :
    (serialOf (serialBytes sn ++ answer)).toNat = sn % 256 * 256 + sn / 256 := by
  have h0 : (UInt8.ofNat (sn >>> (8 * 0))).toNat = sn % 256 := by
    rw [UInt8.toNat_ofNat']
    rfl
  have h1 : (UInt8.ofNat (sn >>> (8 * 1))).toNat = sn / 256 := by
    rw [UInt8.toNat_ofNat', Nat.shiftRight_eq_div_pow]
    omega
  rw [serialOf, serialBytes_getD (by decide), serialBytes_getD (by decide), UInt16.toNat_add,
    UInt16.toNat_shiftLeft, ofChar_toNat, ofChar_toNat, h0, h1, if_pos (show sn / 256 < 128 by omega)]
  simp only [UInt16.reduceToNat, Nat.reduceMod, Nat.shiftLeft_eq]
  split_ifs <;> omega

theorem serialOf_inj {sn sn' : ℕ} (h : sn < 2 ^ 15) (h' : sn' < 2 ^ 15) {answer answer' : List UInt8}
    (heq : serialOf (serialBytes sn ++ answer) = serialOf (serialBytes sn' ++ answer')) : sn = sn' := by
  have hnat := congrArg UInt16.toNat heq
  rw [serialOf_serialBytes h, serialOf_serialBytes h'] at hnat
  omega

namespace Link

variable {F : Type*} {exec : F → Command → F × List UInt8}

/-! ### One command -/

/-- The front end after a command was carried out `k` times. -/
def after (exec : F → Command → F × List UInt8) (c : Command) (k : ℕ) (f : F) : F :=
  (fun f => (exec f c).1)^[k] f

theorem after_succ (c : Command) (k : ℕ) (f : F) : after exec c (k + 1) f = after exec c k (exec f c).1 := rfl

theorem after_after (c : Command) (k l : ℕ) (f : F) :
    after exec c l (after exec c k f) = after exec c (k + l) f := by
  rw [after, after, after, Nat.add_comm k l, Function.iterate_add_apply]

/-- What the front end answered to one of `n` times, those before and after it counted. -/
def Answer (exec : F → Command → F × List UInt8) (c : Command) (f : F) (n : ℕ) (answer : List UInt8) : Prop :=
  ∃ j k, n = j + 1 + k ∧ answer = (exec (after exec c j f) c).2

theorem Answer.add {c : Command} {f : F} {n : ℕ} {answer : List UInt8} (h : Answer exec c f n answer) (l : ℕ) :
    Answer exec c f (n + l) answer := by
  obtain ⟨j, k, rfl, ha⟩ := h
  exact ⟨j, k + l, by omega, ha⟩

theorem Answer.after {c : Command} {f : F} {n m : ℕ} {answer : List UInt8}
    (h : Answer exec c (after exec c m f) n answer) : Answer exec c f (m + n) answer := by
  obtain ⟨j, k, rfl, ha⟩ := h
  exact ⟨m + j, k, by omega, by rw [ha, after_after]⟩

theorem execute_fst (c : Command) (n : ℕ) (f : F) : (execute exec c n f).1 = after exec c n f := by
  induction n generalizing f with
  | zero => rfl
  | succ n ih => rw [execute, after_succ, ← ih]

theorem execute_snd (c : Command) (n : ℕ) (f : F) :
    ∀ answer ∈ (execute exec c n f).2, Answer exec c f n answer := by
  induction n generalizing f with
  | zero => nofun
  | succ n ih =>
    intro answer ha
    obtain rfl | ha := List.mem_cons.mp ha
    · exact ⟨0, n, by omega, rfl⟩
    · have h : Answer exec c (after exec c 1 f) n answer := ih _ answer ha
      rw [Nat.add_comm]
      exact h.after

/-- What comes of a command: the caller has the answer to one of the times it was carried out, or no
answer, however often it was carried out. -/
def Comes (exec : F → Command → F × List UInt8) (c : Command) (f : F) : Option (List UInt8) → F → Prop
  | some reply, f' => ∃ n answer, Answer exec c f n answer ∧ reply = answer.drop 1 ∧ f' = after exec c n f
  | none, f' => ∃ n, f' = after exec c n f

/-! ### The invariant -/

/-- The attempts and the front end as the last command began. -/
def track (s : Link F) (e : Event) (_ : Link F) (begun : ℕ × F) : ℕ × F :=
  match e with
  | .command _ => (s.attempts, s.front)
  | _ => begun

/-- The link with the history of the last command's beginning. -/
def linked (exec : F → Command → F × List UInt8) (begun : ℕ × F) : Machine (Link F × ℕ × F) Event :=
  (machine exec).withHistory begun track

/-- The command at work, with its attempts. -/
def current : Caller → Option (Command × ℕ)
  | .trying c nTries | .awaiting c nTries _ => some (c, nTries)
  | _ => none

/-- A reply has the number of its attempt; if that was one of the current command's, it has an answer to
the command. -/
structure Replied (exec : F → Command → F × List UInt8) (s : Link F) (begun : ℕ × F) (r : Reply) : Prop where
  attempt : r.attempt < s.attempts
  number : ∃ f c, r.buffer = serialBytes (r.attempt % 2 ^ 15) ++ (exec f c).2
  answers : ∀ c nTries, current s.caller = some (c, nTries) → begun.1 ≤ r.attempt →
    ∃ n answer, Answer exec c begun.2 n answer ∧ r.buffer = serialBytes (r.attempt % 2 ^ 15) ++ answer ∧
      s.front = after exec c n begun.2

structure LinkInv (exec : F → Command → F × List UInt8) (s : Link F) (begun : ℕ × F) : Prop where
  lastSN : s.lastSN = s.attempts % 2 ^ 15
  replied : ∀ r, r ∈ s.socket ∨ r ∈ s.replyQueue → Replied exec s begun r
  working : ∀ c nTries, current s.caller = some (c, nTries) →
    s.attempts = begun.1 + nTries ∧ nTries ≤ maxTries ∧ ∃ n, s.front = after exec c n begun.2
  awaiting : ∀ c nTries sn, s.caller = .awaiting c nTries sn →
    0 < nTries ∧ ∃ rest, sn = serialOf (serialBytes ((s.attempts - 1) % 2 ^ 15) ++ rest)
  trying : ∀ c nTries, s.caller = .trying c nTries → nTries < maxTries
  returned : ∀ c reply, s.caller = .returned c reply → Comes exec c begun.2 reply s.front
  inStep : (∀ f c, 2 ≤ (exec f c).2.length) → s.caller ≠ .outOfStep

variable {s s' : Link F} {begun : ℕ × F}

/-- Steps that leave all but the replies alone, and bring no new ones. -/
theorem LinkInv.fewer (h : LinkInv exec s begun) (hfront : s'.front = s.front) (hsn : s'.lastSN = s.lastSN)
    (hatt : s'.attempts = s.attempts) (hcaller : s'.caller = s.caller)
    (hsub : ∀ r, r ∈ s'.socket ∨ r ∈ s'.replyQueue → r ∈ s.socket ∨ r ∈ s.replyQueue) :
    LinkInv exec s' begun where
  lastSN := by rw [hsn, hatt, h.lastSN]
  replied r hr := by
    have hr := h.replied r (hsub r hr)
    exact ⟨hatt ▸ hr.attempt, hr.number, by rw [hcaller, hfront]; exact hr.answers⟩
  working := by
    rw [hcaller, hatt, hfront]
    exact h.working
  awaiting := by
    rw [hcaller, hatt]
    exact h.awaiting
  trying := hcaller ▸ h.trying
  returned := by
    rw [hcaller, hfront]
    exact h.returned
  inStep := hcaller ▸ h.inStep

theorem LinkInv.command (h : LinkInv exec s begun) {c : Command} (hs : s.command c = some s') :
    LinkInv exec s' (s.attempts, s.front) := by
  obtain rfl : { s with caller := .trying c 0 } = s' := by
    unfold Link.command at hs
    split at hs <;> first | exact Option.some.inj hs | cases hs
  refine ⟨h.lastSN, fun r hr => ⟨(h.replied r hr).attempt, (h.replied r hr).number, fun _ _ _ hle => ?_⟩, ?_,
    nofun, ?_, nofun, nofun⟩
  · exact absurd (h.replied r hr).attempt (not_lt.mpr hle)
  · rintro _ _ ⟨⟩
    exact ⟨rfl, Nat.zero_le _, 0, rfl⟩
  · rintro _ _ ⟨⟩
    decide

theorem LinkInv.attempt (h : LinkInv exec s begun) {copies : ℕ} (hs : s.attempt exec copies = some s') :
    LinkInv exec s' begun := by
  unfold Link.attempt at hs
  split at hs
  · rename_i c nTries hcaller
    obtain rfl := Option.some.inj hs
    have hcur : current s.caller = some (c, nTries) := by rw [hcaller]; rfl
    obtain ⟨hatt, -, n, hfront⟩ := h.working c nTries hcur
    have hmore : ∀ m, s.front = after exec c m begun.2 →
        (execute exec c copies s.front).1 = after exec c (m + copies) begun.2 := by
      intro m hm
      rw [execute_fst, hm, after_after]
    refine ⟨?_, fun r hr => ?_, ?_, ?_, nofun, nofun, nofun⟩
    · have hmod := Nat.and_two_pow_sub_one_eq_mod (s.lastSN + 1) 15
      rw [show (2 ^ 15 - 1 : ℕ) = 0x7FFF from rfl] at hmod
      dsimp only
      rw [hmod, h.lastSN, Nat.mod_add_mod]
    · have hold : (r ∈ s.socket ∨ r ∈ s.replyQueue) ∨ ∃ answer ∈ (execute exec c copies s.front).2,
          r = ⟨serialBytes s.lastSN ++ answer, s.attempts⟩ := by
        obtain hr | hr := hr
        · obtain hr | hr := List.mem_append.mp hr
          · exact .inl (.inl hr)
          · obtain ⟨answer, ha, rfl⟩ := List.mem_map.mp hr
            exact .inr ⟨answer, ha, rfl⟩
        · exact .inl (.inr hr)
      obtain hr | ⟨answer, ha, rfl⟩ := hold
      · have hr := h.replied r hr
        refine ⟨hr.attempt.trans (Nat.lt_succ_self _), hr.number, ?_⟩
        rintro _ _ ⟨⟩ hle
        obtain ⟨m, answer, ha, hbuf, hm⟩ := hr.answers c nTries hcur hle
        exact ⟨m + copies, answer, ha.add copies, hbuf, hmore m hm⟩
      · have hex := execute_snd c copies s.front answer ha
        refine ⟨Nat.lt_succ_self _, ?_, ?_⟩
        · obtain ⟨j, k, -, rfl⟩ := hex
          exact ⟨after exec c j s.front, c, by rw [h.lastSN]⟩
        · rintro _ _ ⟨⟩ -
          refine ⟨n + copies, answer, ?_, by rw [h.lastSN], hmore n hfront⟩
          rw [hfront] at hex
          exact hex.after
    · rintro _ _ ⟨⟩
      exact ⟨by dsimp only; omega, h.trying c nTries hcaller, n + copies, hmore n hfront⟩
    · rintro _ _ _ ⟨⟩
      exact ⟨Nat.succ_pos _, c.cfgFunctionID :: c.payload, by
        rw [Command.rawFrame, h.lastSN]
        rfl⟩
  · cases hs

/-- A caller that works no further on its command. -/
theorem LinkInv.leave (h : LinkInv exec s begun) (hfront : s'.front = s.front) (hsn : s'.lastSN = s.lastSN)
    (hatt : s'.attempts = s.attempts) (hcur : current s'.caller = none)
    (hsub : ∀ r, r ∈ s'.socket ∨ r ∈ s'.replyQueue → r ∈ s.socket ∨ r ∈ s.replyQueue)
    (hret : ∀ c reply, s'.caller = .returned c reply → Comes exec c begun.2 reply s.front)
    (hstep : (∀ f c, 2 ≤ (exec f c).2.length) → s'.caller ≠ .outOfStep) : LinkInv exec s' begun where
  lastSN := by rw [hsn, hatt, h.lastSN]
  replied r hr := by
    have hr := h.replied r (hsub r hr)
    exact ⟨hatt ▸ hr.attempt, hr.number, fun c nTries hc => by rw [hcur] at hc; cases hc⟩
  working c nTries hc := by rw [hcur] at hc; cases hc
  awaiting c nTries sn hc := by rw [hc] at hcur; cases hcur
  trying c nTries hc := by rw [hc] at hcur; cases hcur
  returned := by
    rw [hfront]
    exact hret
  inStep := hstep

theorem LinkInv.timeout (h : LinkInv exec s begun) (hs : s.timeout = some s') : LinkInv exec s' begun := by
  unfold Link.timeout at hs
  split at hs
  · rename_i c nTries sn hcaller
    obtain rfl := Option.some.inj hs
    have hcur : current s.caller = some (c, nTries) := by rw [hcaller]; rfl
    have hwork := h.working c nTries hcur
    split_ifs with hlt
    · refine ⟨h.lastSN, fun r hr => ⟨(h.replied r hr).attempt, (h.replied r hr).number, ?_⟩, ?_, nofun, ?_,
        nofun, nofun⟩
      · rintro _ _ ⟨⟩
        exact (h.replied r hr).answers c nTries hcur
      · rintro _ _ ⟨⟩
        exact hwork
      · rintro _ _ ⟨⟩
        exact hlt
    · refine h.leave rfl rfl rfl rfl (fun _ hr => hr) ?_ nofun
      rintro _ _ ⟨⟩
      exact hwork.2.2
  · cases hs

theorem take_cases (r : Reply) (c : Command) (nTries : ℕ) (sn : UInt16) :
    take r (.awaiting c nTries sn) = .awaiting c nTries sn ∨
      sn = serialOf r.buffer ∧ (r.buffer.length < 18 ∧ take r (.awaiting c nTries sn) = .outOfStep ∨
        take r (.awaiting c nTries sn) = .returned c (some (r.buffer.drop 17))) := by
  rw [take]
  split_ifs with h2 hsn h18
  · exact .inl rfl
  · exact .inr ⟨hsn, .inl ⟨h18, rfl⟩⟩
  · exact .inr ⟨hsn, .inr rfl⟩
  · exact .inl rfl

/-- The reply that has the number is that of the last attempt. -/
theorem LinkInv.attempt_eq (h : LinkInv exec s begun) {r : Reply} {c : Command} {nTries : ℕ} {sn : UInt16}
    (hcaller : s.caller = .awaiting c nTries sn) (hr : Replied exec s begun r)
    (htime : s.attempts ≤ r.attempt + 2 ^ 15) (hsn : sn = serialOf r.buffer) : r.attempt = s.attempts - 1 := by
  obtain ⟨-, rest, hsent⟩ := h.awaiting c nTries sn hcaller
  obtain ⟨f, c', hbuf⟩ := hr.number
  rw [hsent, hbuf] at hsn
  have hmod := serialOf_inj (Nat.mod_lt _ (by decide)) (Nat.mod_lt _ (by decide)) hsn
  have hlt := hr.attempt
  omega

/-- A reply is taken. -/
theorem LinkInv.take (h : LinkInv exec s begun) {r : Reply} {c : Command} {nTries : ℕ} {sn : UInt16}
    (hcaller : s.caller = .awaiting c nTries sn) (hr : Replied exec s begun r)
    (htime : s.attempts ≤ r.attempt + 2 ^ 15) (hfront : s'.front = s.front) (hlast : s'.lastSN = s.lastSN)
    (hatt : s'.attempts = s.attempts) (htake : s'.caller = Link.take r s.caller)
    (hsub : ∀ r, r ∈ s'.socket ∨ r ∈ s'.replyQueue → r ∈ s.socket ∨ r ∈ s.replyQueue) :
    LinkInv exec s' begun := by
  rw [hcaller] at htake
  obtain heq | ⟨hsn, ⟨hshort, heq⟩ | heq⟩ := take_cases r c nTries sn
  · exact h.fewer hfront hlast hatt (htake.trans (heq.trans hcaller.symm)) hsub
  · refine h.leave hfront hlast hatt (by rw [htake, heq]; rfl) hsub (fun _ _ hret => ?_) fun hexec => ?_
    · cases hret.symm.trans (htake.trans heq)
    · obtain ⟨f, c', hbuf⟩ := hr.number
      have hlen := hexec f c'
      rw [hbuf, List.length_append, serialBytes, List.length_map, List.length_range] at hshort
      omega
  · refine h.leave hfront hlast hatt (by rw [htake, heq]; rfl) hsub (fun _ _ hret => ?_) fun _ hout => ?_
    · cases hret.symm.trans (htake.trans heq)
      obtain ⟨hpos, -⟩ := h.awaiting c nTries sn hcaller
      have hcur : current s.caller = some (c, nTries) := by rw [hcaller]; rfl
      obtain ⟨hcount, -⟩ := h.working c nTries hcur
      have heq := h.attempt_eq hcaller hr htime hsn
      obtain ⟨n, answer, ha, hbuf, hf⟩ := hr.answers c nTries hcur (by omega)
      refine ⟨n, answer, ha, ?_, hf⟩
      rw [hbuf, List.drop_append, serialBytes, List.length_map, List.length_range,
        List.drop_eq_nil_of_le (by rw [List.length_map, List.length_range]; decide), List.nil_append]
    · cases hout.symm.trans (htake.trans heq)

theorem LinkInv.pop (h : LinkInv exec s begun) (htime : Timely s .pop) (hs : s.pop = some s') :
    LinkInv exec s' begun := by
  unfold Link.pop at hs
  split at hs
  · rename_i c nTries sn r replyQueue hcaller _ hqueue
    obtain rfl := Option.some.inj hs
    have hr : r ∈ s.replyQueue := by rw [hqueue]; exact List.mem_cons_self
    refine h.take hcaller (h.replied r (.inr hr)) (htime r (by rw [hqueue]; rfl)) rfl rfl rfl rfl ?_
    intro x hx
    rw [hqueue]
    exact hx.imp_right (List.mem_cons_of_mem r)
  · cases hs

theorem LinkInv.recv (h : LinkInv exec s begun) {i : ℕ} (htime : Timely s (.recv i))
    (hs : s.recv i = some s') : LinkInv exec s' begun := by
  unfold Link.recv at hs
  split at hs
  · rename_i c nTries sn r hcaller _ hsocket
    obtain rfl := Option.some.inj hs
    refine h.take hcaller (h.replied r (.inl (List.mem_of_getElem? hsocket))) (htime r hsocket) rfl rfl rfl rfl ?_
    exact fun x hx => hx.imp_left List.mem_of_mem_eraseIdx
  · cases hs

theorem LinkInv.step (h : LinkInv exec s begun) {e : Event} (htime : Timely s e)
    (hs : Link.step exec s e = some s') : LinkInv exec s' (track s e s' begun) := by
  cases e with
  | command c => exact h.command hs
  | attempt copies => exact h.attempt hs
  | pop => exact h.pop htime hs
  | recv i => exact h.recv htime hs
  | timeout => exact h.timeout hs
  | work i =>
    change Link.work s i = some s' at hs
    unfold Link.work at hs
    split at hs
    · rename_i r _ hsocket
      obtain rfl := Option.some.inj hs
      refine h.fewer rfl rfl rfl rfl fun x hx => ?_
      obtain hx | hx := hx
      · exact .inl (List.mem_of_mem_eraseIdx hx)
      · obtain hx | hx := List.mem_append.mp hx
        · exact .inr hx
        · exact .inl (List.mem_singleton.mp hx ▸ List.mem_of_getElem? hsocket)
    · cases hs
  | acqOnOff on =>
    change Link.acqOnOff s on = some s' at hs
    unfold Link.acqOnOff at hs
    split at hs <;> cases hs <;> exact h.fewer rfl rfl rfl rfl fun _ hx => hx
  | lose i =>
    obtain rfl := Option.some.inj hs
    exact h.fewer rfl rfl rfl rfl fun x hx => hx.imp_left List.mem_of_mem_eraseIdx
  | double i =>
    obtain rfl := Option.some.inj hs
    refine h.fewer rfl rfl rfl rfl fun x hx => hx.imp_left fun hx => ?_
    obtain hx | hx := List.mem_append.mp hx
    · exact hx
    · exact List.mem_of_getElem? (Option.mem_toList.mp hx)

theorem link_inv {begun : ℕ × F} {p : Link F × ℕ × F}
    (h : (linked exec begun).Reach (fun p e => Timely p.1 e) p) : LinkInv exec p.1 p.2 := by
  refine Machine.Reach.invariant_history (I := fun p => LinkInv exec p.1 p.2) (fun s h0 => ?_)
    (fun s w e s' hi htime hs => LinkInv.step hi htime hs) h
  obtain ⟨hlt, hatt, hsocket, hqueue, hcaller⟩ := h0
  refine ⟨by rw [hatt, Nat.mod_eq_of_lt hlt], fun r hr => ?_, ?_, ?_, ?_, ?_, fun _ => ?_⟩
  · rw [hsocket, hqueue] at hr
    simp at hr
  all_goals rw [hcaller]; nofun

/-- Whatever becomes of the replies under way, as long as none is taken that is as late as the numbers
come round: a reply that the caller gets is the answer to its command, which was carried out at least
once since; without a reply the command was carried out any number of times; there were ten attempts
at most; and the caller reads no reply that is too short for it, if the front end gives none. -/
theorem reply_answers {begun : ℕ × F} {p : Link F × ℕ × F}
    (h : (linked exec begun).Reach (fun p e => Timely p.1 e) p) :
    (∀ c reply, p.1.caller = .returned c reply → Comes exec c p.2.2 reply p.1.front) ∧
      (∀ c nTries, current p.1.caller = some (c, nTries) →
        p.1.attempts = p.2.1 + nTries ∧ nTries ≤ maxTries ∧ ∃ n, p.1.front = after exec c n p.2.2) ∧
      ((∀ f c, 2 ≤ (exec f c).2.length) → p.1.caller ≠ .outOfStep) :=
  have hi := link_inv h
  ⟨hi.returned, hi.working, hi.inStep⟩

/-- A front end that counts, and answers with its count. -/
def counter (f : ℕ) (_ : Command) : ℕ × List UInt8 := (f + 1, [0xA5, UInt8.ofNat f])

/-- The first reply is lost and the second late; the third comes twice, before the late one's double. -/
def lateRun : List Event :=
  [.command ⟨0x12, [1]⟩, .attempt 1, .lose 0, .timeout, .attempt 2, .timeout, .attempt 1, .recv 0, .double 1,
    .recv 1]

theorem reply_answers_sample : ∃ p : Link ℕ × ℕ × ℕ,
    p.1.caller = .returned ⟨0x12, [1]⟩ (some [3]) ∧ p.1.front = 4 ∧ p.2.2 = 0 ∧
      Comes counter ⟨0x12, [1]⟩ 0 (some [3]) 4 := by
  obtain ⟨p, h, hp⟩ := Machine.exists_reach_of_runIn (linked counter (0, 0)) (fun p e => Timely p.1 e)
    (⟨0, 0x7FFF, 0x7FFF, [], [], false, .idle⟩, 0, 0)
    (fun p => decide (p.1.caller = .returned ⟨0x12, [1]⟩ (some [3]) ∧ p.1.front = 4 ∧ p.2.2 = 0)) lateRun
    ⟨⟨by decide, rfl, rfl, rfl, rfl⟩, rfl⟩ (by decide +kernel)
  obtain ⟨hcaller, hfront, hbegun⟩ := of_decide_eq_true hp
  have hcomes := (reply_answers h).1 _ _ hcaller
  rw [hfront, hbegun] at hcomes
  exact ⟨p, hcaller, hfront, hbegun, hcomes⟩

end Link

end GramsTof.Daqd
