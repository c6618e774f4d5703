import GramsTof.CommandClient.Reference
import GramsTof.Lib.Backlog
import GramsTof.Lib.Guarded

/-! The loop in which `tof_cmd_executor` waits for the callback of its command. It
looks at one packet after each `recv`, so that a callback which arrives behind other
packets is seen only as further bytes come, and it reads two arguments of every
callback, whatever their number. -/

namespace GramsTof.Executor

open Codec Lib Net

/-- `sizeof(rawBuf)`. -/
def rawBufSize : ℕ := 8192

/-- How the loop stands: it waits, it has matched a callback (`main` returns 0 for status 0, else 1) and
sent the reset packet if any, the connection is lost (1), or it has read outside `argv`. -/
inductive Outcome where
  | waiting
  | matched (status : UInt32) (reset : Option Packet)
  | lost
  | fault
  deriving DecidableEq, Repr

/-- `resetPkt`, sent on the command connection after any other command. -/
def resetPkt (targetCode : UInt16) : Option Packet :=
  if targetCode ≠ 0x5003 then some ⟨0x5003, 0, []⟩ else none

/-- What the loop does about a parsed packet. -/
def onPacket (targetCode : UInt16) (respPkt : Packet) : Outcome :=
  if respPkt.code = 0x5FFE then
    match respPkt.argv[0]?, respPkt.argv[1]? with
    | some reported, some status =>
      if reported.toUInt16 = targetCode then .matched status (resetPkt targetCode) else .waiting
    | _, _ => .fault
  else .waiting

structure State where
  buffer : List UInt8
  outcome : Outcome

def State.start : State := ⟨[], .waiting⟩

def State.isWaiting (s : State) : Bool := s.outcome = .waiting

/-- One turn of the loop: the bytes of the `recv`, or none when it returns 0 or less. -/
def onRecv (targetCode : UInt16) (s : State) (r : Option (Chunk rawBufSize)) : State :=
  match r with
  | none => { s with outcome := .lost }
  | some c =>
    let buffer := s.buffer ++ c.bytes
    match accepted buffer with
    | none => { s with buffer := buffer }
    | some respPkt =>
      let outcome := onPacket targetCode respPkt
      if outcome = .waiting then
        ⟨buffer.drop ((serialize respPkt none).getD []).length, .waiting⟩
      else ⟨[], outcome⟩

def run (targetCode : UInt16) (rs : List (Option (Chunk rawBufSize))) : State :=
  rs.foldl (guarded State.isWaiting (onRecv targetCode)) .start

/-! ### The loop as a session -/

/-- A frame is what `parse` accepts at the front of the buffer. -/
def parsing : Framing UInt8 where
  size b := (accepted b).map fun p => (wire p).length
  size_pos h := by
    obtain ⟨p, -, rfl⟩ := Option.map_eq_some_iff.mp h
    rw [length_wire]
    omega
  size_append h t := by
    obtain ⟨p, hp, rfl⟩ := Option.map_eq_some_iff.mp h
    obtain ⟨hwell, hpre⟩ := accepted_eq_some_iff.mp hp
    rw [accepted_eq_some_iff.mpr ⟨hwell, hpre.trans (List.prefix_append _ _)⟩]
    rfl
  size_take h _ := by
    obtain ⟨p, hp, rfl⟩ := Option.map_eq_some_iff.mp h
    obtain ⟨hwell, hpre⟩ := accepted_eq_some_iff.mp hp
    rw [← List.prefix_iff_eq_take.mp hpre, CommandClient.accepted_wire hwell]
    rfl

theorem first_eq_none {b : List UInt8} (h : accepted b = none) : parsing.first b = none := by
  simp [Framing.first, parsing, h]

theorem first_eq_some {b : List UInt8} {p : Packet} (h : accepted b = some p) :
    parsing.first b = some (wire p).length ∧ b.take (wire p).length = wire p := by
  have hpre := (accepted_eq_some_iff.mp h).2
  refine ⟨?_, (List.prefix_iff_eq_take.mp hpre).symm⟩
  rw [Framing.first_eq_some]
  exact ⟨by simp [parsing, h], hpre.length_le⟩

/-- A frame as the loop takes it. -/
def onFrame (targetCode : UInt16) (o : Outcome) (f : List UInt8) : Outcome × Bool :=
  match accepted f with
  | none => (o, false)
  | some p => (onPacket targetCode p, onPacket targetCode p ≠ .waiting)

theorem onFrame_wire (targetCode : UInt16) (o : Outcome) {p : Packet} (hp : p.WellSized) :
    onFrame targetCode o (wire p) =
      (onPacket targetCode p, decide (onPacket targetCode p ≠ .waiting)) := by
  rw [onFrame, CommandClient.accepted_wire hp]

def State.session (s : State) : Session UInt8 Outcome := ⟨s.outcome, s.buffer, s.isWaiting⟩

theorem session_onRecv (targetCode : UInt16) (s : State) (c : Chunk rawBufSize) :
    (guarded State.isWaiting (onRecv targetCode) s (some c)).session =
      parsing.sip (onFrame targetCode) s.session c.bytes := by
  cases hlive : s.isWaiting with
  | false => rw [guarded_dead hlive, Framing.sip_dead _ _ hlive]
  | true =>
    rw [guarded_live hlive]
    cases hacc : accepted (s.buffer ++ c.bytes) with
    | none =>
      rw [Framing.sip_none _ _ hlive (first_eq_none hacc)]
      simp only [onRecv, hacc]
      rfl
    | some p =>
      have hwell := (accepted_eq_some_iff.mp hacc).1
      obtain ⟨hfirst, htake⟩ := first_eq_some hacc
      have htake' : (s.session.buffer ++ c.bytes).take (wire p).length = wire p := htake
      rw [Framing.sip_some _ _ hlive hfirst, htake', onFrame_wire _ _ hwell]
      simp only [onRecv, hacc, serialize_eq_wire hwell, Option.getD_some]
      by_cases hgo : onPacket targetCode p = .waiting
      · simp [hgo, State.session, State.isWaiting]
      · simp [hgo, State.session, State.isWaiting]

theorem session_run (targetCode : UInt16) (s : State) (cs : List (Chunk rawBufSize)) :
    ((cs.map some).foldl (guarded State.isWaiting (onRecv targetCode)) s).session =
      (cs.map Chunk.bytes).foldl (parsing.sip (onFrame targetCode)) s.session := by
  induction cs generalizing s with
  | nil => rfl
  | cons c cs ih =>
    rw [List.map_cons, List.foldl_cons, ih, session_onRecv]
    rfl

/-! ### What the packets of a stream amount to -/

/-- The outcome once `ps` have been looked at: the first that ends the loop decides. -/
def verdict (targetCode : UInt16) : List Packet → Outcome
  | [] => .waiting
  | p :: ps =>
    if onPacket targetCode p = .waiting then verdict targetCode ps else onPacket targetCode p

section Stream

variable {targetCode : UInt16} {ps : List Packet} {cs : List (Chunk rawBufSize)}

theorem handleAll_onFrame (hps : ∀ p ∈ ps, p.WellSized) :
    handleAll (onFrame targetCode) .waiting (ps.map wire) =
      (verdict targetCode ps, decide (verdict targetCode ps ≠ .waiting)) := by
  induction ps with
  | nil => rfl
  | cons p ps ih =>
    rw [List.forall_mem_cons] at hps
    rw [List.map_cons, handleAll_cons, onFrame_wire _ _ hps.1, verdict]
    by_cases hgo : onPacket targetCode p = .waiting
    · simp [hgo, ih hps.2]
    · simp [hgo]

theorem whole_wires (hps : ∀ p ∈ ps, p.WellSized) :
    ∀ f ∈ ps.map wire, parsing.size f = some f.length := by
  intro f hf
  obtain ⟨p, hp, rfl⟩ := List.mem_map.mp hf
  change (accepted (wire p)).map _ = _
  rw [CommandClient.accepted_wire (hps p hp)]
  rfl

/-- The number of packets that the loop has looked at after the chunks `cs`. -/
def seen (cs : List (Chunk rawBufSize)) : ℕ :=
  served (parsing.arrived (cs.map Chunk.bytes)) cs.length

theorem run_outcome (hps : ∀ p ∈ ps, p.WellSized)
    (hcs : (cs.map Chunk.bytes).flatten <+: (ps.map wire).flatten) :
    (run targetCode (cs.map some)).outcome = verdict targetCode (ps.take (seen cs)) := by
  have hsip : parsing.Sipped (onFrame targetCode) .waiting _ _ _ _ :=
    parsing.foldl_sip (cs.map Chunk.bytes)
  rw [List.length_map] at hsip
  have hcut := Framing.cut_initial (whole_wires hps) hcs
  have hle : seen cs ≤ (parsing.cut (cs.map Chunk.bytes).flatten).1.length := hsip.le
  have htake : (parsing.cut (cs.map Chunk.bytes).flatten).1.take (seen cs) =
      (ps.take (seen cs)).map wire := by
    rw [List.map_take]
    refine (hcut.take (seen cs)).eq_of_length ?_
    rw [List.length_take, List.length_take, Nat.min_eq_left hle,
      Nat.min_eq_left (hle.trans hcut.length_le)]
  calc (run targetCode (cs.map some)).outcome
      = ((cs.map Chunk.bytes).foldl (parsing.sip (onFrame targetCode)) ⟨.waiting, [], true⟩).state :=
        congrArg Session.state (session_run targetCode .start cs)
    _ = verdict targetCode (ps.take (seen cs)) := by
        rw [hsip.state]
        change (handleAll _ _ (List.take (seen cs) _)).1 = _
        rw [htake, handleAll_onFrame fun p hp => hps p (List.mem_of_mem_take hp)]

theorem verdict_append (xs ys : List Packet) :
    verdict targetCode (xs ++ ys) =
      if verdict targetCode xs = .waiting then verdict targetCode ys
      else verdict targetCode xs := by
  induction xs with
  | nil => rfl
  | cons p xs ih =>
    rw [List.cons_append, verdict, verdict, ih]
    by_cases hgo : onPacket targetCode p = .waiting <;> simp [hgo]

theorem verdict_eq_waiting_iff :
    verdict targetCode ps = .waiting ↔ ∀ p ∈ ps, onPacket targetCode p = .waiting := by
  induction ps with
  | nil => simp [verdict]
  | cons p ps ih =>
    rw [List.forall_mem_cons, verdict, ← ih]
    by_cases hgo : onPacket targetCode p = .waiting <;> simp [hgo]

theorem verdict_mem (h : verdict targetCode ps ≠ .waiting) :
    ∃ p ∈ ps, onPacket targetCode p = verdict targetCode ps := by
  induction ps with
  | nil => exact absurd rfl h
  | cons p ps ih =>
    rw [verdict] at h ⊢
    split_ifs at h ⊢ with hgo
    · obtain ⟨q, hq, hv⟩ := ih h
      exact ⟨q, List.mem_cons_of_mem _ hq, hv⟩
    · exact ⟨p, List.mem_cons_self, rfl⟩

end Stream

/-! ### The callback of the command -/

/-- A callback that reports `status` for the command. -/
def Answers (targetCode : UInt16) (status : UInt32) (p : Packet) : Prop :=
  p.code = 0x5FFE ∧ (p.argv[0]?.map UInt32.toUInt16) = some targetCode ∧ p.argv[1]? = some status

/-- A packet without the two arguments that the loop reads of a callback is none. -/
def Readable (p : Packet) : Prop := p.code = 0x5FFE → 2 ≤ p.argv.length

theorem onPacket_matched_iff {targetCode : UInt16} {status : UInt32} {p : Packet} {r : Option Packet} :
    onPacket targetCode p = .matched status r ↔
      Answers targetCode status p ∧ r = resetPkt targetCode := by
  rw [onPacket, Answers]
  by_cases hcode : p.code = 0x5FFE
  · cases h0 : p.argv[0]? with
    | none => simp [hcode]
    | some reported =>
      cases h1 : p.argv[1]? with
      | none => simp [hcode]
      | some st =>
        by_cases htarget : reported.toUInt16 = targetCode
        · simp [hcode, htarget, eq_comm]
        · simp [hcode, htarget]
  · simp [hcode]

theorem onPacket_fault_iff {targetCode : UInt16} {p : Packet} :
    onPacket targetCode p = .fault ↔ ¬ Readable p := by
  rw [onPacket, Readable]
  by_cases hcode : p.code = 0x5FFE
  · cases hargv : p.argv with
    | nil => simp [hcode]
    | cons reported as =>
      cases as with
      | nil => simp [hcode]
      | cons status as => by_cases htarget : reported.toUInt16 = targetCode <;> simp [hcode, htarget]
  · simp [hcode]

theorem onPacket_ne_lost (targetCode : UInt16) (p : Packet) : onPacket targetCode p ≠ .lost := by
  rw [onPacket]
  split
  · split
    · split_ifs <;> simp
    · simp
  · simp

/-- A packet that does not answer the command keeps the loop waiting, if it can be read. -/
theorem onPacket_waiting_iff {targetCode : UInt16} {p : Packet}
    (h : ∀ status, ¬ Answers targetCode status p) :
    onPacket targetCode p = .waiting ↔ Readable p := by
  have hfault : onPacket targetCode p = .fault ↔ ¬ Readable p := onPacket_fault_iff
  rw [← not_iff_not, ← hfault]
  cases hp : onPacket targetCode p with
  | waiting => simp
  | matched status r => exact absurd (onPacket_matched_iff.mp hp).1 (h status)
  | lost => exact absurd hp (onPacket_ne_lost _ _)
  | fault => simp

/-! ### The callback is not missed -/

/-- The bytes of the stream through packet `k`. -/
def through (ps : List Packet) (k : ℕ) : ℕ := ((ps.take (k + 1)).map wire).flatten.length

/-- The bytes that the first `i` calls of `recv` have brought. -/
def received (cs : List (Chunk rawBufSize)) (i : ℕ) : ℕ := ((cs.take i).map Chunk.bytes).flatten.length

/-- Once packet `k` is in, the loop has ended with `status`, and no packet is read out of bounds. -/
structure NeverMisses (targetCode : UInt16) (status : UInt32) (ps : List Packet) (k : ℕ)
    (cs : List (Chunk rawBufSize)) : Prop where
  exits : ∀ i ≤ cs.length, through ps k ≤ received cs i →
    (run targetCode ((cs.take i).map some)).outcome = .matched status (resetPkt targetCode)
  inBounds : ∀ i ≤ cs.length, (run targetCode ((cs.take i).map some)).outcome ≠ .fault

section Callback

variable {targetCode : UInt16} {status : UInt32} {before after : List Packet} {cb : Packet}
  {cs : List (Chunk rawBufSize)}

/-- A packet has been looked at when each one up to it came early enough. -/
theorem lt_seen_iff {ps : List Packet} (hps : ∀ p ∈ ps, p.WellSized)
    (hcs : (cs.map Chunk.bytes).flatten <+: (ps.map wire).flatten) {k i : ℕ} (hk : k < ps.length)
    (hi : i ≤ cs.length) :
    k < seen (cs.take i) ↔ ∀ j ≤ k, through ps j ≤ received cs (i - (k - j)) := by
  have hpre : ((cs.take i).map Chunk.bytes).flatten <+: (ps.map wire).flatten :=
    ((List.take_prefix i cs).map _).flatten.trans hcs
  rw [seen, lt_served_iff (Framing.arrived_zero _), List.length_take, Nat.min_eq_left hi]
  refine forall₂_congr fun j hj => ?_
  rw [Framing.lt_arrived_iff (whole_wires hps) hpre (by rw [List.length_map]; omega), through,
    received, ← List.map_take, ← List.map_take, List.take_take, Nat.min_eq_left (Nat.sub_le _ _)]

theorem verdict_before_iff (hbefore : ∀ p ∈ before, ∀ status, ¬ Answers targetCode status p) :
    verdict targetCode before = .waiting ↔ ∀ p ∈ before, Readable p := by
  rw [verdict_eq_waiting_iff]
  exact forall₂_congr fun p hp => onPacket_waiting_iff (hbefore p hp)

/-- The first `n` packets of the stream. -/
theorem verdict_take (hcb : Answers targetCode status cb)
    (hbefore : ∀ p ∈ before, Readable p)
    (hfirst : ∀ p ∈ before, ∀ status, ¬ Answers targetCode status p) (n : ℕ) :
    verdict targetCode ((before ++ cb :: after).take n) =
      if before.length < n then .matched status (resetPkt targetCode) else .waiting := by
  have hwait := (verdict_before_iff hfirst).mpr hbefore
  split_ifs with hn
  · have hnext : onPacket targetCode cb = .matched status (resetPkt targetCode) :=
      onPacket_matched_iff.mpr ⟨hcb, rfl⟩
    obtain ⟨m, rfl⟩ := Nat.exists_eq_add_of_lt hn
    rw [Nat.add_assoc, List.take_length_add_append, List.take_succ_cons, verdict_append, if_pos hwait,
      verdict, hnext, if_neg (by simp)]
  · rw [List.take_append_of_le_length (Nat.not_lt.mp hn), verdict_eq_waiting_iff]
    exact fun p hp => verdict_eq_waiting_iff.mp hwait p (List.mem_of_mem_take hp)

/-- Nothing but the callback ends the wait as a match, and only behind packets that can be read. -/
theorem readable_of_matched (hfirst : ∀ p ∈ before, ∀ status, ¬ Answers targetCode status p) {n : ℕ}
    {r : Option Packet}
    (h : verdict targetCode ((before ++ cb :: after).take n) = .matched status r) :
    ∀ p ∈ before, Readable p := by
  rw [← verdict_before_iff hfirst]
  by_contra hstop
  have hnone : ∀ m, verdict targetCode (before.take m) ≠ .matched status r := by
    intro m hm
    have hend : verdict targetCode (before.take m) ≠ .waiting := by simp [hm]
    obtain ⟨p, hp, hv⟩ := verdict_mem hend
    rw [hm, onPacket_matched_iff] at hv
    exact hfirst p (List.mem_of_mem_take hp) status hv.1
  rcases Nat.le_total n before.length with hn | hn
  · rw [List.take_append_of_le_length hn] at h
    exact hnone n h
  · obtain ⟨m, rfl⟩ := Nat.exists_eq_add_of_le hn
    rw [List.take_length_add_append, verdict_append, if_neg hstop] at h
    exact hnone before.length (by rw [List.take_length, h])

/-- The loop is out with the callback's status as soon as the callback is in exactly when the packets
before it are readable and, counted back from any moment at which the callback is in, the one `d` places
before it was in `d` calls of `recv` earlier. -/
theorem callback_never_missed_iff (hps : ∀ p ∈ before ++ cb :: after, p.WellSized)
    (hcb : Answers targetCode status cb)
    (hfirst : ∀ p ∈ before, ∀ status, ¬ Answers targetCode status p)
    (hcs : (cs.map Chunk.bytes).flatten = ((before ++ cb :: after).map wire).flatten) :
    NeverMisses targetCode status (before ++ cb :: after) before.length cs ↔
      (∀ p ∈ before, Readable p) ∧
        ∀ i ≤ cs.length, through (before ++ cb :: after) before.length ≤ received cs i →
          ∀ j ≤ before.length,
            through (before ++ cb :: after) j ≤ received cs (i - (before.length - j)) := by
  have hk : before.length < (before ++ cb :: after).length := by simp
  have hrun : ∀ i, (run targetCode ((cs.take i).map some)).outcome =
      verdict targetCode ((before ++ cb :: after).take (seen (cs.take i))) := fun i =>
    run_outcome hps (((List.take_prefix i cs).map _).flatten.trans (hcs ▸ List.prefix_refl _))
  have hseen : ∀ i ≤ cs.length, _ := fun i hi =>
    lt_seen_iff (i := i) hps (hcs ▸ List.prefix_refl _) hk hi
  constructor
  · intro h
    have hall : through (before ++ cb :: after) before.length ≤ received cs cs.length := by
      rw [received, List.take_length, hcs]
      exact (((List.take_prefix _ _).map _).flatten).length_le
    have hreadable : ∀ p ∈ before, Readable p :=
      readable_of_matched hfirst ((hrun _).symm.trans (h.exits cs.length le_rfl hall))
    refine ⟨hreadable, fun i hi hin => (hseen i hi).mp ?_⟩
    have hexit := h.exits i hi hin
    rw [hrun, verdict_take hcb hreadable hfirst] at hexit
    split_ifs at hexit with hlt
    exact hlt
  · rintro ⟨hreadable, hearly⟩
    refine ⟨fun i hi hin => ?_, fun i hi => ?_⟩
    · rw [hrun, verdict_take hcb hreadable hfirst, if_pos ((hseen i hi).mpr (hearly i hi hin))]
    · rw [hrun, verdict_take hcb hreadable hfirst]
      split_ifs <;> simp

end Callback

def heartBeat : Packet := ⟨0xFFFF, 0, []⟩

/-- The callback for a command that succeeded. -/
def callback : Packet := ⟨0x5FFE, 2, [0x5004, 0]⟩

/-- The two packets, each in a `recv` of its own. -/
def apart : List (Chunk rawBufSize) :=
  [⟨wire heartBeat, by decide, by decide⟩, ⟨wire callback, by decide, by decide⟩]

/-- The two packets in one `recv`. -/
def together : List (Chunk rawBufSize) := [⟨wire heartBeat ++ wire callback, by decide, by decide⟩]

theorem wellSized_pair : ∀ p ∈ [heartBeat] ++ [callback], p.WellSized := by
  simp [Packet.WellSized, heartBeat, callback]

theorem callback_answers : Answers 0x5004 0 callback := ⟨rfl, rfl, rfl⟩

theorem heartBeat_no_answer (status : UInt32) : ¬ Answers 0x5004 status heartBeat :=
  fun h => absurd h.1 (by decide)

theorem callback_never_missed_apart :
    NeverMisses 0x5004 0 ([heartBeat] ++ [callback]) 1 apart := by
  refine (callback_never_missed_iff wellSized_pair callback_answers ?_ rfl).mpr ⟨?_, ?_⟩
  · simpa using heartBeat_no_answer
  · simp [Readable, heartBeat]
  · decide

/-- Received together, the callback is in and the loop waits for more. -/
theorem callback_missed_together :
    (together.map Chunk.bytes).flatten = (([heartBeat] ++ [callback]).map wire).flatten ∧
      ¬ NeverMisses 0x5004 0 ([heartBeat] ++ [callback]) 1 together := by
  have hcs : (together.map Chunk.bytes).flatten = (([heartBeat] ++ [callback]).map wire).flatten := rfl
  refine ⟨hcs, fun h => ?_⟩
  have hexit := h.exits 1 le_rfl (by decide)
  have hunseen : ¬ [heartBeat].length < seen (together.take 1) := by
    rw [lt_seen_iff (i := 1) wellSized_pair (hcs ▸ List.prefix_refl _) (by decide) le_rfl]
    intro hall
    exact absurd (hall 0 (Nat.zero_le 1)) (by decide)
  rw [run_outcome wellSized_pair (hcs ▸ List.prefix_refl _), verdict_take callback_answers
    (by simp [Readable, heartBeat]) (by simpa using heartBeat_no_answer), if_neg hunseen] at hexit
  cases hexit

end GramsTof.Executor
