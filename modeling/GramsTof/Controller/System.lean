import GramsTof.CommandClient.Queue
import GramsTof.CommandClient.Reference
import GramsTof.Controller.Codes
import GramsTof.Dispatch.Answers
import GramsTof.EventClient.Send

/-! The command queue and the dispatcher as `GRAMS_TOF_DAQController` connects them: the handler of
a popped packet is the dispatch of the command with the packet's code. The machine also keeps the
dispatcher's ledger, and which dispatch each packet has begun. -/

namespace GramsTof.Controller

open CommandClient Codec Dispatch Lib

structure State where
  queue : Queue.State
  dispatch : Dispatch.State

inductive Action where
  | queue (a : Queue.Action)
  | dispatch (b : Dispatch.Action)
  deriving DecidableEq

/-- The dispatch that the handler of a packet begins. -/
def handleIncomingCommand (pkt : Packet) : Dispatch.Action :=
  .receive (toTOFCommand pkt.code) (pkt.argv.map UInt32.toNat)

/-- The command of a packet has an entry in the table of the dispatcher. -/
def known (pkt : Packet) : Bool :=
  ((toTOFCommand pkt.code).handler (pkt.argv.map UInt32.toNat)).isSome

/-- The packet whose handler is called. -/
def State.called (x : State) : Action → Option Queue.Entry
  | .queue .callHandler => x.queue.worker.inHand.head?
  | _ => none

/-- The dispatcher's part in a step. -/
def State.dispatchAction (x : State) : Action → Option Dispatch.Action
  | .dispatch b => some b
  | a => (x.called a).map fun e => handleIncomingCommand e.1

def Action.queueAction : Action → Option Queue.Action
  | .queue a => some a
  | .dispatch _ => none

/-- A handler returns when the dispatch has come to its end, and only packets begin a dispatch. -/
def State.enabled (x : State) : Action → Bool
  | .queue (.handlerDone _) => x.dispatch.worker = .idle
  | .dispatch (.receive _ _) => false
  | _ => true

section

variable (sequences : TOFCommandCode → MacroSequence)

def step (x : State) (a : Action) : Option State :=
  if x.enabled a then do
    let queue ← a.queueAction.elim (some x.queue) (Queue.step x.queue)
    let dispatch ← (x.dispatchAction a).elim (some x.dispatch) (Dispatch.step sequences x.dispatch)
    pure ⟨queue, dispatch⟩
  else none

def machine : Machine State Action := ⟨fun x => x = ⟨Queue.initial, Dispatch.initial⟩, step sequences⟩

/-- The ledger, and the packets that have begun a dispatch, each with its number. -/
structure Record where
  ledger : Ledger
  begun : List (Queue.Entry × ℕ)

def Record.empty : Record := ⟨.empty, []⟩

def track (x : State) (a : Action) (x' : State) (r : Record) : Record where
  ledger := (x.dispatchAction a).elim r.ledger fun b => r.ledger.track x.dispatch b x'.dispatch
  begun := r.begun ++ ((x.called a).toList.filter fun e => known e.1).map (·, r.ledger.dispatched.length)

def recorded : Machine (State × Record) Action := (machine sequences).withHistory .empty track

end

/-- No `fork` of the step returns a number that is still registered. -/
def FreshStep (x : State × Record) (a : Action) : Prop :=
  ∀ b ∈ x.1.dispatchAction a, Fresh x.1.dispatch b

instance (x : State × Record) (a : Action) : Decidable (FreshStep x a) :=
  inferInstanceAs (Decidable (∀ b ∈ x.1.dispatchAction a, Fresh x.1.dispatch b))

variable {sequences : TOFCommandCode → MacroSequence} {x x' : State} {a : Action} {r : Record}
  {p : State × Record} {e : Queue.Entry} {d : ℕ}

/-! ### The two parts of a step -/

theorem step_parts (h : step sequences x a = some x') :
    a.queueAction.elim (some x.queue) (Queue.step x.queue) = some x'.queue ∧
      (x.dispatchAction a).elim (some x.dispatch) (Dispatch.step sequences x.dispatch) = some x'.dispatch := by
  rw [step] at h
  split_ifs at h with hen
  obtain ⟨queue, hqueue, h⟩ := Option.bind_eq_some_iff.mp h
  obtain ⟨dispatch, hdispatch, h⟩ := Option.bind_eq_some_iff.mp h
  obtain rfl := Option.some.inj h
  exact ⟨hqueue, hdispatch⟩

/-- The queue does what it does alone. -/
theorem queue_reachable (h : (recorded sequences).Reach FreshStep p) : Queue.machine.Reachable p.1.queue := by
  refine h.invariant_history (I := fun p => Queue.machine.Reachable p.1.queue)
    (fun _ h0 => by rw [h0]; exact .init rfl) fun x r a x' hi _ hs => ?_
  have hqueue := (step_parts hs).1
  cases ha : a.queueAction with
  | none =>
    rw [ha] at hqueue
    rwa [← Option.some.inj hqueue]
  | some b =>
    rw [ha] at hqueue
    exact .step hi trivial hqueue

/-- The dispatcher does what it does alone, and its ledger is the one kept here. -/
theorem dispatch_reach (h : (recorded sequences).Reach FreshStep p) :
    (ledgerMachine sequences).Reach FreshRun (p.1.dispatch, p.2.ledger) := by
  refine h.invariant_history
    (I := fun p => (ledgerMachine sequences).Reach FreshRun (p.1.dispatch, p.2.ledger))
    (fun _ h0 => by rw [h0]; exact .init ⟨rfl, rfl⟩) fun x r a x' hi hfresh hs => ?_
  have hdispatch := (step_parts hs).2
  cases hb : x.dispatchAction a with
  | none =>
    rw [hb] at hdispatch
    obtain he : x.dispatch = x'.dispatch := Option.some.inj hdispatch
    simpa only [track, hb, Option.elim_none, ← he] using hi
  | some b =>
    rw [hb] at hdispatch
    simp only [track, hb, Option.elim_some]
    exact .step hi (hfresh b hb) (Machine.step_withHistory.mpr ⟨hdispatch, rfl⟩)

/-! ### Packets and dispatches -/

theorem handler_isSome (code : TOFCommandCode) (argv : CommandArgs) :
    (code.handler argv).isSome = (code.handler []).isSome := by
  cases code <;> rfl

theorem known_of_kind (h : (toTOFCommand e.1.code).kind ≠ .other) : known e.1 = true := by
  rw [known, handler_isSome]
  cases hh : (toTOFCommand e.1.code).handler [] with
  | none => exact absurd (by rw [TOFCommandCode.kind, hh]; rfl) h
  | some call => rfl

theorem begun_handleIncomingCommand (s : Dispatch.State) (pkt : Packet) :
    s.begun (handleIncomingCommand pkt) = if known pkt then some (toTOFCommand pkt.code) else none := by
  rw [known, Dispatch.State.begun, handleIncomingCommand, Dispatch.State.begins]
  cases (toTOFCommand pkt.code).handler (pkt.argv.map UInt32.toNat) <;> rfl

/-- A packet is noted as handled when its handler is called, and at no other step. -/
theorem handledLog_step (h : step sequences x a = some x') :
    x'.queue.handledLog = x.queue.handledLog ++ (x.called a).toList := by
  have hqueue := (step_parts h).1
  cases a with
  | dispatch b =>
    rw [← Option.some.inj hqueue]
    exact (List.append_nil _).symm
  | queue b =>
    change Queue.step x.queue b = some x'.queue at hqueue
    by_cases hb : b = .callHandler
    · subst hb
      rw [Queue.step] at hqueue
      cases hw : x.queue.worker with
      | popped e =>
        rw [hw] at hqueue
        rw [← Option.some.inj hqueue]
        simp [State.called, hw, Queue.Worker.inHand]
      | off | test | waiting | handling e =>
        rw [hw] at hqueue
        cases hqueue
    · have hcalled : x.called (.queue b) = none := by
        cases b <;> first | rfl | exact absurd rfl hb
      rw [Queue.step_handledLog hb hqueue, hcalled]
      exact (List.append_nil _).symm

theorem dispatchAction_called (h : x.called a = some e) :
    x.dispatchAction a = some (handleIncomingCommand e.1) := by
  cases a with
  | dispatch b => cases h
  | queue b => rw [State.dispatchAction, h, Option.map_some]; nofun

/-- The packets handled have each begun the dispatch of its command, in their order. -/
structure Linked (x : State) (r : Record) : Prop where
  handled : r.begun.map Prod.fst = x.queue.handledLog.filter fun e => known e.1
  code : ∀ e d, (e, d) ∈ r.begun → r.ledger.dispatched[d]? = some (toTOFCommand e.1.code)
  ascending : (r.begun.map Prod.snd).Pairwise (· < ·)

theorem linked (h : (recorded sequences).Reach FreshStep p) : Linked p.1 p.2 := by
  refine h.invariant_history (I := fun p => Linked p.1 p.2)
    (fun _ h0 => by rw [h0]; exact ⟨rfl, nofun, .nil⟩) fun x r a x' hi _ hs => ?_
  have hlog := handledLog_step hs
  have hold : ∀ e d, (e, d) ∈ r.begun →
      (track x a x' r).ledger.dispatched[d]? = some (toTOFCommand e.1.code) := by
    intro e d hmem
    have hcode := hi.code e d hmem
    rw [track]
    cases x.dispatchAction a with
    | none => exact hcode
    | some b => exact Ledger.dispatched_old hcode
  refine ⟨?_, ?_, ?_⟩
  · rw [hlog, List.filter_append, ← hi.handled]
    simp [track, Function.comp_def]
  · intro e d hmem
    rcases List.mem_append.mp hmem with hmem | hmem
    · exact hold e d hmem
    · obtain ⟨e', he', heq⟩ := List.mem_map.mp hmem
      obtain ⟨rfl, rfl⟩ := Prod.mk.inj heq
      obtain ⟨hcalled, hknown⟩ := List.mem_filter.mp he'
      rw [track, dispatchAction_called (Option.mem_toList.mp hcalled), Option.elim_some, Ledger.track,
        begun_handleIncomingCommand, if_pos hknown]
      exact List.getElem?_concat_length ..
  · have hlt : ∀ d ∈ r.begun.map Prod.snd, d < r.ledger.dispatched.length := by
      rintro _ hd
      obtain ⟨⟨e, d⟩, hmem, rfl⟩ := List.mem_map.mp hd
      exact (List.getElem?_eq_some_iff.mp (hi.code e d hmem)).1
    rw [track, List.map_append, List.pairwise_append]
    refine ⟨hi.ascending, ?_, fun d hd d' hd' => ?_⟩
    · cases x.called a with
      | none => exact .nil
      | some e =>
        rw [Option.toList_some, List.filter_singleton]
        cases known e.1 with
        | false => exact .nil
        | true => exact List.pairwise_singleton ..
    · obtain ⟨⟨e, d'⟩, hmem, rfl⟩ := List.mem_map.mp hd'
      obtain ⟨e', -, heq⟩ := List.mem_map.mp hmem
      obtain ⟨rfl, rfl⟩ := Prod.mk.inj heq
      exact hlt d hd

theorem Linked.unique (hi : Linked p.1 p.2) (hlog : p.1.queue.handledLog.Nodup) (hmem : (e, d) ∈ p.2.begun)
    {e' : Queue.Entry} {d' : ℕ} (hmem' : (e', d') ∈ p.2.begun) : e' = e ↔ d' = d := by
  have hfst : (p.2.begun.map Prod.fst).Nodup := hi.handled ▸ hlog.filter _
  have hsnd : (p.2.begun.map Prod.snd).Nodup := hi.ascending.imp Nat.ne_of_lt
  constructor
  · rintro rfl
    exact congrArg Prod.snd (List.inj_on_of_nodup_map hfst hmem' hmem rfl)
  · rintro rfl
    exact congrArg Prod.fst (List.inj_on_of_nodup_map hsnd hmem' hmem rfl)

/-! ### Answers on the wire -/

theorem accepted_statusCallback (code : UInt16) (status : UInt32) :
    accepted (EventClient.statusCallback code status).bytes =
      some (EventClient.statusCallback code status).pkt := by
  have hsized : (EventClient.statusCallback code status).pkt.WellSized := rfl
  rw [EventClient.Sendable.bytes, serialize_eq_wire hsized]
  exact accepted_wire hsized

/-- Each packet handled was queued, and one whose command reports has begun a dispatch of its own. That
dispatch leads to no status while more may follow and to exactly one in the end, if and only if a
background command has started its process and a `STOP_DAQ` has not started its script; and each of its
statuses goes out as a packet that names the code of the packet it answers. In every run whose `fork`s
return no number that is still registered. -/
theorem packets_answered (h : (recorded sequences).Reach FreshStep p) :
    p.2.ledger.sent.map Status.call = p.1.dispatch.callbacks ∧
    ∀ e ∈ p.1.queue.handledLog, p.1.queue.queued[e.2]? = some e.1 ∧
      ((toTOFCommand e.1.code).kind ≠ .other →
        ∃ d, (e, d) ∈ p.2.begun ∧ (∀ e' d', (e', d') ∈ p.2.begun → (e' = e ↔ d' = d)) ∧
          p.2.ledger.AnswersOnce d (toTOFCommand e.1.code) ∧
          ∀ st ∈ p.2.ledger.answers d (toTOFCommand e.1.code),
            accepted (EventClient.statusCallback (toUInt16 st.code) (UInt32.ofNat st.value)).bytes =
              some ⟨0x5FFE, 2, [e.1.code.toUInt32, UInt32.ofNat st.value]⟩) := by
  have hi := linked h
  obtain ⟨hlog, hqueued⟩ := (Queue.reachable_inv (queue_reachable h)).2.handled_queued
  obtain ⟨haudited, hown, hpursued⟩ := answering (dispatch_reach h)
  refine ⟨haudited.faithful.sent, fun e he => ⟨hqueued e he, fun hk => ?_⟩⟩
  have hbegun : e ∈ p.2.begun.map Prod.fst := by
    rw [hi.handled]
    exact List.mem_filter.mpr ⟨he, known_of_kind hk⟩
  obtain ⟨⟨e, d⟩, hmem, rfl⟩ := List.mem_map.mp hbegun
  refine ⟨d, hmem, fun e' d' hmem' => hi.unique hlog hmem hmem',
    haudited.answersOnce hown hpursued (hi.code e d hmem) hk, fun st hst => ?_⟩
  have hcode : st.code = toTOFCommand e.1.code := (of_decide_eq_true (List.mem_filter.mp hst).2).2
  have hne : toTOFCommand e.1.code ≠ .unknown := fun hu => hk (hu ▸ rfl)
  rw [accepted_statusCallback, hcode, toUInt16_toTOFCommand hne]
  rfl

/-- A packet asks for the system to be initialised. -/
def initRun : List Action :=
  [.queue .start, .queue (.arrive ⟨0x5100, 0, []⟩), .queue .workerTest, .queue .workerWake,
    .queue .callHandler, .dispatch (.worker done), .dispatch (.worker done), .queue (.handlerDone false)]

theorem packets_answered_sample : ∃ p, (recorded TOFCommandCode.macroSequence).Reach FreshStep p ∧
    p.1.dispatch.callbacks = [(.initSystem, 0)] ∧ ∃ d, p.2.begun = [((⟨0x5100, 0, []⟩, 0), d)] ∧
      p.2.ledger.AnswersOnce d .initSystem := by
  have h0 : (recorded TOFCommandCode.macroSequence).init (⟨Queue.initial, Dispatch.initial⟩, .empty) :=
    ⟨rfl, rfl⟩
  have hend : ((recorded TOFCommandCode.macroSequence).runIn FreshStep
      (⟨Queue.initial, Dispatch.initial⟩, .empty) initRun).map
      (fun p => (p.1.dispatch.callbacks, p.1.queue.handledLog, p.2.begun)) =
      some ([(.initSystem, 0)], [(⟨0x5100, 0, []⟩, 0)], [((⟨0x5100, 0, []⟩, 0), 0)]) := by decide
  obtain ⟨p, hrun, hp⟩ := Option.map_eq_some_iff.mp hend
  obtain ⟨hcallbacks, hp⟩ := Prod.mk.inj hp
  obtain ⟨hlog, hbegun⟩ := Prod.mk.inj hp
  have h : (recorded TOFCommandCode.macroSequence).Reach FreshStep p := .runIn (.init h0) hrun
  obtain ⟨-, hall⟩ := packets_answered h
  obtain ⟨-, hanswered⟩ := hall (⟨0x5100, 0, []⟩, 0) (by rw [hlog]; exact List.mem_cons_self)
  obtain ⟨d, hmem, -, hone, -⟩ := hanswered nofun
  rw [hbegun, List.mem_singleton] at hmem
  obtain rfl : d = 0 := congrArg Prod.snd hmem
  exact ⟨p, h, hcallbacks, 0, hbegun, hone⟩

end GramsTof.Controller
