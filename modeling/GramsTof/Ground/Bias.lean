import Mathlib.Data.Rat.Defs
import Mathlib.Logic.Function.Basic

/-! The bias board and its controller on the ground. The controller sends what the
change from its own `current_state` needs; a new controller believes the board off. -/

namespace GramsTof.Ground.Bias

/-- What is sent to the board. -/
inductive Command where
  /-- `enable <ch> on`, `enable <ch> off`. -/
  | enable (ch : ℕ) (on : Bool)
  /-- `voffset <volts>`. -/
  | voffset (volts : ℚ)
  /-- A command that touches neither the enables nor the offset. -/
  | other (text : String)
  deriving DecidableEq, Repr

structure Board where
  enabled : ℕ → Bool
  offset : ℚ

def Board.apply (b : Board) : Command → Board
  | .enable ch on => { b with enabled := Function.update b.enabled ch on }
  | .voffset volts => { b with offset := volts }
  | .other _ => b

/-- Commands in the order received. -/
def Board.receive (b : Board) (cmds : List Command) : Board := cmds.foldl Board.apply b

/-- The states that `set_all_channels_state` accepts. -/
inductive ChannelsState where
  | off
  | prebreakdown
  | biasOn
  deriving DecidableEq, Repr

def ChannelsState.ofName : String → Option ChannelsState
  | "off" => some off
  | "prebreakdown" => some prebreakdown
  | "bias_on" => some biasOn
  | _ => none

def activeChannels : List ℕ := [0, 1, 2, 4, 6, 7]

/-- Channels are switched only on a change between off and active. -/
def switch (current target : ChannelsState) : List Command :=
  if current = .off ∧ target ≠ .off then activeChannels.map (.enable · true)
  else if current ≠ .off ∧ target = .off then activeChannels.map (.enable · false)
  else []

def adjust : ChannelsState → List Command
  | .prebreakdown => [.voffset 16]
  | .biasOn => [.voffset 0]
  | .off => []

/-- The commands for a change of state. -/
def transition (current target : ChannelsState) : List Command :=
  switch current target ++ adjust target

/-- The commands of `initialize_board`. -/
def startupCommands : List Command :=
  [.other "data on", .other "echo on", .other "mode auto", .other "vdef 64 163",
    .other "vdef 65 163", .other "vdef 72 164", .other "vdef 73 164", .other "p"]

/-- The live board and the `current_state` of the controller. -/
structure Rig where
  board : Board
  currentState : ChannelsState

inductive Event where
  /-- `set_all_channels_state(state)`. -/
  | call (state : String)
  /-- A new `SiPMBiasBoardController`. -/
  | construct
  | initializeBoard
  deriving DecidableEq, Repr

section Runs

-- `str.lower`
variable (lower : String → String)

/-- The valid state that a call asks for. -/
def Event.request : Event → Option ChannelsState
  | .call state => ChannelsState.ofName (lower state)
  | _ => none

def Rig.setAllChannelsState (r : Rig) (state : String) : Rig :=
  match ChannelsState.ofName (lower state) with
  | none => r
  | some target => ⟨r.board.receive (transition r.currentState target), target⟩

def Rig.handle (r : Rig) : Event → Rig
  | .call state => r.setAllChannelsState lower state
  | .construct => { r with currentState := .off }
  | .initializeBoard => { r with board := r.board.receive startupCommands }

/-- `P` holds of each event and of the rig that it finds. -/
def Along (P : Rig → Event → Prop) : Rig → List Event → Prop
  | _, [] => True
  | r, e :: es => P r e ∧ Along P (r.handle lower e) es

/-- What each state means for the board. -/
def Configured (b : Board) : ChannelsState → Prop
  | .off => ∀ ch ∈ activeChannels, b.enabled ch = false
  | .prebreakdown => (∀ ch ∈ activeChannels, b.enabled ch = true) ∧ b.offset = 16
  | .biasOn => (∀ ch ∈ activeChannels, b.enabled ch = true) ∧ b.offset = 0

/-- The event leaves the board as a valid call asks. -/
def Delivers (r : Rig) (e : Event) : Prop :=
  ∀ target, e.request lower = some target → Configured (r.handle lower e).board target

/-- A controller that believes the board off is asked for `off` only when it is right. -/
def OffIsOff (r : Rig) (e : Event) : Prop :=
  e.request lower = some .off → r.currentState = .off → Configured r.board .off

end Runs

/-! ### What the commands do to the board -/

theorem receive_append (b : Board) (cs ds : List Command) :
    b.receive (cs ++ ds) = (b.receive cs).receive ds := List.foldl_append

theorem receive_enable (b : Board) (chs : List ℕ) (on : Bool) (ch : ℕ) :
    (b.receive (chs.map (.enable · on))).enabled ch = if ch ∈ chs then on else b.enabled ch := by
  induction chs generalizing b with
  | nil => rfl
  | cons c chs ih =>
    refine (ih (b.apply (.enable c on))).trans ?_
    by_cases hc : ch = c
    · subst hc
      simp [Board.apply]
    · simp [Board.apply, hc]

/-- Channels switched together are all in the given position. -/
theorem receive_active (b : Board) (on : Bool) :
    ∀ ch ∈ activeChannels, (b.receive (activeChannels.map (.enable · on))).enabled ch = on := by
  intro ch hch
  rw [receive_enable, if_pos hch]

variable {lower : String → String} {r : Rig}

/-- The channels are on whenever the controller believes them on. -/
def Rig.Lit (r : Rig) : Prop :=
  r.currentState ≠ .off → ∀ ch ∈ activeChannels, r.board.enabled ch = true

/-- A call that asks for `target`. -/
theorem handle_call {e : Event} {target : ChannelsState} (h : e.request lower = some target) :
    r.handle lower e = ⟨r.board.receive (transition r.currentState target), target⟩ := by
  cases e with
  | call state =>
    change ChannelsState.ofName (lower state) = some target at h
    change r.setAllChannelsState lower state = _
    rw [Rig.setAllChannelsState, h]
  | construct | initializeBoard => cases h

theorem Rig.Lit.quiet {e : Event} (hi : r.Lit) (h : e.request lower = none) :
    (r.handle lower e).Lit := by
  cases e with
  | call state =>
    change ChannelsState.ofName (lower state) = none at h
    change (r.setAllChannelsState lower state).Lit
    rw [Rig.setAllChannelsState, h]
    exact hi
  | construct => exact fun hne => absurd rfl hne
  | initializeBoard => exact hi

theorem receive_transition (b : Board) (current target : ChannelsState) :
    (b.receive (transition current target)).enabled = (b.receive (switch current target)).enabled := by
  rw [transition, receive_append]
  cases target <;> rfl

/-- A change to an active state switches the channels on or finds them on. -/
theorem transition_active {b : Board} {current target : ChannelsState}
    (hlit : current ≠ .off → ∀ ch ∈ activeChannels, b.enabled ch = true) (ht : target ≠ .off) :
    ∀ ch ∈ activeChannels, (b.receive (transition current target)).enabled ch = true := by
  rw [receive_transition, switch]
  by_cases hc : current = .off
  · rw [if_pos ⟨hc, ht⟩]
    exact receive_active b true
  · rw [if_neg (fun h => hc h.1), if_neg (fun h => ht h.2)]
    exact hlit hc

theorem transition_configured {b : Board} {current target : ChannelsState}
    (hlit : current ≠ .off → ∀ ch ∈ activeChannels, b.enabled ch = true) (ht : target ≠ .off) :
    Configured (b.receive (transition current target)) target := by
  have hon := transition_active hlit ht
  cases target with
  | off => exact absurd rfl ht
  | prebreakdown => exact ⟨hon, by rw [transition, receive_append]; rfl⟩
  | biasOn => exact ⟨hon, by rw [transition, receive_append]; rfl⟩

/-- Off is commanded only from an active state. -/
theorem transition_off {b : Board} {current : ChannelsState} :
    Configured (b.receive (transition current .off)) .off ↔ (current = .off → Configured b .off) := by
  unfold Configured
  rw [receive_transition, switch, if_neg (fun h => h.2 rfl)]
  by_cases hc : current = .off
  · rw [if_neg (fun h => h.1 hc)]
    exact ⟨fun h _ => h, fun h => h hc⟩
  · rw [if_pos ⟨hc, rfl⟩]
    exact ⟨fun _ h => absurd h hc, fun _ => receive_active b false⟩

theorem Rig.Lit.step (hi : r.Lit) (e : Event) :
    (Delivers lower r e ↔ OffIsOff lower r e) ∧ (r.handle lower e).Lit := by
  unfold Delivers OffIsOff
  cases hreq : e.request lower with
  | none => exact ⟨iff_of_true nofun nofun, hi.quiet hreq⟩
  | some target =>
    rw [handle_call hreq]
    refine ⟨?_, fun ht => transition_active hi ht⟩
    by_cases ht : target = .off
    · subst ht
      rw [← transition_off]
      exact ⟨fun h _ => h .off rfl, fun h _ heq => Option.some.inj heq ▸ h rfl⟩
    · refine iff_of_true (fun _ heq => Option.some.inj heq ▸ transition_configured hi ht) ?_
      exact fun heq => absurd (Option.some.inj heq) ht

/-- Over every run, from any board and with any number of new controllers: each call leaves the
board as requested exactly when `off` is requested of a controller that believes the board off only
while its active channels are disabled. -/
theorem bias_follows_iff (lower : String → String) (b : Board) (es : List Event) :
    Along lower (Delivers lower) ⟨b, .off⟩ es ↔ Along lower (OffIsOff lower) ⟨b, .off⟩ es := by
  suffices h : ∀ r : Rig, r.Lit →
      (Along lower (Delivers lower) r es ↔ Along lower (OffIsOff lower) r es) from
    h ⟨b, .off⟩ fun hne => absurd rfl hne
  induction es with
  | nil => exact fun _ _ => Iff.rfl
  | cons e es ih =>
    intro r hi
    have hboth : (Delivers lower r e ↔ OffIsOff lower r e) ∧ (r.handle lower e).Lit := hi.step e
    obtain ⟨hstep, hnext⟩ := hboth
    exact and_congr hstep (ih _ hnext)

/-- The bias is on when the controller is restarted and asked to switch it off. -/
theorem not_bias_follows :
    ¬ ∀ (b : Board) (es : List Event),
      Along String.toLower (Delivers String.toLower) ⟨b, .off⟩ es := by
  intro h
  have hoff := (h ⟨fun _ => false, 0⟩ [.call "bias_on", .construct, .call "off"]).2.2.1
  exact absurd (hoff .off (by decide +kernel) 0 (by decide)) (by decide +kernel)

end GramsTof.Ground.Bias
