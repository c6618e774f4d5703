import GramsTof.Daqd.Answers
import GramsTof.Lib.Program
import GramsTof.Petsys.AsicConfig
import Mathlib.Data.Fintype.Fin

/-! Reading and writing the registers of the ASICs, over commands of which any number
of attempts may be carried out. What is written is read back. Of the front end it is
relied on that a read changes no register and answers what the register has, and
that a write changes no other register; what a write makes of its own register is
left open. -/

namespace GramsTof.Petsys

open Lib Daqd

/-- A chip of the unit, by its number. -/
abbrev Chip := Fin 64

/-- A register of a chip: its global configuration, or that of a channel. -/
abbrev Target := Option (Fin 64)

def dataLength : Target → ℕ
  | none => 184
  | some _ => 125

inductive AsicCommand where
  | wr (t : Target) (value : Bits)
  | rd (t : Target)

def commandCode : AsicCommand → ℤ
  | .wr (some _) _ => 0b0000
  | .rd (some _) => 0b0001
  | .wr none _ => 0b1000
  | .rd none => 0b1001

def channelBits : Target → Bits
  | none => []
  | some channel => intToBin channel 7

def ccBits (command : AsicCommand) : Bits :=
  intToBin (commandCode command) 4 ++
    match command with
    | .wr t value => channelBits t ++ value
    | .rd t => channelBits t

def paddedValue (command : AsicCommand) : Bits :=
  let nBytes := ((ccBits command).length + 7) / 8
  match command with
  | .wr t _ | .rd t => ccBits command ++ List.replicate (nBytes * 8 - dataLength t) false

def bitsToRead : AsicCommand → ℕ
  | .wr .. => 0
  | .rd t => dataLength t

/-- The chip as the front end addresses it, with so many chips to a module. -/
def spiId (perModule : ℕ) (chip : Chip) : UInt8 × UInt8 :=
  let spi_id := chip.val / perModule * 256 + chip.val % perModule
  (UInt8.ofNat (spi_id >>> 8), UInt8.ofNat spi_id)

/-- The command that goes to the front end. -/
def asicCommand (perModule : ℕ) (chip : Chip) (command : AsicCommand) : Command where
  cfgFunctionID := 0x01
  payload := (spiId perModule chip).1 :: (spiId perModule chip).2 ::
    UInt8.ofNat (ccBits command).length :: UInt8.ofNat (bitsToRead command) ::
    Bits.toBytes (paddedValue command)

structure AsicConfig where
  globalConfig : Bits
  channelConfig : Fin 64 → Bits

inductive Err where
  | badReply (expected actual : ℕ)
  | badAck (chip : Chip) (value : ℕ)
  | badCRC (chip : Chip)
  | generic (chip : Chip) (status : UInt8)
  | badRead (chip : Chip) (written read : Bits)
  | commandErrorTimeout
  | assertionError
  | keyError
  deriving DecidableEq

def Err.isConfigurationError : Err → Bool
  | .badReply .. | .badAck .. | .badCRC _ | .generic .. | .badRead .. => true
  | .commandErrorTimeout | .assertionError | .keyError => false

/-- The connection of a program to the front end, and the configuration it remembers. -/
structure Session (F : Type) where
  front : F
  asicConfigCache : Option (Chip → Option AsicConfig)

variable {F : Type} (exec : F → Command → F × List UInt8) (perModule : ℕ)

/-- A command as its caller sees it, whatever becomes of its attempts. -/
def sendCommand (c : Command) : Program (Session F) Err (List UInt8) := fun s r s' =>
  ∃ reply f', Link.Comes exec c s.front reply f' ∧ s' = { s with front := f' } ∧
    r = reply.elim (.error .commandErrorTimeout) .ok

/-- What the caller of a command gets, and the front end then, is as the program has it. -/
theorem sendCommand_linked {begun : ℕ × F} {p : Link F × ℕ × F} {c : Command} {reply : Option (List UInt8)}
    {cache : Option (Chip → Option AsicConfig)}
    (h : (Link.linked exec begun).Reach (fun p e => Link.Timely p.1 e) p) (hret : p.1.caller = .returned c reply) :
    sendCommand exec c ⟨p.2.2, cache⟩ (reply.elim (.error .commandErrorTimeout) .ok) ⟨p.1.front, cache⟩ :=
  ⟨reply, p.1.front, (Link.link_inv h).returned c reply hret, rfl, rfl⟩

def checkStatus (chip : Chip) (reply : List UInt8) : Program (Session F) Err PUnit :=
  match reply with
  | [] => Program.throw (.badReply 1 0)
  | status :: _ =>
    if status = 0xE3 then Program.throw (.badAck chip 0)
    else if status = 0xE4 then Program.throw (.badCRC chip)
    else if status = 0xE5 then Program.throw (.badAck chip 1)
    else if status ≠ 0x00 then Program.throw (.generic chip status)
    else pure ⟨⟩

/-- One try at a read. -/
def asicRead (chip : Chip) (t : Target) : Program (Session F) Err Bits := do
  let reply ← sendCommand exec (asicCommand perModule chip (.rd t))
  checkStatus chip reply
  let expectedBytes := dataLength t / 8
  if reply.length < 1 + expectedBytes then Program.throw (.badReply (2 + expectedBytes) reply.length)
  else pure ((Bits.ofBytes (reply.drop 1)).take (dataLength t))

/-- One try at a write: the register is read back. -/
def asicWrite (chip : Chip) (t : Target) (value : Bits) : Program (Session F) Err PUnit := do
  if value.length ≠ dataLength t then Program.throw .assertionError
  else
    let reply ← sendCommand exec (asicCommand perModule chip (.wr t value))
    checkStatus chip reply
    let readValue ← asicRead exec perModule chip t
    if readValue ≠ value then Program.throw (.badRead chip value readValue) else pure ⟨⟩

def doAsicRead (chip : Chip) (t : Target) : Program (Session F) Err Bits :=
  Program.retry Err.isConfigurationError (asicRead exec perModule chip t) 4

def doAsicWrite (chip : Chip) (t : Target) (value : Bits) : Program (Session F) Err PUnit :=
  Program.retry Err.isConfigurationError (asicWrite exec perModule chip t value) 4

/-- What is relied on of a front end whose registers are `reg`. -/
structure Registers (reg : F → UInt8 × UInt8 → Target → Bits) : Prop where
  length : ∀ f a t, (reg f a t).length = dataLength t
  read : ∀ f chip t, reg (exec f (asicCommand perModule chip (.rd t))).1 = reg f
  answer : ∀ f chip t data, (exec f (asicCommand perModule chip (.rd t))).2.drop 1 = 0x00 :: data →
    data = Bits.toBytes (reg f (spiId perModule chip) t)
  write : ∀ f chip t value a t', value.length = dataLength t → (a, t') ≠ (spiId perModule chip, t) →
    reg (exec f (asicCommand perModule chip (.wr t value))).1 a t' = reg f a t'

/-- The chips of a unit have addresses of their own. -/
theorem spiId_inj {chip chip' : Chip} (hpos : 0 < perModule) (hle : perModule ≤ 256)
    (heq : spiId perModule chip = spiId perModule chip') : chip = chip' := by
  have h := chip.isLt
  have h' := chip'.isLt
  have hmod := Nat.mod_lt chip.val hpos
  have hmod' := Nat.mod_lt chip'.val hpos
  have hdiv := Nat.div_le_self chip.val perModule
  have hdiv' := Nat.div_le_self chip'.val perModule
  have h1 := congrArg (fun a => a.1.toNat) heq
  have h2 := congrArg (fun a => a.2.toNat) heq
  simp only [spiId, Nat.shiftRight_eq_div_pow, UInt8.toNat_ofNat'] at h1 h2
  have hd : chip.val / perModule = chip'.val / perModule := by omega
  have hm : chip.val % perModule = chip'.val % perModule := by omega
  rw [Fin.ext_iff, ← Nat.div_add_mod chip.val perModule, ← Nat.div_add_mod chip'.val perModule, hd, hm]

variable {exec perModule} {reg : F → UInt8 × UInt8 → Target → Bits}
  {cache : Option (Chip → Option AsicConfig)}

/-- A session whose front end is one of `I`, with the cache as it was. -/
def Holds (I : F → Prop) (cache : Option (Chip → Option AsicConfig)) (s : Session F) : Prop :=
  I s.front ∧ s.asicConfigCache = cache

/-- What every time of carrying the command out keeps, a call keeps; its reply was given by a front end
that had it. -/
theorem sendCommand_spec {I : F → Prop} {c : Command} (hI : ∀ f, I f → I (exec f c).1) :
    Program.Triple (Holds I cache) (sendCommand exec c)
      (fun reply s => Holds I cache s ∧ ∃ f, I f ∧ reply = (exec f c).2.drop 1) (fun _ => Holds I cache) := by
  have hafter : ∀ n f, I f → I (Link.after exec c n f) := by
    intro n
    induction n with
    | zero => exact fun f hf => hf
    | succ n ih => exact fun f hf => ih _ (hI f hf)
  constructor
  · rintro s reply s' ⟨hs, hc⟩ ⟨got, f', hcomes, rfl, hr⟩
    cases got with
    | none => cases hr
    | some got =>
      obtain rfl := Except.ok.inj hr
      obtain ⟨n, answer, ⟨j, k, hn, ha⟩, hreply, rfl⟩ := hcomes
      exact ⟨⟨hafter n s.front hs, hc⟩, Link.after exec c j s.front, hafter j _ hs, by rw [hreply, ha]⟩
  · rintro s e s' ⟨hs, hc⟩ ⟨got, f', hcomes, rfl, hr⟩
    cases got with
    | none =>
      obtain ⟨n, rfl⟩ := hcomes
      exact ⟨hafter n s.front hs, hc⟩
    | some got => cases hr

theorem checkStatus_spec {P : Session F → Prop} (chip : Chip) (reply : List UInt8) :
    Program.Triple P (checkStatus chip reply) (fun _ s => P s ∧ ∃ data, reply = 0x00 :: data) (fun _ => P) := by
  cases reply with
  | nil => exact .throw fun _ hs => hs
  | cons status data =>
    refine .ite (fun _ => .throw fun _ hs => hs) fun _ => .ite (fun _ => .throw fun _ hs => hs) fun _ =>
      .ite (fun _ => .throw fun _ hs => hs) fun _ => .ite (fun _ => .throw fun _ hs => hs) fun h => ?_
    exact .pure fun s hs => ⟨hs, data, by rw [not_not.mp h]⟩

/-- A read changes no register, and gets what the register has. -/
theorem asicRead_spec (h : Registers exec perModule reg) (cache : Option (Chip → Option AsicConfig))
    (r : UInt8 × UInt8 → Target → Bits) (chip : Chip)
    (t : Target) :
    Program.Triple (Holds (fun f => reg f = r) cache) (asicRead exec perModule chip t)
      (fun value s => Holds (fun f => reg f = r) cache s ∧ value = r (spiId perModule chip) t)
      (fun _ => Holds (fun f => reg f = r) cache) := by
  refine .bind (sendCommand_spec fun f hf => (h.read f chip t).trans hf) fun reply =>
    .bind ((checkStatus_spec chip reply).conseq (fun _ hs => hs) (fun _ _ hs => hs) fun _ _ hs => hs.1) fun _ =>
      .ite (fun _ => .throw fun s hs => hs.1.1) fun _ => .pure fun s hs => ⟨hs.1.1, ?_⟩
  obtain ⟨⟨-, f, rfl, hreply⟩, data, hdata⟩ := hs
  have hanswer := h.answer f chip t data (hreply.symm.trans hdata)
  rw [hdata, List.drop_one, List.tail_cons, hanswer, ← h.length f (spiId perModule chip) t,
    Bits.take_ofBytes_toBytes]

theorem doAsicRead_spec (h : Registers exec perModule reg) (cache : Option (Chip → Option AsicConfig))
    (r : UInt8 × UInt8 → Target → Bits) (chip : Chip)
    (t : Target) :
    Program.Triple (Holds (fun f => reg f = r) cache) (doAsicRead exec perModule chip t)
      (fun value s => Holds (fun f => reg f = r) cache s ∧ value = r (spiId perModule chip) t)
      (fun _ => Holds (fun f => reg f = r) cache) :=
  .retry (asicRead_spec h cache r chip t) (fun _ _ _ hs => hs) 4

/-- The registers but one are as in `r`. -/
def Others (reg : F → UInt8 × UInt8 → Target → Bits) (r : UInt8 × UInt8 → Target → Bits) (a : UInt8 × UInt8)
    (t : Target) (f : F) : Prop :=
  ∀ a' t', (a', t') ≠ (a, t) → reg f a' t' = r a' t'

/-- A write that returns has put its value in the register; one that fails leaves the register with
anything; neither changes another. -/
theorem asicWrite_spec (h : Registers exec perModule reg) (cache : Option (Chip → Option AsicConfig))
    (r : UInt8 × UInt8 → Target → Bits) (chip : Chip)
    (t : Target) (value : Bits) :
    Program.Triple (Holds (Others reg r (spiId perModule chip) t) cache) (asicWrite exec perModule chip t value)
      (fun _ s => Holds (Others reg r (spiId perModule chip) t) cache s ∧
        reg s.front (spiId perModule chip) t = value)
      (fun _ => Holds (Others reg r (spiId perModule chip) t) cache) := by
  refine .ite (fun _ => .throw fun _ hs => hs) fun hlen => ?_
  have hkeep : ∀ f, Others reg r (spiId perModule chip) t f →
      Others reg r (spiId perModule chip) t (exec f (asicCommand perModule chip (.wr t value))).1 :=
    fun f hf a' t' hne => (h.write f chip t value a' t' (not_not.mp hlen) hne).trans (hf a' t' hne)
  refine .bind (sendCommand_spec hkeep) fun reply =>
    .bind ((checkStatus_spec chip reply).conseq (fun _ hs => hs) (fun _ _ hs => hs) fun _ _ hs => hs.1) fun _ => ?_
  refine .of_eq fun s₀ h₀ => ?_
  have hread := asicRead_spec h cache (reg s₀.front) chip t
  refine .bind (hread.conseq (fun s hs => ?_) (fun _ _ hs => hs) fun _ s hs => ?_) fun readValue =>
    .ite (fun _ => .throw fun s hs => ?_) fun heq => .pure fun s hs => ?_
  · rw [hs]
    exact ⟨rfl, h₀.1.1.2⟩
  · exact ⟨fun a' t' hne => hs.1 ▸ h₀.1.1.1 a' t' hne, hs.2⟩
  · exact ⟨fun a' t' hne => hs.1.1 ▸ h₀.1.1.1 a' t' hne, hs.1.2⟩
  · obtain ⟨⟨hreg, hcache⟩, hvalue⟩ := hs
    refine ⟨⟨fun a' t' hne => hreg ▸ h₀.1.1.1 a' t' hne, hcache⟩, ?_⟩
    rw [hreg, ← hvalue, not_not.mp heq]

theorem doAsicWrite_spec (h : Registers exec perModule reg) (cache : Option (Chip → Option AsicConfig))
    (r : UInt8 × UInt8 → Target → Bits) (chip : Chip)
    (t : Target) (value : Bits) :
    Program.Triple (Holds (Others reg r (spiId perModule chip) t) cache)
      (doAsicWrite exec perModule chip t value)
      (fun _ s => Holds (Others reg r (spiId perModule chip) t) cache s ∧
        reg s.front (spiId perModule chip) t = value)
      (fun _ => Holds (Others reg r (spiId perModule chip) t) cache) :=
  .retry (asicWrite_spec h cache r chip t value) (fun _ _ _ hs => hs) 4

end GramsTof.Petsys
