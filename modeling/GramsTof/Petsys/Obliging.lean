import GramsTof.Petsys.Coherence

/-! A front end that acknowledges every command and stores what is written: over it
each call can return, when its commands get through. -/

namespace GramsTof.Petsys

open Lib Daqd

section Obliging

variable {F : Type} {exec : F → Command → F × List UInt8} {perModule : ℕ} {activeAsics : List Chip}
  {reg : F → UInt8 × UInt8 → Target → Bits}

structure Obliging (exec : F → Command → F × List UInt8) (perModule : ℕ)
    (reg : F → UInt8 × UInt8 → Target → Bits) : Prop extends Registers exec perModule reg where
  acknowledges : ∀ f chip command, ∃ data, (exec f (asicCommand perModule chip command)).2.drop 1 = 0x00 :: data
  stores : ∀ f chip t value, value.length = dataLength t →
    reg (exec f (asicCommand perModule chip (.wr t value))).1 (spiId perModule chip) t = value

/-- A command that gets through, and its answer. -/
theorem can_send (c : Command) (s₀ : Session F) :
    Program.Can (· = s₀) (sendCommand exec c) fun reply s =>
      reply = (exec s₀.front c).2.drop 1 ∧ s = { s₀ with front := (exec s₀.front c).1 } := by
  constructor
  rintro s rfl
  refine ⟨(exec s.front c).2.drop 1, { s with front := (exec s.front c).1 }, ?_, rfl, rfl⟩
  exact ⟨some ((exec s.front c).2.drop 1), (exec s.front c).1, ⟨1, (exec s.front c).2, ⟨0, 0, rfl, rfl⟩, rfl, rfl⟩,
    rfl, rfl⟩

theorem can_status {P : Session F → Prop} (chip : Chip) (data : List UInt8) :
    Program.Can P (checkStatus chip (0x00 :: data)) fun _ => P :=
  have h : checkStatus (F := F) chip (0x00 :: data) = pure ⟨⟩ := rfl
  h ▸ .pure fun _ hs => hs

variable (h : Obliging exec perModule reg)
include h

theorem can_asicRead (chip : Chip) (t : Target) (s₀ : Session F) :
    Program.Can (· = s₀) (asicRead exec perModule chip t) fun value s =>
      Holds (fun f => reg f = reg s₀.front) s₀.asicConfigCache s ∧ value = reg s₀.front (spiId perModule chip) t := by
  have hcan : Program.Can (· = s₀) (asicRead exec perModule chip t) fun _ _ => True := by
    obtain ⟨data, hdata⟩ := h.acknowledges s₀.front chip (.rd t)
    refine .bind (can_send _ s₀) fun reply => .of_eq fun s₁ h₁ => ?_
    obtain ⟨rfl, -⟩ := h₁
    rw [hdata]
    refine .bind (can_status chip data) fun _ => .ite (fun hshort => ?_) fun _ => .pure fun _ _ => trivial
    have hanswer := h.answer s₀.front chip t data hdata
    have hlen := h.length s₀.front (spiId perModule chip) t
    rw [List.length_cons, hanswer, Bits.length_toBytes, hlen] at hshort
    omega
  refine hcan.triple ((asicRead_spec h.toRegisters s₀.asicConfigCache (reg s₀.front) chip t).conseq (fun s hs => ?_)
    (fun _ _ hs => hs) fun _ _ hs => hs)
  rw [hs]
  exact ⟨rfl, rfl⟩

theorem can_asicWrite (chip : Chip) (t : Target) {value : Bits} (hvalue : value.length = dataLength t)
    (s₀ : Session F) : Program.Can (· = s₀) (asicWrite exec perModule chip t value) fun _ _ => True := by
  refine .ite (fun hlen => absurd hvalue hlen) fun _ => ?_
  obtain ⟨data, hdata⟩ := h.acknowledges s₀.front chip (.wr t value)
  refine .bind (can_send _ s₀) fun reply => .of_eq fun s₁ h₁ => ?_
  obtain ⟨rfl, rfl⟩ := h₁
  rw [hdata]
  refine .bind (can_status chip data) fun _ => .bind (can_asicRead h chip t _) fun readValue => .of_eq fun s₂ h₂ => ?_
  have hstored := h.stores s₀.front chip t value hvalue
  exact .ite (fun hne => absurd (h₂.2.trans hstored) hne) fun _ => .pure fun _ _ => trivial

theorem can_cacheConfig (chip : Chip) :
    Program.Can (fun _ => True) (cacheConfig exec perModule chip) fun _ _ => True := by
  have hread : ∀ t, Program.Can (fun _ => True) (doAsicRead exec perModule chip t) fun _ _ => True := fun t =>
    .retry _ (.of_eq fun s _ => (can_asicRead h chip t s).conseq (fun _ hs => hs) fun _ _ _ => trivial) 4
  exact .bind (.bind (hread none) fun _ => .bind (.foldlM (fun _ n => .bind (hread (some n)) fun _ =>
    .pure fun _ hs => hs) _ _) fun _ => .pure fun _ hs => hs) fun _ => .modify fun _ hs => hs

/-- Every active chip is remembered. -/
def Remembers (activeAsics : List Chip) (s : Session F) : Prop :=
  ∀ chip ∈ activeAsics, (s.cached chip).isSome = true

theorem can_buildCache (s₀ : Session F) (h0 : s₀.asicConfigCache = none ∨ Remembers activeAsics s₀) :
    Program.Can (· = s₀) (buildCache exec perModule activeAsics false) fun _ => Remembers activeAsics := by
  have hcan : Program.Can (· = s₀) (buildCache exec perModule activeAsics false) fun _ _ => True :=
    .get_bind (.ite (fun _ => .bind (.modify fun _ _ => trivial) fun _ =>
      .forEach fun chip _ => can_cacheConfig h chip) fun _ => .pure fun _ _ => trivial)
  refine (hcan.triple (buildCache_spec h.toRegisters false s₀)).conseq (fun _ hs => hs) fun _ s hs => ?_
  obtain ⟨-, -, hchips⟩ | ⟨hsome, rfl⟩ := hs
  · exact hchips
  · exact h0.resolve_left hsome

theorem can_setRegister (forceAccess : Bool) {chip : Chip} {newAC : AsicConfig} {t : Target}
    (hvalue : (newAC.value t).length = dataLength t) (hchip : chip ∈ activeAsics) :
    Program.Can (Remembers activeAsics) (setRegister exec perModule forceAccess chip newAC t)
      fun _ => Remembers activeAsics := by
  refine .of_eq fun s₀ h0 => .get_bind ?_
  obtain ⟨cachedAC, hcached⟩ := Option.isSome_iff_exists.mp (h0 chip hchip)
  rw [hcached]
  refine .ite (fun _ => ?_) fun _ => .pure fun s hs => hs ▸ h0
  have hwrite : Program.Can (· = s₀) (doAsicWrite exec perModule chip t (newAC.value t)) fun _ _ => True :=
    .retry _ (can_asicWrite h chip t hvalue s₀) 4
  refine .bind (hwrite.triple ((doAsicWrite_spec h.toRegisters s₀.asicConfigCache (reg s₀.front) chip t
    (newAC.value t)).conseq (fun s hs => ?_) (fun _ _ hs => hs) fun _ _ hs => hs)) fun _ => .modify fun s hs c hc => ?_
  · rw [hs]
    exact ⟨fun _ _ _ => rfl, rfl⟩
  · have hsame : s.cached = s₀.cached := by
      funext chip'
      rw [Session.cached, hs.1.2, Session.cached]
    by_cases heq : c = chip
    · rw [heq, cached_setCached_self _ (hsame ▸ hcached)]
      rfl
    · rw [cached_setCached_of_ne heq, hsame]
      exact h0 c hc

/-- A configuration that has something for every register of the active chips can be set. -/
theorem can_setAsicsConfig (config : Chip → Option AsicConfig) (forceAccess : Bool)
    (hconfig : ∀ chip ∈ activeAsics, ∃ ac, config chip = some ac ∧ ∀ t, (ac.value t).length = dataLength t)
    (s₀ : Session F) (h0 : s₀.asicConfigCache = none ∨ Remembers activeAsics s₀) :
    Program.Can (· = s₀) (setAsicsConfig exec perModule activeAsics config forceAccess)
      fun _ => Remembers activeAsics := by
  refine .bind (can_buildCache h s₀ h0) fun _ => .forEach fun chip hchip => .of_eq fun s₁ h₁ => .get_bind ?_
  obtain ⟨cachedAC, hcached⟩ := Option.isSome_iff_exists.mp (h₁ chip hchip)
  obtain ⟨newAC, hnew, hvalues⟩ := hconfig chip hchip
  rw [hcached, hnew]
  refine (Program.Can.forEach fun t _ => can_setRegister h forceAccess (hvalues t) hchip).conseq (fun s hs => ?_)
    fun _ _ hs => hs
  rw [hs]
  exact h₁

end Obliging

/-! ### A memory of registers -/

/-- What the registers of each address have, as numbers. -/
abbrev Device := UInt8 × UInt8 → Target → ℕ

namespace Device

def reg (f : Device) (a : UInt8 × UInt8) (t : Target) : Bits := Bits.ofNat (dataLength t) (f a t)

/-- The command is taken apart by its bits. -/
def exec (f : Device) (c : Command) : Device × List UInt8 :=
  match c.payload with
  | hi :: lo :: nBitsToWrite :: _ :: bytes =>
    let bits := (Bits.ofBytes bytes).take nBitsToWrite.toNat
    let isGlobal := bits.getD 0 false
    let t : Target := if isGlobal = true then none else some (Fin.ofNat 64 (Bits.toNat ((bits.drop 4).take 7)))
    if bits.getD 3 false = true then (f, 0x00 :: 0x00 :: Bits.toBytes (f.reg (hi, lo) t))
    else
      (fun a t' =>
        if a = (hi, lo) ∧ t' = t then Bits.toNat (bits.drop (if isGlobal = true then 4 else 11)) else f a t',
        [0x00, 0x00])
  | _ => (f, [])

theorem take_bits (command : AsicCommand) :
    (Bits.ofBytes (Bits.toBytes (paddedValue command))).take (ccBits command).length = ccBits command := by
  have hpad : ∃ pad, paddedValue command = ccBits command ++ pad := by cases command <;> exact ⟨_, rfl⟩
  obtain ⟨pad, hpad⟩ := hpad
  have h := congrArg (List.take (ccBits command).length) (Bits.take_ofBytes_toBytes (paddedValue command))
  rwa [List.take_take, Nat.min_eq_left (by rw [hpad, List.length_append]; omega), hpad, List.take_left,
    ← hpad] at h

theorem channel_bits (channelID : Fin 64) (rest : Bits) :
    Fin.ofNat 64 (Bits.toNat ((intToBin channelID.val 7 ++ rest).take 7)) = channelID := by
  have h : Bits.toNat (intToBin channelID.val 7) = clamp channelID.val 7 := binToInt_intToBin _ 7
  have hclamp : clamp channelID.val 7 = channelID.val := by
    have := channelID.isLt
    rw [clamp, if_neg (by omega), if_neg (by omega)]
    rfl
  rw [List.take_left' (length_intToBin _ 7), h, hclamp]
  exact Fin.ofNat_val_eq_self channelID

theorem codes : intToBin (commandCode (.rd none)) 4 = [true, false, false, true] ∧
    intToBin 0b0001 4 = [false, false, false, true] ∧ intToBin 0b1000 4 = [true, false, false, false] ∧
    intToBin 0b0000 4 = [false, false, false, false] := by decide

theorem exec_rd (perModule : ℕ) (f : Device) (chip : Chip) (t : Target) :
    f.exec (asicCommand perModule chip (.rd t)) =
      (f, 0x00 :: 0x00 :: Bits.toBytes (f.reg (spiId perModule chip) t)) := by
  have hlen : (UInt8.ofNat (ccBits (.rd t)).length).toNat = (ccBits (.rd t)).length := by
    cases t <;> rfl
  simp only [exec, asicCommand, hlen, take_bits]
  cases t with
  | none => rfl
  | some channelID =>
    have hch := channel_bits channelID []
    rw [List.append_nil] at hch
    have hbits : ccBits (.rd (some channelID)) = [false, false, false, true] ++ intToBin channelID.val 7 :=
      congrArg (· ++ intToBin channelID.val 7) codes.2.1
    rw [hbits]
    exact congrArg (fun n => (f, 0x00 :: 0x00 :: Bits.toBytes (f.reg (spiId perModule chip) (some n)))) hch

theorem exec_wr (perModule : ℕ) (f : Device) (chip : Chip) (t : Target) {value : Bits}
    (h : value.length = dataLength t) :
    f.exec (asicCommand perModule chip (.wr t value)) =
      (fun a t' => if a = spiId perModule chip ∧ t' = t then Bits.toNat value else f a t', [0x00, 0x00]) := by
  have hcc : (ccBits (.wr t value)).length < 256 := by
    cases t <;> simp [ccBits, channelBits, length_intToBin, h, dataLength]
  have hlen : (UInt8.ofNat (ccBits (.wr t value)).length).toNat = (ccBits (.wr t value)).length :=
    UInt8.toNat_ofNat_of_lt' hcc
  simp only [exec, asicCommand, hlen, take_bits]
  cases t with
  | none =>
    have hbits : ccBits (.wr none value) = [true, false, false, false] ++ value :=
      congrArg (· ++ value) codes.2.2.1
    rw [hbits]
    rfl
  | some channelID =>
    have hch := channel_bits channelID value
    have hbits : ccBits (.wr (some channelID) value) =
        [false, false, false, false] ++ (intToBin channelID.val 7 ++ value) :=
      congrArg (· ++ (intToBin channelID.val 7 ++ value)) codes.2.2.2
    have hvalue : (intToBin channelID.val 7 ++ value).drop 7 = value :=
      List.drop_left' (length_intToBin _ 7)
    rw [hbits]
    refine congrArg₂ (fun n v => ((fun a t' => if a = spiId perModule chip ∧ t' = some n then Bits.toNat v
      else f a t' : Device), [(0x00 : UInt8), 0x00])) hch hvalue

/-- A memory of registers is an obliging front end. -/
theorem obliging (perModule : ℕ) : Obliging exec perModule reg where
  length _ _ _ := Bits.length_ofNat _ _
  read f chip t := by rw [exec_rd]
  answer f chip t data h := by
    rw [exec_rd] at h
    exact (List.cons.inj h).2.symm
  write f chip t value a t' hvalue hne := by
    rw [exec_wr perModule f chip t hvalue]
    exact congrArg (Bits.ofNat (dataLength t')) (if_neg fun heq => hne (Prod.ext heq.1 heq.2))
  acknowledges f chip command := by
    simp only [exec, asicCommand]
    split
    · exact ⟨_, rfl⟩
    · exact ⟨[], rfl⟩
  stores f chip t value hvalue := by
    rw [exec_wr perModule f chip t hvalue]
    have hbits : reg (fun a t' => if a = spiId perModule chip ∧ t' = t then Bits.toNat value else f a t')
        (spiId perModule chip) t = Bits.ofNat (dataLength t) (Bits.toNat value) :=
      congrArg (Bits.ofNat (dataLength t)) (if_pos ⟨rfl, rfl⟩)
    rw [hbits, ← hvalue, Bits.ofNat_toNat]

end Device

end GramsTof.Petsys
