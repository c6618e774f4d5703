import GramsTof.Petsys.AsicCommand

/-! The configuration of the ASICs that a session remembers, and writes through: a
register is written when it is to have another value than the remembered one, or
when the access is forced. -/

namespace GramsTof.Petsys

open Lib Daqd

namespace AsicConfig

def value (ac : AsicConfig) : Target → Bits
  | none => ac.globalConfig
  | some channelID => ac.channelConfig channelID

def set (ac : AsicConfig) (t : Target) (v : Bits) : AsicConfig :=
  match t with
  | none => { ac with globalConfig := v }
  | some channelID => { ac with channelConfig := Function.update ac.channelConfig channelID v }

theorem value_set (ac : AsicConfig) (t : Target) (v : Bits) : (ac.set t v).value t = v := by
  cases t with
  | none => rfl
  | some channelID => exact Function.update_self ..

theorem value_set_of_ne (ac : AsicConfig) {t t' : Target} (v : Bits) (h : t' ≠ t) :
    (ac.set t v).value t' = ac.value t' := by
  cases t with
  | none =>
    cases t' with
    | none => exact absurd rfl h
    | some channelID => rfl
  | some channelID =>
    cases t' with
    | none => rfl
    | some channelID' => exact Function.update_of_ne (fun heq => h (congrArg some heq)) ..

end AsicConfig

namespace Session

variable {F : Type}

def cached (s : Session F) (chip : Chip) : Option AsicConfig := s.asicConfigCache.bind fun cache => cache chip

def setCached (s : Session F) (chip : Chip) (ac : AsicConfig) : Session F :=
  { s with asicConfigCache := s.asicConfigCache.map fun cache => Function.update cache chip (some ac) }

end Session

/-- The registers of a chip, in the order in which they are set. -/
def targets : List Target := none :: (List.finRange 64).map some

section Program

variable {F : Type} (exec : F → Command → F × List UInt8) (perModule : ℕ) (activeAsics : List Chip)

/-- The configuration as the registers of a chip have it. -/
def readConfig (chip : Chip) : Program (Session F) Err AsicConfig := do
  let globalConfig ← doAsicRead exec perModule chip none
  let channelConfig ← (List.finRange 64).foldlM (fun channelConfig n => do
    let value ← doAsicRead exec perModule chip (some n)
    pure (Function.update channelConfig n value)) fun _ => []
  pure ⟨globalConfig, channelConfig⟩

def cacheConfig (chip : Chip) : Program (Session F) Err PUnit := do
  let ac ← readConfig exec perModule chip
  Program.modify fun s => s.setCached chip ac

/-- The cache is built anew, when there is none or it is not to be used. -/
def buildCache (forceAccess : Bool) : Program (Session F) Err PUnit := do
  let s ← Program.get
  if forceAccess = true ∨ s.asicConfigCache.isNone = true then do
    Program.modify fun s => { s with asicConfigCache := some fun _ => none }
    Program.forEach (cacheConfig exec perModule) activeAsics
  else pure ⟨⟩

def getAsicsConfig (forceAccess : Bool) : Program (Session F) Err (Chip → Option AsicConfig) := do
  buildCache exec perModule activeAsics forceAccess
  let s ← Program.get
  pure s.cached

def setRegister (forceAccess : Bool) (chip : Chip) (newAC : AsicConfig) (t : Target) :
    Program (Session F) Err PUnit := do
  let s ← Program.get
  match s.cached chip with
  | none => Program.throw .keyError
  | some cachedAC =>
    if forceAccess = true ∨ newAC.value t ≠ cachedAC.value t then do
      doAsicWrite exec perModule chip t (newAC.value t)
      Program.modify fun s => s.setCached chip (cachedAC.set t (newAC.value t))
    else pure ⟨⟩

def setChip (forceAccess : Bool) (config : Chip → Option AsicConfig) (chip : Chip) :
    Program (Session F) Err PUnit := do
  let s ← Program.get
  match s.cached chip, config chip with
  | some _, some newAC => Program.forEach (setRegister exec perModule forceAccess chip newAC) targets
  | _, _ => Program.throw .keyError

def setAsicsConfig (config : Chip → Option AsicConfig) (forceAccess : Bool) : Program (Session F) Err PUnit := do
  buildCache exec perModule activeAsics false
  Program.forEach (setChip exec perModule forceAccess config) activeAsics

/-- The calls that programs make. -/
inductive Call where
  | get (forceAccess : Bool)
  | set (config : Chip → Option AsicConfig) (forceAccess : Bool)

def Call.run : Call → Program (Session F) Err PUnit
  | .get forceAccess => do
    let _ ← getAsicsConfig exec perModule activeAsics forceAccess
    pure ⟨⟩
  | .set config forceAccess => setAsicsConfig exec perModule activeAsics config forceAccess

end Program

end GramsTof.Petsys
