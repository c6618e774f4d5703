import GramsTof.Analysis.Records
import GramsTof.Lib.Emission
import GramsTof.Lib.Registry
import GramsTof.Lib.Rounding
import Mathlib.Data.Rat.Cast.Order
import Mathlib.Algebra.Order.Ring.Abs

/-! The coincidence loop. It groups the hits of the active channels around a reference
time, forgets the group when a hit comes outside the window, and fills an entry at
every hit that leaves the group complete. -/

namespace GramsTof.Analysis.Coincidence

open Lib Lib.Registry Lib.Emission

variable {η ι κ ρ : Type*}

/-- What the loop reads of a hit, and what it stores of it. -/
structure Reading (η ι : Type*) where
  channel : η → UInt32
  time : η → ℤ
  info : η → ι

/-- `lastTime`, `vChannelData` and `vHitChannel`. -/
structure Group (ι : Type*) where
  lastTime : ℤ
  channelData : List (UInt32 × ι)
  hitChannel : List (UInt32 × Bool)

/-- The hit at which an entry is filled, and what is stored of each active channel. -/
structure Entry (η ι : Type*) where
  current : η
  hits : List ι

namespace Group

/-- The hit comes outside the window. -/
def Expired (g : Group ι) (window : ℚ) (currTime : ℤ) : Prop :=
  window < |((currTime - g.lastTime : ℤ) : ℚ)|

instance (g : Group ι) (window : ℚ) (currTime : ℤ) : Decidable (g.Expired window currTime) :=
  inferInstanceAs (Decidable (_ < _))

def expire (g : Group ι) (window : ℚ) (currTime : ℤ) : Group ι :=
  if g.Expired window currTime then ⟨g.lastTime, [], []⟩ else g

def store (g : Group ι) (channel : UInt32) (info : ι) : Group ι :=
  ⟨g.lastTime, put g.channelData channel info, put g.hitChannel channel true⟩

/-- The loop over the active channels that stores the hit. -/
def note (g : Group ι) (active : List UInt32) (channel : UInt32) (info : ι) : Group ι :=
  active.foldl (fun g c => if channel = c then g.store channel info else g) g

def retime (g : Group ι) (currTime : ℤ) : Group ι :=
  ⟨if g.channelData.length = 1 then currTime else g.lastTime, g.channelData, g.hitChannel⟩

/-- Reading `vHitChannel[c]` creates a missing entry as false. -/
def touch (g : Group ι) (active : List UInt32) : Group ι :=
  ⟨g.lastTime, g.channelData, active.foldl
    (fun m c => if (m.lookup c).isSome then m else put m c false) g.hitChannel⟩

/-- The test before `Fill`. -/
def Complete (g : Group ι) (active : List UInt32) : Prop :=
  g.channelData.length = active.length ∧ ∀ c ∈ active, g.hitChannel.lookup c = some true

-- the quantifier is decided along the list, not over all channels
instance (g : Group ι) (active : List UInt32) : Decidable (g.Complete active) :=
  @instDecidableAnd _ _ inferInstance
    (List.decidableBAll (fun c => g.hitChannel.lookup c = some true) active)

/-- `vChannelData[c]` for every active channel. -/
def stored [Inhabited ι] (g : Group ι) (active : List UInt32) : List ι :=
  active.map fun c => (g.channelData.lookup c).getD default

/-- What a hit makes of the group. -/
def absorb (R : Reading η ι) (active : List UInt32) (window : ℚ) (g : Group ι) (h : η) : Group ι :=
  (((g.expire window (R.time h)).note active (R.channel h) (R.info h)).retime (R.time h)).touch active

end Group

section Loop

variable [Inhabited ι] (R : Reading η ι) (active : List UInt32) (window : ℚ)

/-- One turn of the loop. -/
def advance (g : Group ι) (h : η) : Group ι × Option (Entry η ι) :=
  (g.absorb R active window h,
    if (g.absorb R active window h).Complete active then
      some ⟨h, (g.absorb R active window h).stored active⟩
    else none)

variable {R active window} in
theorem mem_advance {g : Group ι} {h : η} {e : Entry η ι} :
    e ∈ (advance R active window g h).2 ↔ (g.absorb R active window h).Complete active ∧
      e = ⟨h, (g.absorb R active window h).stored active⟩ := by
  rw [advance, Option.mem_def]
  split_ifs with hfull
  · rw [Option.some_inj, eq_comm, and_iff_right hfull]
  · exact iff_of_false not_false fun h => hfull h.1

/-- The entries filled, from the first hit on. -/
def coincidences : List η → List (Entry η ι)
  | [] => []
  | h :: hs => emitted (advance R active window) ⟨R.time h, [], []⟩ (h :: hs)

variable {R active window} in
theorem length_hits {hits : List η} {e : Entry η ι} (he : e ∈ coincidences R active window hits) :
    e.hits.length = active.length := by
  cases hits with
  | nil => cases he
  | cons h hs =>
    refine forall_emitted (Q := fun e => e.hits.length = active.length) (fun g h b hb => ?_) e he
    obtain ⟨-, rfl⟩ := mem_advance.mp hb
    exact List.length_map _

/-- `C` holds of every hit and of the group it finds. -/
def AlongHits (C : Group ι → η → Prop) : List η → Prop
  | [] => True
  | h :: hs => Along (advance R active window) C ⟨R.time h, [], []⟩ (h :: hs)

instance (C : Group ι → η → Prop) [∀ g h, Decidable (C g h)] :
    ∀ hs, Decidable (AlongHits R active window C hs)
  | [] => .isTrue trivial
  | h :: hs => inferInstanceAs (Decidable (Along _ C ⟨R.time h, [], []⟩ (h :: hs)))

end Loop

/-! ### The tree of a stage-2 file -/

/-- What `vChannelData` stores of a hit. -/
structure ChannelInfo where
  tsCpu : TimeStamp
  frameID : Int64
  channelID : UInt32
  tacID : UInt16
  tCoarse : UInt16
  eCoarse : UInt16
  tFine : UInt16
  eFine : UInt16
  deriving DecidableEq, Repr, Inhabited

def ChannelInfo.ofHit (h : Stg2Record ρ) : ChannelInfo where
  tsCpu := h.tsCpu
  frameID := h.getFrameID.toInt64
  channelID := h.channelID
  tacID := h.getTacID.toUInt16
  tCoarse := h.tCoarse
  eCoarse := h.eCoarse
  tFine := h.tFine
  eFine := h.eFine

/-- The time of a recorded hit in clocks. -/
def ChannelInfo.time (i : ChannelInfo) : ℤ := clock i.frameID.toUInt64 i.tCoarse

/-- `currTime` of a hit. -/
def hitTime (h : Stg2Record ρ) : ℤ := clock h.getFrameID h.tCoarse

def stg2Reading : Reading (Stg2Record ρ) ChannelInfo where
  channel h := h.channelID
  time := hitTime
  info := ChannelInfo.ofHit

/-- An element of the branch `coinEvt`. -/
structure BranchElement (ρ : Type*) extends ChannelInfo where
  timeBegin : ρ
  timeEnd : ρ
  qdcCal : ρ

inductive QdcCalibMethod where
  | getEnergy
  | linear
  | timing
  deriving DecidableEq, Repr

section Tree

variable [NatCast ρ] [Zero ρ] (calib : Calibration ρ) (method : QdcCalibMethod)

def qdcCalOf (channel : UInt32) (i : ChannelInfo) (timeBegin : ρ) : ρ :=
  match method with
  | .getEnergy => calib.getEnergy channel i.tacID.toUInt8 i.frameID i.eCoarse i.eFine timeBegin
  | .linear => 0
  | .timing =>
    calib.getCalibratedQDC channel i.tacID.toUInt8 i.frameID i.eCoarse i.eFine i.tCoarse timeBegin

/-- The conversion of an unsigned number to a double. -/
def toDouble (n : UInt64) : ℕ := Rounding.significant 53 n.toNat

/-- The element of a channel; the frame of its end time is that of the current hit. -/
def branchElement (current : Stg2Record ρ) (channel : UInt32) (i : ChannelInfo) :
    BranchElement ρ where
  toChannelInfo := { i with channelID := channel }
  timeBegin := calib.getCalibratedTime .branchT channel i.tacID.toUInt8 i.frameID i.tCoarse i.tFine
  timeEnd := toDouble (current.getFrameID * 1024 + (rolledOver i.eCoarse i.tCoarse).toUInt64)
  qdcCal := qdcCalOf calib method channel i
    (calib.getCalibratedTime .branchT channel i.tacID.toUInt8 i.frameID i.tCoarse i.tFine)

/-- The entries of the tree `tCoin`. -/
def filled (active : List UInt32) (window : ℚ) (hits : List (Stg2Record ρ)) :
    List (List (BranchElement ρ)) :=
  (coincidences stg2Reading active window hits).map fun e =>
    List.zipWith (branchElement calib method e.current) active e.hits

/-- The tree, if the file has entries. -/
def getCoincidenceEventsTree (active : List UInt32) (window : ℚ) (hits : List (Stg2Record ρ)) :
    Option (List (List (BranchElement ρ))) :=
  if hits = [] then none else some (filled calib method active window hits)

end Tree

/-- A hit of the first frame. -/
def hitOf (channel : UInt32) (tCoarse : UInt16) : Stg2Record ℚ :=
  { (default : Stg2Record ℚ) with channelID := channel, tCoarse := tCoarse }

end GramsTof.Analysis.Coincidence
