import GramsTof.Analysis.Clocks
import GramsTof.Analysis.Convert

/-! The timestamps of the stage-2 entries: the time of the file and 5 ns for each clock since the
first record, seconds and nanoseconds. -/

namespace GramsTof.Analysis

namespace TimeStamp

/-- The nanoseconds are a part of a second. -/
def Normal (ts : TimeStamp) : Prop := 0 ≤ ts.nanoSec ∧ ts.nanoSec < 1000000000

instance (ts : TimeStamp) : Decidable ts.Normal := inferInstanceAs (Decidable (_ ∧ _))

/-- All of it in nanoseconds. -/
def nanos (ts : TimeStamp) : ℤ := ts.sec * 1000000000 + ts.nanoSec

end TimeStamp

def Stg1Record.exactTime (r : Stg1Record) : ℤ := Analysis.exactTime r.frameID r.tCoarse.toNat

namespace Convert

section Stamp

variable {base : TimeStamp} {diffT : ℤ}

theorem nanos_timeStamp (base : TimeStamp) (diffT : ℤ) :
    (timeStamp base diffT).nanos = base.nanos + 5 * diffT := by
  simp only [timeStamp, TimeStamp.nanos]
  split_ifs
  · have hcarry := Int.mul_tdiv_add_tmod
      (base.nanoSec + (diffT * 5 - (diffT * 5).tdiv 1000000000 * 1000000000)) 1000000000
    simp only
    omega
  · simp only
    omega

/-- The carry goes one way only: an offset that takes away more than the nanoseconds of the file
leaves them negative. -/
theorem normal_timeStamp_iff (hbase : base.Normal) :
    (timeStamp base diffT).Normal ↔ 0 ≤ base.nanoSec + (5 * diffT).tmod 1000000000 := by
  obtain ⟨hlow, hhigh⟩ := hbase
  have hrest : diffT * 5 - (diffT * 5).tdiv 1000000000 * 1000000000 =
      (5 * diffT).tmod 1000000000 := by
    rw [Int.tmod_def, Int.mul_comm diffT, Int.mul_comm 1000000000]
  have hsmall := Int.tmod_lt_of_pos (5 * diffT) (show (0 : ℤ) < 1000000000 by decide)
  simp only [timeStamp, TimeStamp.Normal, hrest]
  generalize (5 * diffT).tmod 1000000000 = rest at hsmall
  split_ifs with hcarry
  · rw [Int.tmod_eq_emod_of_nonneg (by omega)]
    simp only
    omega
  · simp only
    omega

end Stamp

variable {ρ : Type*} [Field ρ] [LinearOrder ρ] [FloorRing ρ]

/-- The entry has a normal timestamp, as far from that of the file as its record from the first. -/
def Timed (base : TimeStamp) (first r : Stg1Record) (s : Stg2Record ρ) : Prop :=
  s.tsCpu.Normal ∧ s.tsCpu.nanos = base.nanos + 5 * (r.exactTime - first.exactTime)

/-- The two clocks are in one turn of the counter, and an earlier record takes away no more than the
nanoseconds of the file, whole seconds apart. -/
def InTime (base : TimeStamp) (first r : Stg1Record) : Prop :=
  turn r.exactTime = turn first.exactTime ∧
    0 ≤ base.nanoSec + (5 * (r.exactTime - first.exactTime)).tmod 1000000000

instance (base : TimeStamp) (first r : Stg1Record) : Decidable (InTime base first r) :=
  inferInstanceAs (Decidable (_ ∧ _))

variable {overflow : ρ → UInt16} {maps : ChannelMap} {calib : Option (Calibration ρ)}
  {base : TimeStamp} {first r : Stg1Record} {obj : Stg2Record ρ}

theorem timed_setEntry_iff (hbase : base.Normal) :
    Timed base first r
        (setEntry overflow maps calib base (clock first.getFrameID first.tCoarse) obj r) ↔
      InTime base first r := by
  have hstamp : (setEntry overflow maps calib base (clock first.getFrameID first.tCoarse) obj
      r).tsCpu = timeStamp base (clock r.getFrameID r.tCoarse -
        clock first.getFrameID first.tCoarse) := rfl
  have hclock (x : Stg1Record) :
      clock x.getFrameID x.tCoarse = x.exactTime - 2 ^ 64 * turn x.exactTime :=
    clock_eq x.frameID x.tCoarse
  rw [Timed, InTime, hstamp, nanos_timeStamp, normal_timeStamp_iff hbase, hclock, hclock]
  constructor
  · rintro ⟨hnormal, hexact⟩
    have hturn : turn r.exactTime = turn first.exactTime := by omega
    refine ⟨hturn, ?_⟩
    rw [hturn, sub_sub_sub_cancel_right] at hnormal
    exact hnormal
  · rintro ⟨hturn, hnormal⟩
    rw [hturn, sub_sub_sub_cancel_right]
    exact ⟨hnormal, rfl⟩

/-- The timestamps of a conversion are normal and exact exactly if every record is in time. -/
theorem addBranches_timed_iff (overflow : ρ → UInt16) (maps : ChannelMap)
    (calib : Option (Calibration ρ)) (hbase : base.Normal) (first : Stg1Record)
    (rs : List Stg1Record) (stg2 : Stg2Object ρ) :
    (∃ written, (addBranches overflow maps calib base (some (first :: rs)) stg2).2.tree =
        some (stg2.tree.getD [] ++ written) ∧
      List.Forall₂ (Timed base first) (first :: rs) written) ↔
    ∀ r ∈ first :: rs, InTime base first r := by
  rw [addBranches_tree overflow maps calib base first rs stg2 stg2.entry]
  simp only [Option.some_inj, List.append_cancel_left_eq, exists_eq_left',
    List.forall₂_map_right_iff, List.forall₂_same, timed_setEntry_iff hbase]

/-- The first record, one that is later and one that is earlier. -/
def disordered : List Stg1Record := [recordAt 3, recordAt 8, recordAt 2]

theorem addBranches_timed_millisecond : (⟨0, 1000000⟩ : TimeStamp).Normal ∧
    ∃ written : List (Stg2Record ℚ),
      (addBranches (fun _ => 0) noMap none ⟨0, 1000000⟩ (some disordered) ⟨default, none⟩).2.tree =
        some written ∧
      List.Forall₂ (Timed ⟨0, 1000000⟩ (recordAt 3)) disordered written :=
  ⟨by decide, (addBranches_timed_iff (fun _ => 0) noMap none (by decide) _ _ ⟨default, none⟩).mpr
    (by decide)⟩

/-- In the file of a whole second a record one clock before the first has -5 nanoseconds. -/
theorem not_addBranches_timed :
    ¬ ∀ (base : TimeStamp) (first : Stg1Record) (rs : List Stg1Record), base.Normal →
      ∃ written : List (Stg2Record ℚ),
        (addBranches (fun _ => 0) noMap none base (some (first :: rs)) ⟨default, none⟩).2.tree =
          some written ∧
        List.Forall₂ (Timed base first) (first :: rs) written := by
  intro hall
  obtain ⟨written, htree, htimed⟩ := hall ⟨0, 0⟩ (recordAt 3) [recordAt 2] (by decide)
  rw [addBranches_tree (fun _ => 0) noMap none ⟨0, 0⟩ _ _ ⟨default, none⟩ default] at htree
  obtain rfl := Option.some.inj htree
  obtain ⟨-, hearlier, -⟩ := (List.forall₂_cons.mp htimed).imp id List.forall₂_cons.mp
  exact absurd ((timed_setEntry_iff (by decide)).mp hearlier) (by decide)

end Convert

end GramsTof.Analysis
