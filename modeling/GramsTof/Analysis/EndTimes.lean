import GramsTof.Analysis.Calibration
import GramsTof.Analysis.Clocks
import GramsTof.Analysis.Recent

/-! The end times of the hits of a coincidence: the one that an element stores, with the frame of
the current hit, and those that the two charge methods integrate up to. -/

namespace GramsTof.Analysis.Coincidence

open Lib Rounding

variable {ρ : Type*}

/-- The end of a hit, past a rollover of its own counters. -/
def ChannelInfo.exactEnd (i : ChannelInfo) : ℤ := exactTime i.frameID (corrected i.eCoarse i.tCoarse)

/-! ### The stored end time -/

section Stored

variable {calib : Calibration ρ} {method : QdcCalibMethod} {active : List UInt32} {window : ℚ}
  {hits : List (Stg2Record ρ)} {i : ℕ} {entry : List (BranchElement ρ)}

/-- By how many frames the current hit is ahead of `h`. What the counter of sixteen bits loses when it is
corrected past its end counts as 64 frames. -/
def framesAhead (current h : Stg2Record ρ) : ℤ :=
  current.frameID.toInt - h.frameID.toInt - 64 * (corrected h.eCoarse h.tCoarse / 2 ^ 16)

/-- The end of `h` is an unsigned number of 64 bits that a double can hold, and the current hit is not
ahead; or doubles are two frames apart there, and the end stands on the even one next to that of the
current hit, one frame off. -/
def EndsWith (current h : Stg2Record ρ) : Prop :=
  0 ≤ (ChannelInfo.ofHit h).exactEnd ∧
    ((ChannelInfo.ofHit h).exactEnd < 2 ^ 64 ∧ Fits 53 (ChannelInfo.ofHit h).exactEnd.toNat ∧
        2 ^ 54 ∣ framesAhead current h ∨
      2 ^ 12 ∣ (ChannelInfo.ofHit h).exactEnd ∧
        (2 ^ 63 ≤ (ChannelInfo.ofHit h).exactEnd ∧ (ChannelInfo.ofHit h).exactEnd < 2 ^ 64 ∧
            2 ^ 54 ∣ framesAhead current h - 1 ∨
          2 ^ 63 < (ChannelInfo.ofHit h).exactEnd ∧ (ChannelInfo.ofHit h).exactEnd ≤ 2 ^ 64 ∧
            2 ^ 54 ∣ framesAhead current h + 1))

instance (current h : Stg2Record ρ) : Decidable (EndsWith current h) :=
  inferInstanceAs (Decidable (_ ∧ (_ ∧ _ ∧ _ ∨ _ ∧ (_ ∧ _ ∧ _ ∨ _ ∧ _ ∧ _))))

/-- A number of 64 bits rounds to one of the same remainder if it is that number and a double can hold
it, or if it is half way between that number, the even one, and another. -/
theorem significant_eq_iff {n m : ℕ} (hn : n < 2 ^ 64) (hmod : n % 1024 = m % 1024) :
    significant 53 n = m ↔ n = m ∧ Fits 53 n ∨
      2 ^ 63 ≤ n ∧ 2 ^ 12 ∣ m ∧ (n = m + 1024 ∨ m = n + 1024) := by
  rw [significant, nearest_eq_iff ulp_pos]
  rcases Nat.lt_or_ge n (2 ^ 63) with hlt | hge
  · obtain ⟨k, hk⟩ : ulp 53 n ∣ 2 ^ (63 - 53) := ulp_dvd (by decide) hlt
    have hpos : 0 < ulp 53 n := ulp_pos
    have hunit : ulp 53 n ≤ 1024 := Nat.le_of_dvd (by decide) ⟨k, hk⟩
    -- half a unit is less than what two numbers of the same remainder differ by
    constructor
    · rintro ⟨hdvd, hnear⟩
      obtain rfl : n = m := by omega
      exact .inl ⟨rfl, hdvd⟩
    · rintro (⟨rfl, hdvd⟩ | ⟨hge, -⟩)
      · exact ⟨hdvd, .inl (by omega)⟩
      · omega
  · rw [Fits, ulp_of_bounds hge hn]
    omega

theorem toDouble_unsignedTime_iff (current h : Stg2Record ρ) :
    (toDouble (current.frameID.toUInt64 * 1024 + (rolledOver h.eCoarse h.tCoarse).toUInt64) : ℤ) =
      (ChannelInfo.ofHit h).exactEnd ↔ EndsWith current h := by
  have hframe : (ChannelInfo.ofHit h).exactEnd =
      1024 * h.frameID.toInt + corrected h.eCoarse h.tCoarse := rfl
  have hcounter := toNat_rolledOver h.eCoarse h.tCoarse
  have htime := toNat_unsignedTime current.frameID (rolledOver h.eCoarse h.tCoarse)
  have hlt := (current.frameID.toUInt64 * 1024 + (rolledOver h.eCoarse h.tCoarse).toUInt64).toNat_lt
  rw [toDouble, EndsWith, framesAhead]
  generalize (ChannelInfo.ofHit h).exactEnd = e at hframe ⊢
  generalize (current.frameID.toUInt64 * 1024 + (rolledOver h.eCoarse h.tCoarse).toUInt64).toNat = n
    at htime hlt ⊢
  rw [exactTime, hcounter] at htime
  rcases Int.lt_or_le e 0 with hneg | hpos
  · exact iff_of_false (by omega) (by omega)
  · obtain ⟨m, rfl⟩ := Int.eq_ofNat_of_zero_le hpos
    rw [Int.natCast_inj, significant_eq_iff hlt (by omega), Int.toNat_natCast]
    by_cases hnm : n = m
    · subst hnm
      by_cases hfits : Fits 53 n
      · exact iff_of_true (.inl ⟨rfl, hfits⟩) ⟨hpos, .inl ⟨by omega, hfits, by omega⟩⟩
      · simp only [hfits, and_false, false_and, false_or]
        omega
    · have hahead : ¬ ((m : ℤ) < 2 ^ 64 ∧ Fits 53 m ∧ (2 : ℤ) ^ 54 ∣ current.frameID.toInt -
          h.frameID.toInt - 64 * (corrected h.eCoarse h.tCoarse / 2 ^ 16)) := by
        rintro ⟨hm, -, hdvd⟩
        omega
      rw [or_iff_right (fun hn => hnm hn.1), or_iff_right hahead]
      omega

/-- Where nothing leaves its range it is a matter of the frames alone. -/
theorem endsWith_iff_frameID {current h : Stg2Record ρ}
    (hcurrent : 0 ≤ current.frameID.toInt ∧ current.frameID.toInt < 2 ^ 54)
    (hframe : 0 ≤ h.frameID.toInt ∧ h.frameID.toInt < 2 ^ 43 - 64)
    (hcounter : corrected h.eCoarse h.tCoarse < 2 ^ 16) :
    EndsWith current h ↔ current.frameID = h.frameID := by
  have hend : (ChannelInfo.ofHit h).exactEnd =
      1024 * h.frameID.toInt + corrected h.eCoarse h.tCoarse := rfl
  have hpos := (corrected_bounds h.eCoarse h.tCoarse).1
  have hfits : Fits 53 (ChannelInfo.ofHit h).exactEnd.toNat := fits_of_lt (by decide) (by omega)
  rw [EndsWith, framesAhead, hend, ← Int64.toInt_inj]
  rw [hend] at hfits
  simp only [hfits, true_and]
  omega

variable [Ring ρ] [CharZero ρ]

theorem timeEnd_branchElement_iff (current h : Stg2Record ρ) (c : UInt32) :
    (branchElement calib method current c (.ofHit h)).timeEnd =
      ((branchElement calib method current c (.ofHit h)).exactEnd : ρ) ↔ EndsWith current h := by
  have hstored : (branchElement calib method current c (.ofHit h)).timeEnd =
      ((toDouble (current.frameID.toUInt64 * 1024 + (rolledOver h.eCoarse h.tCoarse).toUInt64) : ℤ) : ρ) :=
    (Int.cast_natCast _).symm
  rw [hstored, Int.cast_inj]
  exact toDouble_unsignedTime_iff current h

/-- The end times of an entry are those of its own hits exactly if the hit at which it is filled ends with
the most recent hit of each active channel. -/
theorem filledAt_timeEnd_iff {chanList : List UInt32}
    (h : (i, entry) ∈ filledAt calib method (setActiveChannels chanList) window hits) :
    (∀ el ∈ entry, el.timeEnd = (el.exactEnd : ρ)) ↔
      ∀ current, hits[i]? = some current → ∀ c ∈ chanList, ∀ h,
        lastOf stg2Reading c (hits.take (i + 1)) = some h → EndsWith current h := by
  obtain ⟨hchannels, current, hcurrent, hmade⟩ := filledAt_made h
  constructor
  · intro hall current' hcurrent' c hc h hlast
    cases hcurrent.symm.trans hcurrent'
    have hmem : c ∈ entry.map (·.channelID) := hchannels ▸ (List.mem_insertionSort _).mpr hc
    obtain ⟨el, hel, rfl⟩ := List.mem_map.mp hmem
    obtain ⟨h', hlast', heq⟩ := hmade el hel
    cases hlast'.symm.trans hlast
    have hend := hall el hel
    rw [heq] at hend
    exact (timeEnd_branchElement_iff current h _).mp hend
  · intro hall el hel
    obtain ⟨h, hlast, heq⟩ := hmade el hel
    have hc : el.channelID ∈ chanList :=
      (List.mem_insertionSort _).mp (hchannels ▸ List.mem_map_of_mem hel)
    rw [heq]
    exact (timeEnd_branchElement_iff current h _).mpr (hall current hcurrent _ hc h hlast)

/-- The entries of the tree are filled one by one, and the end times of an entry are those of its own hits
exactly if the hit at which it is filled ends with the most recent hit of each active channel. -/
theorem entry_timeEnd_iff {chanList : List UInt32} {tree : List (List (BranchElement ρ))}
    (htree : getCoincidenceEventsTree calib method (setActiveChannels chanList) window hits = some tree) :
    (∀ entry, entry ∈ tree ↔
      ∃ i, (i, entry) ∈ filledAt calib method (setActiveChannels chanList) window hits) ∧
    ∀ i entry, (i, entry) ∈ filledAt calib method (setActiveChannels chanList) window hits →
      ((∀ el ∈ entry, el.timeEnd = (el.exactEnd : ρ)) ↔
        ∀ current, hits[i]? = some current → ∀ c ∈ chanList, ∀ h,
          lastOf stg2Reading c (hits.take (i + 1)) = some h → EndsWith current h) :=
  ⟨fun _ => mem_tree_iff htree, fun _ _ h => filledAt_timeEnd_iff h⟩

end Stored

/-- A hit of a given frame. -/
def hitAt (frameID : Int64) (channel : UInt32) (tCoarse : UInt16) : Stg2Record ℚ :=
  { hitOf channel tCoarse with frameID := frameID }

theorem entry_timeEnd_iff_pair : ∃ tree entry,
    getCoincidenceEventsTree nullCalibration .getEnergy (setActiveChannels [5, 3]) 1
      [hitAt 7 3 0, hitAt 7 5 1] = some tree ∧ entry ∈ tree ∧
      ∀ el ∈ entry, el.timeEnd = (el.exactEnd : ℚ) := by
  have hplaces : 1 ∈ (filledAt nullCalibration .getEnergy (setActiveChannels [5, 3]) 1
      [hitAt 7 3 0, hitAt 7 5 1]).map Prod.fst := by decide +kernel
  obtain ⟨⟨i, entry⟩, hentry, rfl⟩ := List.mem_map.mp hplaces
  have htree : getCoincidenceEventsTree nullCalibration .getEnergy (setActiveChannels [5, 3]) 1
      [hitAt 7 3 0, hitAt 7 5 1] = some _ := rfl
  obtain ⟨hmem, hends⟩ := entry_timeEnd_iff htree
  refine ⟨_, entry, htree, (hmem entry).mpr ⟨_, hentry⟩,
    (hends _ entry hentry).mpr fun current hcurrent c _ h hlast => ?_⟩
  cases hcurrent
  have hhits : h ∈ [hitAt 7 3 0, hitAt 7 5 1] :=
    (List.mem_filter.mp (List.mem_of_getLast? hlast)).1
  rcases List.mem_pair.mp hhits with rfl | rfl <;> decide

/-- A hit at the end of a frame and one at the beginning of the next. -/
def straddling : List (Stg2Record ℚ) := [hitAt 0 3 1023, hitAt 1 5 0]

theorem not_entry_timeEnd :
    ¬ ∀ (calib : Calibration ℚ) (method : QdcCalibMethod) (chanList : List UInt32) (window : ℚ)
      (hits : List (Stg2Record ℚ)) (tree : List (List (BranchElement ℚ))),
      getCoincidenceEventsTree calib method (setActiveChannels chanList) window hits = some tree →
        ∀ entry ∈ tree, ∀ el ∈ entry, el.timeEnd = (el.exactEnd : ℚ) := by
  intro hall
  have hplaces : 1 ∈ (filledAt nullCalibration .getEnergy (setActiveChannels [3, 5]) 1
      straddling).map Prod.fst := by decide +kernel
  obtain ⟨⟨i, entry⟩, hentry, rfl⟩ := List.mem_map.mp hplaces
  obtain ⟨hchannels, current, hcurrent, hmade⟩ := filledAt_made hentry
  have hmem : 3 ∈ entry.map (·.channelID) := hchannels ▸ List.mem_cons_self
  obtain ⟨el, hel, hchannel⟩ := List.mem_map.mp hmem
  obtain ⟨h, hlast, heq⟩ := hmade el hel
  rw [hchannel] at hlast
  have hfirst : hitAt 0 3 1023 = h := Option.some.inj hlast
  have hnow : hitAt 1 5 0 = current := Option.some.inj hcurrent
  subst hfirst hnow
  have htree : getCoincidenceEventsTree nullCalibration .getEnergy (setActiveChannels [3, 5]) 1
      straddling = some _ := rfl
  have hend := hall _ _ _ _ _ _ htree entry ((mem_tree_iff htree).mpr ⟨_, hentry⟩) el hel
  rw [heq] at hend
  exact absurd ((timeEnd_branchElement_iff _ _ _).mp hend) (by decide)

/-- A frame of 2^43, with one clock the first number that a double does not hold: no hit of that frame
ends there as stored. -/
example : ¬ EndsWith { hitAt (2 ^ 43) 3 0 with eCoarse := 1 } { hitAt (2 ^ 43) 3 0 with eCoarse := 1 } := by
  decide

/-! ### The end of the integration -/

/-- The integer in `timeEnd` of `getEnergy`. -/
def ChannelInfo.energyEnd (i : ChannelInfo) : ℤ := clock i.frameID.toUInt64 i.eCoarse

/-- The integer in `timeEnd` of `getCalibratedQDC`. -/
def ChannelInfo.qdcEnd (i : ChannelInfo) : ℤ :=
  clock i.frameID.toUInt64 (rolledOver i.eCoarse i.tCoarse)

/-- The two ends agree exactly without a rollover, and are the right one if the frames fit. -/
theorem ChannelInfo.ends_iff {i : ChannelInfo} (he : i.eCoarse.toNat < 1024) :
    (i.energyEnd = i.qdcEnd ∧ i.qdcEnd = i.exactEnd) ↔
      -256 ≤ (i.eCoarse.toNat : ℤ) - i.tCoarse.toNat ∧
        -2 ^ 53 ≤ i.frameID.toInt ∧ i.frameID.toInt < 2 ^ 53 := by
  have hcounter := toNat_rolledOver i.eCoarse i.tCoarse
  rw [energyEnd, qdcEnd, exactEnd, clock_eq, clock_eq, hcounter, corrected]
  simp only [exactTime, turn]
  split_ifs <;> omega

section Integration

variable [Field ρ] [LinearOrder ρ] {lib : CLibrary ρ} {t : Table ρ} {method : QdcCalibMethod}
  {active : List UInt32} {window : ℚ} {hits : List (Stg2Record ρ)} {i : ℕ}
  {entry : List (BranchElement ρ)}

/-- `getEnergy` from its integration time on. -/
def energyOver (p : QdcParams ρ) (efine : UInt16) (ti : ρ) : ρ :=
  energyLoop p (efine.toNat : ρ) 100 ti - ti

/-- What an element stores as its charge: each method integrates from the time of the begin up to
its own end. -/
theorem filledAt_qdcCal (h : (i, entry) ∈ filledAt (t.calibration lib) method active window hits)
    {el : BranchElement ρ} (hel : el ∈ entry) :
    (method = .getEnergy → el.qdcCal = energyOver
      (getQdcParams t el.channelID el.tacID.toUInt8) el.eFine (el.energyEnd - el.timeBegin)) ∧
    (method = .timing → el.qdcCal =
      (getQdcParams t el.channelID el.tacID.toUInt8).eval (el.qdcEnd - el.timeBegin)) := by
  obtain ⟨-, current, -, hmade⟩ := filledAt_made h
  obtain ⟨h, -, heq⟩ := hmade el hel
  rw [heq]
  constructor <;> rintro rfl <;> rfl

/-- For an element with an end counter of ten bits, the ends that its two charges are integrated up to are
both the end of its hit exactly if the counter has not rolled over and the frame fits. -/
theorem charge_ends_iff (h : (i, entry) ∈ filledAt (t.calibration lib) method active window hits)
    {el : BranchElement ρ} (hel : el ∈ entry) (he : el.eCoarse.toNat < 1024) :
    ((method = .getEnergy → el.qdcCal = energyOver
        (getQdcParams t el.channelID el.tacID.toUInt8) el.eFine (el.energyEnd - el.timeBegin)) ∧
      (method = .timing → el.qdcCal =
        (getQdcParams t el.channelID el.tacID.toUInt8).eval (el.qdcEnd - el.timeBegin))) ∧
    ((el.energyEnd = el.qdcEnd ∧ el.qdcEnd = el.exactEnd) ↔
      -256 ≤ (el.eCoarse.toNat : ℤ) - el.tCoarse.toNat ∧
        -2 ^ 53 ≤ el.frameID.toInt ∧ el.frameID.toInt < 2 ^ 53) :=
  ⟨filledAt_qdcCal h hel, ChannelInfo.ends_iff he⟩

end Integration

def zeroTable : Table ℚ :=
  ⟨fun _ _ _ _ => ⟨0, 0, 0, 0⟩, fun _ _ _ => ⟨0, 0, 0, 0, 0, 0, 0, 0, 0, 0⟩⟩

/-- The elements of an entry where there is one hit. -/
theorem eq_branchElement_of_single {calib : Calibration ℚ} {method : QdcCalibMethod}
    {active : List UInt32} {window : ℚ} {hit : Stg2Record ℚ} {i : ℕ}
    {entry : List (BranchElement ℚ)} {el : BranchElement ℚ}
    (h : (i, entry) ∈ filledAt calib method active window [hit]) (hel : el ∈ entry) :
    ∃ current, el = branchElement calib method current el.channelID (.ofHit hit) := by
  obtain ⟨-, current, hcurrent, hmade⟩ := filledAt_made h
  obtain ⟨hit', hlast, heq⟩ := hmade el hel
  have hmem : hit' ∈ [hit].take (i + 1) := (List.mem_filter.mp (List.mem_of_getLast? hlast)).1
  obtain rfl := List.mem_singleton.mp (List.mem_of_mem_take hmem)
  exact ⟨current, heq⟩

theorem charge_ends_iff_single :
    ∃ entry, (0, entry) ∈ filledAt (zeroTable.calibration digitLibrary) .timing [3] 1 [hitAt 7 3 0] ∧
      ∀ el ∈ entry, el.energyEnd = el.qdcEnd ∧ el.qdcEnd = el.exactEnd := by
  have hplaces : 0 ∈ (filledAt (zeroTable.calibration digitLibrary) .timing [3] 1
      [hitAt 7 3 0]).map Prod.fst := by decide +kernel
  obtain ⟨⟨i, entry⟩, hentry, rfl⟩ := List.mem_map.mp hplaces
  refine ⟨entry, hentry, fun el hel => ?_⟩
  obtain ⟨current, heq⟩ := eq_branchElement_of_single hentry hel
  have hcounters : el.tCoarse = 0 ∧ el.eCoarse = 0 ∧ el.frameID = 7 := by
    rw [heq]
    exact ⟨rfl, rfl, rfl⟩
  obtain ⟨ht, he, hframe⟩ := hcounters
  refine (charge_ends_iff hentry hel (by rw [he]; decide)).2.mpr ?_
  rw [ht, he, hframe]
  decide

/-- A hit whose end counter has rolled over. -/
def rolledHit : Stg2Record ℚ := { hitOf 3 1000 with eCoarse := 10 }

theorem not_charge_ends :
    ¬ ∀ (lib : CLibrary ℚ) (t : Table ℚ) (method : QdcCalibMethod) (active : List UInt32)
      (window : ℚ) (hits : List (Stg2Record ℚ)) (i : ℕ) (entry : List (BranchElement ℚ))
      (el : BranchElement ℚ), (i, entry) ∈ filledAt (t.calibration lib) method active window hits →
      el ∈ entry → el.tCoarse.toNat < 1024 → el.eCoarse.toNat < 1024 →
        el.energyEnd = el.qdcEnd ∧ el.qdcEnd = el.exactEnd := by
  intro hall
  have hplaces : 0 ∈ (filledAt (zeroTable.calibration digitLibrary) .timing [3] 1
      [rolledHit]).map Prod.fst := by decide +kernel
  obtain ⟨⟨i, entry⟩, hentry, rfl⟩ := List.mem_map.mp hplaces
  have hmem : 3 ∈ entry.map (·.channelID) := (filledAt_made hentry).1 ▸ List.mem_singleton_self 3
  obtain ⟨el, hel, -⟩ := List.mem_map.mp hmem
  obtain ⟨current, heq⟩ := eq_branchElement_of_single hentry hel
  have hcounters : el.tCoarse = 1000 ∧ el.eCoarse = 10 ∧ el.frameID = 0 := by
    rw [heq]
    exact ⟨rfl, rfl, rfl⟩
  obtain ⟨ht, he, hframe⟩ := hcounters
  have hends := hall _ _ _ _ _ _ _ _ el hentry hel (by rw [ht]; decide) (by rw [he]; decide)
  rw [ChannelInfo.energyEnd, ChannelInfo.qdcEnd, ht, he, hframe] at hends
  exact absurd hends.1 (by decide)

end GramsTof.Analysis.Coincidence
