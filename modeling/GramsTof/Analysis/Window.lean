import GramsTof.Analysis.Grouping

/-! How far apart the hits of an entry are. A hit is compared with the reference time
of the group, not with the hits stored; a hit of an inactive channel that comes while
one channel is stored moves the reference time past them. -/

namespace GramsTof.Analysis.Coincidence

open Lib Lib.Registry Lib.Emission

variable {η ι ρ : Type*}

/-- No two of the hits are further apart than the window. -/
def Within (stamp : ι → ℤ) (window : ℚ) (l : List ι) : Prop :=
  l.Pairwise fun i j => |((stamp i - stamp j : ℤ) : ℚ)| ≤ window

instance (stamp : ι → ℤ) (window : ℚ) (l : List ι) : Decidable (Within stamp window l) :=
  inferInstanceAs (Decidable (List.Pairwise _ l))

theorem sub_le_of_close {window : ℚ} {a b t : ℤ} (ha : a ≤ t) (hb : ((t - b : ℤ) : ℚ) ≤ window) :
    ((a - b : ℤ) : ℚ) ≤ window := by
  have hle : a - b ≤ t - b := sub_le_sub_right ha b
  exact (Int.cast_le.mpr hle).trans hb

/-- Two times up to `t` are as close to each other as they are to `t`. -/
theorem abs_sub_le_of_close {window : ℚ} {a b t : ℤ} (ha : a ≤ t) (hb : b ≤ t)
    (hta : ((t - a : ℤ) : ℚ) ≤ window) (htb : ((t - b : ℤ) : ℚ) ≤ window) :
    |((a - b : ℤ) : ℚ)| ≤ window := by
  rw [Int.cast_sub, abs_sub_le_iff, ← Int.cast_sub, ← Int.cast_sub]
  exact ⟨sub_le_of_close ha htb, sub_le_of_close hb hta⟩

section Groups

variable {R : Reading η ι} {active : List UInt32} {window : ℚ} {stamp : ι → ℤ} {g : Group ι}
  {h : η} {hs : List η}

/-- When the hit fills an entry, the stored hits from before the reference time are within the
window of it. -/
def Group.Fresh (R : Reading η ι) (active : List UInt32) (window : ℚ) (stamp : ι → ℤ)
    (g : Group ι) (h : η) : Prop :=
  R.channel h ∈ active → ¬ g.Expired window (R.time h) →
    (g.absorb R active window h).Complete active →
      ∀ d ∈ g.channelData, d.1 ≠ R.channel h → stamp d.2 < g.lastTime →
        ((R.time h - stamp d.2 : ℤ) : ℚ) ≤ window

instance (g : Group ι) (h : η) : Decidable (g.Fresh R active window stamp h) :=
  inferInstanceAs (Decidable (_ → _ → _ → ∀ d ∈ g.channelData, _))

/-- A hit of an inactive channel moves the reference time of the one stored hit. -/
def Group.Shifts (R : Reading η ι) (active : List UInt32) (window : ℚ) (g : Group ι)
    (h : η) : Prop :=
  R.channel h ∉ active ∧ ¬ g.Expired window (R.time h) ∧ g.channelData.length = 1

instance (g : Group ι) (h : η) : Decidable (g.Shifts R active window h) :=
  inferInstanceAs (Decidable (_ ∧ _ ∧ _))

/-! ### Stored hits of two channels -/

theorem within_stored_iff [Inhabited ι] (hg : g.Kept active) (hfull : g.Complete active) :
    Within stamp window (g.stored active) ↔ ∀ d ∈ g.channelData, ∀ d' ∈ g.channelData,
      d.1 ≠ d'.1 → |((stamp d.2 - stamp d'.2 : ℤ) : ℚ)| ≤ window := by
  have hval : ∀ d ∈ g.channelData, (g.channelData.lookup d.1).getD default = d.2 := by
    intro d hd
    rw [lookup_of_mem hg.nodup hd]
    rfl
  rw [Within, Group.stored, List.pairwise_map]
  constructor
  · intro hp d hd d' hd' hne
    have hsymm : Std.Symm fun c c' => |((stamp ((g.channelData.lookup c).getD default) -
        stamp ((g.channelData.lookup c').getD default) : ℤ) : ℚ)| ≤ window :=
      ⟨fun c c' hle => by rwa [← neg_sub, Int.cast_neg, abs_neg]⟩
    have hle := hp.forall (hg.active _ (mem_keys_of_mem hd)) (hg.active _ (mem_keys_of_mem hd')) hne
    rwa [hval d hd, hval d' hd'] at hle
  · intro hall
    refine (hg.nodup_of_complete hfull).pairwise_of_forall_ne fun c hc c' hc' hne => ?_
    obtain ⟨v, hv⟩ := mem_keys.mp (hg.mem_of_complete hfull hc)
    obtain ⟨v', hv'⟩ := mem_keys.mp (hg.mem_of_complete hfull hc')
    rw [hval _ hv, hval _ hv']
    exact hall _ hv _ hv' hne

/-- What is known before the hits `hs`, sorted by time. -/
structure Past (R : Reading η ι) (active : List UInt32) (stamp : ι → ℤ) (g : Group ι)
    (hs : List η) : Prop where
  kept : g.Kept active
  sorted : hs.Pairwise fun h k => R.time h ≤ R.time k
  stored : ∀ d ∈ g.channelData, ∀ h ∈ hs, stamp d.2 ≤ R.time h

theorem Past.initial (hsorted : (h :: hs).Pairwise fun h k => R.time h ≤ R.time k) :
    Past R active stamp (⟨R.time h, [], []⟩ : Group ι) (h :: hs) :=
  ⟨Group.kept_empty _, hsorted, fun _ hd => absurd hd List.not_mem_nil⟩

variable (hstamp : ∀ h, stamp (R.info h) = R.time h)
include hstamp

theorem Past.absorb (hp : Past R active stamp g (h :: hs)) :
    Past R active stamp (g.absorb R active window h) hs where
  kept := hp.kept.absorb
  sorted := (List.pairwise_cons.mp hp.sorted).2
  stored := by
    intro d hd k hk
    rcases Group.mem_absorb hd with rfl | hold
    · rw [hstamp]
      exact (List.pairwise_cons.mp hp.sorted).1 k hk
    · exact hp.stored d hold k (List.mem_cons_of_mem h hk)

/-! ### One hit -/

omit hstamp in
/-- A hit that fills an entry within the window is close to all hits stored from the reference
time on; the condition says it of the others. -/
theorem close_of_fresh (hc : R.channel h ∈ active)
    (hin : ¬ g.Expired window (R.time h)) (hfull : (g.absorb R active window h).Complete active)
    (hfresh : g.Fresh R active window stamp h) {d : UInt32 × ι} (hd : d ∈ g.channelData)
    (hne : d.1 ≠ R.channel h) : ((R.time h - stamp d.2 : ℤ) : ℚ) ≤ window := by
  by_cases hold : stamp d.2 < g.lastTime
  · exact hfresh hc hin hfull d hd hne hold
  · have hwindow : ((R.time h - g.lastTime : ℤ) : ℚ) ≤ window :=
      (le_abs_self _).trans (not_lt.mp hin)
    have hle : ((R.time h - stamp d.2 : ℤ) : ℚ) ≤ ((R.time h - g.lastTime : ℤ) : ℚ) :=
      Int.cast_le.mpr (by omega)
    exact hle.trans hwindow

/-- The entry of a hit of an active channel. -/
theorem Past.within_active (hp : Past R active stamp g (h :: hs)) (hc : R.channel h ∈ active)
    (hfull : (g.absorb R active window h).Complete active) [Inhabited ι] :
    Within stamp window ((g.absorb R active window h).stored active) ↔
      g.Fresh R active window stamp h := by
  rw [within_stored_iff hp.kept.absorb hfull, Group.absorb_of_active hc]
  by_cases hin : g.Expired window (R.time h)
  · rw [Group.expire_of_expired hin]
    refine iff_of_true (fun d hd d' hd' hne => ?_) fun _ hout => absurd hin hout
    rw [List.mem_singleton.mp hd, List.mem_singleton.mp hd'] at hne
    exact absurd rfl hne
  rw [Group.expire_of_not_expired hin]
  constructor
  · intro hall _ _ _ d hd hne _
    have hle := hall _ (mem_put.mpr (.inl rfl)) d (mem_put.mpr (.inr ⟨hd, hne⟩)) (Ne.symm hne)
    rw [hstamp] at hle
    exact (le_abs_self _).trans hle
  · intro hfresh
    -- whatever the group stores now comes before the hit, and at most the window before it
    have hclose : ∀ d ∈ put g.channelData (R.channel h) (R.info h),
        stamp d.2 ≤ R.time h ∧ ((R.time h - stamp d.2 : ℤ) : ℚ) ≤ window := by
      intro d hd
      rcases mem_put.mp hd with rfl | ⟨hd, hne⟩
      · have hwindow : 0 ≤ window := (abs_nonneg _).trans (not_lt.mp hin)
        rw [hstamp, sub_self, Int.cast_zero]
        exact ⟨le_rfl, hwindow⟩
      · exact ⟨hp.stored d hd h List.mem_cons_self, close_of_fresh hc hin hfull hfresh hd hne⟩
    intro d hd d' hd' _
    obtain ⟨hle, hnear⟩ := hclose d hd
    obtain ⟨hle', hnear'⟩ := hclose d' hd'
    exact abs_sub_le_of_close hle hle' hnear hnear'

/-- The invariant of the loop: what is stored lies in the past, and a complete group, which has
been filled, is as narrow as the window. -/
structure Narrow [Inhabited ι] (R : Reading η ι) (active : List UInt32) (window : ℚ)
    (stamp : ι → ℤ) (g : Group ι) (hs : List η) : Prop where
  past : Past R active stamp g hs
  narrow : g.Complete active → Within stamp window (g.stored active)

variable [Inhabited ι]

theorem Narrow.within_iff (hn : Narrow R active window stamp g (h :: hs)) :
    (∀ e ∈ (advance R active window g h).2, Within stamp window e.hits) ↔
      g.Fresh R active window stamp h := by
  by_cases hfull : (g.absorb R active window h).Complete active
  · have hentry : (∀ e ∈ (advance R active window g h).2, Within stamp window e.hits) ↔
        Within stamp window ((g.absorb R active window h).stored active) := by
      simp only [mem_advance, and_iff_right hfull, forall_eq]
    rw [hentry]
    by_cases hc : R.channel h ∈ active
    · exact hn.past.within_active hstamp hc hfull
    · -- a hit of an inactive channel fills the group as it stands, or an emptied one
      refine iff_of_true ?_ fun hmem => absurd hmem hc
      rw [within_stored_iff hn.past.kept.absorb hfull, Group.absorb_of_inactive hc]
      by_cases hin : g.Expired window (R.time h)
      · rw [Group.expire_of_expired hin]
        exact fun d hd => absurd hd List.not_mem_nil
      · have hdata : (g.absorb R active window h).channelData =
            (g.expire window (R.time h)).channelData := Group.absorb_of_inactive hc
        rw [Group.expire_of_not_expired hin] at hdata ⊢
        have hfull' := (Group.Complete.congr hn.past.kept.absorb hn.past.kept hdata).mp hfull
        exact (within_stored_iff hn.past.kept hfull').mp (hn.narrow hfull')
  · refine iff_of_true (fun e he => ?_) fun _ _ hcomplete => absurd hcomplete hfull
    exact absurd (mem_advance.mp he).1 hfull

theorem Narrow.advance (hn : Narrow R active window stamp g (h :: hs))
    (hfresh : g.Fresh R active window stamp h) :
    Narrow R active window stamp (advance R active window g h).1 hs where
  past := hn.past.absorb hstamp
  narrow := by
    intro hfull
    exact (hn.within_iff hstamp).mpr hfresh _ (mem_advance.mpr ⟨hfull, rfl⟩)

/-- The entries of sorted hits are as narrow as the window exactly when every filling hit is. -/
theorem coincidences_within_iff {hits : List η}
    (hsorted : hits.Pairwise fun h k => R.time h ≤ R.time k) :
    (∀ e ∈ coincidences R active window hits, Within stamp window e.hits) ↔
      AlongHits R active window (fun g h => g.Fresh R active window stamp h) hits := by
  cases hits with
  | nil => exact iff_of_true (fun e he => absurd he List.not_mem_nil) trivial
  | cons h hs =>
    have hpast : Past R active stamp (⟨R.time h, [], []⟩ : Group ι) (h :: hs) := .initial hsorted
    have hinit : Narrow R active window stamp (⟨R.time h, [], []⟩ : Group ι) (h :: hs) := by
      refine ⟨hpast, fun hfull => ?_⟩
      rw [within_stored_iff hpast.kept hfull]
      exact fun d hd => absurd hd List.not_mem_nil
    exact forall_emitted_iff (fun _ _ _ hn => hn.within_iff hstamp)
      (fun _ _ _ hn hfresh => hn.advance hstamp hfresh) hinit

/-! ### Where the reference time stays -/

/-- The reference time is that of the oldest stored hit or an earlier one. -/
structure Led (R : Reading η ι) (active : List UInt32) (stamp : ι → ℤ) (g : Group ι)
    (hs : List η) : Prop where
  past : Past R active stamp g hs
  lead : ∀ d ∈ g.channelData, g.lastTime ≤ stamp d.2
  begun : ∀ h ∈ hs, g.lastTime ≤ R.time h

omit [Inhabited ι] hstamp in
theorem Led.fresh (hl : Led R active stamp g (h :: hs)) : g.Fresh R active window stamp h :=
  fun _ _ _ d hd _ hold => absurd hold (not_lt.mpr (hl.lead d hd))

omit [Inhabited ι] in
/-- Unless a hit of an inactive channel moves it, the reference time stays behind. -/
theorem Led.absorb (hl : Led R active stamp g (h :: hs)) (hno : ¬ g.Shifts R active window h) :
    Led R active stamp (g.absorb R active window h) hs where
  past := hl.past.absorb hstamp
  lead := by
    intro d hd
    rw [Group.absorb_lastTime]
    split_ifs with hone
    · by_cases hc : R.channel h ∈ active
      · rw [Group.absorb_of_active hc] at hd hone
        obtain ⟨d', hd'⟩ := List.length_eq_one_iff.mp hone
        have hself : (R.channel h, R.info h) = d' := List.cons_eq_cons.mp hd' |>.1
        rw [hd', List.mem_singleton] at hd
        rw [hd, ← hself, hstamp]
      · -- one hit is stored and stays so: the group was emptied, or the hit shifts it
        rw [Group.absorb_of_inactive hc] at hd hone
        by_cases hin : g.Expired window (R.time h)
        · rw [Group.expire_of_expired hin] at hd
          exact absurd hd List.not_mem_nil
        · rw [Group.expire_of_not_expired hin] at hone
          exact absurd ⟨hc, hin, hone⟩ hno
    · rcases Group.mem_absorb hd with rfl | hold
      · rw [hstamp]
        exact hl.begun h List.mem_cons_self
      · exact hl.lead d hold
  begun := by
    intro k hk
    rw [Group.absorb_lastTime]
    split_ifs
    · exact (List.pairwise_cons.mp hl.past.sorted).1 k hk
    · exact hl.begun k (List.mem_cons_of_mem h hk)

theorem fresh_of_not_shifts {hits : List η}
    (hsorted : hits.Pairwise fun h k => R.time h ≤ R.time k)
    (hno : AlongHits R active window (fun g h => ¬ g.Shifts R active window h) hits) :
    AlongHits R active window (fun g h => g.Fresh R active window stamp h) hits := by
  cases hits with
  | nil => trivial
  | cons h hs =>
    have hinit : Led R active stamp (⟨R.time h, [], []⟩ : Group ι) (h :: hs) := by
      refine ⟨.initial hsorted, fun d hd => absurd hd List.not_mem_nil, fun k hk => ?_⟩
      · rcases List.mem_cons.mp hk with rfl | hk
        · exact le_rfl
        · exact (List.pairwise_cons.mp hsorted).1 k hk
    have hrun : Along (advance R active window) (fun g h => ¬ g.Shifts R active window h)
        ⟨R.time h, [], []⟩ (h :: hs) := hno
    exact hrun.of_invariant (fun _ _ _ hl hstay => ⟨hl.fresh, hl.absorb hstamp hstay⟩) hinit

end Groups

/-! ### The tree -/

section Tree

variable [NatCast ρ] [Zero ρ] {calib : Calibration ρ} {method : QdcCalibMethod}
  {active : List UInt32} {window : ℚ} {hits : List (Stg2Record ρ)}

/-- An element carries the time of the hit stored. -/
theorem map_time_branchElement (calib : Calibration ρ) (method : QdcCalibMethod)
    (current : Stg2Record ρ) {channels : List UInt32}
    {infos : List ChannelInfo} (hlen : infos.length = channels.length) :
    (List.zipWith (branchElement calib method current) channels infos).map (·.time) =
      infos.map ChannelInfo.time := by
  induction channels generalizing infos with
  | nil => rw [List.length_eq_zero_iff.mp hlen]; rfl
  | cons c cs ih =>
    cases infos with
    | nil => cases hlen
    | cons i is => exact congrArg (i.time :: ·) (ih (Nat.succ.inj hlen))

theorem within_zipWith (current : Stg2Record ρ) {infos : List ChannelInfo}
    (hlen : infos.length = active.length) :
    (List.zipWith (branchElement calib method current) active infos).Pairwise
        (fun a b => |((a.time - b.time : ℤ) : ℚ)| ≤ window) ↔
      Within ChannelInfo.time window infos := by
  have hmap := List.pairwise_map (R := fun s t : ℤ => |((s - t : ℤ) : ℚ)| ≤ window)
    (f := fun i : ChannelInfo => i.time) (l := infos)
  rw [← map_time_branchElement calib method current hlen, List.pairwise_map] at hmap
  exact hmap

omit [NatCast ρ] [Zero ρ] in
theorem stamp_ofHit (h : Stg2Record ρ) :
    (stg2Reading.info h).time = stg2Reading.time h := rfl

/-- Any two hits of an entry are within the window exactly when every filling hit is within it of
the stored hits that the reference time has passed; without a hit of an inactive channel that
moves the reference time this is always so. -/
theorem entries_within_iff (calib : Calibration ρ) (method : QdcCalibMethod)
    (active : List UInt32) (window : ℚ)
    (hsorted : hits.Pairwise fun h k => hitTime h ≤ hitTime k) :
    ((∀ e ∈ filled calib method active window hits,
        e.Pairwise fun a b => |((a.time - b.time : ℤ) : ℚ)| ≤ window) ↔
      AlongHits stg2Reading active window
        (fun g h => g.Fresh stg2Reading active window ChannelInfo.time h) hits) ∧
    (AlongHits stg2Reading active window
        (fun g h => ¬ g.Shifts stg2Reading active window h) hits →
      ∀ e ∈ filled calib method active window hits,
        e.Pairwise fun a b => |((a.time - b.time : ℤ) : ℚ)| ≤ window) := by
  have hiff : (∀ e ∈ filled calib method active window hits,
      e.Pairwise fun a b => |((a.time - b.time : ℤ) : ℚ)| ≤ window) ↔
      AlongHits stg2Reading active window
        (fun g h => g.Fresh stg2Reading active window ChannelInfo.time h) hits := by
    rw [← coincidences_within_iff stamp_ofHit hsorted, filled, List.forall_mem_map]
    exact forall₂_congr fun e he => within_zipWith e.current (length_hits he)
  exact ⟨hiff, fun hno => hiff.mpr (fresh_of_not_shifts stamp_ofHit hsorted hno)⟩

end Tree

/-- A calibration that knows nothing. -/
def noCalibration : Calibration ℚ := ⟨fun _ _ _ _ _ _ => 0, fun _ _ _ _ _ _ => 0,
  fun _ _ _ _ _ _ _ => 0⟩

theorem entries_within_pair :
    ([hitOf 3 0, hitOf 5 1].Pairwise fun h k => hitTime h ≤ hitTime k) ∧
      ∀ e ∈ filled noCalibration .timing [3, 5] 1 [hitOf 3 0, hitOf 5 1],
        e.Pairwise fun a b => |((a.time - b.time : ℤ) : ℚ)| ≤ 1 :=
  ⟨by decide +kernel,
    (entries_within_iff noCalibration .timing [3, 5] 1 (by decide +kernel)).2 (by decide +kernel)⟩

/-- A hit of another channel between two hits two clocks apart brings them into one entry. -/
theorem not_entries_within : ¬ ∀ (active : List UInt32) (window : ℚ) (hits : List (Stg2Record ℚ)),
    (hits.Pairwise fun h k => hitTime h ≤ hitTime k) →
      ∀ e ∈ filled noCalibration .timing active window hits,
        e.Pairwise fun a b => |((a.time - b.time : ℤ) : ℚ)| ≤ window := by
  intro hall
  have hbound := hall [3, 5] 1 [hitOf 3 0, hitOf 7 1, hitOf 5 2] (by decide +kernel)
  have hnot : ¬ ∀ e ∈ filled noCalibration .timing [3, 5] 1 [hitOf 3 0, hitOf 7 1, hitOf 5 2],
      e.Pairwise fun a b => |((a.time - b.time : ℤ) : ℚ)| ≤ 1 := by
    decide +kernel
  exact hnot hbound

end GramsTof.Analysis.Coincidence
