import GramsTof.Analysis.Grouping
import Mathlib.Data.List.Sort

/-! The entries of the coincidence tree: one element for each active channel, in sorted order,
with what the most recent hit of the channel carries. -/

namespace GramsTof.Analysis.Coincidence

open Lib Lib.Registry Lib.Emission

variable {η ι ρ : Type*}

/-- The sorted list of the active channels. -/
def setActiveChannels (chanList : List UInt32) : List UInt32 := chanList.insertionSort (· ≤ ·)

/-- The last hit of a channel. -/
def lastOf (R : Reading η ι) (c : UInt32) (hits : List η) : Option η :=
  (hits.filter (R.channel · = c)).getLast?

section Hits

variable {R : Reading η ι} {active : List UInt32} {window : ℚ} {g : Group ι} {h : η} {done : List η}
  {c : UInt32} {info : ι}

theorem lastOf_append_self : lastOf R (R.channel h) (done ++ [h]) = some h := by
  simp [lastOf]

theorem lastOf_append_of_ne (hc : c ≠ R.channel h) :
    lastOf R c (done ++ [h]) = lastOf R c done := by
  simp [lastOf, hc.symm]

/-- What is stored is what the last hits of the channels carry. -/
structure Recent (R : Reading η ι) (active : List UInt32) (g : Group ι) (done : List η) : Prop where
  kept : g.Kept active
  stored : ∀ c info, g.channelData.lookup c = some info →
    (lastOf R c done).map R.info = some info

theorem recent_start (t : ℤ) : Recent R active ⟨t, [], []⟩ [] where
  kept := Group.kept_empty t
  stored := nofun

theorem lookup_of_lookup_expire {t : ℤ}
    (hl : (g.expire window t).channelData.lookup c = some info) :
    g.channelData.lookup c = some info := by
  rw [Group.expire] at hl
  split_ifs at hl
  · cases hl
  · exact hl

/-- One turn stores the hit of an active channel and leaves the others as they are, or forgets
them. -/
theorem Recent.absorb (hg : Recent R active g done) :
    Recent R active (g.absorb R active window h) (done ++ [h]) where
  kept := hg.kept.absorb
  stored := by
    intro c info hl
    have hold (hc : c ≠ R.channel h)
        (he : (g.expire window (R.time h)).channelData.lookup c = some info) :
        (lastOf R c (done ++ [h])).map R.info = some info := by
      rw [lastOf_append_of_ne hc]
      exact hg.stored c info (lookup_of_lookup_expire he)
    by_cases hactive : R.channel h ∈ active
    · rw [Group.absorb_of_active hactive] at hl
      by_cases hc : c = R.channel h
      · subst hc
        rw [lookup_put_self] at hl
        rw [lastOf_append_self, Option.map_some, hl]
      · rw [lookup_put_of_ne hc] at hl
        exact hold hc hl
    · rw [Group.absorb_of_inactive hactive] at hl
      have hstored := mem_of_lookup (lookup_of_lookup_expire hl)
      refine hold ?_ hl
      rintro rfl
      exact hactive (hg.kept.active _ (mem_keys_of_mem hstored))

/-- A complete group hands over what the last hits of the active channels carry. -/
theorem Recent.stored_eq [Inhabited ι] (hg : Recent R active g done) (hfull : g.Complete active) :
    (g.stored active).map some = active.map fun c => (lastOf R c done).map R.info := by
  rw [Group.stored, List.map_map]
  refine List.map_congr_left fun c hc => ?_
  have hkey := hg.kept.mem_of_complete hfull hc
  obtain ⟨info, hl⟩ := Option.isSome_iff_exists.mp (lookup_isSome hkey)
  rw [Function.comp_apply, hl, hg.stored c info hl]
  rfl

end Hits

/-! ### The elements of an entry -/

section Elements

variable [NatCast ρ] [Zero ρ] (calib : Calibration ρ) (method : QdcCalibMethod)

/-- The entry of a turn. -/
def fill (active : List UInt32) (e : Entry (Stg2Record ρ) ChannelInfo) : List (BranchElement ρ) :=
  List.zipWith (branchElement calib method e.current) active e.hits

/-- The entries of the tree, each with the number of the hit at which it is filled. -/
def filledAt (active : List UInt32) (window : ℚ) : List (Stg2Record ρ) →
    List (ℕ × List (BranchElement ρ))
  | [] => []
  | h :: hs => (emittedAt (advance stg2Reading active window) ⟨hitTime h, [], []⟩ 0 (h :: hs)).map
      (Prod.map id (fill calib method active))

theorem map_snd_filledAt (active : List UInt32) (window : ℚ) (hits : List (Stg2Record ρ)) :
    (filledAt calib method active window hits).map Prod.snd =
      filled calib method active window hits := by
  cases hits with
  | nil => rfl
  | cons h hs =>
    rw [filledAt, filled, coincidences, ← map_snd_emittedAt 0, List.map_map, List.map_map]
    rfl

/-- The entries of the tree are those of the numbered ones. -/
theorem getCoincidenceEventsTree_eq (active : List UInt32) (window : ℚ) (hits : List (Stg2Record ρ)) :
    getCoincidenceEventsTree calib method active window hits =
      if hits = [] then none else some ((filledAt calib method active window hits).map Prod.snd) := by
  rw [map_snd_filledAt, getCoincidenceEventsTree]

variable {calib method} {active : List UInt32} {window : ℚ} {hits : List (Stg2Record ρ)} {i : ℕ}
  {entry : List (BranchElement ρ)}

theorem mem_tree_iff {tree : List (List (BranchElement ρ))}
    (h : getCoincidenceEventsTree calib method active window hits = some tree) :
    entry ∈ tree ↔ ∃ i, (i, entry) ∈ filledAt calib method active window hits := by
  rw [getCoincidenceEventsTree_eq] at h
  split_ifs at h
  rw [← Option.some.inj h, List.mem_map, Prod.exists]
  exact ⟨fun ⟨i, e, hmem, he⟩ => ⟨i, he ▸ hmem⟩, fun ⟨i, hmem⟩ => ⟨i, entry, hmem, rfl⟩⟩

/-- The element carries the fields of the hit. -/
def BranchElement.Carries (el : BranchElement ρ) (h : Stg2Record ρ) : Prop :=
  el.frameID = h.frameID ∧ el.tacID = h.tacID ∧ el.tCoarse = h.tCoarse ∧ el.eCoarse = h.eCoarse ∧
    el.tFine = h.tFine ∧ el.eFine = h.eFine ∧ el.tsCpu = h.tsCpu

/-- The entry has one element for each active channel, in sorted order, and each carries the fields
of the most recent hit of its channel. -/
def WellFormed (chanList : List UInt32) (hits : List (Stg2Record ρ)) (i : ℕ)
    (entry : List (BranchElement ρ)) : Prop :=
  (entry.map (·.channelID)).Perm chanList ∧ (entry.map (·.channelID)).Pairwise (· ≤ ·) ∧
    ∀ el ∈ entry, ∃ h, lastOf stg2Reading el.channelID (hits.take (i + 1)) = some h ∧ el.Carries h

theorem carries_branchElement_iff (current h : Stg2Record ρ) (c : UInt32) :
    (branchElement calib method current c (.ofHit h)).Carries h ↔ h.tacID.toNat < 2 ^ 8 := by
  rw [← toUInt16_toUInt8_eq_iff]
  exact ⟨fun hcarries => hcarries.2.1,
    fun htac => ⟨Int64.toInt64_toUInt64 _, htac, rfl, rfl, rfl, rfl, rfl⟩⟩

theorem zipWith_elements {α β γ : Type*} {f : α → β → γ} (key : γ → α)
    (hkey : ∀ a b, key (f a b) = a) {F : α → Option β} {as : List α} {bs : List β}
    (h : bs.map some = as.map F) :
    (List.zipWith f as bs).map key = as ∧
      ∀ c ∈ List.zipWith f as bs, ∃ b, F (key c) = some b ∧ c = f (key c) b := by
  induction as generalizing bs with
  | nil => exact ⟨rfl, fun c hc => absurd hc List.not_mem_nil⟩
  | cons a as ih =>
    cases bs with
    | nil => cases h
    | cons b bs =>
      obtain ⟨hb, hbs⟩ := List.cons.inj h
      obtain ⟨hkeys, helements⟩ := ih hbs
      refine ⟨by rw [List.zipWith_cons_cons, List.map_cons, hkey, hkeys], ?_⟩
      rw [List.zipWith_cons_cons, List.forall_mem_cons, hkey]
      exact ⟨⟨b, hb.symm, rfl⟩, helements⟩

/-- The elements of an entry are those of the active channels, each made from the most recent
hit at the hit with the number of the entry. -/
theorem filledAt_made (h : (i, entry) ∈ filledAt calib method active window hits) :
    entry.map (·.channelID) = active ∧ ∃ current, hits[i]? = some current ∧ ∀ el ∈ entry, ∃ h,
      lastOf stg2Reading el.channelID (hits.take (i + 1)) = some h ∧
        el = branchElement calib method current el.channelID (.ofHit h) := by
  cases hits with
  | nil => cases h
  | cons first hs =>
    obtain ⟨p, hp, heq⟩ := List.mem_map.mp h
    obtain ⟨rfl, rfl⟩ := Prod.mk.inj heq
    obtain ⟨g, before, current, after, hsplit, hlength, hg, hfill⟩ :=
      emittedAt_state (fun _ _ _ hI => hI.absorb) (recent_start (R := stg2Reading) _) hp
    obtain ⟨hfull, he⟩ := mem_advance.mp hfill
    have hhits : first :: hs = before ++ current :: after := hsplit
    have htake : (first :: hs).take (p.1 + 1) = before ++ [current] := by
      rw [hhits, ← hlength, List.take_length_add_append, List.take_succ_cons, List.take_zero]
    have hcurrent : (first :: hs)[p.1]? = some current := by
      rw [hhits, ← hlength, List.getElem?_append_right (Nat.le_refl _), Nat.sub_self]
      rfl
    rw [id, htake, fill, he]
    obtain ⟨hchannels, helements⟩ := zipWith_elements (f := branchElement calib method current)
      (·.channelID) (fun _ _ => rfl) (hg.absorb.stored_eq hfull)
    refine ⟨hchannels, current, hcurrent, fun el hel => ?_⟩
    obtain ⟨info, hinfo, hmade⟩ := helements el hel
    obtain ⟨h, hlast, rfl⟩ := Option.map_eq_some_iff.mp hinfo
    exact ⟨h, hlast, hmade⟩

/-- What the elements carry. -/
theorem filledAt_elements (h : (i, entry) ∈ filledAt calib method active window hits) :
    entry.map (·.channelID) = active ∧ ∀ el ∈ entry, ∃ h,
      lastOf stg2Reading el.channelID (hits.take (i + 1)) = some h ∧
        (el.Carries h ↔ h.tacID.toNat < 2 ^ 8) := by
  obtain ⟨hchannels, current, -, hmade⟩ := filledAt_made h
  refine ⟨hchannels, fun el hel => ?_⟩
  obtain ⟨h, hlast, heq⟩ := hmade el hel
  rw [heq]
  exact ⟨h, hlast, carries_branchElement_iff current h el.channelID⟩

/-- An entry is well-formed exactly if the most recent hits of the active channels have numbers of
the TAC of eight bits. -/
theorem entry_wellFormed_iff {chanList : List UInt32}
    (h : (i, entry) ∈ filledAt calib method (setActiveChannels chanList) window hits) :
    WellFormed chanList hits i entry ↔ ∀ c ∈ chanList, ∀ h,
      lastOf stg2Reading c (hits.take (i + 1)) = some h → h.tacID.toNat < 2 ^ 8 := by
  obtain ⟨hchannels, helements⟩ := filledAt_elements h
  constructor
  · rintro ⟨-, -, hcarry⟩ c hc h hlast
    have hmem : c ∈ entry.map (·.channelID) := hchannels ▸ (List.mem_insertionSort _).mpr hc
    obtain ⟨el, hel, rfl⟩ := List.mem_map.mp hmem
    obtain ⟨h₁, hlast₁, hcarries⟩ := hcarry el hel
    obtain ⟨h₂, hlast₂, hiff⟩ := helements el hel
    cases hlast₁.symm.trans hlast
    cases hlast₂.symm.trans hlast
    exact hiff.mp hcarries
  · intro htac
    refine ⟨hchannels ▸ List.perm_insertionSort _ _,
      hchannels ▸ List.pairwise_insertionSort _ _, fun el hel => ?_⟩
    obtain ⟨h, hlast, hiff⟩ := helements el hel
    have hc : el.channelID ∈ chanList :=
      (List.mem_insertionSort _).mp (hchannels ▸ List.mem_map_of_mem hel)
    exact ⟨h, hlast, hiff.mpr (htac _ hc h hlast)⟩

end Elements

/-- A calibration that gives nothing. -/
def nullCalibration : Calibration ℚ := ⟨fun _ _ _ _ _ => 0, fun _ _ _ _ _ _ => 0,
  fun _ _ _ _ _ _ _ => 0⟩

/-- Two hits, the channels given in the other order. -/
theorem entry_wellFormed_iff_pair :
    ∃ entry, (1, entry) ∈ filledAt nullCalibration .getEnergy (setActiveChannels [5, 3]) 1
        [hitOf 3 0, hitOf 5 1] ∧ WellFormed [5, 3] [hitOf 3 0, hitOf 5 1] 1 entry := by
  have hplaces : 1 ∈ (filledAt nullCalibration .getEnergy (setActiveChannels [5, 3]) 1
      [hitOf 3 0, hitOf 5 1]).map Prod.fst := by decide +kernel
  obtain ⟨⟨i, entry⟩, hentry, rfl⟩ := List.mem_map.mp hplaces
  refine ⟨entry, hentry, (entry_wellFormed_iff hentry).mpr fun c _ h hlast => ?_⟩
  have hhits : h ∈ [hitOf 3 0, hitOf 5 1] :=
    (List.mem_filter.mp (List.mem_of_getLast? hlast)).1
  rcases List.mem_pair.mp hhits with rfl | rfl <;> decide

/-- The first number of the TAC that takes nine bits. -/
def wideHit : Stg2Record ℚ := { hitOf 3 0 with tacID := 256 }

/-- The element of such a hit has the number 0. -/
theorem not_entry_wellFormed :
    ¬ ∀ (calib : Calibration ℚ) (method : QdcCalibMethod) (chanList : List UInt32) (window : ℚ)
      (hits : List (Stg2Record ℚ)) (i : ℕ) (entry : List (BranchElement ℚ)),
      chanList ≠ [] → chanList.Nodup →
      (i, entry) ∈ filledAt calib method (setActiveChannels chanList) window hits →
        WellFormed chanList hits i entry := by
  intro hall
  have hplaces : 0 ∈ (filledAt nullCalibration .getEnergy (setActiveChannels [3]) 1
      [wideHit]).map Prod.fst := by decide +kernel
  obtain ⟨⟨i, entry⟩, hentry, rfl⟩ := List.mem_map.mp hplaces
  obtain ⟨-, -, hcarry⟩ := hall _ _ _ _ _ _ _ (by decide) (by decide) hentry
  obtain ⟨hchannels, helements⟩ := filledAt_elements hentry
  have hmem : 3 ∈ entry.map (·.channelID) := hchannels ▸ List.mem_singleton_self 3
  obtain ⟨el, hel, hchannel⟩ := List.mem_map.mp hmem
  obtain ⟨h₁, hlast₁, hcarries⟩ := hcarry el hel
  obtain ⟨h₂, hlast₂, hiff⟩ := helements el hel
  cases hlast₁.symm.trans hlast₂
  rw [hchannel] at hlast₁
  have hwide : wideHit = h₁ := Option.some.inj hlast₁
  subst hwide
  exact absurd (hiff.mp hcarries) (by decide)

end GramsTof.Analysis.Coincidence
