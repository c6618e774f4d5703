import GramsTof.Analysis.Coincidence
import Mathlib.Data.List.Perm.Subperm

/-! What a hit does to the group: the stored channels stay active and distinct, the
flags name exactly the stored channels, and a complete group stores every active
channel. -/

namespace GramsTof.Analysis.Coincidence.Group

open Lib Lib.Registry

variable {η ι : Type*} {R : Reading η ι} {active : List UInt32} {window : ℚ} {g : Group ι}
  {h : η} {channel c : UInt32} {info : ι}

/-! ### The parts of a turn -/

theorem store_store : (g.store channel info).store channel info = g.store channel info := by
  simp only [store, put_put]

theorem note_of_mem (hc : channel ∈ active) : g.note active channel info = g.store channel info := by
  have hstored : ∀ l, (g.store channel info).note l channel info = g.store channel info := by
    intro l
    induction l with
    | nil => rfl
    | cons c l ih =>
      rw [note, List.foldl_cons, store_store, ite_self]
      exact ih
  induction active with
  | nil => cases hc
  | cons c l ih =>
    by_cases heq : channel = c
    · rw [note, List.foldl_cons, if_pos heq]
      exact hstored l
    · rw [note, List.foldl_cons, if_neg heq]
      exact ih ((List.mem_cons.mp hc).resolve_left heq)

theorem note_of_notMem (hc : channel ∉ active) : g.note active channel info = g := by
  induction active with
  | nil => rfl
  | cons c l ih =>
    obtain ⟨hne, hl⟩ := not_or.mp (List.mem_cons.not.mp hc)
    rw [note, List.foldl_cons, if_neg hne]
    exact ih hl

theorem touch_hit : (g.touch active).hitChannel.lookup c = some true ↔
    g.hitChannel.lookup c = some true := by
  suffices ∀ (l : List UInt32) (m : List (UInt32 × Bool)), (l.foldl
      (fun m c => if (m.lookup c).isSome then m else put m c false) m).lookup c = some true ↔
      m.lookup c = some true from this active g.hitChannel
  intro l
  induction l with
  | nil => exact fun m => Iff.rfl
  | cons d l ih =>
    intro m
    rw [List.foldl_cons, ih]
    split_ifs with hd
    · exact Iff.rfl
    · by_cases hcd : c = d
      · subst hcd
        rw [lookup_put_self, Option.not_isSome_iff_eq_none.mp hd]
        exact iff_of_false (by decide) (by decide)
      · rw [lookup_put_of_ne hcd]

@[simp] theorem expire_lastTime {t : ℤ} : (g.expire window t).lastTime = g.lastTime := by
  rw [expire]
  split_ifs <;> rfl

theorem expire_of_expired {t : ℤ} (hg : g.Expired window t) :
    (g.expire window t).channelData = [] := by rw [expire, if_pos hg]

theorem expire_of_not_expired {t : ℤ} (hg : ¬ g.Expired window t) : g.expire window t = g := by
  rw [expire, if_neg hg]

/-! ### A turn -/

theorem absorb_of_active (hc : R.channel h ∈ active) :
    (g.absorb R active window h).channelData =
      put (g.expire window (R.time h)).channelData (R.channel h) (R.info h) := by
  rw [absorb, note_of_mem hc]
  rfl

theorem absorb_of_inactive (hc : R.channel h ∉ active) :
    (g.absorb R active window h).channelData = (g.expire window (R.time h)).channelData := by
  rw [absorb, note_of_notMem hc]
  rfl

theorem mem_of_mem_expire {t : ℤ} {e : UInt32 × ι} (he : e ∈ (g.expire window t).channelData) :
    e ∈ g.channelData := by
  rw [expire] at he
  split_ifs at he
  · cases he
  · exact he

/-- The group stores the hit and what it stored before. -/
theorem mem_absorb {e : UInt32 × ι} (he : e ∈ (g.absorb R active window h).channelData) :
    e = (R.channel h, R.info h) ∨ e ∈ g.channelData := by
  by_cases hc : R.channel h ∈ active
  · rw [absorb_of_active hc] at he
    exact (mem_put.mp he).imp_right fun hold => mem_of_mem_expire hold.1
  · rw [absorb_of_inactive hc] at he
    exact .inr (mem_of_mem_expire he)

theorem absorb_lastTime : (g.absorb R active window h).lastTime =
    if (g.absorb R active window h).channelData.length = 1 then R.time h else g.lastTime := by
  have hnote : ∀ k : Group ι, (k.note active (R.channel h) (R.info h)).lastTime = k.lastTime := by
    intro k
    by_cases hc : R.channel h ∈ active
    · rw [note_of_mem hc]
      rfl
    · rw [note_of_notMem hc]
  change (if _ then _ else (note _ _ _ _).lastTime) = _
  rw [hnote, expire_lastTime]
  rfl

/-- What the loop keeps true of the group. -/
structure Kept (active : List UInt32) (g : Group ι) : Prop where
  nodup : (keys g.channelData).Nodup
  active : ∀ c ∈ keys g.channelData, c ∈ active
  flags : ∀ c, g.hitChannel.lookup c = some true ↔ c ∈ keys g.channelData

theorem kept_empty (t : ℤ) : Kept active (⟨t, [], []⟩ : Group ι) where
  nodup := .nil
  active := fun _ hc => absurd hc List.not_mem_nil
  flags := fun _ => iff_of_false (by simp) List.not_mem_nil

theorem Kept.expire {t : ℤ} (hg : Kept active g) : Kept active (g.expire window t) := by
  rw [Group.expire]
  split_ifs
  · exact kept_empty _
  · exact hg

theorem Kept.store (hg : Kept active g) (hc : channel ∈ active) :
    Kept active (g.store channel info) where
  nodup := nodup_put hg.nodup
  active := by
    intro c hk
    rcases mem_keys_put.mp hk with rfl | hk
    · exact hc
    · exact hg.active c hk
  flags := by
    intro c
    change (put _ _ _).lookup c = _ ↔ c ∈ keys (put _ _ _)
    rw [mem_keys_put]
    by_cases hcc : c = channel
    · subst hcc
      exact iff_of_true lookup_put_self (.inl rfl)
    · rw [lookup_put_of_ne hcc, hg.flags]
      exact ⟨.inr, fun h => h.resolve_left hcc⟩

theorem Kept.note (hg : Kept active g) : Kept active (g.note active channel info) := by
  by_cases hc : channel ∈ active
  · rw [note_of_mem hc]
    exact hg.store hc
  · rwa [note_of_notMem hc]

theorem Kept.absorb (hg : Kept active g) : Kept active (g.absorb R active window h) where
  nodup := (hg.expire.note).nodup
  active := (hg.expire.note).active
  flags := fun c => touch_hit.trans ((hg.expire.note).flags c)

/-! ### Complete groups -/

theorem Kept.mem_of_complete (hg : Kept active g) (hfull : g.Complete active) (hc : c ∈ active) :
    c ∈ keys g.channelData := (hg.flags c).mp (hfull.2 c hc)

/-- The active channels of a complete group are distinct. -/
theorem Kept.nodup_of_complete (hg : Kept active g) (hfull : g.Complete active) :
    active.Nodup := by
  have hsub : (keys g.channelData).Subperm active :=
    List.subperm_of_subset hg.nodup hg.active
  have hperm := hsub.perm_of_length_le (by rw [← hfull.1, keys, List.length_map])
  exact hperm.nodup_iff.mp hg.nodup

theorem Complete.congr {g' : Group ι} (hg : Kept active g) (hg' : Kept active g')
    (hdata : g.channelData = g'.channelData) : g.Complete active ↔ g'.Complete active := by
  simp only [Complete, hg.flags, hg'.flags, hdata]

theorem not_complete_of_nil (hne : active ≠ []) (hg : g.channelData = []) :
    ¬ g.Complete active := by
  rintro ⟨hlen, -⟩
  rw [hg, List.length_nil, eq_comm, List.length_eq_zero_iff] at hlen
  exact hne hlen

/-- A hit of an inactive channel comes within the window of a complete group. -/
def Stray (R : Reading η ι) (active : List UInt32) (window : ℚ) (g : Group ι) (h : η) : Prop :=
  g.Complete active ∧ ¬ g.Expired window (R.time h) ∧ R.channel h ∉ active

instance (g : Group ι) (h : η) : Decidable (g.Stray R active window h) :=
  inferInstanceAs (Decidable (_ ∧ _ ∧ _))

theorem absorb_of_stray (hs : g.Stray R active window h) :
    (g.absorb R active window h).channelData = g.channelData := by
  rw [absorb_of_inactive hs.2.2, expire_of_not_expired hs.2.1]

/-- A hit of an inactive channel leaves a complete group only where it found one. -/
theorem stray_iff (hne : active ≠ []) (hg : Kept active g) : g.Stray R active window h ↔
    (g.absorb R active window h).Complete active ∧ R.channel h ∉ active := by
  constructor
  · intro hs
    exact ⟨(Complete.congr hg.absorb hg (absorb_of_stray hs)).mpr hs.1, hs.2.2⟩
  · rintro ⟨hfull, hc⟩
    have hdata : (g.absorb R active window h).channelData =
        (g.expire window (R.time h)).channelData := absorb_of_inactive hc
    have hin : ¬ g.Expired window (R.time h) := fun hout =>
      not_complete_of_nil hne (hdata.trans (expire_of_expired hout)) hfull
    rw [expire_of_not_expired hin] at hdata
    exact ⟨(Complete.congr hg.absorb hg hdata).mp hfull, hin, hc⟩

variable [Inhabited ι]

theorem stored_congr {g' : Group ι} (hdata : g.channelData = g'.channelData) :
    g.stored active = g'.stored active := by
  rw [stored, stored, hdata]

/-- What a complete group hands over are the values it stores. -/
theorem Kept.mem_stored (hg : Kept active g) (hfull : g.Complete active) :
    info ∈ g.stored active ↔ ∃ c, (c, info) ∈ g.channelData := by
  constructor
  · intro hi
    obtain ⟨c, hc, rfl⟩ := List.mem_map.mp hi
    obtain ⟨v, hv⟩ := mem_keys.mp (hg.mem_of_complete hfull hc)
    exact ⟨c, by rwa [lookup_of_mem hg.nodup hv]⟩
  · rintro ⟨c, hc⟩
    refine List.mem_map.mpr ⟨c, hg.active c (mem_keys_of_mem hc), ?_⟩
    rw [lookup_of_mem hg.nodup hc]
    rfl

/-! ### Groups that store something else -/

section Infos

omit [Inhabited ι]

variable {κ : Type*} {f : ι → κ}

/-- The group with `f` applied to what it stores. -/
def mapInfo (f : ι → κ) (g : Group ι) : Group κ :=
  ⟨g.lastTime, mapValues f g.channelData, g.hitChannel⟩

theorem mapInfo_expire {t : ℤ} : (g.mapInfo f).expire window t = (g.expire window t).mapInfo f := by
  rw [expire, expire]
  change (if g.Expired window t then _ else _) = _
  split_ifs <;> rfl

theorem mapInfo_note :
    (g.mapInfo f).note active channel (f info) = (g.note active channel info).mapInfo f := by
  by_cases hc : channel ∈ active
  · rw [note_of_mem hc, note_of_mem hc]
    exact congrArg (Group.mk _ · _) mapValues_put.symm
  · rw [note_of_notMem hc, note_of_notMem hc]

theorem mapInfo_retime {t : ℤ} : (g.mapInfo f).retime t = (g.retime t).mapInfo f := by
  simp only [retime, mapInfo, mapValues, List.length_map]

theorem complete_mapInfo : (g.mapInfo f).Complete active ↔ g.Complete active := by
  simp only [Complete, mapInfo, mapValues, List.length_map]

variable [Inhabited κ] [Inhabited ι] in
theorem stored_mapInfo (hg : Kept active g) (hfull : g.Complete active) :
    (g.mapInfo f).stored active = (g.stored active).map f := by
  rw [stored, stored, List.map_map]
  refine List.map_congr_left fun c hc => ?_
  obtain ⟨v, hv⟩ := mem_keys.mp (hg.mem_of_complete hfull hc)
  change (List.lookup c (mapValues f g.channelData)).getD default = _
  rw [lookup_mapValues, Function.comp_apply, lookup_of_mem hg.nodup hv]
  rfl

end Infos

end GramsTof.Analysis.Coincidence.Group
