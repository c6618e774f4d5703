import GramsTof.Analysis.Grouping

/-! Which hits an entry is built from. A hit of an inactive channel that comes within
the window of a complete group fills the same hits once more; nothing else does. -/

namespace GramsTof.Analysis.Coincidence

open Lib Lib.Registry Lib.Emission

variable {η ι ρ : Type*}

/-- The reading of hits that carry their place in the file, which stores the hit itself. -/
def Reading.numbered (R : Reading η ι) : Reading (η × ℕ) (η × ℕ) where
  channel p := R.channel p.1
  time p := R.time p.1
  info := id

/-- The places of the hits that an entry is built from. -/
def Entry.places (e : Entry (η × ℕ) (η × ℕ)) : List ℕ := e.hits.map Prod.snd

/-- Entries built from the same set of hits. -/
def Entry.SameHits (e e' : Entry (η × ℕ) (η × ℕ)) : Prop := ∀ i, i ∈ e.places ↔ i ∈ e'.places

/-- What the code stores of the hits of a numbered entry. -/
def Entry.forget (R : Reading η ι) (e : Entry (η × ℕ) (η × ℕ)) : Entry η ι :=
  ⟨e.current.1, e.hits.map fun p => R.info p.1⟩

section Numbers

variable (R : Reading η ι) (active : List UInt32) (window : ℚ)

theorem absorb_mapInfo (g : Group (η × ℕ)) (p : η × ℕ) :
    (g.mapInfo fun q => R.info q.1).absorb R active window p.1 =
      (g.absorb R.numbered active window p).mapInfo fun q => R.info q.1 := by
  have hnote : ∀ k : Group (η × ℕ),
      (k.mapInfo fun q => R.info q.1).note active (R.channel p.1) (R.info p.1) =
        (k.note active (R.channel p.1) p).mapInfo fun q => R.info q.1 := fun _ => Group.mapInfo_note
  rw [Group.absorb, Group.absorb, Group.mapInfo_expire, hnote, Group.mapInfo_retime]
  rfl

variable [Inhabited η] [Inhabited ι]

theorem advance_mapInfo {g : Group (η × ℕ)} (hg : g.Kept active) (p : η × ℕ) :
    advance R active window (g.mapInfo fun q => R.info q.1) p.1 =
      ((advance R.numbered active window g p).1.mapInfo fun q => R.info q.1,
        (advance R.numbered active window g p).2.map (Entry.forget R)) := by
  rw [advance, advance, absorb_mapInfo]
  refine Prod.ext rfl ?_
  by_cases hfull : (g.absorb R.numbered active window p).Complete active
  · rw [if_pos (Group.complete_mapInfo.mpr hfull), if_pos hfull,
      Group.stored_mapInfo hg.absorb hfull]
    rfl
  · rw [if_neg (mt Group.complete_mapInfo.mp hfull), if_neg hfull]
    rfl

/-- The entries are those of the numbered hits, the numbers forgotten. -/
theorem coincidences_eq_numbered (hits : List η) : coincidences R active window hits =
    (coincidences R.numbered active window hits.zipIdx).map (Entry.forget R) := by
  cases hits with
  | nil => rfl
  | cons h hs =>
    have hstep : ∀ (g : Group (η × ℕ)) (p : η × ℕ), g.Kept active →
        (advance R.numbered active window g p).1.Kept active ∧ _ :=
      fun g p hg => ⟨hg.absorb, advance_mapInfo R active window hg p⟩
    have hrun : emitted _ _ ((h :: hs).zipIdx.map Prod.fst) = _ :=
      emitted_map hstep (Group.kept_empty (R.time h))
    rw [List.zipIdx_map_fst] at hrun
    exact hrun

end Numbers

/-! ### Entries of different hits -/

section Sets

variable [Inhabited η] {R : Reading η ι} {active : List UInt32} {window : ℚ}
  {E : List (Entry (η × ℕ) (η × ℕ))} {g : Group (η × ℕ)} {p : η × ℕ} {ps : List (η × ℕ)}

/-- What holds before the hits `ps`, once the entries `E` are filled. -/
structure Earlier (active : List UInt32) (E : List (Entry (η × ℕ) (η × ℕ))) (g : Group (η × ℕ))
    (ps : List (η × ℕ)) : Prop where
  kept : g.Kept active
  ordered : ps.Pairwise (·.2 < ·.2)
  stored : ∀ d ∈ g.channelData, ∀ p ∈ ps, d.2.2 < p.2
  entries : ∀ e ∈ E, ∀ i ∈ e.places, ∀ p ∈ ps, i < p.2
  filled : g.Complete active → ∃ e ∈ E, e.hits = g.stored active

theorem Earlier.stored_absorb (hI : Earlier active E g (p :: ps)) :
    ∀ d ∈ (g.absorb R.numbered active window p).channelData, ∀ q ∈ ps, d.2.2 < q.2 := by
  intro d hd q hq
  rcases Group.mem_absorb hd with rfl | hold
  · exact (List.pairwise_cons.mp hI.ordered).1 q hq
  · exact hI.stored d hold q (List.mem_cons_of_mem p hq)

theorem Earlier.advance (hI : Earlier active E g (p :: ps)) :
    Earlier active (E ++ (advance R.numbered active window g p).2.toList)
      (advance R.numbered active window g p).1 ps where
  kept := hI.kept.absorb
  ordered := (List.pairwise_cons.mp hI.ordered).2
  stored := hI.stored_absorb
  entries := by
    intro e he i hi q hq
    rcases List.mem_append.mp he with hold | hnew
    · exact hI.entries e hold i hi q (List.mem_cons_of_mem p hq)
    · obtain ⟨hfull, rfl⟩ := mem_advance.mp (Option.mem_toList.mp hnew)
      obtain ⟨d, hd, rfl⟩ := List.mem_map.mp hi
      obtain ⟨c, hc⟩ := (hI.kept.absorb.mem_stored hfull).mp hd
      exact hI.stored_absorb _ hc q hq
  filled := by
    intro hfull
    refine ⟨_, List.mem_append_right _ (Option.mem_toList.mpr (mem_advance.mpr ⟨hfull, rfl⟩)), rfl⟩

/-- The entry filled at a hit differs from all before unless the hit is stray. -/
theorem Earlier.differs_iff (hne : active ≠ []) (hI : Earlier active E g (p :: ps)) :
    (∀ e ∈ E, ∀ b ∈ (Coincidence.advance R.numbered active window g p).2, ¬ e.SameHits b) ↔
      ¬ g.Stray R.numbered active window p := by
  constructor
  · intro hdiff hstray
    obtain ⟨e, he, hsame⟩ := hI.filled hstray.1
    have hfull := ((Group.stray_iff hne hI.kept).mp hstray).1
    have hstored : (g.absorb R.numbered active window p).stored active = g.stored active :=
      Group.stored_congr (Group.absorb_of_stray hstray)
    refine hdiff e he _ (mem_advance.mpr ⟨hfull, rfl⟩) fun i => ?_
    rw [Entry.places, Entry.places, hsame, hstored]
  · intro hno e he b hb hsame
    obtain ⟨hfull, rfl⟩ := mem_advance.mp hb
    have hc : R.numbered.channel p ∈ active := by
      by_contra hc
      exact hno ((Group.stray_iff hne hI.kept).mpr ⟨hfull, hc⟩)
    -- the entry is built from the hit itself, an earlier one only from hits before it
    have hp : p ∈ (g.absorb R.numbered active window p).stored active :=
      (hI.kept.absorb.mem_stored hfull).mpr
        ⟨R.channel p.1, by rw [Group.absorb_of_active hc]; exact mem_put.mpr (.inl rfl)⟩
    have hplace : p.2 ∈ e.places := (hsame p.2).mpr (List.mem_map_of_mem hp)
    exact lt_irrefl _ (hI.entries e he p.2 hplace p List.mem_cons_self)

omit [Inhabited η] in
theorem stray_mapInfo {f : η × ℕ → ι} {R : Reading η ι} :
    (g.mapInfo f).Stray R active window p.1 ↔ g.Stray R.numbered active window p := by
  rw [Group.Stray, Group.complete_mapInfo]
  rfl

variable [Inhabited ι] in
/-- The entries of numbered hits are built from different sets exactly when no hit is stray. -/
theorem numbered_distinct_iff {R : Reading η ι} (hne : active ≠ []) (hits : List η) :
    ((coincidences R.numbered active window hits.zipIdx).Pairwise fun e b => ¬ e.SameHits b) ↔
      AlongHits R active window (fun g h => ¬ g.Stray R active window h) hits := by
  cases hits with
  | nil => exact iff_of_true .nil trivial
  | cons h hs =>
    have hordered : (h :: hs).zipIdx.Pairwise (·.2 < ·.2) := by
      have hlt : (((h :: hs).zipIdx).map Prod.snd).Pairwise (· < ·) := by
        rw [List.zipIdx_map_snd]
        exact List.pairwise_lt_range'
      exact List.pairwise_map.mp hlt
    have hinit : Earlier active [] (⟨R.time h, [], []⟩ : Group (η × ℕ)) (h :: hs).zipIdx :=
      { kept := Group.kept_empty _
        ordered := hordered
        stored := fun _ hd => absurd hd List.not_mem_nil
        entries := fun _ he => absurd he List.not_mem_nil
        filled := fun hfull => absurd hfull (Group.not_complete_of_nil hne rfl) }
    have hrun := pairwise_emitted_iff (f := advance R.numbered active window)
      (I := Earlier active) (C := fun g p => ¬ g.Stray R.numbered active window p)
      (fun _ _ _ _ hI => hI.differs_iff hne) (fun _ _ _ _ hI _ => hI.advance) hinit .nil
    have hmap : Along (advance R active window) (fun g h => ¬ g.Stray R active window h)
        (Group.mapInfo (fun q : η × ℕ => R.info q.1) ⟨R.time h, [], []⟩) ((h :: hs).zipIdx.map Prod.fst) ↔
          Along (advance R.numbered active window) _ ⟨R.time h, [], []⟩ (h :: hs).zipIdx :=
      along_map fun g q => absorb_mapInfo R active window g q
    rw [List.zipIdx_map_fst] at hmap
    simp only [stray_mapInfo] at hmap
    exact hrun.trans hmap.symm

end Sets

/-- The entries of the tree, with the places in the file of the hits they are built from. -/
def numberedEntries [Inhabited ρ] (active : List UInt32) (window : ℚ) (hits : List (Stg2Record ρ)) :
    List (Entry (Stg2Record ρ × ℕ) (Stg2Record ρ × ℕ)) :=
  coincidences stg2Reading.numbered active window hits.zipIdx

/-- No coincidence is filled twice exactly when no hit of an inactive channel comes within the
window of a complete group. -/
theorem entries_distinct_iff [Inhabited ρ] {active : List UInt32} (hne : active ≠ [])
    (window : ℚ) (hits : List (Stg2Record ρ)) :
    ((numberedEntries active window hits).Pairwise fun e b => ¬ e.SameHits b) ↔
      AlongHits stg2Reading active window
        (fun g h => ¬ g.Stray stg2Reading active window h) hits :=
  numbered_distinct_iff hne hits

/-- A pair of channels whose hits come alone is filled once. -/
theorem entries_distinct_pair :
    [3, 5] ≠ ([] : List UInt32) ∧ (numberedEntries [3, 5] 1 [hitOf 3 0, hitOf 5 1]).Pairwise
      fun e b => ¬ e.SameHits b :=
  ⟨by decide, (entries_distinct_iff (by decide) 1 _).mpr (by decide +kernel)⟩

/-- With one active channel, a hit of another fills the same entry again. -/
theorem not_entries_distinct : ¬ ∀ (active : List UInt32) (window : ℚ) (hits : List (Stg2Record ℚ)),
    active ≠ [] → active.Nodup →
      (numberedEntries active window hits).Pairwise fun e b => ¬ e.SameHits b := by
  intro hall
  have hplaces : (numberedEntries [3] 1 [hitOf 3 0, hitOf 7 0]).map Entry.places = [[0], [0]] := by
    decide +kernel
  have hpair := hall [3] 1 [hitOf 3 0, hitOf 7 0] (by decide) (by decide)
  have hsets : ((numberedEntries [3] 1 [hitOf 3 0, hitOf 7 0]).map Entry.places).Pairwise
      fun p q => ¬ ∀ i, i ∈ p ↔ i ∈ q := List.pairwise_map.mpr hpair
  rw [hplaces, List.pairwise_pair] at hsets
  exact hsets fun _ => Iff.rfl

end GramsTof.Analysis.Coincidence
