import GramsTof.Petsys.ConfigCache

/-! What a session remembers against what the registers have. A call that fails in
the middle of a write leaves that one register with anything, and the session with
the value it remembered for it; nothing else goes out of step. -/

namespace GramsTof.Petsys

open Lib Daqd

variable {F : Type} {exec : F → Command → F × List UInt8} {perModule : ℕ} {activeAsics : List Chip}
  {reg : F → UInt8 × UInt8 → Target → Bits} {s₀ s s' : Session F}

/-- What is remembered of a register, and what it has. -/
def view (perModule : ℕ) (reg : F → UInt8 × UInt8 → Target → Bits) (s : Session F) (k : Chip × Target) :
    Option Bits × Bits :=
  ((s.cached k.1).map fun ac => ac.value k.2, reg s.front (spiId perModule k.1) k.2)

/-- A register is set to `v`: it has that value, unless it was only remembered to have it. -/
def Put (forceAccess : Bool) (v : Bits) (old new : Option Bits × Bits) : Prop :=
  new.1 = some v ∧ (new.2 = v ∨ forceAccess = false ∧ new = old)

/-- All registers of a chip are set. -/
def ChipSet (forceAccess : Bool) (config : Chip → Option AsicConfig) (chip : Chip)
    (old new : Target → Option Bits × Bits) : Prop :=
  ∃ newAC, config chip = some newAC ∧ ∀ t, Put forceAccess (newAC.value t) (old t) (new t)

/-- Some registers of a chip are set, and one may be left with anything. -/
def ChipSpoilt (forceAccess : Bool) (old new : Target → Option Bits × Bits) : Prop :=
  ∃ t₀, (new t₀).1 = (old t₀).1 ∧ ∀ t, t ≠ t₀ → new t = old t ∨ ∃ v, Put forceAccess v (old t) (new t)

theorem nodup_targets : targets.Nodup := by decide +kernel

theorem mem_targets (t : Target) : t ∈ targets := by
  cases t with
  | none => exact List.mem_cons_self
  | some channelID => exact List.mem_cons_of_mem _ (List.mem_map_of_mem (List.mem_finRange channelID))

theorem cached_setCached_of_ne {chip chip' : Chip} {ac : AsicConfig} (hne : chip' ≠ chip) :
    (s.setCached chip ac).cached chip' = s.cached chip' := by
  cases hcache : s.asicConfigCache with
  | none => simp [Session.cached, Session.setCached, hcache]
  | some cache => simp [Session.cached, Session.setCached, hcache, Function.update_of_ne hne]

theorem cached_setCached_self {chip : Chip} {old : AsicConfig} (ac : AsicConfig) (hcached : s.cached chip = some old) :
    (s.setCached chip ac).cached chip = some ac := by
  cases hcache : s.asicConfigCache with
  | none => simp [Session.cached, hcache] at hcached
  | some cache => simp [Session.cached, Session.setCached, hcache]

section Set

variable (hpos : 0 < perModule) (hle : perModule ≤ 256)
include hpos hle

/-- What a write and the note of it do to the registers and the cache. -/
theorem view_setCached {chip : Chip} {t : Target} {ac : AsicConfig} {v : Bits} (hcached : s₀.cached chip = some ac)
    (hs : Holds (Others reg (reg s₀.front) (spiId perModule chip) t) s₀.asicConfigCache s)
    (hv : reg s.front (spiId perModule chip) t = v) :
    view perModule reg (s.setCached chip (ac.set t v)) (chip, t) = (some v, v) ∧
      ∀ k, k ≠ (chip, t) →
        view perModule reg (s.setCached chip (ac.set t v)) k = view perModule reg s₀ k := by
  obtain ⟨hothers, hcache⟩ := hs
  have hsame : s.cached = s₀.cached := by
    funext chip'
    rw [Session.cached, hcache, Session.cached]
  have hself := cached_setCached_self (ac.set t v) (hsame ▸ hcached : s.cached chip = some ac)
  refine ⟨?_, fun k hk => ?_⟩
  · rw [view, hself, Option.map_some, AsicConfig.value_set]
    exact congrArg (Prod.mk (some v)) hv
  · obtain ⟨chip', t'⟩ := k
    refine Prod.ext ?_ (hothers _ _ fun heq => hk ?_)
    · by_cases hc : chip' = chip
      · subst hc
        have ht : t' ≠ t := fun heq => hk (heq ▸ rfl)
        simp only [view, hself, hcached, Option.map_some, AsicConfig.value_set_of_ne ac v ht]
      · simp only [view, cached_setCached_of_ne hc, hsame]
    · obtain ⟨ha, ht⟩ := Prod.mk.inj heq
      exact Prod.ext (spiId_inj perModule hpos hle ha) ht

theorem view_others {chip : Chip} {t : Target}
    (hs : Holds (Others reg (reg s₀.front) (spiId perModule chip) t) s₀.asicConfigCache s) :
    (view perModule reg s (chip, t)).1 = (view perModule reg s₀ (chip, t)).1 ∧
      ∀ k, k ≠ (chip, t) → view perModule reg s k = view perModule reg s₀ k := by
  obtain ⟨hothers, hcache⟩ := hs
  have hsame : s.cached = s₀.cached := by
    funext chip'
    rw [Session.cached, hcache, Session.cached]
  refine ⟨by rw [view, hsame, view], fun k hk => Prod.ext (by rw [view, hsame, view]) ?_⟩
  refine hothers _ _ fun heq => hk ?_
  obtain ⟨ha, ht⟩ := Prod.mk.inj heq
  exact Prod.ext (spiId_inj perModule hpos hle ha) ht

variable (h : Registers exec perModule reg)
include h

theorem setRegister_spec (forceAccess : Bool) (chip : Chip) (newAC : AsicConfig) (t : Target) (s₀ : Session F) :
    Program.Triple (· = s₀) (setRegister exec perModule forceAccess chip newAC t)
      (fun _ s => Put forceAccess (newAC.value t) (view perModule reg s₀ (chip, t)) (view perModule reg s (chip, t)) ∧
        ∀ k, k ≠ (chip, t) → view perModule reg s k = view perModule reg s₀ k)
      (fun _ s => (view perModule reg s (chip, t)).1 = (view perModule reg s₀ (chip, t)).1 ∧
        ∀ k, k ≠ (chip, t) → view perModule reg s k = view perModule reg s₀ k) := by
  refine .get_bind ?_
  cases hcached : s₀.cached chip with
  | none => exact .throw fun s hs => hs ▸ ⟨rfl, fun _ _ => rfl⟩
  | some cachedAC =>
    refine .ite (fun _ => ?_) fun hskip => .pure fun s hs => ?_
    · refine .bind ((doAsicWrite_spec h s₀.asicConfigCache (reg s₀.front) chip t (newAC.value t)).conseq
        (fun s hs => ⟨hs ▸ fun _ _ _ => rfl, congrArg Session.asicConfigCache hs⟩) (fun _ _ hs => hs)
        fun _ s hs => view_others hpos hle hs) fun _ => .modify fun s hs => ?_
      obtain ⟨hput, hrest⟩ := view_setCached hpos hle hcached hs.1 hs.2
      exact ⟨⟨congrArg Prod.fst hput, .inl (congrArg Prod.snd hput)⟩, hrest⟩
    · rw [not_or, not_not] at hskip
      subst hs
      refine ⟨⟨?_, .inr ⟨Bool.eq_false_iff.mpr hskip.1, rfl⟩⟩, fun _ _ => rfl⟩
      rw [view, hcached, Option.map_some, ← hskip.2]

theorem setChip_spec (forceAccess : Bool) (config : Chip → Option AsicConfig) (chip : Chip) (s₀ : Session F) :
    Program.Triple (· = s₀) (setChip exec perModule forceAccess config chip)
      (fun _ s => ChipSet forceAccess config chip (fun t => view perModule reg s₀ (chip, t))
        (fun t => view perModule reg s (chip, t)) ∧
        ∀ k, k ≠ chip → (fun t => view perModule reg s (k, t)) = fun t => view perModule reg s₀ (k, t))
      (fun _ s => ChipSpoilt forceAccess (fun t => view perModule reg s₀ (chip, t))
        (fun t => view perModule reg s (chip, t)) ∧
        ∀ k, k ≠ chip → (fun t => view perModule reg s (k, t)) = fun t => view perModule reg s₀ (k, t)) := by
  have hnone : Program.Triple (· = s₀) (Program.throw .keyError : Program (Session F) Err PUnit)
      (fun _ s => ChipSet forceAccess config chip (fun t => view perModule reg s₀ (chip, t))
        (fun t => view perModule reg s (chip, t)) ∧
        ∀ k, k ≠ chip → (fun t => view perModule reg s (k, t)) = fun t => view perModule reg s₀ (k, t))
      (fun _ s => ChipSpoilt forceAccess (fun t => view perModule reg s₀ (chip, t))
        (fun t => view perModule reg s (chip, t)) ∧
        ∀ k, k ≠ chip → (fun t => view perModule reg s (k, t)) = fun t => view perModule reg s₀ (k, t)) :=
    .throw fun s hs => hs ▸ ⟨⟨none, rfl, fun _ _ => .inl rfl⟩, fun _ _ => rfl⟩
  refine .get_bind ?_
  cases hcached : s₀.cached chip with
  | none => exact hnone
  | some cachedAC =>
    cases hconfig : config chip with
    | none => exact hnone
    | some newAC =>
      have hnodup : (targets.map fun t => (chip, t)).Nodup :=
        nodup_targets.map fun t t' heq => congrArg Prod.snd heq
      have hcells := Program.Triple.forEach_cells (view perModule reg) (fun t => (chip, t))
        (Q := fun t => Put forceAccess (newAC.value t)) (B := fun _ _ old new => new.1 = old.1)
        (setRegister_spec hpos hle h forceAccess chip newAC) hnodup s₀
      have hother : ∀ k t, k ≠ chip → (k, t) ∉ targets.map fun t => (chip, t) := by
        intro k t hk hmem
        obtain ⟨t', -, heq⟩ := List.mem_map.mp hmem
        exact hk (congrArg Prod.fst heq).symm
      refine hcells.conseq (fun _ hs => hs) (fun _ s hs => ?_) fun e s hs => ?_
      · refine ⟨⟨newAC, hconfig, fun t => hs.1 t (mem_targets t)⟩, fun k hk => funext fun t => ?_⟩
        exact hs.2 (k, t) (hother k t hk)
      · obtain ⟨done, t₀, rest, htargets, hdone, hbad, hrest⟩ := hs
        refine ⟨⟨t₀, hbad, fun t ht => ?_⟩, fun k hk => funext fun t => hrest (k, t) (fun hmem => ?_) fun heq => ?_⟩
        · by_cases hmem : t ∈ done
          · exact .inr ⟨newAC.value t, hdone t hmem⟩
          · refine .inl (hrest (chip, t) (fun hmap => ?_) fun heq => ht (congrArg Prod.snd heq))
            obtain ⟨t', ht', heq⟩ := List.mem_map.mp hmap
            cases heq
            exact hmem ht'
        · refine hother k t hk ?_
          rw [htargets, List.map_append]
          exact List.mem_append_left _ hmem
        · exact hk (congrArg Prod.fst heq)

/-- Setting the chips: those that were done hold their configuration, and where it fails one register is
left with anything. -/
theorem setChips_spec (forceAccess : Bool) (config : Chip → Option AsicConfig) (hnodup : activeAsics.Nodup)
    (s₀ : Session F) :
    Program.Triple (· = s₀) (Program.forEach (setChip exec perModule forceAccess config) activeAsics)
      (fun _ s => (∀ chip ∈ activeAsics, ChipSet forceAccess config chip
          (fun t => view perModule reg s₀ (chip, t)) fun t => view perModule reg s (chip, t)) ∧
        ∀ chip, chip ∉ activeAsics → ∀ t, view perModule reg s (chip, t) = view perModule reg s₀ (chip, t))
      (fun _ s => ∃ k, (view perModule reg s k).1 = (view perModule reg s₀ k).1 ∧
        ∀ k', k' ≠ k → view perModule reg s k' = view perModule reg s₀ k' ∨
          ∃ v, Put forceAccess v (view perModule reg s₀ k') (view perModule reg s k')) := by
  have hcells := Program.Triple.forEach_cells (fun s chip t => view perModule reg s (chip, t)) (fun chip => chip)
    (Q := fun chip => ChipSet forceAccess config chip)
    (B := fun _ _ => ChipSpoilt forceAccess) (setChip_spec hpos hle h forceAccess config)
    (show (activeAsics.map fun chip => chip).Nodup by rwa [List.map_id']) s₀
  refine hcells.conseq (fun _ hs => hs) (fun _ s hs => ?_) fun e s hs => ?_
  · rw [List.map_id'] at hs
    exact ⟨hs.1, fun chip hc t => congrFun (hs.2 chip hc) t⟩
  · obtain ⟨done, chip, rest, -, hdone, ⟨t₀, hbad, hput⟩, hrest⟩ := hs
    rw [List.map_id'] at hrest
    refine ⟨(chip, t₀), hbad, fun k' hk' => ?_⟩
    obtain ⟨chip', t⟩ := k'
    by_cases hc : chip' = chip
    · subst hc
      exact hput t fun ht => hk' (ht ▸ rfl)
    · by_cases hmem : chip' ∈ done
      · obtain ⟨newAC, -, hset⟩ := hdone chip' hmem
        exact .inr ⟨_, hset t⟩
      · exact .inl (congrFun (hrest chip' hmem hc) t)

end Set

/-! ### Reading -/

section Read

variable (h : Registers exec perModule reg)
include h

theorem readConfig_spec (r : UInt8 × UInt8 → Target → Bits) (cache : Option (Chip → Option AsicConfig))
    (chip : Chip) :
    Program.Triple (Holds (fun f => reg f = r) cache) (readConfig exec perModule chip)
      (fun ac s => Holds (fun f => reg f = r) cache s ∧ ∀ t, ac.value t = r (spiId perModule chip) t)
      (fun _ => Holds (fun f => reg f = r) cache) := by
  refine .bind (doAsicRead_spec h cache r chip none) fun globalConfig => .bind
    (((Program.Triple.foldlM (I := fun done channelConfig s => Holds (fun f => reg f = r) cache s ∧
      globalConfig = r (spiId perModule chip) none ∧ ∀ n ∈ done, channelConfig n = r (spiId perModule chip) (some n))
      (fun done n channelConfig => ?_) [] (List.finRange 64) _)).conseq
      (fun _ hs => ⟨hs.1, hs.2, nofun⟩) (fun _ _ hs => hs) fun _ _ hs => hs) fun channelConfig =>
    .pure fun s hs => ⟨hs.1, fun t => ?_⟩
  · refine .of_eq fun s₁ h₁ => .bind ((doAsicRead_spec h cache r chip (some n)).conseq (fun s hs => hs ▸ h₁.1)
      (fun _ _ hs => hs) fun _ _ hs => hs) fun value => .pure fun s hs => ⟨hs.1, h₁.2.1, fun m hm => ?_⟩
    by_cases hmn : m = n
    · subst hmn
      rw [Function.update_self, hs.2]
    · rw [Function.update_of_ne hmn]
      obtain hm | hm := List.mem_append.mp hm
      · exact h₁.2.2 m hm
      · exact absurd (List.mem_singleton.mp hm) hmn
  · cases t with
    | none => exact hs.2.1
    | some n => exact hs.2.2 n (List.mem_append_right _ (List.mem_finRange n))

/-- The registers are those of `r`, and the cache has nothing else. -/
def Fresh (perModule : ℕ) (reg : F → UInt8 × UInt8 → Target → Bits) (r : UInt8 × UInt8 → Target → Bits)
    (s : Session F) : Prop :=
  reg s.front = r ∧ ∀ chip ac t, s.cached chip = some ac → ac.value t = r (spiId perModule chip) t

/-- The chips of `done` are in the cache. -/
def Filled (perModule : ℕ) (reg : F → UInt8 × UInt8 → Target → Bits) (r : UInt8 × UInt8 → Target → Bits)
    (done : List Chip) (s : Session F) : Prop :=
  Fresh perModule reg r s ∧ s.asicConfigCache.isSome = true ∧ ∀ c ∈ done, (s.cached c).isSome = true

theorem cacheConfig_spec (r : UInt8 × UInt8 → Target → Bits) (done : List Chip) (chip : Chip) :
    Program.Triple (Filled perModule reg r done) (cacheConfig exec perModule chip)
      (fun _ => Filled perModule reg r (done ++ [chip])) (fun _ => Fresh perModule reg r) := by
  refine .of_eq fun s₁ h₁ => .bind ((readConfig_spec h r s₁.asicConfigCache chip).conseq
    (fun s hs => ?_) (fun _ _ hs => hs) fun _ s hs => ?_) fun ac => .modify fun s hs => ?_
  · rw [hs]
    exact ⟨h₁.1.1, rfl⟩
  · refine ⟨hs.1, fun c ac t hc => h₁.1.2 c ac t ?_⟩
    rwa [Session.cached, hs.2] at hc
  · obtain ⟨cache, hcache⟩ := Option.isSome_iff_exists.mp h₁.2.1
    have hold : s.asicConfigCache = some cache := hs.1.2.trans hcache
    have hcached : ∀ c, (s.setCached chip ac).cached c = if c = chip then some ac else s₁.cached c := by
      intro c
      simp only [Session.cached, Session.setCached, hold, hcache, Option.map_some, Option.bind_some,
        Function.update_apply]
    refine ⟨⟨hs.1.1, fun c ac' t hc => ?_⟩, ?_, fun c hc => ?_⟩
    · rw [hcached] at hc
      split_ifs at hc with heq
      · obtain rfl := Option.some.inj hc
        rw [heq]
        exact hs.2 t
      · exact h₁.1.2 c ac' t hc
    · simp only [Session.setCached, hold, Option.map_some, Option.isSome_some]
    · rw [hcached]
      split_ifs with heq
      · rfl
      · obtain hc | hc := List.mem_append.mp hc
        · exact h₁.2.2 c hc
        · exact absurd (List.mem_singleton.mp hc) heq

/-- Reading changes no register, and what is remembered then is what the registers have, also when it
fails before its end. -/
theorem buildCache_spec (forceAccess : Bool) (s₀ : Session F) :
    Program.Triple (· = s₀) (buildCache exec perModule activeAsics forceAccess)
      (fun _ s => (forceAccess = true ∨ s₀.asicConfigCache = none) ∧ Fresh perModule reg (reg s₀.front) s ∧
          (∀ chip ∈ activeAsics, (s.cached chip).isSome = true) ∨ s₀.asicConfigCache ≠ none ∧ s = s₀)
      (fun _ => Fresh perModule reg (reg s₀.front)) := by
  refine .get_bind (.ite (fun hbuild => .bind (Q := fun _ => Filled perModule reg (reg s₀.front) [])
    (.modify fun s hs => ?_) fun _ => ?_) fun hkeep => .pure fun s hs => .inr ⟨fun hnone => ?_, hs⟩)
  rotate_left 2
  · exact hkeep (.inr (Option.isNone_iff_eq_none.mpr hnone))
  · subst hs
    exact ⟨⟨rfl, nofun⟩, rfl, nofun⟩
  · rw [Option.isNone_iff_eq_none] at hbuild
    exact (Program.Triple.forEach (I := fun done _ => Filled perModule reg (reg s₀.front) done)
      (fun done chip _ => cacheConfig_spec h (reg s₀.front) done chip) [] activeAsics).conseq (fun _ hs => hs)
      (fun _ s hs => .inl ⟨hbuild, hs.1, hs.2.2⟩) fun _ _ hs => hs

end Read

end GramsTof.Petsys
