import GramsTof.Petsys.Calls

/-! A configuration file is loaded: the settings of its tables go into a copy of the
remembered configuration, field by field, and from there to the registers. -/

namespace GramsTof.Petsys

open Lib Daqd

/-- The two makes of the chip. -/
inductive AsicSubtype where
  | tofpet2b | tofpet2c
  deriving DecidableEq

/-- The layout of a register of a chip. -/
def layout : AsicSubtype → Target → Layout
  | .tofpet2b, none => Tofpet2b.globalLayout
  | .tofpet2b, some _ => Tofpet2b.channelLayout
  | .tofpet2c, none => Tofpet2c.globalLayout
  | .tofpet2c, some _ => Tofpet2c.channelLayout

/-- Which threshold. -/
inductive Vth where
  | t1 | t2 | e

/-- The tables of a configuration file; `V` are the thresholds as the file has them. -/
structure Config (V : Type) where
  loadDiscCalibration : Bool
  loadDiscSettings : Bool
  asicParameterTable : List ((String × String) × ℤ)
  asicChannelBaselineSettingsTable : Chip → Fin 64 → Option (ℤ × ℤ)
  asicChannelThresholdSettingsTable : Chip → Fin 64 → Option (V × V × V)
  asicChannelQDCModeTable : Chip → Fin 64 → Option String
  mapAsicChannelThresholdToDAC : Chip → Fin 64 → Vth → V → Option ℤ

/-- A table without the key. -/
def orKeyError {α : Type} : Option α → Except FieldError α
  | some a => .ok a
  | none => .error .keyError

/-- Each register of some chips is changed. -/
def changeChips (f : Chip → Target → Bits → Except FieldError Bits) (chips : List Chip)
    (config : Chip → Option AsicConfig) : Except FieldError (Chip → Option AsicConfig) :=
  chips.foldlM (fun config chip => do
    let ac ← orKeyError (config chip)
    let ac ← targets.foldlM (fun ac t => do
      let value ← f chip t (ac.value t)
      pure (ac.set t value)) ac
    pure (Function.update config chip (some ac))) config

namespace Config

variable {V : Type}

/-- The settings that a line of the ASIC parameters has for a register. -/
def parameterSettings (p : (String × String) × ℤ) (_ : Chip) (t : Target) :
    Except FieldError (List (String × ℤ)) :=
  .ok (if (p.1.1 == "global") == t.isNone then [(p.1.2, p.2)] else [])

def baselineSettings (c : Config V) (chip : Chip) : Target → Except FieldError (List (String × ℤ))
  | none => .ok []
  | some channelID =>
    if c.loadDiscCalibration = true then do
      let (baseline_t, baseline_e) ← orKeyError (c.asicChannelBaselineSettingsTable chip channelID)
      pure [("baseline_t", baseline_t), ("baseline_e", baseline_e)]
    else .ok []

def thresholdSettings (c : Config V) (chip : Chip) (channelID : Fin 64) :
    Except FieldError (List (String × ℤ)) :=
  if c.loadDiscSettings = true then do
    let (vth_t1, vth_t2, vth_e) ← orKeyError (c.asicChannelThresholdSettingsTable chip channelID)
    let vth_t1 ← orKeyError (c.mapAsicChannelThresholdToDAC chip channelID .t1 vth_t1)
    let vth_t2 ← orKeyError (c.mapAsicChannelThresholdToDAC chip channelID .t2 vth_t2)
    let vth_e ← orKeyError (c.mapAsicChannelThresholdToDAC chip channelID .e vth_e)
    pure [("vth_t1", vth_t1), ("vth_t2", vth_t2), ("vth_e", vth_e), ("trigger_mode_1", 0b00)]
  else .ok []

def qdcSettings (c : Config V) (qdc_mode : String) (chip : Chip) (channelID : Fin 64) :
    Except FieldError (List (String × ℤ)) := do
  let channel_qdc_mode ←
    if qdc_mode = "tot" then pure "tot"
    else if qdc_mode = "qdc" then pure "qdc"
    else orKeyError (c.asicChannelQDCModeTable chip channelID)
  if channel_qdc_mode = "tot" then pure [("qdc_mode", 0), ("intg_en", 0), ("intg_signal_en", 0)]
  else pure [("qdc_mode", 1), ("intg_en", 1), ("intg_signal_en", 1)]

def discriminatorSettings (c : Config V) (qdc_mode : String) (chip : Chip) :
    Target → Except FieldError (List (String × ℤ))
  | none => .ok []
  | some channelID => do
    let thresholds ← c.thresholdSettings chip channelID
    let modes ← c.qdcSettings qdc_mode chip channelID
    pure (thresholds ++ modes)

end Config

/-- One pass of settings over the registers. -/
def settingPass (subtype : Chip → AsicSubtype) (settings : Chip → Target → Except FieldError (List (String × ℤ)))
    (chips : List Chip) : (Chip → Option AsicConfig) → Except FieldError (Chip → Option AsicConfig) :=
  changeChips (fun chip t value => do (layout (subtype chip) t).setValues value (← settings chip t)) chips

/-- The passes of a configuration file: the parameters one by one, the baselines, and the rest. -/
def Config.passes {V : Type} (c : Config V) (qdc_mode : String) :
    List (Chip → Target → Except FieldError (List (String × ℤ))) :=
  c.asicParameterTable.map Config.parameterSettings ++ [c.baselineSettings, c.discriminatorSettings qdc_mode]

def Config.applyAsics {V : Type} (c : Config V) (subtype : Chip → AsicSubtype) (qdc_mode : String) (chips : List Chip)
    (config : Chip → Option AsicConfig) : Except FieldError (Chip → Option AsicConfig) :=
  (c.passes qdc_mode).foldlM (fun config settings => settingPass subtype settings chips config) config

variable {F : Type} (exec : F → Command → F × List UInt8) (perModule : ℕ) (activeAsics : List Chip)

/-- The part of `loadToHardware` that is about the ASICs. -/
def loadToHardware {V : Type} (c : Config V) (subtype : Chip → AsicSubtype) (qdc_mode : String) :
    Program (Session F) Err PUnit := do
  let asicsConfig ← getAsicsConfig exec perModule activeAsics false
  let chips := activeAsics.filter fun chip => (asicsConfig chip).isSome
  match c.applyAsics subtype qdc_mode chips asicsConfig with
  | .error _ => Program.throw .keyError
  | .ok asicsConfig => setAsicsConfig exec perModule activeAsics asicsConfig false

/-- All settings that a configuration file has for a register, in their order. -/
def Config.settings {V : Type} (c : Config V) (qdc_mode : String) (chip : Chip) (t : Target) :
    Except FieldError (List (String × ℤ)) := do
  let settings ← (c.passes qdc_mode).mapM fun settings => settings chip t
  pure settings.flatten

/-! ### From the file to the registers -/

variable {exec perModule activeAsics} {reg : F → UInt8 × UInt8 → Target → Bits} {s s' : Session F}

theorem changeChips_ok {f : Chip → Target → Bits → Except FieldError Bits} {chips : List Chip}
    {config config' : Chip → Option AsicConfig} (hnodup : chips.Nodup)
    (h : changeChips f chips config = .ok config') :
    (∀ chip ∈ chips, ∃ ac ac', config chip = some ac ∧ config' chip = some ac' ∧
      ∀ t, f chip t (ac.value t) = .ok (ac'.value t)) ∧
      ∀ chip, chip ∉ chips → config' chip = config chip := by
  refine foldlM_cells (fun config chip => config chip) (R := fun chip old new => ∃ ac ac',
    old = some ac ∧ new = some ac' ∧ ∀ t, f chip t (ac.value t) = .ok (ac'.value t))
    (fun config chip config' hturn => ?_) hnodup h
  obtain ⟨ac, hac, hturn⟩ := bind_eq_ok.mp hturn
  obtain ⟨ac', hac', hturn⟩ := bind_eq_ok.mp hturn
  obtain rfl : Function.update config chip (some ac') = config' := Except.ok.inj hturn
  have hold : config chip = some ac := by
    cases hc : config chip with
    | none => rw [hc] at hac; cases hac
    | some old =>
      rw [hc] at hac
      exact congrArg some (Except.ok.inj hac)
  refine ⟨⟨ac, ac', hold, Function.update_self .., fun t => ?_⟩, fun j hj => Function.update_of_ne hj ..⟩
  -- every register is visited once
  refine (foldlM_cells (fun (ac : AsicConfig) t => ac.value t)
    (R := fun t old new => f chip t old = .ok new) (fun ac t ac' hset => ?_) nodup_targets hac').1 t (mem_targets t)
  obtain ⟨value, hvalue, hset⟩ := bind_eq_ok.mp hset
  obtain rfl : ac.set t value = ac' := Except.ok.inj hset
  exact ⟨by rw [AsicConfig.value_set]; exact hvalue, fun j hj => AsicConfig.value_set_of_ne ac value hj⟩

/-- What is remembered of a chip has something for each of its registers. -/
def Complete (old : Option AsicConfig) : Prop := ∃ ac, old = some ac ∧ ∀ t, (ac.value t).length = dataLength t

/-- Settings of fields that are there. -/
def Known (subtype : Chip → AsicSubtype) (settings : Chip → Target → Except FieldError (List (String × ℤ)))
    (chip : Chip) : Prop :=
  ∀ t, ∃ ss, settings chip t = .ok ss ∧ ∀ p ∈ ss, ∃ index, (layout (subtype chip) t).index p.1 = .ok index

theorem length_eq_last (make : AsicSubtype) (t : Target) : dataLength t = (layout make t).last + 1 := by
  cases make <;> cases t <;> rfl

/-- A pass of such settings goes through, and leaves the lengths as they are. -/
theorem settingPass_exists {subtype : Chip → AsicSubtype}
    {settings : Chip → Target → Except FieldError (List (String × ℤ))} {chips : List Chip}
    {config : Chip → Option AsicConfig} (hnodup : chips.Nodup) (hcomplete : ∀ chip ∈ chips, Complete (config chip))
    (hknown : ∀ chip ∈ chips, Known subtype settings chip) :
    ∃ config', settingPass subtype settings chips config = .ok config' ∧ ∀ chip ∈ chips, Complete (config' chip) := by
  have hvalue : ∀ chip ∈ chips, ∀ t, ∀ value : Bits, value.length = dataLength t → ∃ c,
      (do (layout (subtype chip) t).setValues value (← settings chip t)) = Except.ok c ∧
        c.length = dataLength t := by
    intro chip hchip t value hlen
    obtain ⟨ss, hss, hindex⟩ := hknown chip hchip t
    obtain ⟨c, hc, hclen, -⟩ := Layout.setValues_known (hlen.trans (length_eq_last (subtype chip) t)) ss hindex
    exact ⟨c, bind_eq_ok.mpr ⟨ss, hss, hc⟩, hclen.trans hlen⟩
  have hpass : ∃ config', settingPass subtype settings chips config = .ok config' := by
    refine exists_foldlM_cells (fun config chip => config chip) (G := fun chip old => chip ∈ chips ∧ Complete old)
      (fun config chip hG => ?_) hnodup
      fun chip hchip => ⟨hchip, hcomplete chip hchip⟩
    obtain ⟨hchip, ac, hac, hlen⟩ := hG
    obtain ⟨ac', hac'⟩ := exists_foldlM_cells (fun (ac : AsicConfig) t => ac.value t)
      (G := fun t old => old.length = dataLength t) (fun ac t hG => by
        obtain ⟨c, hc, -⟩ := hvalue chip hchip t (ac.value t) hG
        exact ⟨ac.set t c, bind_eq_ok.mpr ⟨c, hc, rfl⟩, fun j hj => AsicConfig.value_set_of_ne ac c hj⟩)
      nodup_targets fun t _ => hlen t
    refine ⟨Function.update config chip (some ac'), bind_eq_ok.mpr ⟨ac, ?_, bind_eq_ok.mpr ⟨ac', hac', rfl⟩⟩,
      fun j hj => Function.update_of_ne hj ..⟩
    rw [hac]
    rfl
  obtain ⟨config', hconfig'⟩ := hpass
  refine ⟨config', hconfig', fun chip hchip => ?_⟩
  obtain ⟨ac, ac', hac, hac', hset⟩ := (changeChips_ok hnodup hconfig').1 chip hchip
  obtain ⟨ac₀, hac₀, hlen⟩ := hcomplete chip hchip
  obtain rfl : ac = ac₀ := Option.some.inj (hac.symm.trans hac₀)
  refine ⟨ac', hac', fun t => ?_⟩
  obtain ⟨c, hc, hclen⟩ := hvalue chip hchip t (ac.value t) (hlen t)
  rw [← Except.ok.inj (hc.symm.trans (hset t)), hclen]

theorem passes_exist (subtype : Chip → AsicSubtype) {chips : List Chip} (hnodup : chips.Nodup)
    {passes : List (Chip → Target → Except FieldError (List (String × ℤ)))} {config : Chip → Option AsicConfig}
    (hcomplete : ∀ chip ∈ chips, Complete (config chip))
    (hknown : ∀ settings ∈ passes, ∀ chip ∈ chips, Known subtype settings chip) :
    ∃ config', passes.foldlM (fun config settings => settingPass subtype settings chips config) config =
      .ok config' ∧ ∀ chip ∈ chips, Complete (config' chip) := by
  induction passes generalizing config with
  | nil => exact ⟨config, rfl, hcomplete⟩
  | cons settings passes ih =>
    obtain ⟨mid, hmid, hcomplete⟩ :=
      settingPass_exists hnodup hcomplete (hknown settings List.mem_cons_self)
    obtain ⟨config', hconfig', hcomplete⟩ := ih hcomplete fun s hs => hknown s (List.mem_cons_of_mem _ hs)
    exact ⟨config', by rw [List.foldlM_cons]; exact bind_eq_ok.mpr ⟨mid, hmid, hconfig'⟩, hcomplete⟩

theorem setValues_append_ok {L : Layout} {self c d : Bits} {as bs : List (String × ℤ)}
    (h : L.setValues self as = .ok c) (h' : L.setValues c bs = .ok d) : L.setValues self (as ++ bs) = .ok d := by
  rw [Layout.setValues, List.foldlM_append]
  exact bind_eq_ok.mpr ⟨c, h, h'⟩

/-- The passes together set in each register what they have for it, one after the other. -/
theorem passes_ok {subtype : Chip → AsicSubtype} {chips : List Chip} (hnodup : chips.Nodup)
    (passes : List (Chip → Target → Except FieldError (List (String × ℤ))))
    {config config' : Chip → Option AsicConfig}
    (h : passes.foldlM (fun config settings => settingPass subtype settings chips config) config = .ok config') :
    (∀ chip ∈ chips, (config chip).isSome = true → ∃ ac ac', config chip = some ac ∧ config' chip = some ac' ∧
      ∀ t, ∃ ss, passes.mapM (fun settings => settings chip t) = .ok ss ∧
        (layout (subtype chip) t).setValues (ac.value t) ss.flatten = .ok (ac'.value t)) ∧
      ∀ chip, chip ∉ chips → config' chip = config chip := by
  induction passes generalizing config with
  | nil =>
    obtain rfl : config = config' := Except.ok.inj h
    refine ⟨fun chip _ hsome => ?_, fun _ _ => rfl⟩
    obtain ⟨ac, hac⟩ := Option.isSome_iff_exists.mp hsome
    exact ⟨ac, ac, hac, hac, fun t => ⟨[], rfl, rfl⟩⟩
  | cons settings passes ih =>
    rw [List.foldlM_cons] at h
    obtain ⟨mid, hmid, hrest⟩ := bind_eq_ok.mp h
    obtain ⟨hpass, hkeep⟩ := changeChips_ok hnodup hmid
    obtain ⟨hchips, hothers⟩ := ih hrest
    refine ⟨fun chip hchip _ => ?_, fun chip hchip => (hothers chip hchip).trans (hkeep chip hchip)⟩
    obtain ⟨ac, ac₁, hac, hac₁, hfirst⟩ := hpass chip hchip
    obtain ⟨ac₁', ac', hac₁', hac', hlater⟩ := hchips chip hchip (by rw [hac₁]; rfl)
    obtain rfl : ac₁ = ac₁' := Option.some.inj (hac₁.symm.trans hac₁')
    refine ⟨ac, ac', hac, hac', fun t => ?_⟩
    obtain ⟨as, has, hset⟩ := bind_eq_ok.mp (hfirst t)
    obtain ⟨ss, hss, hsets⟩ := hlater t
    refine ⟨as :: ss, ?_, by rw [List.flatten_cons]; exact setValues_append_ok hset hsets⟩
    rw [List.mapM_cons, has, hss]
    rfl

variable {V : Type} {c : Config V} {qdc_mode : String}

theorem settings_eq_ok {chip : Chip} {t : Target} {ss : List (List (String × ℤ))}
    (h : (c.passes qdc_mode).mapM (fun settings => settings chip t) = .ok ss) :
    c.settings qdc_mode chip t = .ok ss.flatten := by
  rw [Config.settings, h]
  rfl

section Load

variable (c) (qdc_mode) (subtype : Chip → AsicSubtype) (h : Registers exec perModule reg)
  (hpos : 0 < perModule) (hle : perModule ≤ 256) (hnodup : activeAsics.Nodup)
include h hpos hle hnodup

/-- Loading a file that returns has brought its settings to every register that the session did not
remember wrongly. -/
theorem loadToHardware_spec {stale : List (Chip × Target)} (s₀ : Session F)
    (hstale : Agrees perModule reg stale s₀) :
    Program.Triple (· = s₀) (loadToHardware exec perModule activeAsics c subtype qdc_mode)
      (fun _ s => ∀ chip ∈ activeAsics, ∀ t, (chip, t) ∉ stale → ∃ ss, c.settings qdc_mode chip t = .ok ss ∧
        (layout (subtype chip) t).setValues (reg s₀.front (spiId perModule chip) t) ss =
          .ok (reg s.front (spiId perModule chip) t))
      (fun _ _ => True) := by
  refine .bind ((getAsicsConfig_spec h false s₀ hstale).conseq (fun _ hs => hs) (fun _ _ hs => hs)
    fun _ _ _ => trivial) fun asicsConfig => .of_eq fun s₁ h₁ => ?_
  obtain ⟨rfl, hstale₁, hreg⟩ := h₁
  have hchips : (activeAsics.filter fun chip => (s₁.cached chip).isSome).Nodup := hnodup.filter _
  cases happly : c.applyAsics subtype qdc_mode (activeAsics.filter fun chip => (s₁.cached chip).isSome)
      s₁.cached with
  | error e =>
    dsimp only
    rw [happly]
    exact .throw fun _ _ => trivial
  | ok config' =>
    dsimp only
    rw [happly]
    obtain ⟨hpasses, hothers⟩ := passes_ok hchips _ happly
    refine (setAsicsConfig_spec h hpos hle hnodup config' false s₁ hstale₁).conseq (fun _ hs => hs)
      (fun _ s hs chip hchip t ht => ?_) fun _ _ _ => trivial
    obtain ⟨newAC, hconfig', hset⟩ := hs.2 chip hchip
    have hmem : chip ∈ activeAsics.filter fun chip => (s₁.cached chip).isSome := by
      refine List.mem_filter.mpr ⟨hchip, ?_⟩
      by_contra hnot
      have := hothers chip fun hmem => hnot (List.mem_filter.mp hmem).2
      rw [hconfig'] at this
      rw [← this] at hnot
      exact hnot rfl
    obtain ⟨ac, ac', hac, hac', hvalues⟩ := hpasses chip hmem (List.mem_filter.mp hmem).2
    obtain rfl : newAC = ac' := Option.some.inj (hconfig'.symm.trans hac')
    obtain ⟨ss, hss, hvalue⟩ := hvalues t
    refine ⟨ss.flatten, settings_eq_ok hss, ?_⟩
    rw [hset t (.inr ht), ← hreg, ← hstale₁ chip ac t hac ht]
    exact hvalue

/-- After any calls, a file that is loaded without a failure has its settings in the registers, for all
but as many registers as calls failed: each field has the last value that the file has for it, cut to
what it can hold, or else the value it had, and no bit outside of the fields named has changed. -/
theorem settings_reach_registers {calls : List (Call × Except Err PUnit)} (h0 : s.asicConfigCache = none)
    (hcalls : Program.Calls (Call.run exec perModule activeAsics) s calls s') :
    ∃ stale : List (Chip × Target), stale.length ≤ failed calls ∧
      ∀ u, loadToHardware exec perModule activeAsics c subtype qdc_mode s' (.ok ⟨⟩) u →
        ∀ chip ∈ activeAsics, ∀ t, (chip, t) ∉ stale → ∃ ss, c.settings qdc_mode chip t = .ok ss ∧
          (∀ key, (layout (subtype chip) t).getValue (reg u.front (spiId perModule chip) t) key =
            (layout (subtype chip) t).settled (reg s'.front (spiId perModule chip) t) ss key) ∧
          ∀ i, (∀ p ∈ ss, ∀ index, (layout (subtype chip) t).index p.1 = .ok index → i ∉ index) →
            (reg u.front (spiId perModule chip) t)[i]? = (reg s'.front (spiId perModule chip) t)[i]? := by
  obtain ⟨stale, hlen, hstale⟩ := calls_agrees h hpos hle hnodup h0 hcalls
  refine ⟨stale, hlen, fun u hload chip hchip t ht => ?_⟩
  have hspec := loadToHardware_spec c qdc_mode subtype h hpos hle hnodup s' hstale
  obtain ⟨ss, hss, hset⟩ := hspec.ok rfl hload chip hchip t ht
  have hfull := (h.length s'.front (spiId perModule chip) t).trans (length_eq_last (subtype chip) t)
  exact ⟨ss, hss, (Layout.setValues_ok hfull hset).2⟩

end Load

/-- A file whose settings all have a field can be loaded. -/
theorem can_loadToHardware {subtype : Chip → AsicSubtype} (h : Obliging exec perModule reg)
    (hnodup : activeAsics.Nodup)
    (hknown : ∀ settings ∈ c.passes qdc_mode, ∀ chip ∈ activeAsics, Known subtype settings chip)
    (s₀ : Session F) (h0 : s₀.asicConfigCache = none) :
    Program.Can (· = s₀) (loadToHardware exec perModule activeAsics c subtype qdc_mode) fun _ _ => True := by
  have hstale : Agrees perModule reg [] s₀ := by
    intro chip ac t hac
    rw [Session.cached, h0] at hac
    cases hac
  have hget : Program.Can (· = s₀) (getAsicsConfig exec perModule activeAsics false)
      fun config s => config = s.cached ∧ Agrees perModule reg [] s ∧ Remembers activeAsics s := by
    refine .bind (((can_buildCache h s₀ (.inl h0)).triple (buildCache_spec h.toRegisters false s₀)))
      fun _ => .of_eq fun s₁ h₁ => .get_bind (.pure fun s hs => ?_)
    obtain ⟨-, hfresh, hchips⟩ | ⟨hsome, -⟩ := h₁
    · rw [hs]
      exact ⟨rfl, hfresh.agrees [], hchips⟩
    · exact absurd h0 hsome
  refine .bind hget fun asicsConfig => .of_eq fun s₁ h₁ => ?_
  obtain ⟨rfl, hagrees, hremembers⟩ := h₁
  have hfilter : (activeAsics.filter fun chip => (s₁.cached chip).isSome) = activeAsics :=
    List.filter_eq_self.mpr hremembers
  have hcomplete : ∀ chip ∈ activeAsics, Complete (s₁.cached chip) := by
    intro chip hchip
    obtain ⟨ac, hac⟩ := Option.isSome_iff_exists.mp (hremembers chip hchip)
    exact ⟨ac, hac, fun t => by rw [hagrees chip ac t hac List.not_mem_nil, h.length]⟩
  obtain ⟨config', happly, hconfig'⟩ := passes_exist subtype hnodup hcomplete hknown
  have happly' : c.applyAsics subtype qdc_mode activeAsics s₁.cached = .ok config' := happly
  dsimp only
  rw [hfilter, happly']
  exact (can_setAsicsConfig h config' false hconfig' s₁ (.inr hremembers)).conseq (fun _ hs => hs)
    fun _ _ _ => trivial

/-- A file with one parameter, for a field of two bits. -/
def sampleFile : Config ℤ :=
  ⟨false, false, [(("global", "tx_mode"), 9)], fun _ _ => none, fun _ _ => none, fun _ _ => none,
    fun _ _ _ v => some v⟩

theorem known_sampleFile : ∀ settings ∈ sampleFile.passes "qdc", ∀ chip,
    Known (fun _ => .tofpet2c) settings chip := by
  have hpasses : sampleFile.passes "qdc" = [Config.parameterSettings (("global", "tx_mode"), 9),
    sampleFile.baselineSettings, sampleFile.discriminatorSettings "qdc"] := rfl
  rw [hpasses]
  intro settings hsettings chip t
  simp only [List.mem_cons, List.not_mem_nil, or_false] at hsettings
  obtain rfl | rfl | rfl := hsettings
  · cases t with
    | none => exact ⟨[("tx_mode", 9)], rfl, fun p hp => List.mem_singleton.mp hp ▸ ⟨_, rfl⟩⟩
    | some channelID => exact ⟨[], rfl, nofun⟩
  · cases t with
    | none => exact ⟨[], rfl, nofun⟩
    | some channelID => exact ⟨[], rfl, nofun⟩
  · cases t with
    | none => exact ⟨[], rfl, nofun⟩
    | some channelID =>
      refine ⟨[("qdc_mode", 1), ("intg_en", 1), ("intg_signal_en", 1)], rfl, fun p hp => ?_⟩
      simp only [List.mem_cons, List.not_mem_nil, or_false] at hp
      obtain rfl | rfl | rfl := hp <;> exact ⟨_, rfl⟩

theorem settings_reach_registers_sample : ∃ u : Session Device,
    loadToHardware Device.exec 4 [7] sampleFile (fun _ => .tofpet2c) "qdc" ⟨fun _ _ => 0, none⟩ (.ok ⟨⟩) u ∧
      Tofpet2c.globalLayout.getValue (Device.reg u.front (spiId 4 7) none) "tx_mode" = .ok 3 := by
  have hd := Device.obliging 4
  have hnodup : ([7] : List Chip).Nodup := by decide
  obtain ⟨⟨⟩, u, hload, -⟩ := (can_loadToHardware hd hnodup (fun s hs chip _ => known_sampleFile s hs chip)
    ⟨fun _ _ => 0, none⟩ rfl).exists_ok rfl
  obtain ⟨stale, hlen, hreach⟩ := settings_reach_registers sampleFile "qdc" (fun _ => .tofpet2c)
    hd.toRegisters (by decide) (by decide) hnodup
    (show (⟨fun _ _ => 0, none⟩ : Session Device).asicConfigCache = none from rfl) .nil
  obtain rfl : stale = [] := List.length_eq_zero_iff.mp (Nat.le_zero.mp hlen)
  obtain ⟨ss, hss, hvalue, -⟩ := hreach u hload 7 (by decide) none List.not_mem_nil
  obtain rfl : [("tx_mode", 9)] = ss := Except.ok.inj hss
  exact ⟨u, hload, (hvalue "tx_mode").trans rfl⟩

end GramsTof.Petsys
