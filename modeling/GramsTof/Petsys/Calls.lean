import GramsTof.Petsys.Obliging

/-! Calls of a session, one after the other: what it remembers of the registers and
what they have. Each call that fails can bring one register out of step, until it
is read or written by force. -/

namespace GramsTof.Petsys

open Lib Daqd

variable {F : Type} {exec : F → Command → F × List UInt8} {perModule : ℕ} {activeAsics : List Chip}
  {reg : F → UInt8 × UInt8 → Target → Bits} {s s' : Session F}

/-- What is remembered of a register off the list is what the register has. -/
def Agrees (perModule : ℕ) (reg : F → UInt8 × UInt8 → Target → Bits) (stale : List (Chip × Target))
    (s : Session F) : Prop :=
  ∀ chip ac t, s.cached chip = some ac → (chip, t) ∉ stale → ac.value t = reg s.front (spiId perModule chip) t

theorem agrees_iff_view {stale : List (Chip × Target)} : Agrees perModule reg stale s ↔
    ∀ k, k ∉ stale → ∀ v, (view perModule reg s k).1 = some v → (view perModule reg s k).2 = v := by
  constructor
  · intro hs k hk v hv
    obtain ⟨ac, hac, rfl⟩ := Option.map_eq_some_iff.mp hv
    exact (hs k.1 ac k.2 hac hk).symm
  · intro hs chip ac t hac hk
    exact (hs (chip, t) hk _ (by rw [view, hac]; rfl)).symm

theorem Fresh.agrees {r : UInt8 × UInt8 → Target → Bits} (h : Fresh perModule reg r s)
    (stale : List (Chip × Target)) : Agrees perModule reg stale s :=
  fun chip ac t hac _ => (h.2 chip ac t hac).trans (by rw [h.1])

theorem Put.agrees {forceAccess : Bool} {v : Bits} {old new : Option Bits × Bits} (h : Put forceAccess v old new)
    (hold : ∀ w, old.1 = some w → old.2 = w) (w : Bits) (hw : new.1 = some w) : new.2 = w := by
  obtain ⟨hv, hnew | ⟨-, rfl⟩⟩ := h
  · rw [hnew, Option.some.inj (hv.symm.trans hw)]
  · exact hold w hw

/-- A call that gets the configuration changes no register, and brings nothing out of step. -/
theorem getAsicsConfig_spec (h : Registers exec perModule reg) (forceAccess : Bool)
    {stale : List (Chip × Target)} (s₀ : Session F) (hstale : Agrees perModule reg stale s₀) :
    Program.Triple (· = s₀) (getAsicsConfig exec perModule activeAsics forceAccess)
      (fun config s => config = s.cached ∧ Agrees perModule reg stale s ∧ reg s.front = reg s₀.front)
      (fun _ s => Agrees perModule reg stale s ∧ reg s.front = reg s₀.front) := by
  have hbuild : Program.Triple (· = s₀) (buildCache exec perModule activeAsics forceAccess)
      (fun _ s => Agrees perModule reg stale s ∧ reg s.front = reg s₀.front)
      (fun _ s => Agrees perModule reg stale s ∧ reg s.front = reg s₀.front) := by
    refine (buildCache_spec h forceAccess s₀).conseq (fun _ hs => hs) (fun _ s hs => ?_) fun _ s hs => ?_
    · obtain ⟨-, hfresh, -⟩ | ⟨-, rfl⟩ := hs
      · exact ⟨hfresh.agrees stale, hfresh.1⟩
      · exact ⟨hstale, rfl⟩
    · exact ⟨hs.agrees stale, hs.1⟩
  refine .bind hbuild fun _ => .of_eq fun s₁ h₁ => .get_bind (.pure fun s hs => ?_)
  rw [hs]
  exact ⟨rfl, h₁⟩

section Calls

variable (h : Registers exec perModule reg) (hpos : 0 < perModule) (hle : perModule ≤ 256)
  (hnodup : activeAsics.Nodup)
include h hpos hle hnodup

/-- A call that sets the configuration and returns has brought it to the registers, those excepted that
were only remembered to have it; one that fails makes one more register differ from what is remembered. -/
theorem setAsicsConfig_spec (config : Chip → Option AsicConfig) (forceAccess : Bool)
    {stale : List (Chip × Target)} (s₀ : Session F) (hstale : Agrees perModule reg stale s₀) :
    Program.Triple (· = s₀) (setAsicsConfig exec perModule activeAsics config forceAccess)
      (fun _ s => Agrees perModule reg stale s ∧ ∀ chip ∈ activeAsics, ∃ newAC, config chip = some newAC ∧
        ∀ t, forceAccess = true ∨ (chip, t) ∉ stale →
          reg s.front (spiId perModule chip) t = newAC.value t)
      (fun _ s => ∃ k, Agrees perModule reg (k :: stale) s) := by
  refine .bind ((buildCache_spec h false s₀).conseq (fun _ hs => hs) (fun _ _ hs => hs)
    fun _ s hs => ⟨(0, none), hs.agrees _⟩) fun _ => .of_eq fun s₁ h₁ => ?_
  have hstale₁ : Agrees perModule reg stale s₁ := by
    obtain ⟨-, hfresh, -⟩ | ⟨-, rfl⟩ := h₁
    · exact hfresh.agrees stale
    · exact hstale
  rw [agrees_iff_view] at hstale₁
  refine (setChips_spec hpos hle h forceAccess config hnodup s₁).conseq (fun _ hs => hs) (fun _ s hs => ?_)
    fun _ s hs => ?_
  · obtain ⟨hactive, hrest⟩ := hs
    rw [agrees_iff_view]
    refine ⟨fun k hk v hv => ?_, fun chip hchip => ?_⟩
    · by_cases hmem : k.1 ∈ activeAsics
      · obtain ⟨newAC, -, hput⟩ := hactive k.1 hmem
        exact (hput k.2).agrees (hstale₁ k hk) v hv
      · have hsame := hrest k.1 hmem k.2
        rw [hsame] at hv ⊢
        exact hstale₁ k hk v hv
    · obtain ⟨newAC, hconfig, hput⟩ := hactive chip hchip
      refine ⟨newAC, hconfig, fun t ht => ?_⟩
      obtain ⟨hv, hnew | ⟨hforce, hsame⟩⟩ := hput t
      · exact hnew
      · have hnot := ht.resolve_left (Bool.eq_false_iff.mp hforce)
        exact (hput t).agrees (hstale₁ _ hnot) _ hv
  · obtain ⟨k, hbad, hrest⟩ := hs
    refine ⟨k, agrees_iff_view.mpr fun k' hk' v hv => ?_⟩
    rw [List.mem_cons, not_or] at hk'
    obtain hsame | ⟨w, hput⟩ := hrest k' hk'.1
    · rw [hsame] at hv ⊢
      exact hstale₁ k' hk'.2 v hv
    · exact hput.agrees (hstale₁ k' hk'.2) v hv

/-- The calls that failed. -/
def failed (calls : List (Call × Except Err PUnit)) : ℕ := calls.countP fun c => !c.2.isOk

theorem calls_agrees {calls : List (Call × Except Err PUnit)} (h0 : s.asicConfigCache = none)
    (hcalls : Program.Calls (Call.run exec perModule activeAsics) s calls s') :
    ∃ stale : List (Chip × Target), stale.length ≤ failed calls ∧ Agrees perModule reg stale s' := by
  induction hcalls with
  | nil =>
    refine ⟨[], Nat.zero_le _, fun chip ac t hac => ?_⟩
    rw [Session.cached, h0] at hac
    cases hac
  | @snoc calls c r t u _ hcall ih =>
    obtain ⟨stale, hlen, hstale⟩ := ih
    have hcount : failed (calls ++ [(c, r)]) = failed calls + if r.isOk then 0 else 1 := by
      rw [failed, List.countP_append, List.countP_singleton, failed]
      cases r.isOk <;> rfl
    cases c with
    | get forceAccess =>
      have hget : Program.Triple (· = t) (Call.run exec perModule activeAsics (.get forceAccess))
          (fun _ => Agrees perModule reg stale) (fun _ => Agrees perModule reg stale) :=
        .bind ((getAsicsConfig_spec h forceAccess t hstale).conseq (fun _ hs => hs) (fun _ _ hs => hs.2.1)
          fun _ _ hs => hs.1) fun _ => .pure fun _ hs => hs
      refine ⟨stale, by omega, ?_⟩
      cases r with
      | ok a => exact hget.ok rfl hcall
      | error e => exact hget.error rfl hcall
    | set config forceAccess =>
      have hset := setAsicsConfig_spec h hpos hle hnodup config forceAccess t hstale
      cases r with
      | ok a => exact ⟨stale, by omega, (hset.ok rfl hcall).1⟩
      | error e =>
        obtain ⟨k, hk⟩ := hset.error rfl hcall
        refine ⟨k :: stale, ?_, hk⟩
        rw [hcount, List.length_cons]
        exact Nat.succ_le_succ hlen

/-- Over any calls that get and set the configuration, whatever becomes of their commands and whatever the
registers were set to by a write that failed: for all but as many registers as calls failed, what is
remembered is what they have. A call that sets the configuration then and returns has brought it to
every register that is not one of these, and to all of them when the access was forced. -/
theorem configuration_reaches {calls : List (Call × Except Err PUnit)} (h0 : s.asicConfigCache = none)
    (hcalls : Program.Calls (Call.run exec perModule activeAsics) s calls s') :
    ∃ stale : List (Chip × Target), stale.length ≤ failed calls ∧ Agrees perModule reg stale s' ∧
      ∀ config forceAccess u, setAsicsConfig exec perModule activeAsics config forceAccess s' (.ok ⟨⟩) u →
        Agrees perModule reg stale u ∧ ∀ chip ∈ activeAsics, ∃ newAC, config chip = some newAC ∧
          ∀ t, forceAccess = true ∨ (chip, t) ∉ stale → reg u.front (spiId perModule chip) t = newAC.value t := by
  obtain ⟨stale, hlen, hstale⟩ := calls_agrees h hpos hle hnodup h0 hcalls
  refine ⟨stale, hlen, hstale, fun config forceAccess u hset => ?_⟩
  exact (setAsicsConfig_spec h hpos hle hnodup config forceAccess s' hstale).ok rfl hset

end Calls

/-- All bits of all registers alike. -/
def uniform (b : Bool) : AsicConfig := ⟨List.replicate 184 b, fun _ => List.replicate 125 b⟩

theorem length_uniform (b : Bool) (t : Target) : ((uniform b).value t).length = dataLength t := by
  cases t <;> exact List.length_replicate

/-- Two configurations are set, the second only where it differs from what is remembered. -/
theorem configuration_reaches_sample : ∃ s' u : Session Device,
    setAsicsConfig Device.exec 8 [3, 10] (fun _ => some (uniform false)) false s' (.ok ⟨⟩) u ∧
      ∀ t, Device.reg u.front (spiId 8 10) t = (uniform false).value t := by
  have hd := Device.obliging 8
  have hconfig : ∀ b, ∀ chip ∈ ([3, 10] : List Chip), ∃ ac, some (uniform b) = some ac ∧
      ∀ t, (ac.value t).length = dataLength t := fun b _ _ => ⟨uniform b, rfl, length_uniform b⟩
  obtain ⟨⟨⟩, s', hset, hs'⟩ := (can_setAsicsConfig hd (fun _ => some (uniform true)) false (hconfig true)
    ⟨fun _ _ => 0, none⟩ (.inl rfl)).exists_ok rfl
  obtain ⟨⟨⟩, u, hset', -⟩ := (can_setAsicsConfig hd (fun _ => some (uniform false)) false (hconfig false)
    s' (.inr hs')).exists_ok rfl
  have hcalls : Program.Calls (Call.run Device.exec 8 [3, 10]) ⟨fun _ _ => 0, none⟩
      ([] ++ [(.set (fun _ => some (uniform true)) false, .ok ⟨⟩)]) s' := .snoc .nil hset
  obtain ⟨stale, hlen, -, hreach⟩ := configuration_reaches hd.toRegisters (by decide) (by decide)
    (show ([3, 10] : List Chip).Nodup by decide) rfl hcalls
  obtain rfl : stale = [] := List.length_eq_zero_iff.mp (Nat.le_zero.mp hlen)
  obtain ⟨newAC, hnew, hreg⟩ := (hreach _ _ u hset').2 10 (by decide)
  obtain rfl := Option.some.inj hnew
  exact ⟨s', u, hset', fun t => hreg t (.inr List.not_mem_nil)⟩

end GramsTof.Petsys
