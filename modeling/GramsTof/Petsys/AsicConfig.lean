import GramsTof.Lib.Bits
import GramsTof.Lib.Fields
import Mathlib.Algebra.Ring.Int.Defs
import Mathlib.Data.List.Induction
import Mathlib.Data.Nat.Cast.Basic
import Mathlib.Data.Option.Basic
import Mathlib.Tactic.SplitIfs

/-! The configuration of an ASIC: one row of bits for the chip and one for each of
its channels, with named fields. A field has its bits at places that need not lie
together, and its value is cut to what it can hold. -/

namespace GramsTof.Petsys

open Lib

/-- A bitarray. -/
abbrev Bits := List Bool

def range (start stop : ℕ) : List ℕ := List.range' start (stop - start)

def nrange (start stop : ℕ) : List ℕ := (range start stop).reverse

/-- A value as a field of `n` bits can hold it. -/
def clamp (v : ℤ) (n : ℕ) : ℕ := if v < 0 then 0 else if 2 ^ n - 1 < v then 2 ^ n - 1 else v.toNat

def intToBin (v : ℤ) (n : ℕ) : Bits := Bits.ofNat n (clamp v n)

def binToInt (s : Bits) : ℕ := Bits.toNat s

inductive FieldError where
  | keyError | indexError
  deriving DecidableEq

/-- The fields, by the numbers that the chip gives its bits; bit `last` is the first of the row. -/
structure Layout where
  fields : List (String × List ℕ)
  last : ℕ
  keys : (fields.map Prod.fst).Nodup
  disjoint : (fields.flatMap Prod.snd).Nodup
  le_last : ∀ b ∈ fields.flatMap Prod.snd, b ≤ last

namespace Layout

def index (L : Layout) (key : String) : Except FieldError (List ℕ) :=
  match L.fields.lookup key with
  | some index => .ok (index.map (L.last - ·))
  | none => .error .keyError

def setBits (L : Layout) (self : Bits) (key : String) (value : Bits) : Except FieldError Bits := do
  let index ← L.index key
  if ∀ i ∈ index, i < self.length then return Fields.put self (index.zip value) else throw .indexError

def setValue (L : Layout) (self : Bits) (key : String) (value : ℤ) : Except FieldError Bits := do
  let index ← L.index key
  L.setBits self key (intToBin value index.length)

def getBits (L : Layout) (self : Bits) (key : String) : Except FieldError Bits := do
  let index ← L.index key
  if ∀ i ∈ index, i < self.length then return index.map (self.getD · false) else throw .indexError

def getValue (L : Layout) (self : Bits) (key : String) : Except FieldError ℕ := do
  return binToInt (← L.getBits self key)

/-- One setting after another. -/
def setValues (L : Layout) (self : Bits) (settings : List (String × ℤ)) : Except FieldError Bits :=
  settings.foldlM (fun self p => L.setValue self p.1 p.2) self

end Layout

/-! ### The two makes of the chip -/

def globalFields (fe_ib2 : List ℕ) (adebug_buffer : List (String × List ℕ)) : List (String × List ℕ) :=
  [("tx_nlinks", nrange 0 2), ("tx_ddr", nrange 2 3), ("tx_mode", nrange 3 5),
    ("debug_mode", nrange 5 6), ("veto_mode", nrange 6 12), ("tdc_clk_div", nrange 12 13),
    ("r_clk_en", nrange 13 16), ("stop_ramp_en", nrange 18 20), ("counter_en", nrange 20 21),
    ("counter_period", nrange 21 24), ("tac_refresh_en", nrange 24 25),
    ("tac_refresh_period", nrange 25 29), ("data_clk_div", nrange 29 31), ("unused_1", range 31 32),
    ("fetp_enable", range 32 33), ("input_polarity", range 33 34), ("attenuator_ls", range 34 40),
    ("v_ref_diff_bias_ig", range 40 46), ("v_cal_ref_ig", range 46 51), ("fe_postamp_t", range 51 56),
    ("fe_postamp_e", range 56 61), ("v_cal_tp_top", range 61 66), ("v_cal_diff_bias_ig", range 66 71),
    ("v_att_diff_bias_ig", range 71 77), ("v_integ_ref_ig", range 77 83),
    ("imirror_bias_top", range 83 88), ("tdc_comp_bias", range 88 93), ("tdc_i_lsb", range 93 98),
    ("disc_lsb_t1", range 98 104), ("fe_ib2", fe_ib2), ("vdifffoldcas", range 109 115),
    ("disc_vcas", range 115 119), ("disc_lsb_e", range 119 125), ("tdc_i_ref", range 125 130),
    ("tdc_comp_vcas", range 130 134), ("main_global_dac", range 135 140), ("fe_ib1", range 140 146),
    ("disc_ib", range 146 152), ("disc_lsb_t2", range 152 158), ("tdc_tac_vcas_p", range 158 163),
    ("tdc_tac_vcas_n", range 163 167), ("adebug_out_mode", range 167 169),
    ("tdc_global_dac", range 169 175)] ++ adebug_buffer ++ [("disc_sf_bias", range 178 184)]

def channelFields (baseline_e integ_source_sw : List ℕ) : List (String × List ℕ) :=
  [("trigger_mode_1", nrange 0 2), ("debug_mode", nrange 2 4), ("sync_chain_length", nrange 4 6),
    ("dead_time", nrange 6 12), ("counter_mode", nrange 12 16), ("tac_max_age", nrange 16 21),
    ("tac_min_age", nrange 21 26), ("trigger_mode_2_t", nrange 26 28),
    ("trigger_mode_2_e", nrange 28 31), ("trigger_mode_2_q", nrange 31 33),
    ("trigger_mode_2_b", nrange 33 36), ("branch_en_eq", nrange 36 37), ("branch_en_t", nrange 37 38),
    ("qdc_mode", nrange 38 39), ("trigger_b_latched", nrange 39 40), ("min_intg_time", nrange 40 47),
    ("max_intg_time", nrange 47 54), ("output_en", nrange 54 56), ("qtx2_en", nrange 56 57),
    ("baseline_t", nrange 57 63), ("vth_t1", nrange 63 69), ("vth_t2", nrange 69 75),
    ("vth_e", nrange 75 81), ("baseline_e", baseline_e), ("fe_delay", [84, 88, 87, 85, 86]),
    ("postamp_gain_t", range 89 91), ("postamp_gain_e", range 91 93), ("postamp_sh_e", nrange 93 95),
    ("intg_en", nrange 95 96), ("intg_signal_en", nrange 96 97), ("att", nrange 97 100),
    ("tdc_current_t", nrange 100 104), ("tdc_current_e", nrange 104 108), ("fe_tp_en", nrange 108 110),
    ("ch63_obuf_msb", nrange 110 111), ("integ_source_sw", integ_source_sw),
    ("t1_hysteresis", nrange 115 118), ("t2_hysteresis", nrange 118 121),
    ("e_hysteresis", nrange 121 124), ("hysteresis_en_n", nrange 124 125)]

namespace Tofpet2b

def globalLayout : Layout where
  fields := globalFields ([134] ++ range 104 109) []
  last := 183
  keys := by decide +kernel
  disjoint := by decide +kernel
  le_last := by decide +kernel

def channelLayout : Layout where
  fields := channelFields (nrange 81 84) (nrange 111 112)
  last := 124
  keys := by decide +kernel
  disjoint := by decide +kernel
  le_last := by decide +kernel

end Tofpet2b

namespace Tofpet2c

def globalLayout : Layout where
  fields := globalFields ([134] ++ [176] ++ range 104 109) [("adebug_buffer", [175])]
  last := 183
  keys := by decide +kernel
  disjoint := by decide +kernel
  le_last := by decide +kernel

def channelLayout : Layout where
  fields := channelFields [82, 83, 81] (nrange 111 113)
  last := 124
  keys := by decide +kernel
  disjoint := by decide +kernel
  le_last := by decide +kernel

end Tofpet2c

/-! ### What settings come to -/

theorem clamp_lt (v : ℤ) (n : ℕ) : clamp v n < 2 ^ n := by
  have hpos : 0 < 2 ^ n := Nat.two_pow_pos n
  have hcast : ((2 ^ n : ℕ) : ℤ) = 2 ^ n := Nat.cast_pow 2 n
  rw [clamp]
  split_ifs with h0 h1 <;> omega

theorem binToInt_intToBin (v : ℤ) (n : ℕ) : binToInt (intToBin v n) = clamp v n :=
  Bits.toNat_ofNat (clamp_lt v n)

theorem length_intToBin (v : ℤ) (n : ℕ) : (intToBin v n).length = n := Bits.length_ofNat n _

namespace Layout

variable {L : Layout} {self : Bits} {key : String} {index : List ℕ}

theorem mem_fields (h : L.index key = .ok index) :
    ∃ fs places gs, L.fields = fs ++ (key, places) :: gs ∧ index = places.map (L.last - ·) := by
  rw [Layout.index] at h
  split at h
  · rename_i places hp
    obtain ⟨fs, gs, hfields, -⟩ := List.lookup_eq_some_iff.mp hp
    exact ⟨fs, places, gs, hfields, (Except.ok.inj h).symm⟩
  · cases h

theorem index_error {e : FieldError} (h : L.index key = .error e) : e = .keyError := by
  rw [Layout.index] at h
  split at h <;> cases h
  rfl

theorem lt_of_mem_index (h : L.index key = .ok index) {i : ℕ} (hi : i ∈ index) : i < L.last + 1 := by
  obtain ⟨fs, places, gs, -, rfl⟩ := mem_fields h
  obtain ⟨b, -, rfl⟩ := List.mem_map.mp hi
  omega

theorem nodup_index (h : L.index key = .ok index) : index.Nodup := by
  obtain ⟨fs, places, gs, hfields, rfl⟩ := mem_fields h
  have hle := L.le_last
  have hnodup := L.disjoint
  simp only [hfields, List.flatMap_append, List.flatMap_cons] at hle hnodup
  have hplaces : places.Nodup := (List.nodup_append.mp (List.nodup_append.mp hnodup).2.1).1
  refine hplaces.map_on fun b hb c hc hbc => ?_
  have := hle b (by simp [hb])
  have := hle c (by simp [hc])
  omega

/-- No bit is in two fields. -/
theorem disjoint_index {key' : String} {index' : List ℕ} (h : L.index key = .ok index)
    (h' : L.index key' = .ok index') (hne : key ≠ key') {i : ℕ} (hi : i ∈ index) : i ∉ index' := by
  obtain ⟨fs, places, gs, hfields, rfl⟩ := mem_fields h
  obtain ⟨fs', places', gs', hfields', rfl⟩ := mem_fields h'
  have hmem : (key', places') ∈ fs ++ gs := by
    have : (key', places') ∈ fs ++ (key, places) :: gs := by
      rw [← hfields, hfields']
      simp
    have hkey : (key', places') ≠ (key, places) := fun heq => hne (congrArg Prod.fst heq).symm
    simpa [hkey] using this
  have hle := L.le_last
  have hnodup := L.disjoint
  rw [hfields] at hle hnodup
  simp only [List.flatMap_append, List.flatMap_cons, List.nodup_append, List.mem_append] at hle hnodup
  obtain ⟨b, hb, rfl⟩ := List.mem_map.mp hi
  intro hi'
  obtain ⟨c, hc, hcb⟩ := List.mem_map.mp hi'
  have hbc : b ≠ c := by
    obtain hfs | hgs := List.mem_append.mp hmem
    · exact fun heq => hnodup.2.2 c (List.mem_flatMap.mpr ⟨_, hfs, hc⟩) b (.inl hb) heq.symm
    · exact hnodup.2.1.2.2 b hb c (List.mem_flatMap.mpr ⟨_, hgs, hc⟩)
  have hcmem : c ∈ fs.flatMap Prod.snd ∨ c ∈ places ∨ c ∈ gs.flatMap Prod.snd := by
    obtain hfs | hgs := List.mem_append.mp hmem
    · exact .inl (List.mem_flatMap.mpr ⟨_, hfs, hc⟩)
    · exact .inr (.inr (List.mem_flatMap.mpr ⟨_, hgs, hc⟩))
  have := hle b (.inr (.inl hb))
  have := hle c hcmem
  omega

theorem getBits_eq (hfull : self.length = L.last + 1) (h : L.index key = .ok index) :
    L.getBits self key = .ok (index.map (self.getD · false)) := by
  rw [getBits, h]
  exact if_pos fun i hi => hfull ▸ lt_of_mem_index h hi

/-- A setting puts its value in its field, and leaves all other bits. -/
theorem setValue_spec (hfull : self.length = L.last + 1) (h : L.index key = .ok index) (v : ℤ) :
    ∃ self₁, L.setValue self key v = .ok self₁ ∧ self₁.length = self.length ∧
      index.map (self₁.getD · false) = intToBin v index.length ∧ ∀ i ∉ index, self₁[i]? = self[i]? := by
  have hbound : ∀ i ∈ index, i < self.length := fun i hi => hfull ▸ lt_of_mem_index h hi
  have hlen := length_intToBin v index.length
  refine ⟨Fields.put self (index.zip (intToBin v index.length)), ?_, Fields.length_put _ _, ?_, fun i hi => ?_⟩
  · rw [setValue, h]
    change L.setBits self key (intToBin v index.length) = _
    rw [setBits, h]
    exact if_pos hbound
  · have hput := Fields.map_getElem?_put (nodup_index h) hlen hbound
    refine List.map_injective_iff.mpr (Option.some_injective Bool) ?_
    rw [← hput, List.map_map]
    refine List.map_congr_left fun i hi => ?_
    have hi' : i < (Fields.put self (index.zip (intToBin v index.length))).length := by
      rw [Fields.length_put]
      exact hbound i hi
    rw [Function.comp_apply, List.getD_eq_getElem _ _ hi', List.getElem?_eq_getElem hi']
  · refine Fields.getElem?_put_of_notMem ?_
    rwa [List.map_fst_zip (Nat.le_of_eq hlen.symm)]

theorem getValue_eq (hfull : self.length = L.last + 1) (h : L.index key = .ok index) :
    L.getValue self key = .ok (binToInt (index.map (self.getD · false))) := by
  rw [getValue, getBits_eq hfull h]
  rfl

theorem getValue_congr {self₁ : Bits} (hfull : self.length = L.last + 1) (hlen : self₁.length = self.length)
    (h : ∀ index, L.index key = .ok index → ∀ i ∈ index, self₁[i]? = self[i]?) :
    L.getValue self₁ key = L.getValue self key := by
  cases hidx : L.index key with
  | error e =>
    rw [getValue, getBits, getValue, getBits, hidx]
    rfl
  | ok index =>
    rw [getValue_eq hfull hidx, getValue_eq (hlen.trans hfull) hidx]
    refine congrArg (fun bits => Except.ok (binToInt bits)) (List.map_congr_left fun i hi => ?_)
    rw [List.getD_eq_getElem?_getD, List.getD_eq_getElem?_getD, h index hidx i hi]

/-- The value that settings leave in a field: the last of them that names it, cut to what the field can
hold. -/
def settled (L : Layout) (self : Bits) (settings : List (String × ℤ)) (key : String) : Except FieldError ℕ :=
  match settings.reverse.lookup key with
  | some v => do return clamp v (← L.index key).length
  | none => L.getValue self key

theorem setValues_append (settings : List (String × ℤ)) (p : String × ℤ) :
    L.setValues self (settings ++ [p]) = L.setValues self settings >>= fun self₁ => L.setValue self₁ p.1 p.2 := by
  rw [setValues, List.foldlM_append]
  refine congrArg (L.setValues self settings >>= ·) (funext fun self₁ => ?_)
  exact bind_pure _

/-- The settings one after another, the last one last. -/
theorem setValues_known (hfull : self.length = L.last + 1) (settings : List (String × ℤ))
    (hknown : ∀ p ∈ settings, ∃ index, L.index p.1 = .ok index) :
    ∃ self₁, L.setValues self settings = .ok self₁ ∧ self₁.length = self.length ∧
      (∀ key, L.getValue self₁ key = L.settled self settings key) ∧
      ∀ i, (∀ p ∈ settings, ∀ index, L.index p.1 = .ok index → i ∉ index) → self₁[i]? = self[i]? := by
  induction settings using List.reverseRecOn with
  | nil => exact ⟨self, rfl, rfl, fun _ => rfl, fun _ _ => rfl⟩
  | append_singleton settings p ih =>
    obtain ⟨self₁, hc, hlen, hvalue, hrest⟩ := ih fun q hq => hknown q (List.mem_append_left _ hq)
    obtain ⟨index, hidx⟩ := hknown p (List.mem_append_right _ List.mem_cons_self)
    obtain ⟨self₂, hc', hlen', hself, hother⟩ := setValue_spec (hlen.trans hfull) hidx p.2
    refine ⟨self₂, by rw [setValues_append, hc]; exact hc', hlen'.trans hlen, fun key => ?_, fun i hi => ?_⟩
    · rw [settled, List.reverse_append, List.reverse_singleton, List.singleton_append]
      by_cases hkey : key = p.1
      · subst hkey
        rw [getValue_eq (hlen'.trans (hlen.trans hfull)) hidx, hself, binToInt_intToBin,
          List.lookup_cons_self, hidx]
        rfl
      · rw [List.lookup_cons, beq_false_of_ne hkey]
        change _ = L.settled self settings key
        rw [← hvalue key]
        refine getValue_congr (hlen.trans hfull) hlen' fun index' hidx' i hi => hother i fun hmem => ?_
        exact disjoint_index hidx' hidx hkey hi hmem
    · have hnot := hi p (List.mem_append_right _ List.mem_cons_self) index hidx
      rw [hother i hnot]
      exact hrest i fun q hq => hi q (List.mem_append_left _ hq)

theorem setValues_unknown (hfull : self.length = L.last + 1) (settings : List (String × ℤ))
    (hunknown : ∃ p ∈ settings, L.index p.1 = .error .keyError) :
    L.setValues self settings = .error .keyError := by
  induction settings generalizing self with
  | nil => obtain ⟨p, hp, -⟩ := hunknown; cases hp
  | cons q settings ih =>
    rw [setValues, List.foldlM_cons]
    cases hidx : L.index q.1 with
    | error e =>
      obtain rfl := index_error hidx
      rw [setValue, hidx]
      rfl
    | ok index =>
      obtain ⟨self₁, hc, hlen, -⟩ := setValue_spec hfull hidx q.2
      rw [hc]
      refine ih (hlen.trans hfull) ?_
      obtain ⟨p, hp, hu⟩ := hunknown
      obtain rfl | hp := List.mem_cons.mp hp
      · cases hu.symm.trans hidx
      · exact ⟨p, hp, hu⟩

/-- What has been set, when nothing failed. -/
theorem setValues_ok {self₁ : Bits} {settings : List (String × ℤ)} (hfull : self.length = L.last + 1)
    (h : L.setValues self settings = .ok self₁) :
    self₁.length = self.length ∧ (∀ key, L.getValue self₁ key = L.settled self settings key) ∧
      ∀ i, (∀ p ∈ settings, ∀ index, L.index p.1 = .ok index → i ∉ index) → self₁[i]? = self[i]? := by
  by_cases hknown : ∀ p ∈ settings, ∃ index, L.index p.1 = .ok index
  · obtain ⟨self₂, hc', hspec⟩ := setValues_known hfull settings hknown
    rwa [← Except.ok.inj (hc'.symm.trans h)]
  · obtain ⟨p, hp, hnot⟩ := not_forall₂.mp hknown
    have hunknown : L.index p.1 = .error .keyError := by
      cases hidx : L.index p.1 with
      | ok index => exact absurd ⟨index, hidx⟩ hnot
      | error e => rw [index_error hidx]
    cases (setValues_unknown hfull settings ⟨p, hp, hunknown⟩).symm.trans h

/-- After any settings each field has the last value it was given, and every bit outside of the fields
that were set is what it was; a setting of a field that is not there ends them. -/
theorem setValues_settled (hfull : self.length = L.last + 1) (settings : List (String × ℤ)) :
    ((∀ p ∈ settings, ∃ index, L.index p.1 = .ok index) →
      ∃ self₁, L.setValues self settings = .ok self₁ ∧ self₁.length = self.length ∧
        (∀ key, L.getValue self₁ key = L.settled self settings key) ∧
        ∀ i, (∀ p ∈ settings, ∀ index, L.index p.1 = .ok index → i ∉ index) →
          self₁[i]? = self[i]?) ∧
      ((∃ p ∈ settings, L.index p.1 = .error .keyError) → L.setValues self settings = .error .keyError) :=
  ⟨setValues_known hfull settings, setValues_unknown hfull settings⟩

/-- A field whose bits do not lie together. -/
theorem setValues_settled_sample :
    ∃ self₁, Tofpet2c.globalLayout.setValues (List.replicate 184 true)
        [("fe_ib2", 70), ("tx_mode", 9)] = .ok self₁ ∧
      Tofpet2c.globalLayout.getValue self₁ "fe_ib2" = .ok 70 ∧
      Tofpet2c.globalLayout.getValue self₁ "tx_mode" = .ok 3 ∧
      Tofpet2c.globalLayout.getValue self₁ "fe_ib1" = .ok 63 := by
  have hknown : ∀ p ∈ [("fe_ib2", (70 : ℤ)), ("tx_mode", 9)],
      ∃ index, Tofpet2c.globalLayout.index p.1 = .ok index := by
    intro p hp
    simp only [List.mem_cons, List.not_mem_nil, or_false] at hp
    obtain rfl | rfl := hp <;> exact ⟨_, rfl⟩
  obtain ⟨self₁, hc, -, hvalue, -⟩ := (setValues_settled
    (show (List.replicate 184 true).length = Tofpet2c.globalLayout.last + 1 from List.length_replicate)
    [("fe_ib2", 70), ("tx_mode", 9)]).1 hknown
  refine ⟨self₁, hc, ?_, ?_, ?_⟩ <;> (rw [hvalue]; decide +kernel)

end Layout

end GramsTof.Petsys
