import GramsTof.Analysis.Loaders

/-! What a well-formed table file says of each entry, and when the tables that are read from two such
files say the same. -/

namespace GramsTof.Analysis

open Lib

variable {ρ : Type*}

/-! ### What a row says -/

/-- A number of a file as an index, if it is one below the bound. -/
def index (bound : ℕ) (i : ℤ) : Option ℕ := if 0 ≤ i ∧ i < bound then some i.toNat else none

/-- The index in a column. -/
def indexColumn (number : String → Option ℤ) (row : List String) (n bound : ℕ) : Option ℕ :=
  (column row n number).bind (index bound)

def branchOf (word : String) : Option Branch :=
  if word = "T" then some .branchT else if word = "E" then some .branchE else none

section Rows

variable (lib : CLibrary ρ) (row : List String)

/-- Chip, channel, tac and branch of a row of the TDC file, none if one of them is not legal. -/
def tdcKey : Option (ℕ × ℕ × ℕ × Branch) := do
  let chip ← indexColumn (some ∘ lib.atoi) row 2 16
  let channel ← indexColumn (some ∘ lib.atoi) row 3 64
  let tac ← indexColumn (some ∘ lib.atoi) row 4 4
  let branch ← column row 5 branchOf
  return (chip, channel, tac, branch)

def tdcValues : Option (TdcParams ρ) := do
  let t0 ← column row 6 (some ∘ lib.atof)
  let a0 ← column row 7 (some ∘ lib.atof)
  let a1 ← column row 8 (some ∘ lib.atof)
  let a2 ← column row 9 (some ∘ lib.atof)
  return ⟨t0, a0, a1, a2⟩

/-- Chip, channel and tac of a row of the QDC file. -/
def qdcKey : Option (ℕ × ℕ × ℕ) := do
  let chip ← indexColumn lib.stoi row 2 16
  let channel ← indexColumn lib.stoi row 3 64
  let tac ← indexColumn lib.stoi row 4 4
  return (chip, channel, tac)

def qdcValues : Option (QdcParams ρ) := do
  let p0 ← column row 5 lib.stof
  let p1 ← column row 6 lib.stof
  let p2 ← column row 7 lib.stof
  let p3 ← column row 8 lib.stof
  let p4 ← column row 9 lib.stof
  let p5 ← column row 10 lib.stof
  let p6 ← column row 11 lib.stof
  let p7 ← column row 12 lib.stof
  let p8 ← column row 13 lib.stof
  let p9 ← column row 14 lib.stof
  return ⟨p0, p1, p2, p3, p4, p5, p6, p7, p8, p9⟩

/-- All columns are there, and the row is about an entry. -/
def TdcWellFormed : Prop := 10 ≤ row.length ∧ (tdcKey lib row).isSome

def QdcWellFormed : Prop := 15 ≤ row.length ∧ (qdcKey lib row).isSome

instance : Decidable (TdcWellFormed lib row) := inferInstanceAs (Decidable (_ ∧ _))

instance : Decidable (QdcWellFormed lib row) := inferInstanceAs (Decidable (_ ∧ _))

end Rows

section Reads

variable {lib : CLibrary ρ} {row : List String}

/-- An index fits the `unsigned short` that holds it. -/
theorem toNat_toUShort {bound k : ℕ} {i : ℤ} (hbound : bound ≤ 65536)
    (hk : index bound i = some k) : (toUShort i).toNat = k := by
  rw [index, Option.ite_none_right_eq_some] at hk
  obtain ⟨hi, hk⟩ := hk
  rw [Option.some_inj] at hk
  rw [toUShort, UInt16.ofInt, UInt16.toNat_ofNat']
  omega

theorem indexColumn_eq {number : String → Option ℤ} {n bound k : ℕ} {x : UInt16}
    (hbound : bound ≤ 65536) (hx : (column row n number).map toUShort = some x)
    (hk : indexColumn number row n bound = some k) : k = x.toNat := by
  obtain ⟨i, hi, rfl⟩ := Option.map_eq_some_iff.mp hx
  rw [indexColumn, hi] at hk
  exact (toNat_toUShort hbound hk).symm

theorem headD_of_branchOf {word : String} {b : Branch} (hb : branchOf word = some b) :
    (if word.toList.headD '\x00' = 'T' then Branch.branchT else .branchE) = b := by
  rw [branchOf] at hb
  split_ifs at hb with hT hE
  · subst hT
    exact Option.some.inj hb
  · subst hE
    exact Option.some.inj hb

/-- A number that a complete row of the TDC file sets. -/
theorem tdc_number {v v' : TdcLine ρ} {n : ℕ} {x : ρ} (hlen : 10 ≤ row.length)
    (hscan : (tdcReader lib).scan v row = some v') (hn : 6 ≤ n)
    (hx : v'.cells[n]? = some (some (.number x))) : column row n (some ∘ lib.atof) = some x := by
  obtain ⟨word, hword, hcell⟩ := RowReader.exists_cell hlen hscan hx
  change tdcCell lib n word = _ at hcell
  rw [tdcCell, if_neg (by omega), if_neg (by omega), if_neg (by omega), Option.some_inj,
    Cell.number.injEq] at hcell
  rw [column, hword, ← hcell]
  rfl

/-- A number that a complete row of the QDC file sets. -/
theorem qdc_number {v v' : QdcLine ρ} {n : ℕ} {x : ρ} (hlen : 15 ≤ row.length)
    (hscan : (qdcReader lib).scan v row = some v') (hn : 5 ≤ n)
    (hx : v'.cells[n]? = some (some (.number x))) : column row n lib.stof = some x := by
  obtain ⟨word, hword, hcell⟩ := RowReader.exists_cell hlen hscan hx
  change qdcCell lib n word = _ at hcell
  rw [qdcCell, if_neg (by omega), if_neg (by omega)] at hcell
  obtain ⟨y, hy, hcell⟩ := Option.map_eq_some_iff.mp hcell
  rw [Cell.number.injEq] at hcell
  rw [column, hword, Option.bind_some, hy, hcell]

/-- The branch that a complete row of the TDC file sets. -/
theorem tdc_branch {v v' : TdcLine ρ} {b : Branch} (hlen : 10 ≤ row.length)
    (hscan : (tdcReader lib).scan v row = some v') (hb : column row 5 branchOf = some b) :
    (if v'.branch = 'T' then Branch.branchT else .branchE) = b := by
  obtain ⟨word, hword, hcell⟩ := RowReader.exists_cell (m := 5) hlen hscan rfl
  rw [column, hword, Option.bind_some] at hb
  rw [← Cell.branch.inj (Option.some.inj hcell)]
  exact headD_of_branchOf hb

/-- A well-formed row of the TDC file writes the values it says at the entry it says. -/
theorem tdc_row (hwell : TdcWellFormed lib row) (v v' : TdcLine ρ)
    (hscan : (tdcReader lib).scan v row = some v') :
    tdcKey lib row = some ((tdcReader lib).out v').1 ∧ tdcValues lib row = some v'.params := by
  obtain ⟨hlen, hkey⟩ := hwell
  obtain ⟨k, hk⟩ := Option.isSome_iff_exists.mp hkey
  constructor
  · obtain ⟨chip, hchip, hchannel⟩ := Option.bind_eq_some_iff.mp hk
    obtain ⟨channel, hchannel, htac⟩ := Option.bind_eq_some_iff.mp hchannel
    obtain ⟨tac, htac, hb⟩ := Option.bind_eq_some_iff.mp htac
    obtain ⟨b, hb, hkey⟩ := Option.bind_eq_some_iff.mp hb
    rw [indexColumn_eq (by decide) (tdc_id hlen hscan (by decide) rfl) hchip,
      indexColumn_eq (by decide) (tdc_id hlen hscan (by decide) rfl) hchannel,
      indexColumn_eq (by decide) (tdc_id hlen hscan (by decide) rfl) htac,
      ← tdc_branch hlen hscan hb] at hkey
    exact hk.trans hkey.symm
  · rw [tdcValues, tdc_number hlen hscan (by decide) rfl, tdc_number hlen hscan (by decide) rfl,
      tdc_number hlen hscan (by decide) rfl, tdc_number hlen hscan (by decide) rfl]
    rfl

/-- A well-formed row of the QDC file. -/
theorem qdc_row (hwell : QdcWellFormed lib row) (v v' : QdcLine ρ)
    (hscan : (qdcReader lib).scan v row = some v') :
    qdcKey lib row = some ((qdcReader lib).out v').1 ∧ qdcValues lib row = some v'.params := by
  obtain ⟨hlen, hkey⟩ := hwell
  obtain ⟨k, hk⟩ := Option.isSome_iff_exists.mp hkey
  constructor
  · obtain ⟨chip, hchip, hchannel⟩ := Option.bind_eq_some_iff.mp hk
    obtain ⟨channel, hchannel, htac⟩ := Option.bind_eq_some_iff.mp hchannel
    obtain ⟨tac, htac, hkey⟩ := Option.bind_eq_some_iff.mp htac
    rw [indexColumn_eq (by decide) (qdc_id hlen hscan (by decide) rfl) hchip,
      indexColumn_eq (by decide) (qdc_id hlen hscan (by decide) rfl) hchannel,
      indexColumn_eq (by decide) (qdc_id hlen hscan (by decide) rfl) htac] at hkey
    exact hk.trans hkey.symm
  · rw [qdcValues, qdc_number hlen hscan (by decide) rfl, qdc_number hlen hscan (by decide) rfl,
      qdc_number hlen hscan (by decide) rfl, qdc_number hlen hscan (by decide) rfl,
      qdc_number hlen hscan (by decide) rfl, qdc_number hlen hscan (by decide) rfl,
      qdc_number hlen hscan (by decide) rfl, qdc_number hlen hscan (by decide) rfl,
      qdc_number hlen hscan (by decide) rfl, qdc_number hlen hscan (by decide) rfl]
    rfl

end Reads

/-! ### The tables -/

/-- One number in every parameter. -/
def TdcParams.const (x : ρ) : TdcParams ρ := ⟨x, x, x, x⟩

def QdcParams.const (x : ρ) : QdcParams ρ := ⟨x, x, x, x, x, x, x, x, x, x⟩

section Reflects

variable [Field ρ] (lib : CLibrary ρ) (u : Uninitialised ρ)

/-- Every entry holds what the last row about it says, or the sentinel -99999 if there is none. -/
structure Reflects (t : Table ρ) (tdc qdc : List (List String)) : Prop where
  tdc : ∀ chip < 16, ∀ channel < 64, ∀ tac < 4, ∀ b, Shows (tdcKey lib) (tdcValues lib) tdc
    (.const (-99999)) (chip, channel, tac, b) (t.tdc chip channel tac b)
  qdc : ∀ chip < 16, ∀ channel < 64, ∀ tac < 4, Shows (qdcKey lib) (qdcValues lib) qdc
    (.const (-99999)) (chip, channel, tac) (t.qdc chip channel tac)

variable {lib} {tdc qdc : List String}

theorem tdc_shows (header : String) (htdc : ∀ row ∈ tdc.map tabWords, TdcWellFormed lib row)
    (k : ℕ × ℕ × ℕ × Branch) :
    Shows (tdcKey lib) (tdcValues lib) (tdc.map tabWords) (.const (-99999)) k
      ((readTdcCalib lib u (.initializeParams u) (some (header :: tdc))).tdcAt k) := by
  rw [(readTdcCalib_eq lib u _).1]
  exact shows_fill (R := tdcReader lib) (t := (Table.initializeParams u).tdcAt) _
    (fun _ _ => List.all_eq_true.mpr fun _ _ => rfl) fun row hrow => tdc_row (htdc row hrow)

theorem initializeParams_eq_sentinel_iff (k : ℕ × ℕ × ℕ) :
    (Table.initializeParams u).qdcAt k = .const (-99999) ↔ u.p9 k.1 k.2.1 k.2.2 = -99999 :=
  ⟨congrArg QdcParams.p9, congrArg (QdcParams.mk _ _ _ _ _ _ _ _ _)⟩

/-- `P9` of an entry without a row is what the memory held. -/
theorem qdc_shows_iff (header : String) {t : Table ρ}
    (ht : t.qdcAt = (Table.initializeParams u).qdcAt)
    (hqdc : ∀ row ∈ qdc.map tabWords, QdcWellFormed lib row)
    (hall : ∀ row ∈ qdc.map tabWords, (qdcReader lib).accepted row) (k : ℕ × ℕ × ℕ) :
    Shows (qdcKey lib) (qdcValues lib) (qdc.map tabWords) (.const (-99999)) k
        ((readQdcCalib lib u t (some (header :: qdc))).1.qdcAt k) ↔
      (∃ row ∈ qdc.map tabWords, qdcKey lib row = some k) ∨ u.p9 k.1 k.2.1 k.2.2 = -99999 := by
  rw [(readQdcCalib_eq lib u _).1, ht, ← initializeParams_eq_sentinel_iff]
  exact shows_iff_of_shows (shows_fill (R := qdcReader lib) _ hall fun row hrow =>
    qdc_row (hqdc row hrow))

variable (lib) (tdc qdc)

/-- The tables say what the files say exactly if no word of the QDC file is refused, and each entry
has a row or the sentinel in the memory of its `P9`. -/
theorem tables_reflect_iff (header header' : String)
    (htdc : ∀ row ∈ tdc.map tabWords, TdcWellFormed lib row)
    (hqdc : ∀ row ∈ qdc.map tabWords, QdcWellFormed lib row) :
    let read := readCalibrationFiles lib u (.initializeParams u) (some (header :: tdc))
      (some (header' :: qdc))
    read.2 ∧ Reflects lib read.1 (tdc.map tabWords) (qdc.map tabWords) ↔
      (∀ row ∈ qdc.map tabWords, (qdcReader lib).accepted row) ∧
        ∀ chip < 16, ∀ channel < 64, ∀ tac < 4,
          (∃ row ∈ qdc.map tabWords, qdcKey lib row = some (chip, channel, tac)) ∨
            u.p9 chip channel tac = -99999 := by
  intro read
  obtain ⟨-, hkept, hreturn⟩ := readQdcCalib_eq lib u (some (header' :: qdc))
    (t := readTdcCalib lib u (.initializeParams u) (some (header :: tdc)))
  have hreturns : read.2 ↔ ∀ row ∈ qdc.map tabWords, (qdcReader lib).accepted row :=
    (Bool.eq_iff_iff.mp hreturn).trans List.all_eq_true
  rw [hreturns]
  refine and_congr_right fun hall => ?_
  have hentry := qdc_shows_iff u header' (readTdcCalib_eq lib u (some (header :: tdc))).2 hqdc hall
  constructor
  · intro h chip hchip channel hchannel tac htac
    exact (hentry _).mp (h.qdc chip hchip channel hchannel tac htac)
  · refine fun h => ⟨fun chip _ channel _ tac _ b => ?_, ?_⟩
    · -- the QDC file leaves what was read of the TDC file
      have htable := tdc_shows u header htdc (chip, channel, tac, b)
      rwa [← hkept] at htable
    · intro chip hchip channel hchannel tac htac
      exact (hentry _).mpr (h chip hchip channel hchannel tac htac)

end Reflects

/-! ### Inputs of examples -/

/-- Two rows about one entry. -/
def repeatedTdc : List String :=
  ["0\t0\t1\t1\t1\tT\t1\t1\t1\t1", "0\t0\t1\t1\t1\tT\t2\t2\t1\t1"]

def repeatedQdc : List String :=
  ["0\t0\t1\t1\t1\t1\t1\t1\t1\t1\t1\t1\t1\t1\t1",
    "0\t0\t1\t1\t1\t2\t2\t1\t1\t1\t1\t1\t1\t1\t1"]

/-- With the sentinel in the memory. -/
theorem tables_reflect_iff_repeated :
    Reflects digitLibrary (readCalibrationFiles digitLibrary (memory (-99999))
        (.initializeParams (memory (-99999))) (some ("" :: repeatedTdc))
        (some ("" :: repeatedQdc))).1
      (repeatedTdc.map tabWords) (repeatedQdc.map tabWords) :=
  ((tables_reflect_iff digitLibrary (memory (-99999)) repeatedTdc repeatedQdc "" "" (by decide)
    (by decide)).mpr ⟨by decide, fun _ _ _ _ _ _ => .inr rfl⟩).2

/-- No row is about tac 0, and its `P9` is what the memory held. -/
theorem not_tables_reflect :
    (∀ row ∈ repeatedTdc.map tabWords, TdcWellFormed digitLibrary row) ∧
      (∀ row ∈ repeatedQdc.map tabWords, QdcWellFormed digitLibrary row) ∧
    ¬ Reflects digitLibrary (readCalibrationFiles digitLibrary (memory 0)
        (.initializeParams (memory 0)) (some ("" :: repeatedTdc)) (some ("" :: repeatedQdc))).1
      (repeatedTdc.map tabWords) (repeatedQdc.map tabWords) := by
  refine ⟨by decide, by decide, fun h => ?_⟩
  have hnone : ∀ row ∈ repeatedQdc.map tabWords, qdcKey digitLibrary row ≠ some (1, 1, 0) := by
    decide
  have hentry := (shows_rest_iff hnone).mp
    (h.qdc 1 (by decide) 1 (by decide) 0 (by decide))
  have hp9 : (0 : ℚ) = -99999 := congrArg QdcParams.p9 hentry
  norm_num at hp9

end GramsTof.Analysis
