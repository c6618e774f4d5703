import GramsTof.Analysis.Calibration
import GramsTof.Lib.Rows
import Mathlib.Tactic.IntervalCases

/-! What the loaders of the calibration tables write, row by row. The locals outlive a row and no
index is checked: a row writes within the arrays, and only what it holds itself, exactly if all its
columns are there and its numbers are in range. -/

namespace GramsTof.Analysis

open Lib

variable {ρ : Type*}

/-! ### The loops over the rows -/

/-- What a column leaves in the locals. -/
inductive Cell (ρ : Type*) where
  | id (n : UInt16)
  | branch (c : Char)
  | number (x : ρ)

/-- The locals by columns. Port and slave are read and not used. -/
def TdcLine.cells (v : TdcLine ρ) : List (Option (Cell ρ)) :=
  [none, none, some (.id v.chipID), some (.id v.channelID), some (.id v.tacID),
    some (.branch v.branch), some (.number v.params.t0), some (.number v.params.a0),
    some (.number v.params.a1), some (.number v.params.a2)]

def QdcLine.cells (v : QdcLine ρ) : List (Option (Cell ρ)) :=
  [none, none, some (.id v.chipID), some (.id v.channelID), some (.id v.tacID),
    some (.number v.params.p0), some (.number v.params.p1), some (.number v.params.p2),
    some (.number v.params.p3), some (.number v.params.p4), some (.number v.params.p5),
    some (.number v.params.p6), some (.number v.params.p7), some (.number v.params.p8),
    some (.number v.params.p9)]

theorem TdcLine.cells_injective : Function.Injective (TdcLine.cells (ρ := ρ)) := by
  rintro ⟨_, _, _, _, _, _, _, _⟩ ⟨_, _, _, _, _, _, _, _⟩ h
  simp only [cells, List.cons.injEq, Option.some.injEq, Cell.id.injEq, Cell.branch.injEq,
    Cell.number.injEq] at h
  obtain ⟨-, -, rfl, rfl, rfl, rfl, rfl, rfl, rfl, rfl, -⟩ := h
  rfl

theorem QdcLine.cells_injective : Function.Injective (QdcLine.cells (ρ := ρ)) := by
  rintro ⟨_, _, _, _, _, _, _, _, _, _, _, _, _⟩ ⟨_, _, _, _, _, _, _, _, _, _, _, _, _⟩ h
  simp only [cells, List.cons.injEq, Option.some.injEq, Cell.id.injEq, Cell.number.injEq] at h
  obtain ⟨-, -, rfl, rfl, rfl, rfl, rfl, rfl, rfl, rfl, rfl, rfl, rfl, rfl, rfl, -⟩ := h
  rfl

section Readers

variable (lib : CLibrary ρ)

/-- The cell of a word of the TDC file. -/
def tdcCell (n : ℕ) (word : String) : Option (Cell ρ) :=
  if n < 2 then none
  else if n < 5 then some (.id (toUShort (lib.atoi word)))
  else if n = 5 then some (.branch (word.toList.headD '\x00'))
  else some (.number (lib.atof word))

/-- The cell of a word of the QDC file, none also where the conversion throws. -/
def qdcCell (n : ℕ) (word : String) : Option (Cell ρ) :=
  if n < 2 then none
  else if n < 5 then (lib.stoi word).map fun i => .id (toUShort i)
  else (lib.stof word).map .number

theorem TdcLine.cells_assign (v : TdcLine ρ) (n : ℕ) (word : String) :
    (v.assign lib n word).cells = v.cells.set n (tdcCell lib n word) := by
  by_cases hn : n < 10
  · interval_cases n <;> rfl
  · have hlen : v.cells.length ≤ n := Nat.not_lt.mp hn
    rw [List.set_eq_of_length_le hlen]
    obtain ⟨n, rfl⟩ := Nat.exists_eq_add_of_le' hlen
    rfl

theorem QdcLine.assign_of_le {n : ℕ} (v : QdcLine ρ) (word : String) (h : 15 ≤ n) :
    v.assign lib n word = some v := by
  obtain ⟨n, rfl⟩ := Nat.exists_eq_add_of_le' h
  rfl

theorem QdcLine.isSome_assign (v : QdcLine ρ) (n : ℕ) (word : String) :
    (v.assign lib n word).isSome =
      if n < 5 then (lib.stoi word).isSome else if n < 15 then (lib.stof word).isSome else true := by
  by_cases hn : n < 15
  · interval_cases n <;> exact Option.isSome_map
  · rw [assign_of_le lib v word (Nat.not_lt.mp hn), if_neg (by omega), if_neg hn]
    rfl

theorem QdcLine.cells_assign {v v' : QdcLine ρ} {n : ℕ} {word : String}
    (h : v.assign lib n word = some v') : v'.cells = v.cells.set n (qdcCell lib n word) := by
  by_cases hn : n < 15
  · interval_cases n <;>
    · obtain ⟨x, hx, rfl⟩ := Option.map_eq_some_iff.mp h
      simp only [qdcCell, hx]
      rfl
  · have hlen : v.cells.length ≤ n := Nat.not_lt.mp hn
    rw [assign_of_le lib v word hlen] at h
    cases h
    exact (List.set_eq_of_length_le hlen).symm

def tdcReader : RowReader (TdcLine ρ) String (Option (Cell ρ)) (ℕ × ℕ × ℕ × Branch)
    (TdcParams ρ) where
  assign v n word := some (v.assign lib n word)
  accepts _ _ := true
  isSome_assign _ _ _ := rfl
  width := 10
  cells := TdcLine.cells
  length_cells _ := rfl
  cells_injective := TdcLine.cells_injective
  cell := tdcCell lib
  cells_assign := by
    rintro v _ n word ⟨⟩
    exact v.cells_assign lib n word
  out v := ((v.chipID.toNat, v.channelID.toNat, v.tacID.toNat,
    if v.branch = 'T' then .branchT else .branchE), v.params)

def qdcReader : RowReader (QdcLine ρ) String (Option (Cell ρ)) (ℕ × ℕ × ℕ) (QdcParams ρ) where
  assign v n word := v.assign lib n word
  accepts n word :=
    if n < 5 then (lib.stoi word).isSome else if n < 15 then (lib.stof word).isSome else true
  isSome_assign := QdcLine.isSome_assign lib
  width := 15
  cells := QdcLine.cells
  length_cells _ := rfl
  cells_injective := QdcLine.cells_injective
  cell := qdcCell lib
  cells_assign := QdcLine.cells_assign lib
  out v := ((v.chipID.toNat, v.channelID.toNat, v.tacID.toNat), v.params)

/-- No word of the TDC file is refused. -/
theorem takeWhile_tdc_accepted (rows : List (List String)) :
    rows.takeWhile (tdcReader lib).accepted = rows :=
  List.takeWhile_eq_self_iff.mpr fun _ _ => List.all_eq_true.mpr fun _ _ => rfl

end Readers

/-! ### What the rows write -/

section Tables

variable (t : Table ρ)

def Table.tdcAt (k : ℕ × ℕ × ℕ × Branch) : TdcParams ρ := t.tdc k.1 k.2.1 k.2.2.1 k.2.2.2

def Table.qdcAt (k : ℕ × ℕ × ℕ) : QdcParams ρ := t.qdc k.1 k.2.1 k.2.2

variable {t} (lib : CLibrary ρ) (u : Uninitialised ρ) (file : Option (List String))

theorem tdcAt_storeTdc (chip channel tac : ℕ) (b : Branch) (x : TdcParams ρ) :
    (t.storeTdc chip channel tac b x).tdcAt =
      Function.update t.tdcAt (chip, channel, tac, b) x := by
  funext ⟨c, h, a, b'⟩
  simp only [Table.tdcAt, Table.storeTdc, Function.update_apply, Prod.mk.injEq]

theorem qdcAt_storeQdc (chip channel tac : ℕ) (x : QdcParams ρ) :
    (t.storeQdc chip channel tac x).qdcAt = Function.update t.qdcAt (chip, channel, tac) x := by
  funext ⟨c, h, a⟩
  simp only [Table.qdcAt, Table.storeQdc, Function.update_apply, Prod.mk.injEq]

theorem tdcLines_eq (v : TdcLine ρ) (lines : List String) :
    (tdcLines lib t v lines).tdcAt =
        fill t.tdcAt ((tdcReader lib).writes v (lines.map tabWords)) ∧
      (tdcLines lib t v lines).qdcAt = t.qdcAt := by
  induction lines generalizing t v with
  | nil => exact ⟨rfl, rfl⟩
  | cons line lines ih =>
    have hscan : (tdcReader lib).scan v (tabWords line) =
        some ((tabWords line).zipIdx.foldl (fun v w => v.assign lib w.2 w.1) v) :=
      List.foldlM_pure
    rw [tdcLines, List.map_cons, RowReader.writes, RowReader.trace_cons_some hscan]
    obtain ⟨htdc, hqdc⟩ := ih (t := t.storeTdc _ _ _ _ _) _
    rw [htdc, tdcAt_storeTdc]
    exact ⟨rfl, hqdc⟩

theorem qdcLines_eq (v : QdcLine ρ) (lines : List String) :
    (qdcLines lib t v lines).1.qdcAt =
        fill t.qdcAt ((qdcReader lib).writes v (lines.map tabWords)) ∧
      (qdcLines lib t v lines).1.tdcAt = t.tdcAt ∧
      (qdcLines lib t v lines).2 = (lines.map tabWords).all (qdcReader lib).accepted := by
  induction lines generalizing t v with
  | nil => exact ⟨rfl, rfl, rfl⟩
  | cons line lines ih =>
    have haccepted : ((qdcReader lib).scan v (tabWords line)).isSome =
        (qdcReader lib).accepted (tabWords line) := RowReader.isSome_scan
    have hfold : (qdcReader lib).scan v (tabWords line) =
        (tabWords line).zipIdx.foldlM (fun v w => v.assign lib w.2 w.1) v := rfl
    rw [qdcLines, ← hfold, List.map_cons, List.all_cons, ← haccepted, RowReader.writes]
    cases hscan : (qdcReader lib).scan v (tabWords line) with
    | none =>
      rw [RowReader.trace_cons_none hscan]
      exact ⟨rfl, rfl, rfl⟩
    | some v' =>
      rw [RowReader.trace_cons_some hscan]
      obtain ⟨hqdc, htdc, hall⟩ := ih v' (t := t.storeQdc v'.chipID.toNat v'.channelID.toNat
        v'.tacID.toNat v'.params)
      rw [qdcAt_storeQdc] at hqdc
      exact ⟨hqdc, htdc, hall⟩

/-- The locals before the first row. -/
def TdcLine.uninitialised : TdcLine ρ :=
  ⟨u.id, u.id, u.id, u.branch, ⟨u.number, u.number, u.number, u.number⟩⟩

def QdcLine.uninitialised : QdcLine ρ :=
  ⟨u.id, u.id, u.id, ⟨u.number, u.number, u.number, u.number, u.number, u.number, u.number,
    u.number, u.number, u.number⟩⟩

/-- The words of the lines after the header. -/
def tableRows : List (List String) := ((file.getD []).drop 1).map tabWords

/-- What `readTdcCalib` writes. -/
theorem readTdcCalib_eq :
    (readTdcCalib lib u t file).tdcAt =
        fill t.tdcAt ((tdcReader lib).writes (.uninitialised u) (tableRows file)) ∧
      (readTdcCalib lib u t file).qdcAt = t.qdcAt :=
  tdcLines_eq lib (.uninitialised u) _

/-- What `readQdcCalib` writes, and when it returns. -/
theorem readQdcCalib_eq :
    (readQdcCalib lib u t file).1.qdcAt =
        fill t.qdcAt ((qdcReader lib).writes (.uninitialised u) (tableRows file)) ∧
      (readQdcCalib lib u t file).1.tdcAt = t.tdcAt ∧
      (readQdcCalib lib u t file).2 = (tableRows file).all (qdcReader lib).accepted :=
  qdcLines_eq lib (.uninitialised u) _

end Tables

/-! ### Sound rows -/

section Sound

variable (lib : CLibrary ρ)

/-- The number in a column, if the row has it. -/
def column {α : Type*} (row : List String) (n : ℕ) (number : String → Option α) : Option α :=
  row[n]?.bind number

/-- The number in a column is below a bound as `unsigned short`. -/
def inRange (number : String → Option ℤ) (row : List String) (n bound : ℕ) : Bool :=
  (column row n number).any fun i => (toUShort i).toNat < bound

/-- The row has the columns that are used, and its numbers of chip, channel and tac are in range. -/
def TdcSound (row : List String) : Prop :=
  10 ≤ row.length ∧ inRange (some ∘ lib.atoi) row 2 16 ∧ inRange (some ∘ lib.atoi) row 3 64 ∧
    inRange (some ∘ lib.atoi) row 4 4

def QdcSound (row : List String) : Prop :=
  15 ≤ row.length ∧ inRange lib.stoi row 2 16 ∧ inRange lib.stoi row 3 64 ∧ inRange lib.stoi row 4 4

instance (row : List String) : Decidable (TdcSound lib row) :=
  inferInstanceAs (Decidable (_ ∧ _ ∧ _ ∧ _))

instance (row : List String) : Decidable (QdcSound lib row) :=
  inferInstanceAs (Decidable (_ ∧ _ ∧ _ ∧ _))

/-- The indices are those of an entry of the arrays. -/
def InArrays (chip channel tac : ℕ) : Prop := chip < 16 ∧ channel < 64 ∧ tac < 4

variable {lib} {row : List String}

theorem inRange_iff {number : String → Option ℤ} {n bound : ℕ} {x : UInt16}
    (h : (column row n number).map toUShort = some x) :
    inRange number row n bound ↔ x.toNat < bound := by
  obtain ⟨i, hi, rfl⟩ := Option.map_eq_some_iff.mp h
  rw [inRange, hi]
  exact decide_eq_true_iff

/-- An index that a complete row of the TDC file sets. -/
theorem tdc_id {v v' : TdcLine ρ} {n : ℕ} {x : UInt16} (hlen : 10 ≤ row.length)
    (hscan : (tdcReader lib).scan v row = some v') (hn : 2 ≤ n ∧ n < 5)
    (hx : v'.cells[n]? = some (some (.id x))) :
    (column row n (some ∘ lib.atoi)).map toUShort = some x := by
  obtain ⟨word, hword, hcell⟩ := RowReader.exists_cell hlen hscan hx
  change tdcCell lib n word = _ at hcell
  rw [tdcCell, if_neg (by omega), if_pos hn.2, Option.some_inj, Cell.id.injEq] at hcell
  rw [column, hword, ← hcell]
  rfl

/-- An index that a complete row of the QDC file sets. -/
theorem qdc_id {v v' : QdcLine ρ} {n : ℕ} {x : UInt16} (hlen : 15 ≤ row.length)
    (hscan : (qdcReader lib).scan v row = some v') (hn : 2 ≤ n ∧ n < 5)
    (hx : v'.cells[n]? = some (some (.id x))) :
    (column row n lib.stoi).map toUShort = some x := by
  obtain ⟨word, hword, hcell⟩ := RowReader.exists_cell hlen hscan hx
  change qdcCell lib n word = _ at hcell
  rw [qdcCell, if_neg (by omega), if_pos hn.2] at hcell
  obtain ⟨i, hi, hcell⟩ := Option.map_eq_some_iff.mp hcell
  rw [Cell.id.injEq] at hcell
  rw [column, hword, Option.bind_some, hi, ← hcell]
  rfl

/-! ### Confined rows -/

variable [Field ρ]

theorem exists_number_ne (c : Option (Cell ρ)) : ∃ x : ρ, some (.number x) ≠ c := by
  by_cases hc : some (.number 0) = c
  · refine ⟨1, fun h => one_ne_zero (α := ρ) ?_⟩
    exact Cell.number.inj (Option.some.inj (h.trans hc.symm))
  · exact ⟨0, hc⟩

variable (lib)

/-- One row of the TDC file: its write is within the arrays and its own exactly if it is sound. -/
theorem tdc_confined_iff (v v' : TdcLine ρ) (row : List String)
    (hscan : (tdcReader lib).scan v row = some v') :
    InArrays v'.chipID.toNat v'.channelID.toNat v'.tacID.toNat ∧
        (tdcReader lib).Own row ((tdcReader lib).out v') ↔ TdcSound lib row := by
  have hown : (tdcReader lib).Own row ((tdcReader lib).out v') ↔ 10 ≤ row.length := by
    refine RowReader.own_iff (m := 9) (f := fun x => some (.number x.2.a2)) rfl (fun _ => rfl)
      (fun c => ?_) hscan
    obtain ⟨x, hx⟩ := exists_number_ne c
    exact ⟨{ v with params.a2 := x }, hx⟩
  rw [hown, and_comm]
  refine and_congr_right fun hlen => ?_
  rw [inRange_iff (tdc_id hlen hscan (by decide) rfl),
    inRange_iff (tdc_id hlen hscan (by decide) rfl),
    inRange_iff (tdc_id hlen hscan (by decide) rfl)]
  exact Iff.rfl

/-- One row of the QDC file. -/
theorem qdc_confined_iff (v v' : QdcLine ρ) (row : List String)
    (hscan : (qdcReader lib).scan v row = some v') :
    InArrays v'.chipID.toNat v'.channelID.toNat v'.tacID.toNat ∧
        (qdcReader lib).Own row ((qdcReader lib).out v') ↔ QdcSound lib row := by
  have hown : (qdcReader lib).Own row ((qdcReader lib).out v') ↔ 15 ≤ row.length := by
    refine RowReader.own_iff (m := 14) (f := fun x => some (.number x.2.p9)) rfl (fun _ => rfl)
      (fun c => ?_) hscan
    obtain ⟨x, hx⟩ := exists_number_ne c
    exact ⟨{ v with params.p9 := x }, hx⟩
  rw [hown, and_comm]
  refine and_congr_right fun hlen => ?_
  rw [inRange_iff (qdc_id hlen hscan (by decide) rfl),
    inRange_iff (qdc_id hlen hscan (by decide) rfl),
    inRange_iff (qdc_id hlen hscan (by decide) rfl)]
  exact Iff.rfl

end Sound

section Confined

variable [Field ρ] (lib : CLibrary ρ) (u : Uninitialised ρ) (t : Table ρ)

/-- The rows of the TDC file, each with what it writes. -/
def tdcTrace (file : Option (List String)) :
    List (List String × ((ℕ × ℕ × ℕ × Branch) × TdcParams ρ)) :=
  (tdcReader lib).trace (.uninitialised u) (tableRows file)

def qdcTrace (file : Option (List String)) : List (List String × ((ℕ × ℕ × ℕ) × QdcParams ρ)) :=
  (qdcReader lib).trace (.uninitialised u) (tableRows file)

theorem tdcTrace_confined_iff (file : Option (List String)) :
    (∀ row chip channel tac b x, (row, (chip, channel, tac, b), x) ∈ tdcTrace lib u file →
        InArrays chip channel tac ∧ (tdcReader lib).Own row ((chip, channel, tac, b), x)) ↔
      ∀ row ∈ tableRows file, TdcSound lib row := by
  have htrace := RowReader.forall_trace_iff (.uninitialised u) (tableRows file)
    (fun row x => InArrays x.1.1 x.1.2.1 x.1.2.2.1 ∧ (tdcReader lib).Own row x)
    (tdc_confined_iff lib)
  rw [takeWhile_tdc_accepted] at htrace
  rw [← htrace]
  exact ⟨fun h _ hmem => h _ _ _ _ _ _ hmem, fun h _ _ _ _ _ _ hmem => h _ hmem⟩

theorem qdcTrace_confined_iff (file : Option (List String)) :
    (∀ row chip channel tac x, (row, (chip, channel, tac), x) ∈ qdcTrace lib u file →
        InArrays chip channel tac ∧ (qdcReader lib).Own row ((chip, channel, tac), x)) ↔
      ∀ row ∈ (tableRows file).takeWhile (qdcReader lib).accepted, QdcSound lib row := by
  rw [← RowReader.forall_trace_iff (.uninitialised u) (tableRows file)
    (fun row x => InArrays x.1.1 x.1.2.1 x.1.2.2 ∧ (qdcReader lib).Own row x)
    (qdc_confined_iff lib)]
  exact ⟨fun h _ hmem => h _ _ _ _ _ hmem, fun h _ _ _ _ _ hmem => h _ hmem⟩

/-- The loaders write what the rows say, and all of it is within the arrays and each row's own
exactly if the rows are sound, those of the QDC file up to the first that throws. -/
theorem loaders_confined_iff (tdc qdc : Option (List String)) :
    ((readTdcCalib lib u t tdc).tdcAt = fill t.tdcAt ((tdcTrace lib u tdc).map Prod.snd) ∧
      (readQdcCalib lib u t qdc).1.qdcAt = fill t.qdcAt ((qdcTrace lib u qdc).map Prod.snd)) ∧
    ((∀ row chip channel tac b x, (row, (chip, channel, tac, b), x) ∈ tdcTrace lib u tdc →
        InArrays chip channel tac ∧ (tdcReader lib).Own row ((chip, channel, tac, b), x)) ↔
      ∀ row ∈ tableRows tdc, TdcSound lib row) ∧
    ((∀ row chip channel tac x, (row, (chip, channel, tac), x) ∈ qdcTrace lib u qdc →
        InArrays chip channel tac ∧ (qdcReader lib).Own row ((chip, channel, tac), x)) ↔
      ∀ row ∈ (tableRows qdc).takeWhile (qdcReader lib).accepted, QdcSound lib row) :=
  ⟨⟨(readTdcCalib_eq lib u tdc).1, (readQdcCalib_eq lib u qdc).1⟩,
    tdcTrace_confined_iff lib u tdc, qdcTrace_confined_iff lib u qdc⟩

end Confined

/-- Memory that holds a number in each `P9`. -/
def memory (x : ℚ) : Uninitialised ℚ := ⟨fun _ _ _ => x, 0, 0, 'x', default⟩

/-- The second row ends after the chip: it is written with the channel, the tac and the numbers of
the first. -/
def shortRow : Option (List String) :=
  some ["# portID", "0\t0\t1\t1\t1\tT\t1\t1\t1\t1", "0\t0\t2"]

theorem not_loaders_confined : ¬ ∀ row chip channel tac b x,
    (row, (chip, channel, tac, b), x) ∈ tdcTrace digitLibrary (memory 0) shortRow →
      InArrays chip channel tac ∧
        (tdcReader digitLibrary).Own row ((chip, channel, tac, b), x) := by
  rw [tdcTrace_confined_iff]
  decide

end GramsTof.Analysis
