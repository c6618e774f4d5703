import Mathlib.Data.List.Basic
import Mathlib.Data.List.TakeWhile
import Mathlib.Data.Option.Basic
import Mathlib.Logic.Function.Basic

/-! Tables read row by row, by a loop whose local variables outlive a row. Each word of a row sets the
cell of its column or fails; what the locals hold after the row is written to the table. -/

namespace GramsTof.Lib

variable {σ ω γ κ π : Type*}

/-- How the words of a row set the locals `σ`, and what these write. The locals are cells, one for
each column; whether a word is accepted does not depend on them. -/
structure RowReader (σ ω γ κ π : Type*) where
  assign : σ → ℕ → ω → Option σ
  accepts : ℕ → ω → Bool
  isSome_assign : ∀ v n w, (assign v n w).isSome = accepts n w
  width : ℕ
  cells : σ → List γ
  length_cells : ∀ v, (cells v).length = width
  cells_injective : Function.Injective cells
  cell : ℕ → ω → γ
  cells_assign : ∀ {v v' n w}, assign v n w = some v' → cells v' = (cells v).set n (cell n w)
  out : σ → κ × π

namespace RowReader

variable (R : RowReader σ ω γ κ π)

/-- The locals after the words of a row, the first of which is number `n`. -/
def scanFrom (n : ℕ) (v : σ) (row : List ω) : Option σ :=
  (row.zipIdx n).foldlM (fun v w => R.assign v w.2 w.1) v

def scan (v : σ) (row : List ω) : Option σ := R.scanFrom 0 v row

def accepted (row : List ω) : Bool := row.zipIdx.all fun w => R.accepts w.2 w.1

/-- The rows up to the first that fails, each with what it writes. -/
def trace : σ → List (List ω) → List (List ω × (κ × π))
  | _, [] => []
  | v, row :: rows =>
    match R.scan v row with
    | none => []
    | some v => (row, R.out v) :: trace v rows

def writes (v : σ) (rows : List (List ω)) : List (κ × π) := (R.trace v rows).map Prod.snd

/-- The row alone determines the write, whatever the locals hold before it. -/
def Own (row : List ω) (x : κ × π) : Prop := ∀ v, (R.scan v row).map R.out = some x

variable {R} {n m j : ℕ} {v v' : σ} {w : ω} {row : List ω} {rows : List (List ω)} {x : κ × π}

theorem scanFrom_cons :
    R.scanFrom n v (w :: row) = (R.assign v n w).bind fun v => R.scanFrom (n + 1) v row := rfl

theorem isSome_scanFrom :
    (R.scanFrom n v row).isSome = (row.zipIdx n).all fun w => R.accepts w.2 w.1 := by
  induction row generalizing n v with
  | nil => rfl
  | cons w row ih =>
    have hw := R.isSome_assign v n w
    rw [scanFrom_cons, List.zipIdx_cons, List.all_cons, ← hw]
    cases R.assign v n w with
    | none => rfl
    | some v => exact ih

theorem isSome_scan : (R.scan v row).isSome = R.accepted row := isSome_scanFrom

/-! ### The cells after a row -/

/-- Earlier columns and columns past the end of the row stay as they are. -/
theorem getElem?_cells_of_notMem (hscan : R.scanFrom n v row = some v')
    (hm : m < n ∨ n + row.length ≤ m) : (R.cells v')[m]? = (R.cells v)[m]? := by
  induction row generalizing n v with
  | nil =>
    cases hscan
    rfl
  | cons w row ih =>
    rw [scanFrom_cons] at hscan
    obtain ⟨v₁, hassign, hrest⟩ := Option.bind_eq_some_iff.mp hscan
    rw [List.length_cons] at hm
    rw [ih hrest (by omega), R.cells_assign hassign, List.getElem?_set_ne (by omega)]

theorem getElem?_cells (hscan : R.scanFrom n v row = some v') (hw : row[j]? = some w)
    (hwidth : n + j < R.width) : (R.cells v')[n + j]? = some (R.cell (n + j) w) := by
  induction row generalizing n j v with
  | nil => cases hw
  | cons w₁ row ih =>
    rw [scanFrom_cons] at hscan
    obtain ⟨v₁, hassign, hrest⟩ := Option.bind_eq_some_iff.mp hscan
    cases j with
    | zero =>
      cases hw
      rw [Nat.add_zero, getElem?_cells_of_notMem hrest (.inl (Nat.lt_succ_self _)),
        R.cells_assign hassign, List.getElem?_set_self (by rwa [R.length_cells])]
    | succ j =>
      rw [← Nat.succ_add_eq_add_succ] at hwidth ⊢
      exact ih hrest hw hwidth

/-- Each column of a row that has it is the cell of its word. -/
theorem getElem?_cells_scan (hscan : R.scan v row = some v') (hw : row[m]? = some w)
    (hwidth : m < R.width) : (R.cells v')[m]? = some (R.cell m w) := by
  have hcell := getElem?_cells hscan hw ((Nat.zero_add m).symm ▸ hwidth)
  rwa [Nat.zero_add] at hcell

/-- In a row with all columns, each cell is that of a word. -/
theorem exists_cell {c : γ} (hlen : R.width ≤ row.length) (hscan : R.scan v row = some v')
    (hc : (R.cells v')[m]? = some c) : ∃ w, row[m]? = some w ∧ R.cell m w = c := by
  obtain ⟨hm, -⟩ := List.getElem?_eq_some_iff.mp hc
  rw [R.length_cells] at hm
  have hw := List.getElem?_eq_getElem (Nat.lt_of_lt_of_le hm hlen)
  rw [getElem?_cells_scan hscan hw hm] at hc
  exact ⟨_, hw, Option.some.inj hc⟩

/-- A row with all columns determines its write. -/
theorem own_of_width_le (hlen : R.width ≤ row.length) (hscan : R.scan v row = some v') :
    R.Own row (R.out v') := by
  intro v₁
  obtain ⟨v₂, hscan₁⟩ : ∃ v₂, R.scan v₁ row = some v₂ := by
    rw [← Option.isSome_iff_exists, isSome_scan, ← isSome_scan (v := v), hscan]
    rfl
  have hcells : R.cells v₂ = R.cells v' := by
    refine List.ext_getElem? fun m => ?_
    by_cases hm : m < R.width
    · have hw := List.getElem?_eq_getElem (Nat.lt_of_lt_of_le hm hlen)
      rw [getElem?_cells_scan hscan₁ hw hm, getElem?_cells_scan hscan hw hm]
    · rw [List.getElem?_eq_none (by rw [R.length_cells]; omega),
        List.getElem?_eq_none (by rw [R.length_cells]; omega)]
  rw [hscan₁, R.cells_injective hcells]
  rfl

/-- A row without the column `m` does not determine a write that shows the cell of it. -/
theorem not_own {f : κ × π → γ} (hshown : ∀ v, (R.cells v)[m]? = some (f (R.out v)))
    (hfree : ∀ c, ∃ v, f (R.out v) ≠ c) (hlen : row.length ≤ m) : ¬ R.Own row x := by
  intro hown
  obtain ⟨v, hv⟩ := hfree (f x)
  obtain ⟨v', hscan, hout⟩ := Option.map_eq_some_iff.mp (hown v)
  have hkept := getElem?_cells_of_notMem (m := m) hscan (.inr (by omega))
  rw [hshown, hshown, hout, Option.some_inj] at hkept
  exact hv hkept.symm

/-- Where the write shows the last column, a row determines it exactly if it has all columns. -/
theorem own_iff {f : κ × π → γ} (hlast : R.width = m + 1)
    (hshown : ∀ v, (R.cells v)[m]? = some (f (R.out v))) (hfree : ∀ c, ∃ v, f (R.out v) ≠ c)
    (hscan : R.scan v row = some v') : R.Own row (R.out v') ↔ R.width ≤ row.length := by
  refine ⟨fun hown => ?_, fun hlen => own_of_width_le hlen hscan⟩
  by_contra hshort
  exact not_own hshown hfree (by omega) hown

/-! ### The loop -/

theorem trace_cons_none (h : R.scan v row = none) : R.trace v (row :: rows) = [] := by
  rw [trace, h]

theorem trace_cons_some (h : R.scan v row = some v') :
    R.trace v (row :: rows) = (row, R.out v') :: R.trace v' rows := by
  rw [trace, h]

/-- What holds of all rows with their writes is a condition on the rows that are reached, if it is one
for each row. -/
theorem forall_trace_iff (v : σ) (rows : List (List ω)) (Q : List ω → κ × π → Prop)
    {C : List ω → Prop} (h : ∀ v v' row, R.scan v row = some v' → (Q row (R.out v') ↔ C row)) :
    (∀ p ∈ R.trace v rows, Q p.1 p.2) ↔ ∀ row ∈ rows.takeWhile R.accepted, C row := by
  induction rows generalizing v with
  | nil => exact iff_of_true nofun nofun
  | cons row rows ih =>
    have hsome : (R.scan v row).isSome = R.accepted row := isSome_scan
    cases hscan : R.scan v row with
    | none =>
      rw [hscan] at hsome
      rw [trace_cons_none hscan, List.takeWhile_cons_of_neg (by simp [← hsome])]
      exact iff_of_true nofun nofun
    | some v' =>
      rw [hscan] at hsome
      rw [trace_cons_some hscan, List.takeWhile_cons_of_pos hsome.symm, List.forall_mem_cons,
        List.forall_mem_cons, ih]
      exact and_congr_left' (h v v' row hscan)

end RowReader

/-! ### Tables -/

section Tables

variable [DecidableEq κ] {t : κ → π} {k : κ}

/-- A table after writes, one after the other. -/
def fill (t : κ → π) (ws : List (κ × π)) : κ → π :=
  ws.foldl (fun t w => Function.update t w.1 w.2) t

/-- `x` is what the last row with the key `k` says, or `rest` without such a row. -/
def Shows (key : ω → Option κ) (value : ω → Option π) (rows : List ω) (rest : π) (k : κ) (x : π) :
    Prop :=
  match (rows.filter (key · = some k)).getLast? with
  | none => x = rest
  | some row => value row = some x

variable {key : ω → Option κ} {value : ω → Option π} {row : ω} {rows : List ω} {rest x y : π}

theorem shows_cons_of_key (hkey : key row = some k) (hvalue : value row = some y) :
    Shows key value (row :: rows) rest k x ↔ Shows key value rows y k x := by
  rw [Shows, Shows, List.filter_cons_of_pos (by simpa using hkey), List.getLast?_cons]
  cases (rows.filter (key · = some k)).getLast? with
  | none =>
    simp only [Option.getD_none, hvalue, Option.some_inj]
    exact eq_comm
  | some last => rfl

theorem shows_cons_of_ne (hkey : key row ≠ some k) :
    Shows key value (row :: rows) rest k x ↔ Shows key value rows rest k x := by
  rw [Shows, Shows, List.filter_cons_of_neg (by simpa using hkey)]

/-- What is written row by row is what the last row of a key says. -/
theorem shows_fill {R : RowReader σ ω γ κ π} {key : List ω → Option κ} {value : List ω → Option π}
    {rows : List (List ω)} (v : σ) (hall : ∀ row ∈ rows, R.accepted row)
    (hrow : ∀ row ∈ rows, ∀ v v', R.scan v row = some v' →
      key row = some (R.out v').1 ∧ value row = some (R.out v').2) :
    Shows key value rows (t k) k (fill t (R.writes v rows) k) := by
  induction rows generalizing t v with
  | nil => exact rfl
  | cons row rows ih =>
    obtain ⟨hhead, htail⟩ := List.forall_mem_cons.mp hall
    obtain ⟨v', hscan⟩ := Option.isSome_iff_exists.mp (RowReader.isSome_scan (v := v) ▸ hhead)
    obtain ⟨hkey, hvalue⟩ := hrow row List.mem_cons_self v v' hscan
    have hrest := ih (t := Function.update t (R.out v').1 (R.out v').2) v' htail
      fun row hmem => hrow row (List.mem_cons_of_mem _ hmem)
    rw [RowReader.writes, RowReader.trace_cons_some hscan]
    change Shows key value (row :: rows) (t k) k
      (fill (Function.update t (R.out v').1 (R.out v').2) (R.writes v' rows) k)
    by_cases hk : k = (R.out v').1
    · subst hk
      rw [Function.update_self] at hrest
      exact (shows_cons_of_key hkey hvalue).mpr hrest
    · rw [Function.update_of_ne hk] at hrest
      exact (shows_cons_of_ne fun h => hk (Option.some.inj (h.symm.trans hkey))).mpr hrest

/-- Only rows with the key touch its entry. -/
theorem shows_rest_iff (hnone : ∀ row ∈ rows, key row ≠ some k) :
    Shows key value rows rest k x ↔ x = rest := by
  have hfilter : rows.filter (key · = some k) = [] :=
    List.filter_eq_nil_iff.mpr fun row hrow => by simpa using hnone row hrow
  rw [Shows, hfilter]
  exact Iff.rfl

theorem shows_congr_rest (hsome : ∃ row ∈ rows, key row = some k) :
    Shows key value rows rest k x ↔ Shows key value rows y k x := by
  obtain ⟨row, hmem, hkey⟩ := hsome
  have hne : rows.filter (key · = some k) ≠ [] :=
    List.ne_nil_of_mem (List.mem_filter.mpr ⟨hmem, by simpa using hkey⟩)
  rw [Shows, Shows, List.getLast?_eq_getLast_of_ne_nil hne]

/-- With another value for the keys that no row has. -/
theorem shows_iff_of_shows (hshows : Shows key value rows y k x) :
    Shows key value rows rest k x ↔ (∃ row ∈ rows, key row = some k) ∨ y = rest := by
  by_cases hsome : ∃ row ∈ rows, key row = some k
  · exact iff_of_true ((shows_congr_rest hsome).mp hshows) (.inl hsome)
  · have hnone : ∀ row ∈ rows, key row ≠ some k := fun row hrow hkey => hsome ⟨row, hrow, hkey⟩
    rw [shows_rest_iff hnone] at hshows ⊢
    rw [hshows, or_iff_right hsome]

end Tables

end GramsTof.Lib
