import GramsTof.Config.Directories
import GramsTof.Lib.Calendar
import GramsTof.Lib.Digits
import Mathlib.Data.Char
import Mathlib.Data.List.Lex
import Mathlib.Data.List.Nodup

/-! The time stamps in file names: how they are printed, and how the latest is found. -/

namespace GramsTof.Config

open Lib Lib.Calendar

/-- An integer as `operator<<` prints it. -/
def decimal : ℤ → List Char
  | .ofNat n => Nat.toDigits 10 n
  | .negSucc n => '-' :: Nat.toDigits 10 (n + 1)

/-- `std::put_time` with "%Y-%m-%d_%H-%M-%S". -/
def putTime (t : Time) : List Char :=
  decimal t.year ++ '-' :: (padded 2 t.month ++ '-' :: (padded 2 t.day ++ '_' ::
    (padded 2 t.hour ++ '-' :: (padded 2 t.minute ++ '-' :: padded 2 t.second))))

/-- The time stamp of an instant, in milliseconds from 1970. `time_point_cast` and `duration_cast`
round towards zero. -/
def getCurrentTimestamp (now : ℤ) : List Char :=
  putTime (gmtime (now.tdiv 1000)) ++ '.' :: (decimal (now.tmod 1000) ++ ['Z'])

/-! ### The pattern of `getLatestTimestamp` -/

/-- What a regular expression takes as an operator. -/
def operators : List Char := ['\\', '^', '$', '|', '?', '*', '+', '(', ')', '[', ']', '\x7b', '\x7d']

/-- A prefix or a suffix as the callers have them: in the pattern each character stands for itself,
and the dot for any. -/
structure Plain where
  text : List Char
  plain : ∀ c ∈ text, c ∉ operators

/-- What a dot does not match. -/
def lineBreak (c : Char) : Bool := c = '\n' ∨ c = '\r'

/-- Match a plain text at the head, and leave the rest. -/
def takePlain : List Char → List Char → Option (List Char)
  | [], cs => some cs
  | _ :: _, [] => none
  | p :: ps, c :: cs => if p = c ∨ p = '.' ∧ ¬ lineBreak c then takePlain ps cs else none

/-- Match digits, where `none` stands, and other characters; give what was matched and the rest. -/
def takeShape : List (Option Char) → List Char → Option (List Char × List Char)
  | [], cs => some ([], cs)
  | _ :: _, [] => none
  | p :: ps, c :: cs =>
    if p.elim c.isDigit (c = ·) then (takeShape ps cs).map fun m => (c :: m.1, m.2) else none

/-- `\d{4}-\d{2}-\d{2}_\d{2}-\d{2}-\d{2}\.` -/
def shape : List (Option Char) :=
  List.replicate 4 none ++ some '-' :: (List.replicate 2 none ++ some '-' ::
    (List.replicate 2 none ++ some '_' :: (List.replicate 2 none ++ some '-' ::
      (List.replicate 2 none ++ some '-' :: (List.replicate 2 none ++ [some '.'])))))

/-- The captured group: the shape, `\d+` and `Z`. -/
def takeTimestamp (cs : List Char) : Option (List Char × List Char) :=
  (takeShape shape cs).bind fun m =>
    let digits := m.2.takeWhile Char.isDigit
    match m.2.dropWhile Char.isDigit with
    | 'Z' :: rest => if digits = [] then none else some (m.1 ++ (digits ++ ['Z']), rest)
    | _ => none

/-- The end of the pattern: `$` if it is strict, else `.*`. -/
def TailMatches : Bool → List Char → Prop
  | true, rest => rest = []
  | false, rest => rest.all (! lineBreak ·)

instance : ∀ strict rest, Decidable (TailMatches strict rest)
  | true, rest => inferInstanceAs (Decidable (rest = []))
  | false, rest => inferInstanceAs (Decidable (rest.all (! lineBreak ·) = true))

/-- The first group of `regex_match`, if the name matches. -/
def matchName (pre suf : Plain) (strict : Bool) (name : List Char) : Option (List Char) :=
  (takePlain pre.text name).bind fun cs => (takePlain ['_'] cs).bind fun cs =>
    (takeTimestamp cs).bind fun m => (takePlain suf.text m.2).bind fun rest =>
      if TailMatches strict rest then some m.1 else none

structure DirectoryEntry where
  filename : List Char
  regular : Bool
  deriving DecidableEq, Repr

/-- The body of the loop. -/
def laterTimestamp (latest ts : List Char) : List Char :=
  if latest = [] ∨ latest < ts then ts else latest

/-- The entries are given in any order. With none the directory does not exist; it throws then, and
if nothing matches. -/
def getLatestTimestamp (pre suf : Plain) (strict : Bool) (entries : Option (List DirectoryEntry)) :
    Option (List Char) :=
  entries.bind fun entries =>
    let found := (entries.filter (·.regular)).filterMap fun e => matchName pre suf strict e.filename
    let latest := found.foldl laterTimestamp []
    if latest = [] then none else some latest

/-! ### Printing -/

/-- The year has four digits. -/
def FourDigit (now : ℤ) : Prop :=
  1000 ≤ (gmtime (now / 1000)).year ∧ (gmtime (now / 1000)).year ≤ 9999

instance (now : ℤ) : Decidable (FourDigit now) := inferInstanceAs (Decidable (_ ∧ _))

/-- Rounding towards zero is rounding down. -/
def Printable (now : ℤ) : Prop := 0 ≤ now ∨ 1000 ∣ now

instance (now : ℤ) : Decidable (Printable now) := inferInstanceAs (Decidable (_ ∨ _))

/-- The milliseconds. -/
def millis (now : ℤ) : ℕ := (now % 1000).toNat

theorem millis_lt (now : ℤ) : millis now < 1000 := by
  unfold millis
  omega

theorem decimal_year {y : ℤ} (h : 1000 ≤ y ∧ y ≤ 9999) : decimal y = padded 4 y.toNat := by
  obtain ⟨n, rfl⟩ := Int.eq_ofNat_of_zero_le (show 0 ≤ y by omega)
  have hlen : (Nat.toDigits 10 n).length = 4 := length_toDigits (by omega) (by omega)
  exact hlen ▸ toDigits_eq_padded n

theorem tdiv_cases (now : ℤ) :
    Printable now ∧ now.tdiv 1000 = now / 1000 ∧ now.tmod 1000 = now % 1000 ∨
      ¬ Printable now ∧ now.tdiv 1000 = now / 1000 + 1 ∧ now.tmod 1000 = now % 1000 - 1000 := by
  rw [Int.tdiv_eq_ediv, Int.tmod_eq_emod]
  unfold Printable
  split_ifs with h
  · exact .inl ⟨h, Int.add_zero _, Int.sub_zero _⟩
  · exact .inr ⟨h, rfl, rfl⟩

/-- The year that is printed has four digits too. -/
theorem FourDigit.printed {now : ℤ} (h : FourDigit now) :
    1000 ≤ (gmtime (now.tdiv 1000)).year ∧ (gmtime (now.tdiv 1000)).year ≤ 9999 := by
  obtain ⟨-, hdiv, -⟩ | ⟨hnot, hdiv, -⟩ := tdiv_cases now
  · rwa [hdiv]
  · have hneg : now < 0 := by
      by_contra hge
      exact hnot (.inl (by omega))
    have hlow : yearOf (now / 1000 / 86400) ≤ yearOf ((now / 1000 + 1) / 86400) :=
      yearOf_mono (by omega)
    have hhigh : yearOf ((now / 1000 + 1) / 86400) ≤ yearOf 0 := yearOf_mono (by omega)
    have hzero : yearOf 0 = 1970 := by decide
    obtain ⟨hyear, -⟩ := h
    rw [gmtime_year] at hyear ⊢
    rw [hdiv]
    omega

theorem getCurrentTimestamp_printable {now : ℤ} (h : Printable now) :
    getCurrentTimestamp now =
      putTime (gmtime (now / 1000)) ++ '.' :: (Nat.toDigits 10 (millis now) ++ ['Z']) := by
  obtain ⟨-, hdiv, hmod⟩ | ⟨hnot, -, -⟩ := tdiv_cases now
  · have hmillis : now % 1000 = Int.ofNat (millis now) :=
      (Int.toNat_of_nonneg (Int.emod_nonneg now (by decide))).symm
    rw [getCurrentTimestamp, hdiv, hmod, hmillis, decimal]
  · exact absurd h hnot

/-- The milliseconds of other instants are printed with a sign. -/
theorem getCurrentTimestamp_negative {now : ℤ} (h : ¬ Printable now) :
    getCurrentTimestamp now = putTime (gmtime (now / 1000 + 1)) ++ '.' :: '-' ::
      (Nat.toDigits 10 (1000 - millis now) ++ ['Z']) := by
  obtain ⟨hp, -, -⟩ | ⟨-, hdiv, hmod⟩ := tdiv_cases now
  · exact absurd hp h
  · have hmillis : now % 1000 - 1000 = Int.negSucc (999 - millis now) := by
      unfold millis
      omega
    have hsucc : 999 - millis now + 1 = 1000 - millis now := by
      have := millis_lt now
      omega
    rw [getCurrentTimestamp, hdiv, hmod, hmillis, decimal, hsucc, List.cons_append]

/-! ### Comparing -/

theorem putTime_padded {t : Time} (h : 1000 ≤ t.year ∧ t.year ≤ 9999) :
    putTime t = padded 4 t.year.toNat ++ '-' :: (padded 2 t.month ++ '-' :: (padded 2 t.day ++ '_' ::
      (padded 2 t.hour ++ '-' :: (padded 2 t.minute ++ '-' :: padded 2 t.second)))) := by
  rw [putTime, decimal_year h]

/-- A later second has a later text, whatever follows. -/
theorem putTime_lt {s s' : ℤ} {x y : List Char} (h : s < s')
    (hs : 1000 ≤ (gmtime s).year ∧ (gmtime s).year ≤ 9999)
    (hs' : 1000 ≤ (gmtime s').year ∧ (gmtime s').year ≤ 9999) :
    putTime (gmtime s) ++ x < putTime (gmtime s') ++ y := by
  have hb := gmtime_before h
  obtain ⟨hm, hd, hh, hn, hc⟩ := gmtime_bounds s
  obtain ⟨hm', hd', hh', hn', hc'⟩ := gmtime_bounds s'
  generalize gmtime s = t at *
  generalize gmtime s' = u at *
  have htwo {a b c : ℕ} {v w : List Char} (ha : a ≤ c) (hb : b ≤ c) (hc : c < 100) :
      padded 2 a ++ v < padded 2 b ++ w ↔ a < b ∨ a = b ∧ v < w :=
    padded_append_lt_iff (Nat.lt_of_le_of_lt ha hc) (Nat.lt_of_le_of_lt hb hc)
  have hlt : t.year.toNat < u.year.toNat ↔ t.year < u.year := by omega
  have heq : t.year.toNat = u.year.toNat ↔ t.year = u.year := by omega
  rw [putTime_padded hs, putTime_padded hs']
  simp only [List.append_assoc, List.cons_append]
  rw [padded_append_lt_iff (by omega) (by omega), hlt, heq, List.cons_lt_cons_self,
    htwo hm hm' (by decide), List.cons_lt_cons_self, htwo hd hd' (by decide),
    List.cons_lt_cons_self, htwo (Nat.le_of_lt hh) (Nat.le_of_lt hh') (by decide),
    List.cons_lt_cons_self, htwo (Nat.le_of_lt hn) (Nat.le_of_lt hn') (by decide),
    List.cons_lt_cons_self, htwo (Nat.le_of_lt hc) (Nat.le_of_lt hc') (by decide)]
  -- past the year, the month, the day, the hour and the minute if they are equal
  refine hb.imp_right (And.imp_right fun hb => ?_)
  refine hb.imp_right (And.imp_right fun hb => ?_)
  refine hb.imp_right (And.imp_right fun hb => ?_)
  refine hb.imp_right (And.imp_right fun hb => ?_)
  exact hb.imp_right (And.imp_right Or.inl)

/-- `m` is below what as many leading digits of `n` make. -/
def BelowLeading (m n : ℕ) : Prop :=
  m < n / 10 ^ ((Nat.toDigits 10 n).length - (Nat.toDigits 10 m).length)

instance (m n : ℕ) : Decidable (BelowLeading m n) := inferInstanceAs (Decidable (_ < _))

/-- Within a second an earlier instant has an earlier text only if its milliseconds are below the
leading digits of the later one's: `Z` stands above the digits. -/
theorem getCurrentTimestamp_lt_iff {t u : ℤ} (ht : Printable t) (hu : Printable u)
    (hs : t / 1000 = u / 1000) (h : t < u) :
    getCurrentTimestamp t < getCurrentTimestamp u ↔ BelowLeading (millis t) (millis u) := by
  have hmillis : millis t < millis u := by
    unfold millis
    omega
  have hz : ∀ c : Char, c.isDigit → c < 'Z' := by
    intro c hc
    simp only [Char.isDigit, ge_iff_le, Bool.and_eq_true, decide_eq_true_eq] at hc
    exact UInt32.lt_of_le_of_lt hc.2 (by decide)
  rw [getCurrentTimestamp_printable ht, getCurrentTimestamp_printable hu, hs,
    append_lt_append_iff rfl, List.cons_lt_cons_self, toDigits_append_lt_iff hmillis hz]
  exact ⟨fun h => (h.resolve_left (List.lt_irrefl _)).2, fun h => .inr ⟨rfl, h⟩⟩

theorem getCurrentTimestamp_lt {t u : ℤ} (ht : Printable t) (hu : Printable u) (hyt : FourDigit t)
    (hyu : FourDigit u) (h : t / 1000 < u / 1000) :
    getCurrentTimestamp t < getCurrentTimestamp u := by
  rw [getCurrentTimestamp_printable ht, getCurrentTimestamp_printable hu]
  exact putTime_lt h hyt hyu

theorem length_putTime {s : ℤ} (h : 1000 ≤ (gmtime s).year ∧ (gmtime s).year ≤ 9999) :
    (putTime (gmtime s)).length = 19 := by
  simp [putTime_padded h]

/-- Different instants are printed differently, if the earlier one has no sign. -/
theorem getCurrentTimestamp_ne {t u : ℤ} (ht : Printable t) (hyt : FourDigit t)
    (hyu : FourDigit u) (h : t < u) : getCurrentTimestamp t ≠ getCurrentTimestamp u := by
  by_cases hu : Printable u
  · rcases Int.lt_or_eq_of_le (show t / 1000 ≤ u / 1000 by omega) with hs | hs
    · intro heq
      exact List.lt_irrefl _ (heq ▸ getCurrentTimestamp_lt ht hu hyt hyu hs)
    · rw [getCurrentTimestamp_printable ht, getCurrentTimestamp_printable hu, hs]
      intro heq
      have hdigits : Nat.toDigits 10 (millis t) = Nat.toDigits 10 (millis u) := by simpa using heq
      have hvalue := congrArg (Nat.ofDigitChars 10 · 0) hdigits
      simp only [Nat.ofDigitChars_ten_toDigits] at hvalue
      unfold millis at hvalue
      omega
  · intro heq
    obtain ⟨hp, -, -⟩ | ⟨-, hdiv, -⟩ := tdiv_cases u
    · exact hu hp
    rw [getCurrentTimestamp_printable ht, getCurrentTimestamp_negative hu] at heq
    have hlen := length_putTime hyu.printed
    rw [hdiv] at hlen
    obtain ⟨-, htail⟩ := List.append_inj heq ((length_putTime hyt).trans hlen.symm)
    obtain ⟨c, cs, hcs⟩ :=
      List.exists_cons_of_ne_nil (Nat.toDigits_ne_nil (n := millis t) (b := 10))
    have hdigit := isDigit_toDigits (n := millis t) (c := c) (hcs ▸ List.mem_cons_self)
    rw [hcs, List.cons_append] at htail
    obtain rfl : c = '-' := by simpa using (List.cons.inj (List.cons.inj htail).2).1
    exact absurd hdigit (by decide)

/-! ### Matching -/

theorem takePlain_append (ps cs : List Char) : takePlain ps (ps ++ cs) = some cs := by
  induction ps with
  | nil => cases cs <;> rfl
  | cons p ps ih => simp [takePlain, ih]

theorem takeShape_digits {u cs : List Char} {w : ℕ} {ps : List (Option Char)} (hu : u.length = w)
    (h : ∀ c ∈ u, c.isDigit) :
    takeShape (List.replicate w none ++ ps) (u ++ cs) =
      (takeShape ps cs).map fun m => (u ++ m.1, m.2) := by
  induction u generalizing w with
  | nil =>
    cases hu
    simp only [List.length_nil, List.replicate_zero, List.nil_append]
    cases takeShape ps cs <;> rfl
  | cons c u ih =>
    cases hu
    have hc := h c List.mem_cons_self
    simp only [List.length_cons, List.replicate_succ, List.cons_append, takeShape, Option.elim_none,
      hc, if_true, ih rfl fun c hc => h c (List.mem_cons_of_mem _ hc), Option.map_map]
    rfl

theorem takeShape_padded (w n : ℕ) (cs : List Char) (ps : List (Option Char)) :
    takeShape (List.replicate w none ++ ps) (padded w n ++ cs) =
      (takeShape ps cs).map fun m => (padded w n ++ m.1, m.2) :=
  takeShape_digits (length_padded w n) fun _ => isDigit_padded

theorem takeShape_char (c : Char) (cs : List Char) (ps : List (Option Char)) :
    takeShape (some c :: ps) (c :: cs) = (takeShape ps cs).map fun m => (c :: m.1, m.2) := by
  simp [takeShape]

theorem takeShape_putTime {s : ℤ} (h : 1000 ≤ (gmtime s).year ∧ (gmtime s).year ≤ 9999)
    (cs : List Char) :
    takeShape shape (putTime (gmtime s) ++ '.' :: cs) =
      some (putTime (gmtime s) ++ ['.'], cs) := by
  rw [putTime_padded h, shape]
  simp only [List.append_assoc, List.cons_append, takeShape_padded, takeShape_char]
  simp [takeShape]

theorem takeTimestamp_printable {now : ℤ} (hp : Printable now) (hy : FourDigit now)
    (cs : List Char) :
    takeTimestamp (getCurrentTimestamp now ++ cs) = some (getCurrentTimestamp now, cs) := by
  have hdigits : ∀ c ∈ Nat.toDigits 10 (millis now), c.isDigit := fun _ => isDigit_toDigits
  have hend (rest : List Char) : ∀ c ∈ ('Z' :: rest).head?, c.isDigit = false := fun c hc => by
    cases hc
    decide
  have htake (rest : List Char) := takeWhile_digits hdigits (hend rest)
  have hdrop (rest : List Char) :
      (Nat.toDigits 10 (millis now) ++ 'Z' :: rest).dropWhile Char.isDigit = 'Z' :: rest := by
    rw [List.dropWhile_append_of_pos hdigits, List.dropWhile_cons_of_neg (by decide)]
  rw [takeTimestamp, getCurrentTimestamp_printable hp]
  simp only [List.append_assoc, List.cons_append, List.nil_append, takeShape_putTime hy,
    Option.bind_some, htake, hdrop, if_neg Nat.toDigits_ne_nil]

theorem takeTimestamp_negative {now : ℤ} (hp : ¬ Printable now) (hy : FourDigit now)
    (cs : List Char) : takeTimestamp (getCurrentTimestamp now ++ cs) = none := by
  obtain ⟨hp', -, -⟩ | ⟨-, hdiv, -⟩ := tdiv_cases now
  · exact absurd hp' hp
  have hyear := hy.printed
  rw [hdiv] at hyear
  rw [takeTimestamp, getCurrentTimestamp_negative hp]
  simp only [List.append_assoc, List.cons_append, takeShape_putTime hyear, Option.bind_some]
  rfl

/-- The name of the file of an instant, with what follows the suffix. -/
def fileName (pre suf : Plain) (file : ℤ × List Char) : List Char :=
  pre.text ++ '_' :: (getCurrentTimestamp file.1 ++ (suf.text ++ file.2))

/-- The pattern matches the name of a file. -/
def Matched (strict : Bool) (file : ℤ × List Char) : Prop :=
  Printable file.1 ∧ TailMatches strict file.2

instance (strict : Bool) (file : ℤ × List Char) : Decidable (Matched strict file) :=
  inferInstanceAs (Decidable (_ ∧ _))

variable {pre suf : Plain} {strict : Bool}

theorem matchName_fileName {file : ℤ × List Char} (hy : FourDigit file.1) :
    matchName pre suf strict (fileName pre suf file) =
      if Matched strict file then some (getCurrentTimestamp file.1) else none := by
  have hbar (cs : List Char) : takePlain ['_'] ('_' :: cs) = some cs := takePlain_append ['_'] cs
  simp only [matchName, fileName, takePlain_append, hbar, Option.bind_some]
  by_cases hp : Printable file.1
  · simp only [takeTimestamp_printable hp hy, Option.bind_some, takePlain_append]
    by_cases ht : TailMatches strict file.2
    · rw [if_pos ht, if_pos ⟨hp, ht⟩]
    · rw [if_neg ht, if_neg fun h => ht h.2]
  · rw [takeTimestamp_negative hp hy, if_neg fun h => hp h.1]
    rfl

/-! ### The latest -/

theorem nil_le (cs : List Char) : [] ≤ cs := not_lt.mp (List.not_lt_nil cs)

theorem le_laterTimestamp (latest ts : List Char) :
    latest ≤ laterTimestamp latest ts ∧ ts ≤ laterTimestamp latest ts ∧
      (laterTimestamp latest ts = latest ∨ laterTimestamp latest ts = ts) := by
  unfold laterTimestamp
  split_ifs with h
  · refine ⟨?_, le_refl ts, .inr rfl⟩
    rcases h with rfl | h
    · exact nil_le ts
    · exact le_of_lt h
  · exact ⟨le_refl latest, not_lt.mp fun hlt => h (.inr hlt), .inl rfl⟩

/-- The loop ends with the largest of the texts. -/
theorem foldl_laterTimestamp (found : List (List Char)) (latest : List Char) :
    latest ≤ found.foldl laterTimestamp latest ∧
      (∀ ts ∈ found, ts ≤ found.foldl laterTimestamp latest) ∧
      (found.foldl laterTimestamp latest = latest ∨ found.foldl laterTimestamp latest ∈ found) := by
  induction found generalizing latest with
  | nil => exact ⟨le_refl latest, nofun, .inl rfl⟩
  | cons x found ih =>
    obtain ⟨hle, hx, heq⟩ := le_laterTimestamp latest x
    obtain ⟨hacc, hall, hmem⟩ := ih (laterTimestamp latest x)
    rw [List.foldl_cons]
    refine ⟨le_trans hle hacc, fun ts hts => ?_, ?_⟩
    · rcases List.mem_cons.mp hts with rfl | hts
      · exact le_trans hx hacc
      · exact hall ts hts
    · rcases hmem with hmem | hmem
      · rcases heq with heq | heq
        · exact .inl (hmem.trans heq)
        · rw [hmem, heq]
          exact .inr List.mem_cons_self
      · exact .inr (List.mem_cons_of_mem x hmem)

/-- The files as the directory shows them. -/
def entries (pre suf : Plain) (files : List (ℤ × List Char)) : List DirectoryEntry :=
  files.map fun file => ⟨fileName pre suf file, true⟩

theorem getLatestTimestamp_eq_iff {files : List (ℤ × List Char)} {ts : List Char}
    (hy : ∀ file ∈ files, FourDigit file.1) :
    getLatestTimestamp pre suf strict (some (entries pre suf files)) = some ts ↔
      (∃ file ∈ files, Matched strict file ∧ getCurrentTimestamp file.1 = ts) ∧
        ∀ file ∈ files, Matched strict file → getCurrentTimestamp file.1 ≤ ts := by
  have hfound : ∀ x, x ∈ ((entries pre suf files).filter (·.regular)).filterMap
      (fun e => matchName pre suf strict e.filename) ↔
        ∃ file ∈ files, Matched strict file ∧ getCurrentTimestamp file.1 = x := by
    intro x
    simp only [entries, List.mem_filterMap, List.mem_filter, List.mem_map]
    constructor
    · rintro ⟨e, ⟨⟨file, hfile, rfl⟩, -⟩, hx⟩
      rw [matchName_fileName (hy file hfile)] at hx
      split_ifs at hx with hm
      exact ⟨file, hfile, hm, Option.some.inj hx⟩
    · rintro ⟨file, hfile, hm, rfl⟩
      refine ⟨_, ⟨⟨file, hfile, rfl⟩, rfl⟩, ?_⟩
      rw [matchName_fileName (hy file hfile), if_pos hm]
  have hne : ∀ now, getCurrentTimestamp now ≠ [] := fun now => by simp [getCurrentTimestamp]
  simp only [getLatestTimestamp, Option.bind_some]
  generalize ((entries pre suf files).filter (·.regular)).filterMap
    (fun e => matchName pre suf strict e.filename) = found at hfound
  obtain ⟨-, hall, hmem⟩ := foldl_laterTimestamp found []
  have hle : (∀ file ∈ files, Matched strict file → getCurrentTimestamp file.1 ≤ ts) ↔
      ∀ x ∈ found, x ≤ ts := by
    constructor
    · rintro h x hx
      obtain ⟨file, hfile, hm, rfl⟩ := (hfound x).mp hx
      exact h file hfile hm
    · exact fun h file hfile hm => h _ ((hfound _).mpr ⟨file, hfile, hm, rfl⟩)
  rw [← hfound ts, hle]
  constructor
  · intro h
    split_ifs at h with hnil
    obtain rfl := Option.some.inj h
    exact ⟨hmem.resolve_left hnil, hall⟩
  · rintro ⟨hts, hmax⟩
    obtain ⟨file, -, -, rfl⟩ := (hfound ts).mp hts
    have hnil : found.foldl laterTimestamp [] ≠ [] := fun hnil =>
      hne _ (le_antisymm (hnil ▸ hall _ hts) (nil_le _))
    rw [if_neg hnil, Option.some.injEq]
    exact le_antisymm (hmax _ (hmem.resolve_left hnil)) (hall _ hts)

/-- The latest of files from different instants is found exactly when the pattern matches its name
and no other file of its second has milliseconds that reach the leading digits of its own. -/
theorem latest_found_iff {files : List (ℤ × List Char)} {latest : ℤ × List Char}
    (hy : ∀ file ∈ files, FourDigit file.1) (hdistinct : (files.map Prod.fst).Nodup)
    (hmem : latest ∈ files) (hmax : ∀ file ∈ files, file.1 ≤ latest.1) :
    getLatestTimestamp pre suf strict (some (entries pre suf files)) =
        some (getCurrentTimestamp latest.1) ↔
      Matched strict latest ∧ ∀ file ∈ files, Matched strict file → file ≠ latest →
        file.1 / 1000 = latest.1 / 1000 → BelowLeading (millis file.1) (millis latest.1) := by
  have hlt : ∀ file ∈ files, file ≠ latest → file.1 < latest.1 := fun file hfile hne =>
    Int.lt_iff_le_and_ne.mpr ⟨hmax file hfile, fun heq =>
      hne (List.inj_on_of_nodup_map hdistinct hfile hmem heq)⟩
  rw [getLatestTimestamp_eq_iff hy]
  constructor
  · rintro ⟨⟨file, hfile, hm, heq⟩, hle⟩
    have hmatched : Matched strict latest := by
      by_cases hsame : file = latest
      · exact hsame ▸ hm
      · exact absurd heq (getCurrentTimestamp_ne hm.1 (hy file hfile) (hy latest hmem)
          (hlt file hfile hsame))
    refine ⟨hmatched, fun f hf hfm hne hs => ?_⟩
    have hearlier := hlt f hf hne
    rw [← getCurrentTimestamp_lt_iff hfm.1 hmatched.1 hs hearlier]
    have hdiff := getCurrentTimestamp_ne hfm.1 (hy f hf) (hy latest hmem) hearlier
    exact Classical.byContradiction fun hnot =>
      hdiff (le_antisymm (hle f hf hfm) (not_lt.mp hnot))
  · rintro ⟨hm, hsecond⟩
    refine ⟨⟨latest, hmem, hm, rfl⟩, fun file hfile hfm => ?_⟩
    by_cases hsame : file = latest
    · rw [hsame]
    · have hearlier := hlt file hfile hsame
      rcases Int.lt_or_eq_of_le (show file.1 / 1000 ≤ latest.1 / 1000 by omega) with hs | hs
      · exact le_of_lt (getCurrentTimestamp_lt hfm.1 hm.1 (hy file hfile) (hy latest hmem) hs)
      · exact le_of_lt ((getCurrentTimestamp_lt_iff hfm.1 hm.1 hs hearlier).mpr
          (hsecond file hfile hfm hsame hs))

/-- The prefix "run" and no suffix. -/
def runName : Plain := ⟨"run".toList, by simp [operators]⟩

def noSuffix : Plain := ⟨[], nofun⟩

/-- The files of two instants one millisecond apart, the later one first. -/
def twoFiles (now : ℤ) : List (ℤ × List Char) :=
  [(now + 1, ".stg1.root".toList), (now, ".stg1.root".toList)]

theorem latest_found_tens : getLatestTimestamp runName noSuffix false
    (some (entries runName noSuffix (twoFiles 1709210096010))) =
      some (getCurrentTimestamp 1709210096011) :=
  (latest_found_iff (by decide) (by decide)
    (show (1709210096011, ".stg1.root".toList) ∈ _ by decide) (by decide)).mpr (by decide)

/-- The ninth millisecond of a second is taken to be later than the tenth. -/
theorem not_latest_found :
    ¬ ∀ (pre suf : Plain) (strict : Bool) (files : List (ℤ × List Char)) (latest : ℤ × List Char),
      (∀ file ∈ files, FourDigit file.1) → (files.map Prod.fst).Nodup → latest ∈ files →
      (∀ file ∈ files, file.1 ≤ latest.1) →
      getLatestTimestamp pre suf strict (some (entries pre suf files)) =
        some (getCurrentTimestamp latest.1) := by
  intro h
  have hlatest := h runName noSuffix false (twoFiles 1709210096009)
    (1709210096010, ".stg1.root".toList) (by decide) (by decide) (by decide) (by decide)
  exact absurd hlatest (by decide)

end GramsTof.Config
