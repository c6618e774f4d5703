import GramsTof.Config.Timestamp
import GramsTof.Lib.Paths

/-! The time stamp that `TOF_TreeDataStg1` reads back from the name of its file. -/

namespace GramsTof.Analysis

open Lib Lib.Calendar Lib.Paths Config

/-- The path; the directory is made if it does not exist. -/
def makeFilePathWithTimestamp (absDir pre timestamp ext : List Char) : List Char :=
  let dotExt := if ext = [] then [] else if ext.head? = some '.' then ext else '.' :: ext
  joinPath absDir (pre ++ '_' :: (timestamp ++ dotExt))

/-- `substr`, which throws beyond the end. -/
def substr (pos n : ℕ) (cs : List Char) : Option (List Char) :=
  if pos ≤ cs.length then some ((cs.drop pos).take n) else none

/-- A minus sign at the head, and what follows the sign. -/
def takeSign : List Char → Bool × List Char
  | '-' :: cs => (true, cs)
  | '+' :: cs => (false, cs)
  | cs => (false, cs)

/-- `std::stoi`: a number at the head, after blanks; it throws if there is none, or too large a
one. -/
def stoi (cs : List Char) : Option ℤ :=
  let signed := takeSign (cs.dropWhile isspace)
  let digits := signed.2.takeWhile Char.isDigit
  let n : ℤ := Nat.ofDigitChars 10 digits 0
  let value := if signed.1 then -n else n
  if digits ≠ [] ∧ -2 ^ 31 ≤ value ∧ value < 2 ^ 31 then some value else none

/-- The arguments of the `TTimeStamp`. -/
structure Reading where
  year : ℤ
  month : ℤ
  day : ℤ
  hour : ℤ
  min : ℤ
  sec : ℤ
  ms : ℤ
  deriving DecidableEq, Repr

/-- What is read from `fFileName`; without a reading the current time is taken. -/
def getTimestampCPU (fFileName : List Char) : Option Reading := do
  let year ← (substr 4 4 fFileName).bind stoi
  let month ← (substr 9 2 fFileName).bind stoi
  let day ← (substr 12 2 fFileName).bind stoi
  let hour ← (substr 15 2 fFileName).bind stoi
  let min ← (substr 18 2 fFileName).bind stoi
  let sec ← (substr 21 2 fFileName).bind stoi
  let ms ← (substr 24 3 fFileName).bind stoi
  return ⟨year, month, day, hour, min, sec, ms⟩

/-- The name that `CONVERT_RAW_TO_RAW` gives the stage-1 file of an instant. -/
def stg1File (absDir : List Char) (now : ℤ) : List Char :=
  makeFilePathWithTimestamp absDir "run".toList (getCurrentTimestamp now) "stg1.root".toList

/-- The fields of an instant. -/
def Reading.ofInstant (now : ℤ) : Reading :=
  let t := gmtime (now / 1000)
  ⟨t.year, t.month, t.day, t.hour, t.minute, t.second, now % 1000⟩

section Names

theorem substr_cons (pos n : ℕ) (c : Char) (cs : List Char) :
    substr (pos + 1) n (c :: cs) = substr pos n cs := by
  simp [substr]

theorem substr_padded_skip {pos w : ℕ} (h : w ≤ pos) (n k : ℕ) (cs : List Char) :
    substr pos n (padded w k ++ cs) = substr (pos - w) n cs := by
  have hlen : (padded w k).length ≤ pos := by rwa [length_padded]
  have hbound : pos ≤ (padded w k ++ cs).length ↔ pos - w ≤ cs.length := by
    rw [List.length_append, length_padded]
    omega
  simp only [substr, hbound, List.drop_append, List.drop_eq_nil_of_le hlen, List.nil_append,
    length_padded]

theorem substr_padded (w k : ℕ) (cs : List Char) :
    substr 0 w (padded w k ++ cs) = some (padded w k) := by
  rw [substr, if_pos (Nat.zero_le _), List.drop_zero, List.take_left' (length_padded w k)]

theorem isDigit_not_blank {c : Char} (h : c.isDigit) : isspace c = false ∧ c ≠ '-' ∧ c ≠ '+' := by
  have hle : 48 ≤ c.toNat := by
    simp only [Char.isDigit, ge_iff_le, Bool.and_eq_true, decide_eq_true_eq] at h
    exact h.1
  refine ⟨?_, ?_, ?_⟩
  · rw [isspace, decide_eq_false_iff_not]
    rintro (rfl | ⟨-, hc⟩)
    · exact absurd h (by decide)
    · omega
  · rintro rfl
    exact absurd h (by decide)
  · rintro rfl
    exact absurd h (by decide)

/-- `stoi` reads the digits at the head. -/
theorem stoi_digits {digits rest : List Char} (hne : digits ≠ [])
    (hd : ∀ c ∈ digits, c.isDigit) (hr : ∀ c ∈ rest.head?, c.isDigit = false)
    (hlt : Nat.ofDigitChars 10 digits 0 < 2 ^ 31) :
    stoi (digits ++ rest) = some (Nat.ofDigitChars 10 digits 0 : ℤ) := by
  have htake := takeWhile_digits hd hr
  obtain ⟨c, cs, rfl⟩ := List.exists_cons_of_ne_nil hne
  obtain ⟨hspace, hminus, hplus⟩ := isDigit_not_blank (hd c List.mem_cons_self)
  rw [List.cons_append] at htake ⊢
  have hdrop : (c :: (cs ++ rest)).dropWhile isspace = c :: (cs ++ rest) :=
    List.dropWhile_cons_of_neg (by simp [hspace])
  have hsign : takeSign (c :: (cs ++ rest)) = (false, c :: (cs ++ rest)) := by
    unfold takeSign
    split
    · rename_i heq
      exact absurd (List.cons.inj heq).1 hminus
    · rename_i heq
      exact absurd (List.cons.inj heq).1 hplus
    · rfl
  simp only [stoi, hdrop, hsign, htake]
  exact if_pos ⟨hne, by simp only [Bool.false_eq_true, if_false]; omega,
    by simp only [Bool.false_eq_true, if_false]; omega⟩

/-- A sign makes the number negative. -/
theorem stoi_negative {cs : List Char} {v : ℤ} (h : stoi ('-' :: cs) = some v) : v ≤ 0 := by
  have hdrop : ('-' :: cs).dropWhile isspace = '-' :: cs :=
    List.dropWhile_cons_of_neg (by decide)
  simp only [stoi, hdrop, takeSign, if_true] at h
  split_ifs at h
  have hv := Option.some.inj h
  omega

theorem stoi_padded {w n : ℕ} (hw : 0 < w) (hn : n < 10 ^ w) (hmax : n < 2 ^ 31) :
    stoi (padded w n) = some (n : ℤ) := by
  have hvalue := ofDigitChars_padded hn
  have hne : padded w n ≠ [] := fun hnil => by
    have hlen := congrArg List.length hnil
    rw [length_padded] at hlen
    exact absurd hlen (Nat.ne_of_gt hw)
  have hbound : Nat.ofDigitChars 10 (padded w n) 0 < 2 ^ 31 := by rwa [hvalue]
  have hread : stoi (padded w n ++ []) = _ := stoi_digits hne (fun _ => isDigit_padded) nofun hbound
  rwa [List.append_nil, hvalue] at hread

end Names

section Instants

variable {now : ℤ} {absDir : List Char}

theorem slash_not_mem_decimal (n : ℤ) : '/' ∉ decimal n := by
  have hdigits (m : ℕ) : '/' ∉ Nat.toDigits 10 m := fun h =>
    absurd (isDigit_toDigits h) (by decide)
  cases n with
  | ofNat m => exact hdigits m
  | negSucc m =>
    intro h
    rcases List.mem_cons.mp h with h | h
    · exact absurd h (by decide)
    · exact hdigits (m + 1) h

theorem slash_not_mem_padded (w n : ℕ) : '/' ∉ padded w n := fun h =>
  absurd (isDigit_padded h) (by decide)

theorem filename_stg1File (absDir : List Char) (now : ℤ) : filename (stg1File absDir now) =
    'r' :: 'u' :: 'n' :: '_' :: (getCurrentTimestamp now ++ ".stg1.root".toList) := by
  have hslash : '/' ∉ "run".toList ++ '_' :: (getCurrentTimestamp now ++ ".stg1.root".toList) := by
    simp [getCurrentTimestamp, putTime, slash_not_mem_decimal, slash_not_mem_padded]
  exact filename_joinPath hslash

/-- Three columns hold the milliseconds, and what follows fewer digits is no digit. -/
theorem stoi_millis {m : ℕ} (hm : m < 1000) (rest : List Char) :
    (substr 0 3 (Nat.toDigits 10 m ++ 'Z' :: rest)).bind stoi = some (m : ℤ) := by
  have hlen : (Nat.toDigits 10 m).length ≤ 3 :=
    (Nat.length_toDigits_le_iff (by decide) (by decide)).mpr hm
  have htake : (Nat.toDigits 10 m ++ 'Z' :: rest).take 3 =
      Nat.toDigits 10 m ++ ('Z' :: rest).take (3 - (Nat.toDigits 10 m).length) := by
    rw [List.take_append, List.take_of_length_le hlen]
  rw [substr, if_pos (Nat.zero_le _), List.drop_zero, Option.bind_some, htake]
  have hrest : ∀ c ∈ (('Z' :: rest).take (3 - (Nat.toDigits 10 m).length)).head?,
      c.isDigit = false := by
    intro c hc
    generalize 3 - (Nat.toDigits 10 m).length = k at hc
    cases k with
    | zero => cases hc
    | succ k => cases hc; decide
  have hdigits : ∀ c ∈ Nat.toDigits 10 m, c.isDigit := fun _ => isDigit_toDigits
  have hbound : Nat.ofDigitChars 10 (Nat.toDigits 10 m) 0 < 2 ^ 31 := by
    rw [Nat.ofDigitChars_ten_toDigits]
    omega
  have hread := stoi_digits Nat.toDigits_ne_nil hdigits hrest hbound
  rwa [Nat.ofDigitChars_ten_toDigits] at hread

theorem getTimestampCPU_printable (hp : Printable now) (hy : FourDigit now) :
    getTimestampCPU ('r' :: 'u' :: 'n' :: '_' :: (getCurrentTimestamp now ++ ".stg1.root".toList)) =
      some (Reading.ofInstant now) := by
  have hmillis : (millis now : ℤ) = now % 1000 :=
    Int.toNat_of_nonneg (Int.emod_nonneg now (by decide))
  obtain ⟨hm, hd, hh, hn, hc⟩ := gmtime_bounds (now / 1000)
  have hyear : ((gmtime (now / 1000)).year.toNat : ℤ) = (gmtime (now / 1000)).year :=
    Int.toNat_of_nonneg (by have := hy.1; omega)
  have hfour : (gmtime (now / 1000)).year.toNat < 10 ^ 4 := by
    have := hy.2
    omega
  rw [getCurrentTimestamp_printable hp, putTime_padded hy, Reading.ofInstant]
  generalize gmtime (now / 1000) = t at *
  simp (disch := decide) only [getTimestampCPU, List.append_assoc, List.cons_append,
    List.nil_append, substr_cons, substr_padded_skip, substr_padded, Nat.reduceSub,
    Option.bind_some, stoi_millis (millis_lt now)]
  rw [stoi_padded (by decide) hfour (by omega), stoi_padded (by decide) (by omega) (by omega),
    stoi_padded (by decide) (by omega) (by omega), stoi_padded (by decide) (by omega) (by omega),
    stoi_padded (by decide) (by omega) (by omega), stoi_padded (by decide) (by omega) (by omega),
    hyear, hmillis]
  rfl

/-- A negative number of milliseconds is not read back. -/
theorem getTimestampCPU_negative (hp : ¬ Printable now) (hy : FourDigit now) (r : Reading)
    (hr : getTimestampCPU ('r' :: 'u' :: 'n' :: '_' ::
      (getCurrentTimestamp now ++ ".stg1.root".toList)) = some r) : r.ms ≤ 0 := by
  obtain ⟨hp', -, -⟩ | ⟨-, hdiv, -⟩ := tdiv_cases now
  · exact absurd hp' hp
  have hyear := hy.printed
  rw [hdiv] at hyear
  have hms : (substr 24 3 ('r' :: 'u' :: 'n' :: '_' ::
      (getCurrentTimestamp now ++ ".stg1.root".toList))).bind stoi = some r.ms := by
    simp only [getTimestampCPU, Option.bind_eq_bind, Option.bind_eq_some_iff] at hr
    obtain ⟨_, -, _, -, _, -, _, -, _, -, _, -, ms, hms, heq⟩ := hr
    cases heq
    exact Option.bind_eq_some_iff.mpr hms
  rw [getCurrentTimestamp_negative hp, putTime_padded hyear] at hms
  simp (disch := decide) only [List.append_assoc, List.cons_append, substr_cons,
    substr_padded_skip, Nat.reduceSub] at hms
  exact stoi_negative hms

/-- The name of the stage-1 file of an instant gives its fields back exactly when the instant is
not before 1970, or falls on a whole second. -/
theorem getTimestampCPU_stg1File_iff (absDir : List Char) (hy : FourDigit now) :
    getTimestampCPU (filename (stg1File absDir now)) = some (Reading.ofInstant now) ↔
      Printable now := by
  rw [filename_stg1File]
  refine ⟨fun h => ?_, fun hp => getTimestampCPU_printable hp hy⟩
  by_contra hp
  have hneg : now % 1000 ≤ 0 := getTimestampCPU_negative hp hy _ h
  have hnot : ¬ (1000 : ℤ) ∣ now := fun hdvd => hp (.inr hdvd)
  omega

end Instants

theorem getTimestampCPU_stg1File_millis :
    getTimestampCPU (filename (stg1File "/data/stg1".toList 1709210096007)) =
      some ⟨2024, 2, 29, 12, 34, 56, 7⟩ :=
  (getTimestampCPU_stg1File_iff "/data/stg1".toList (by decide)).mpr (by decide)

/-- Half a second before 1970 is read back as 50 milliseconds before it. -/
theorem not_getTimestampCPU_stg1File :
    ¬ ∀ (absDir : List Char) (now : ℤ), FourDigit now →
      getTimestampCPU (filename (stg1File absDir now)) = some (Reading.ofInstant now) := by
  intro h
  have hread := h [] (-500) (by decide)
  exact absurd hread (by decide)

end GramsTof.Analysis
