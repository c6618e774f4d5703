import GramsTof.Lib.Digits
import Mathlib.Data.Char
import Mathlib.Data.List.Dedup
import Mathlib.Data.List.DropRight
import Mathlib.Data.List.Lex
import Mathlib.Data.List.Sort

/-! The vendored inih: `ini_parse_stream` over the bytes of a file, and `INIReader`. -/

namespace GramsTof.Config

open Lib

/-! ### Lines -/

def INI_MAX_LINE : ℕ := 200
def MAX_SECTION : ℕ := 50
def MAX_NAME : ℕ := 50

/-- What a C string holds. -/
def cString (cs : List Char) : List Char := cs.takeWhile (· ≠ '\x00')

/-- At most `n` bytes, up to and with a line break. -/
def upToBreak : ℕ → List Char → List Char
  | 0, _ => []
  | _, [] => []
  | n + 1, c :: cs => if c = '\n' then [c] else c :: upToBreak n cs

/-- `fgets`, which leaves room for the terminator: the bytes read, and the rest. -/
def fgets (size : ℕ) (text : List Char) : List Char × List Char :=
  let read := upToBreak (size - 1) text
  (read, text.drop read.length)

/-- Reading on to the end of a line that was too long, with the buffer `abyss`: whether there was
anything to read, and the rest. -/
def discard : ℕ → List Char → Bool × List Char
  | 0, text => (false, text)
  | fuel + 1, text =>
    let (abyss, rest) := fgets 16 text
    if abyss = [] then (false, text)
    else if (cString abyss).getLast? = some '\n' then (true, rest)
    else (true, (discard fuel rest).2)

/-- The lines as `ini_parse_stream` takes them, each with whether it was cut. -/
def lines : ℕ → List Char → List (List Char × Bool)
  | 0, _ => []
  | fuel + 1, text =>
    let (read, rest) := fgets INI_MAX_LINE text
    let line := cString read
    if read = [] then []
    else if line.length = INI_MAX_LINE - 1 ∧ line.getLast? ≠ some '\n' then
      let (cut, rest) := discard fuel rest
      (line, cut) :: lines fuel rest
    else (line, false) :: lines fuel rest

/-! ### A line -/

def ini_lskip (s : List Char) : List Char := s.dropWhile isspace

def ini_rstrip (s : List Char) : List Char := s.rdropWhile isspace

/-- What precedes one of the characters or a comment, and what is left from there. -/
def ini_find_chars_or_comment (chars : List Char) : Bool → List Char → List Char × List Char
  | _, [] => ([], [])
  | wasSpace, c :: cs =>
    if c ∈ chars ∨ wasSpace ∧ c = ';' then ([], c :: cs)
    else
      let (found, rest) := ini_find_chars_or_comment chars (isspace c) cs
      (c :: found, rest)

/-- `INIReader::MakeKey`. -/
def MakeKey (sec name : List Char) : List Char := (sec ++ '=' :: name).map Char.toLower

/-- `_values[key]`, which is there afterwards, with what becomes of its value. -/
def alterValue (key : List Char) (f : List Char → List Char) :
    List (List Char × List Char) → List (List Char × List Char)
  | [] => [(key, f [])]
  | (k, v) :: rest =>
    if key < k then (key, f []) :: (k, v) :: rest
    else if key = k then (k, f v) :: rest
    else (k, v) :: alterValue key f rest

/-- What `ini_parse_stream` carries from line to line, and the `_values` of the reader. -/
structure Scan where
  sec : List Char := []
  prevName : List Char := []
  lineno : ℕ := 0
  error : ℕ := 0
  values : List (List Char × List Char) := []
  deriving DecidableEq, Repr

namespace Scan

/-- The first line in error is kept. -/
def fail (s : Scan) : Scan := if s.error = 0 then { s with error := s.lineno } else s

/-- `INIReader::ValueHandler`. Values of one name are joined by line breaks. -/
def ValueHandler (s : Scan) (name value : List Char) : Scan :=
  let joined (v : List Char) := if v = [] then value else v ++ '\n' :: value
  { s with values := alterValue (MakeKey s.sec name) joined s.values }

/-- A name and a value, with what follows the value. -/
def pair (s : Scan) (name value : List Char) : Scan :=
  let name := ini_rstrip name
  let value := ini_rstrip (ini_lskip (ini_find_chars_or_comment [] false value).1)
  { s with prevName := name.take (MAX_NAME - 1) }.ValueHandler name value

/-- `start` is what is left of the line without the space around it. -/
def parseLine (indented : Bool) (s : Scan) : List Char → Scan
  | [] => s
  | c :: start =>
    if c = ';' ∨ c = '#' then s
    else if s.prevName ≠ [] ∧ indented then
      -- a continuation of the value before
      s.ValueHandler s.prevName (ini_rstrip (ini_find_chars_or_comment [] false (c :: start)).1)
    else if c = '[' then
      match ini_find_chars_or_comment [']'] false start with
      | (name, ']' :: _) => { s with sec := name.take (MAX_SECTION - 1), prevName := [] }
      | _ => s.fail
    else
      match ini_find_chars_or_comment ['=', ':'] false (c :: start) with
      | (name, '=' :: value) | (name, ':' :: value) => s.pair name value
      | _ => s.fail

/-- The byte order mark of the first line. -/
def dropMark (lineno : ℕ) (line : List Char) : List Char :=
  if lineno = 1 ∧ line.take 3 = ['\xef', '\xbb', '\xbf'] then line.drop 3 else line

/-- The body of the loop of `ini_parse_stream`. -/
def step (s : Scan) (line : List Char × Bool) : Scan :=
  let s := { s with lineno := s.lineno + 1 }
  let s := if line.2 then s.fail else s
  let start := ini_lskip (dropMark s.lineno line.1)
  parseLine (start.length < line.1.length) s (ini_rstrip start)

end Scan

def ini_parse_stream (text : List Char) : Scan :=
  (lines (text.length + 1) text).foldl Scan.step {}

/-! ### The reader -/

structure INIReader where
  error : ℤ
  values : List (List Char × List Char)
  deriving DecidableEq, Repr

namespace INIReader

/-- The constructor, with the text of the file if it can be read. -/
def ofFile : Option (List Char) → INIReader
  | none => ⟨-1, []⟩
  | some text => ⟨(ini_parse_stream text).error, (ini_parse_stream text).values⟩

def ParseError (reader : INIReader) : ℤ := reader.error

def Get (reader : INIReader) (sec name default_value : String) : String :=
  ((reader.values.lookup (MakeKey sec.toList name.toList)).map String.ofList).getD default_value

/-- What precedes the first `=` of each key, once, in order. -/
def Sections (reader : INIReader) : List String :=
  let found := (reader.values.filter ('=' ∈ ·.1)).map fun e => e.1.takeWhile (· ≠ '=')
  (found.dedup.insertionSort (· ≤ ·)).map String.ofList

/-- The rest of each key that begins with the section. -/
def GetKeys (reader : INIReader) (sec : String) : List String :=
  let start := MakeKey sec.toList []
  (reader.values.filter (start.isPrefixOf ·.1)).map fun e => .ofList (e.1.drop start.length)

/-- A file that is there is read to its end, whatever it holds. -/
theorem parseError_neg_iff (text : Option (List Char)) :
    (ofFile text).ParseError < 0 ↔ text = none := by
  cases text with
  | none => exact iff_of_true (by decide) rfl
  | some text =>
    exact iff_of_false (not_lt.mpr (Int.natCast_nonneg _)) nofun

end INIReader

end GramsTof.Config
