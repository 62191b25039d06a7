import EdgeCausal.Collections.Text
import EdgeCausal.Engine.Types

/-!
# `Api.Pack` — the query pack

What the aggregator asks for and what it compares the answers with, read from a flat file of `key: value` lines
without a YAML parser: two sections of indented lines and two settings that are not indented. The first colon
splits key from value. `parseFloat` is the parser of thresholds, `none` where it fails.
-/

namespace EdgeCausal.Api

open Lib

/-- A parsed floating-point number. -/
inductive Float64 where
  | finite (v : ℚ)
  | inf (neg : Bool)
  | nan
deriving DecidableEq

/-- `thr < v` for a finite `v`; nothing exceeds NaN. -/
def Float64.below (thr : Float64) (v : ℚ) : Bool :=
  match thr with
  | .finite t => t < v
  | .inf neg => neg
  | .nan => false

/-- The contract of the pack file: a query for each signal, in file order, and the thresholds. -/
structure Pack where
  intervalS : ℤ
  windowMin : ℤ
  queries : Dict Signal String
  order : List Signal
  thresholds : Dict String Float64
deriving DecidableEq

/-! ## Characters -/

/-- `unicode.IsSpace` -/
def isSpace (c : Char) : Bool :=
  c.toNat ∈ [0x09, 0x0A, 0x0B, 0x0C, 0x0D, 0x20, 0x85, 0xA0, 0x1680, 0x2028, 0x2029, 0x202F, 0x205F, 0x3000] ||
    (0x2000 ≤ c.toNat && c.toNat ≤ 0x200A)

/-- `strings.TrimSpace` -/
def trimSpace (s : List Char) : List Char := trim isSpace s

/-- `strings.TrimRight(s, " ")` -/
def trimRight (s : List Char) : List Char := s.rdropWhile fun c => c = ' '

/-- The value of signed digits, in the range of a 64-bit integer. -/
def signedValue (neg : Bool) (digits : List Char) : Option ℤ :=
  if digits ≠ [] ∧ digits.all Char.isDigit then
    let n : ℤ := (Nat.ofDigitChars 10 digits 0 : ℕ)
    let z := if neg then -n else n
    if -2 ^ 63 ≤ z ∧ z < 2 ^ 63 then some z else none
  else none

/-- `strconv.Atoi`: an optional sign and digits. -/
def atoi (s : List Char) : Option ℤ :=
  match s with
  | '-' :: ds => signedValue true ds
  | '+' :: ds => signedValue false ds
  | ds => signedValue false ds

def atoiDefault (s : List Char) (d : ℤ) : ℤ := (atoi (trimSpace s)).getD d

/-- The key and the value, on either side of the first colon. -/
def splitKV (s : List Char) : Option (List Char × List Char) :=
  (cut [':'] s).map fun kv => (trimSpace kv.1, trimSpace kv.2)

def valOf (s : List Char) : List Char := ((splitKV s).map Prod.snd).getD []

/-! ## Lines -/

/-- The buffer of the scanner, in bytes; a line and its newline must fit. -/
def bufferSize : ℕ := 1024 * 1024

def byteLen (line : List Char) : ℕ := (line.map Char.utf8Size).sum

/-- A line ends before its carriage return. -/
def dropCR (line : List Char) : List Char := if line.getLast? = some '\r' then line.dropLast else line

/-- The lines up to the first one that does not fit, and whether there is such a line. -/
def scan : List (List Char) → List (List Char) × Bool
  | [] => ([], false)
  | line :: lines =>
      if bufferSize ≤ byteLen line then ([], true)
      else
        let rest := scan lines
        (dropCR line :: rest.1, rest.2)

/-- The lines of a file; after its last newline there is none. -/
def linesOf (file : List Char) : List (List Char) :=
  let pieces := file.splitOn '\n'
  if pieces.getLast? = some [] then pieces.dropLast else pieces

/-! ## The parser -/

inductive PackSection where
  | queries
  | thresholds
deriving DecidableEq

/-- The pack read so far, and the section the reader is in. -/
structure Reader where
  pack : Pack
  sec : Option PackSection

def Reader.init : Reader := ⟨⟨5, 15, ∅, [], ∅⟩, none⟩

section Parse
variable (parseFloat : String → Option Float64)

/-- Cut an inline comment off. -/
def stripComment (t : List Char) : List Char :=
  match cut [' ', '#'] t with
  | some (before, _) => trimSpace before
  | none => t

/-- A line that is not indented: a section, a setting, or the end of the section. -/
def setting (r : Reader) (t : List Char) : Reader :=
  if "queries:".toList.isPrefixOf t then { r with sec := some .queries }
  else if "thresholds:".toList.isPrefixOf t then { r with sec := some .thresholds }
  else if "interval_s:".toList.isPrefixOf t then
    { r with pack := { r.pack with intervalS := atoiDefault (valOf t) 5 } }
  else if "window_min:".toList.isPrefixOf t then
    { r with pack := { r.pack with windowMin := atoiDefault (valOf t) 15 } }
  else { r with sec := none }

/-- An indented line: a query or a threshold, by the section; a threshold that does not parse is skipped. -/
def entry (r : Reader) (t : List Char) : Reader :=
  match splitKV t with
  | none => r
  | some (k, v) =>
      match r.sec with
      | some .queries =>
          { r with pack := { r.pack with
              queries := r.pack.queries.set (.ofList k) (.ofList v)
              order := r.pack.order ++ [.ofList k] } }
      | some .thresholds =>
          match parseFloat (.ofList (trimSpace v)) with
          | some fv => { r with pack := { r.pack with thresholds := r.pack.thresholds.set (.ofList k) fv } }
          | none => r
      | none => r

/-- One line; blank lines and full-line comments are skipped. -/
def packLine (r : Reader) (text : List Char) : Reader :=
  let line := trimRight text
  let t := trimSpace line
  if t = [] ∨ t.head? = some '#' then r
  else
    let t := stripComment t
    if line.head? ≠ some ' ' then setting r t else entry parseFloat r t

/-- The pack of a file, and the error: a file that cannot be opened, or a line that does not fit. -/
def loadPack (file : Except String String) : Option Pack × Option String :=
  match file with
  | .error e => (none, some e)
  | .ok text =>
      let (lines, tooLong) := scan (linesOf text.toList)
      (some (lines.foldl (packLine parseFloat) .init).pack,
        if tooLong then some "bufio.Scanner: token too long" else none)

end Parse

end EdgeCausal.Api
