import Mathlib.Data.List.Basic
import Mathlib.Tactic.Common

/-!
# `Encoding.Json` — compact JSON text

The text of strings, arrays and objects without blanks, non-ASCII characters escaped. The members of an
object are written in the order given, so a caller that wants sorted keys lists them sorted.
-/

namespace Lib.Json

/-- The four hex digits of a code unit. -/
def hex4 (n : ℕ) : List Char :=
  [Nat.digitChar (n / 4096 % 16), Nat.digitChar (n / 256 % 16), Nat.digitChar (n / 16 % 16),
    Nat.digitChar (n % 16)]

/-- `\uXXXX`. -/
def unit (n : ℕ) : List Char := ['\\', 'u'] ++ hex4 n

/-- A character inside a string; above the basic plane it is a surrogate pair. -/
def escape (c : Char) : List Char :=
  if c = '"' then ['\\', '"']
  else if c = '\\' then ['\\', '\\']
  else if c = '\n' then ['\\', 'n']
  else if c = '\r' then ['\\', 'r']
  else if c = '\t' then ['\\', 't']
  else if c.toNat = 12 then ['\\', 'f']
  else if c.toNat = 8 then ['\\', 'b']
  else if 32 ≤ c.toNat ∧ c.toNat ≤ 126 then [c]
  else if c.toNat < 65536 then unit c.toNat
  else unit (55296 + (c.toNat - 65536) / 1024) ++ unit (56320 + (c.toNat - 65536) % 1024)

def string (s : String) : List Char := ['"'] ++ s.toList.flatMap escape ++ ['"']

/-- The items with a comma between any two. -/
def separated (items : List (List Char)) : List Char := [','].intercalate items

def array (items : List (List Char)) : List Char := ['['] ++ separated items ++ [']']

def object (members : List (String × List Char)) : List Char :=
  ['{'] ++ separated (members.map fun m => string m.1 ++ [':'] ++ m.2) ++ ['}']

example : String.ofList (object [("dst", string "a"), ("src", string "b\"")])
    = "\x7b\"dst\":\"a\",\"src\":\"b\\\"\"\x7d" := by decide +kernel

end Lib.Json
