import NilGuard.Json.Basic
import NilGuard.Numeral.Integer
/-! JSON on one line of ASCII. Every character beyond ASCII is escaped as one or two
units of sixteen bits, and every control character is escaped (the delete character too), so
a value never breaks its line. -/
namespace NilGuard.Json

open NilGuard.Text

def unitEscape (n : Nat) : List Char := '\\' :: 'u' :: hex 4 n

/-- One character of a string. -/
def escapedChar (c : Char) : List Char :=
  let n := c.toNat
  if c = '"' ∨ c = '\\' then ['\\', c]
  else if c = '\n' then ['\\', 'n']
  else if c = '\r' then ['\\', 'r']
  else if c = '\t' then ['\\', 't']
  else if c = '\x08' then ['\\', 'b']
  else if c = '\x0c' then ['\\', 'f']
  else if 0x20 ≤ n ∧ n < 0x7F then [c]
  else if n < 0x10000 then unitEscape n
  else unitEscape (0xD800 + (n - 0x10000) / 0x400) ++ unitEscape (0xDC00 + (n - 0x10000) % 0x400)

def stringChars (s : String) : List Char :=
  '"' :: s.toList.flatMap escapedChar ++ ['"']

/-- Joins pieces with a comma and a space. -/
def joined : List (List Char) → List Char
  | [] => []
  | [x] => x
  | x :: xs => x ++ ',' :: ' ' :: joined xs

mutual

/-- The characters of a value, with the digits that its integers would need. -/
def chars : Json → List Char
  | .null => "null".toList
  | .bool true => "true".toList
  | .bool false => "false".toList
  | .int n => (toString n).toList
  | .real t => t.toList
  | .str s => stringChars s
  | .arr xs => '[' :: joined (itemChars xs) ++ [']']
  | .obj fs => '\x7b' :: joined (fieldChars fs) ++ ['\x7d']

def itemChars : List Json → List (List Char)
  | [] => []
  | x :: xs => chars x :: itemChars xs

def fieldChars : List (String × Json) → List (List Char)
  | [] => []
  | (k, x) :: fs => (stringChars k ++ ':' :: ' ' :: chars x) :: fieldChars fs

end

/-- A value on one line, if all integers in it have numerals. -/
def line? (j : Json) : Option String :=
  if ∀ n ∈ j.integers, Numeral.IsShort n then some (String.ofList j.chars) else none

end NilGuard.Json
