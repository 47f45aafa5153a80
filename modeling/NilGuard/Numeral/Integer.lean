import NilGuard.Text.Blank
import NilGuard.Text.Digit
/-! Integer numerals: an optional sign and decimal digits of any script, with single
underscores allowed between digits and blanks allowed around the whole. A numeral
of more than `digitLimit` digits is no integer, and none is written for an integer that
needs more. -/
namespace NilGuard.Numeral

open NilGuard.Text

/-- The most digits an integer numeral may have. -/
def digitLimit : Nat := 4300

/-- An integer with no more digits than a numeral may have. -/
def IsShort (n : Int) : Prop := (Nat.toDigits 10 n.natAbs).length ≤ digitLimit

instance (n : Int) : Decidable (IsShort n) := inferInstanceAs (Decidable (_ ≤ _))

/-- The numeral of an integer, if it has one. -/
def text? (n : Int) : Option String := if IsShort n then some (toString n) else none

/-- A sign in front of the rest: whether it is a minus, and the rest. -/
def splitSign : List Char → Bool × List Char
  | '-' :: cs => (true, cs)
  | '+' :: cs => (false, cs)
  | cs => (false, cs)

/-- The digits of a numeral, one underscore allowed between two of them. -/
def digits? : List Char → Option (List Nat)
  | [] => none
  | [c] => (digit? c).map ([·])
  | c :: '_' :: cs => do
    let d ← digit? c
    let ds ← digits? cs
    return d :: ds
  | c :: cs => do
    let d ← digit? c
    let ds ← digits? cs
    return d :: ds

/-- The integer a numeral denotes. Leading zeros are allowed and count as digits. -/
def integer? (cs : List Char) : Option Int := do
  let (negative, rest) := splitSign (trim cs)
  let ds ← digits? rest
  if ds.length ≤ digitLimit then
    let n : Int := ofDigits ds
    return if negative then -n else n
  else none

/-- The digits at the front, one underscore allowed between two of them, and what
follows. -/
def spanDigits : List Char → List Nat × List Char
  | [] => ([], [])
  | c :: '_' :: e :: cs =>
    match digit? c with
    | none => ([], c :: '_' :: e :: cs)
    | some d =>
      if (digit? e).isSome then
        let (ds, rest) := spanDigits (e :: cs)
        (d :: ds, rest)
      else ([d], '_' :: e :: cs)
  | c :: cs =>
    match digit? c with
    | none => ([], c :: cs)
    | some d =>
      let (ds, rest) := spanDigits cs
      (d :: ds, rest)

end NilGuard.Numeral
