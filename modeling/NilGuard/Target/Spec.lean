import NilGuard.Target.Error
import NilGuard.Numeral.Integer
/-! Target specifications: a package path, a colon, a dotted name and, after another
colon, a position. The position is zero when it is left out, and blanks may stand
around the whole. -/
namespace NilGuard

namespace Target

open NilGuard.Text

def isIdentStart (c : Char) : Bool := c.isAlpha || c == '_'

def isIdentRest (c : Char) : Bool := c.isAlphanum || c == '_'

/-- Whether a character can be part of a package path. -/
def isPathChar (c : Char) : Bool := c != ':' && !isBlank c

/-- An identifier of ASCII letters, digits and underscores at the front, and what
follows. -/
def ident? : List Char → Option (List Char × List Char)
  | c :: cs =>
    if isIdentStart c then some (c :: cs.takeWhile isIdentRest, cs.dropWhile isIdentRest) else none
  | [] => none

/-- The further parts of a dotted name at the front, each with its dot, and what
follows. The number bounds the parts; a name has fewer parts than characters. -/
def dottedRest : Nat → List Char → List Char × List Char
  | 0, cs => ([], cs)
  | n + 1, '.' :: cs =>
    match ident? cs with
    | some (part, rest) =>
      let (parts, rest') := dottedRest n rest
      ('.' :: part ++ parts, rest')
    | none => ([], '.' :: cs)
  | _ + 1, cs => ([], cs)

/-- A dotted name at the front, and what follows. -/
def dotted? (cs : List Char) : Option (List Char × List Char) := do
  let (part, rest) ← ident? cs
  let (parts, rest') := dottedRest rest.length rest
  return (part ++ parts, rest')

/-- The longest piece of characters from a class at the front, and what follows. The
piece has at least one character. -/
def piece? (p : Char → Bool) (cs : List Char) : Option (List Char × List Char) :=
  if cs.takeWhile p = [] then none else some (cs.takeWhile p, cs.dropWhile p)

/-- A package path at the front, and what follows. -/
def path? : List Char → Option (List Char × List Char) := piece? isPathChar

/-- The digits of a position at the front, which has a colon before them, and what
follows. -/
def position? : List Char → Option (List Char × List Char)
  | ':' :: cs => piece? Char.isDigit cs
  | _ => none

/-- The blanks at the front, and what follows. -/
def blanks (cs : List Char) : List Char × List Char := (cs.takeWhile isBlank, cs.dropWhile isBlank)

def colon? : List Char → Option (List Char)
  | ':' :: cs => some cs
  | _ => none

/-- What a rule takes from the front, none when it does not match, and what follows. -/
def optional (rule : List Char → Option (List Char × List Char)) (cs : List Char) :
    Option (List Char) × List Char :=
  match rule cs with
  | some (part, rest) => (some part, rest)
  | none => (none, cs)

/-- A specification cut into its parts. The digits of the position are left out together
with its colon. -/
structure Spec where
  before : List Char
  path : List Char
  name : List Char
  digits : Option (List Char)
  after : List Char

namespace Spec

/-- The parts of a text. Nothing may follow the blanks at the end. -/
def cut? (text : List Char) : Option Spec := do
  let (before, cs) := blanks text
  let (path, cs) ← path? cs
  let cs ← colon? cs
  let (name, cs) ← dotted? cs
  let (digits, cs) := optional position? cs
  let (after, cs) := blanks cs
  if cs = [] then some { before, path, name, digits, after } else none

/-- The target that the parts name. A position that is left out is zero. -/
def read (s : Spec) : Except SpecFault Target :=
  let digits := s.digits.getD []
  if digits.length ≤ Numeral.digitLimit then
    .ok { package := String.ofList s.path
          function := String.ofList s.name
          position := ofDigits (digits.filterMap asciiDigit?) }
  else .error (.positionTooLong digits.length)

end Spec

def parseChars (text : List Char) : Except SpecFault Target :=
  match Spec.cut? text with
  | some s => s.read
  | none => .error .malformed

/-- The target that a specification names. -/
def parse (text : String) : Except TargetError Target :=
  (parseChars text.toList).mapError (.spec text)

end Target

end NilGuard
