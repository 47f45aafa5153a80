import NilGuard.Form.Datum
import NilGuard.Numeral.Real
/-! The reader of dumps, a machine that takes one character at a time. It keeps the
lists that are still open and what kind of token it stands in. A text holds exactly
one datum. -/
namespace NilGuard

/-- Why a text is not one datum. -/
inductive ReadError where
  | unterminatedString
  | danglingBackslash
  | unclosed (expected : Char) (found : Option Char)
  | nothingQuoted (position : Nat)
  | surplusCloser (rest : String)
  | notOneDatum
  deriving DecidableEq, Repr

def ReadError.message : ReadError → String
  | .unterminatedString => "'NoneType' object has no attribute 'start'"
  | .danglingBackslash => "string index out of range"
  | .unclosed expected found =>
    "Not enough closing brackets. Expected " ++ Text.quoted (toString expected) ++
      " to be the last letter in the sexp. Got: " ++
      (match found with
        | some c => Text.quoted (toString c)
        | none => "None")
  | .nothingQuoted position =>
    "No s-exp is found after an apostrophe at position " ++ toString position
  | .surplusCloser rest =>
    "Too many closing brackets. Expected no character left in the sexp. Got: " ++
      Text.quoted rest
  | .notOneDatum => ""

namespace Reader

/-- The kind of token the machine stands in, with the characters taken so far, last
first. An escape is the place right after a backslash. -/
inductive Mode where
  | between
  | comment
  | string (taken : List Char)
  | stringEscape (taken : List Char)
  | atom (taken : List Char)
  | atomEscape (taken : List Char)
  deriving DecidableEq, Repr

/-- A list that is still open: the character that closes it, the data read so far,
last first, and the positions of the apostrophes that wait for a datum, last first. -/
structure Level where
  closer : Char
  data : List Datum
  waiting : List Nat

/-- The machine between two characters. The first level is the innermost open list;
`top` holds the data outside all lists. -/
structure State where
  mode : Mode
  levels : List Level
  top : Level

def State.start : State := { mode := .between, levels := [], top := ⟨' ', [], []⟩ }

/-- Every waiting apostrophe quotes the datum. -/
def Level.add (l : Level) (d : Datum) : Level :=
  { l with data := l.waiting.foldl (fun x _ => .quote x) d :: l.data, waiting := [] }

def State.add (s : State) (d : Datum) : State :=
  match s.levels with
  | [] => { s with mode := .between, top := s.top.add d }
  | l :: ls => { s with mode := .between, levels := l.add d :: ls }

def State.wait (s : State) (position : Nat) : State :=
  match s.levels with
  | [] => { s with top := { s.top with waiting := position :: s.top.waiting } }
  | l :: ls => { s with levels := { l with waiting := position :: l.waiting } :: ls }

def State.openList (s : State) (closer : Char) : State :=
  { s with mode := .between, levels := ⟨closer, [], []⟩ :: s.levels }

/-- The list of a level that its closer ends. -/
def Level.datum (l : Level) : Datum :=
  if l.closer = ']' then .brackets l.data.reverse else .list l.data.reverse

/-- Characters that a backslash in an atom stands before without being part of it. -/
def isEscapable (c : Char) : Bool :=
  c == '\\' || c == '\'' || c == '\x60' || c == '"' || c == '(' || c == ')' || c == '[' ||
    c == ']' || c == ' ' || c == ',' || c == '?' || c == ';' || c == '#'

/-- The characters that a backslash pair adds to an atom, last first. -/
def atomPair (c : Char) : List Char :=
  if isEscapable c then [c] else [c, '\\']

/-- The characters that a backslash pair adds to a string, last first. -/
def stringPair (c : Char) : List Char :=
  if c = '\\' ∨ c = '"' then [c]
  else if c = 'b' then ['\x08']
  else if c = 'f' then ['\x0c']
  else if c = 'n' then ['\n']
  else if c = 'r' then ['\r']
  else if c = 't' then ['\t']
  else [c, '\\']

/-- A token that is a numeral is a number, and any other a symbol. -/
def ofToken (token : List Char) : Datum :=
  match Numeral.integer? token with
  | some n => .int n
  | none =>
    match Numeral.real? token with
    | some t => .real t
    | none => .sym (String.ofList token)

/-- What one character leads to. A closer outside all lists ends the reading. -/
inductive Outcome where
  | next (state : State)
  | surplus
  | fail (error : ReadError)

/-- The closer `c` at a place where no token is open. -/
def State.close (s : State) (c : Char) : Outcome :=
  match s.levels with
  | [] =>
    match s.top.waiting with
    | position :: _ => .fail (.nothingQuoted position)
    | [] => .surplus
  | l :: ls =>
    match l.waiting with
    | position :: _ => .fail (.nothingQuoted position)
    | [] =>
      if c = l.closer then .next ({ s with levels := ls }.add l.datum)
      else .fail (.unclosed l.closer (some c))

/-- A character at a place where no token is open. -/
def State.between (s : State) (position : Nat) (c : Char) : Outcome :=
  if c = '"' then .next { s with mode := .string [] }
  else if Text.isAsciiBlank c then .next { s with mode := .between }
  else if c = '(' then .next (s.openList ')')
  else if c = '[' then .next (s.openList ']')
  else if c = ')' ∨ c = ']' then s.close c
  else if c = '\'' then .next { s.wait position with mode := .between }
  else if c = ';' then .next { s with mode := .comment }
  else if c = '\\' then .next { s with mode := .atomEscape [] }
  else .next { s with mode := .atom [c] }

/-- The characters that end an atom. -/
def endsAtom (c : Char) : Bool :=
  c == '(' || c == ')' || c == '[' || c == ']' || c == '"' || c == ';' || Text.isAsciiBlank c

def State.step (s : State) (position : Nat) (c : Char) : Outcome :=
  match s.mode with
  | .between => s.between position c
  | .comment => .next (if c = '\n' then { s with mode := .between } else s)
  | .string taken =>
    if c = '"' then .next (s.add (.str (String.ofList taken.reverse)))
    else if c = '\\' then .next { s with mode := .stringEscape taken }
    else .next { s with mode := .string (c :: taken) }
  | .stringEscape taken => .next { s with mode := .string (stringPair c ++ taken) }
  | .atom taken =>
    if endsAtom c then (s.add (ofToken taken.reverse)).between position c
    else if c = '\\' then .next { s with mode := .atomEscape taken }
    else .next { s with mode := .atom (c :: taken) }
  | .atomEscape taken => .next { s with mode := .atom (atomPair c ++ taken) }

/-- The end of the text where no token is open. -/
def State.conclude (s : State) : Except ReadError Datum :=
  match s.levels with
  | l :: _ =>
    match l.waiting with
    | position :: _ => .error (.nothingQuoted position)
    | [] => .error (.unclosed l.closer none)
  | [] =>
    match s.top.waiting with
    | position :: _ => .error (.nothingQuoted position)
    | [] =>
      match s.top.data with
      | [d] => .ok d
      | _ => .error .notOneDatum

def State.finish (s : State) : Except ReadError Datum :=
  match s.mode with
  | .between | .comment => s.conclude
  | .string _ => .error .unterminatedString
  | .stringEscape _ | .atomEscape _ => .error .danglingBackslash
  | .atom taken => (s.add (ofToken taken.reverse)).conclude

/-- Reads on from a state; `position` counts the characters already read. -/
def run (position : Nat) (s : State) : List Char → Except ReadError Datum
  | [] => s.finish
  | c :: cs =>
    match s.step position c with
    | .next s' => run (position + 1) s' cs
    | .surplus => .error (.surplusCloser (String.ofList (c :: cs)))
    | .fail e => .error e

end Reader

/-- The one datum of a text. -/
def Datum.read (text : String) : Except ReadError Datum :=
  Reader.run 0 Reader.State.start text.toList

end NilGuard
