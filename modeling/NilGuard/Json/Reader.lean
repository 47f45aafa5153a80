import NilGuard.Json.Basic
import NilGuard.Numeral.Real
/-! The reader of JSON files. Beyond the standard it takes the words for not-a-number
and for the infinities. A fault points at the characters left where it was found,
from which its line and column follow. -/
namespace NilGuard

namespace Json

/-- What is wrong with a text. -/
inductive Fault where
  | value
  | comma
  | colon
  | propertyName
  | unterminatedString
  | controlCharacter
  | escape
  | unicodeEscape
  | extraData
  | byteOrderMark
  | tooManyDigits (count : Nat)
  deriving DecidableEq, Repr

/-- A fault and the characters from the place where it was found to the end. -/
structure FaultAt where
  fault : Fault
  rest : List Char
  deriving Repr

def isBlank (c : Char) : Bool := c == ' ' || c == '\t' || c == '\n' || c == '\r'

def skip (cs : List Char) : List Char := cs.dropWhile isBlank

def hexDigit? (c : Char) : Option Nat :=
  if c.isDigit then some (c.toNat - 48)
  else if 'a' ≤ c ∧ c ≤ 'f' then some (c.toNat - 87)
  else if 'A' ≤ c ∧ c ≤ 'F' then some (c.toNat - 55)
  else none

/-- Four hexadecimal digits. -/
def unit? (a b c d : Char) : Option Nat := do
  let x ← hexDigit? a
  let y ← hexDigit? b
  let z ← hexDigit? c
  let w ← hexDigit? d
  return ((x * 16 + y) * 16 + z) * 16 + w

/-- The character of a simple escape. -/
def simpleEscape? (c : Char) : Option Char :=
  if c = '"' ∨ c = '\\' ∨ c = '/' then some c
  else if c = 'b' then some '\x08'
  else if c = 'f' then some '\x0c'
  else if c = 'n' then some '\n'
  else if c = 'r' then some '\r'
  else if c = 't' then some '\t'
  else none

/-- The character that a unit escape of value `n` starts, where `rest` follows the
escape, and how many characters of `rest` belong to it. A unit of the upper half of
a pair is joined with the unit escape right after it; half a pair alone stands for
the replacement character. -/
def unitChar (n : Nat) (rest : List Char) : Except FaultAt (Char × Nat) :=
  if 0xD800 ≤ n ∧ n < 0xDC00 then
    match rest with
    | '\\' :: 'u' :: a :: b :: c :: d :: e :: cs =>
      match unit? a b c d with
      | none => .error ⟨.unicodeEscape, 'u' :: a :: b :: c :: d :: e :: cs⟩
      | some m =>
        if 0xDC00 ≤ m ∧ m < 0xE000 then
          .ok (Char.ofNat (0x10000 + (n - 0xD800) * 0x400 + (m - 0xDC00)), 6)
        else .ok ('\ufffd', 0)
    | _ => .ok ('\ufffd', 0)
  else if 0xDC00 ≤ n ∧ n < 0xE000 then .ok ('\ufffd', 0)
  else .ok (Char.ofNat n, 0)

/-- The rest of a string whose characters so far are `taken`, last first. `start` is
the text from its opening quote on. A unit escape needs one more character after
its four digits. -/
def string (start taken : List Char) : List Char → Except FaultAt (String × List Char)
  | [] => .error ⟨.unterminatedString, start⟩
  | '"' :: cs => .ok (String.ofList taken.reverse, cs)
  | ['\\'] => .error ⟨.unterminatedString, start⟩
  | '\\' :: 'u' :: a :: b :: c :: d :: e :: cs =>
    match unit? a b c d with
    | none => .error ⟨.unicodeEscape, 'u' :: a :: b :: c :: d :: e :: cs⟩
    | some n =>
      match unitChar n (e :: cs) with
      | .error f => .error f
      | .ok (x, count) => string start (x :: taken) ((e :: cs).drop count)
  | '\\' :: c :: cs =>
    if c = 'u' then .error ⟨.unicodeEscape, c :: cs⟩
    else
      match simpleEscape? c with
      | some x => string start (x :: taken) cs
      | none => .error ⟨.escape, '\\' :: c :: cs⟩
  | c :: cs =>
    if c.toNat < 0x20 then .error ⟨.controlCharacter, c :: cs⟩
    else string start (c :: taken) cs
termination_by cs => cs.length
decreasing_by all_goals simp; try omega

/-- The fraction of a number, which has at least one digit, and what follows. -/
def fraction : List Char → List Char × List Char
  | '.' :: cs =>
    if cs.takeWhile Char.isDigit = [] then ([], '.' :: cs)
    else ('.' :: cs.takeWhile Char.isDigit, cs.dropWhile Char.isDigit)
  | cs => ([], cs)

/-- The exponent of a number, which has at least one digit, and what follows. -/
def exponent : List Char → List Char × List Char
  | e :: cs =>
    if e = 'e' ∨ e = 'E' then
      let sign := match cs with
        | '+' :: _ => ['+']
        | '-' :: _ => ['-']
        | _ => []
      let cs' := cs.drop sign.length
      if cs'.takeWhile Char.isDigit = [] then ([], e :: cs)
      else (e :: sign ++ cs'.takeWhile Char.isDigit, cs'.dropWhile Char.isDigit)
    else ([], e :: cs)
  | [] => ([], [])

/-- The whole part of a number without its sign, and what follows. -/
def wholePart? : List Char → Option (List Char × List Char)
  | '0' :: cs => some (['0'], cs)
  | cs =>
    if cs.takeWhile Char.isDigit = [] then none
    else some (cs.takeWhile Char.isDigit, cs.dropWhile Char.isDigit)

/-- A number at the front of `cs`. -/
def number (cs : List Char) : Except FaultAt (Json × List Char) :=
  let (sign, unsigned) := match cs with
    | '-' :: r => (['-'], r)
    | r => ([], r)
  match wholePart? unsigned with
  | none => .error ⟨.value, cs⟩
  | some (digits, r) =>
    let (frac, r) := fraction r
    let (exp, r) := exponent r
    if frac = [] ∧ exp = [] then
      if digits.length ≤ Numeral.digitLimit then
        let n : Int := Text.ofDigits (digits.filterMap Text.asciiDigit?)
        .ok (.int (if sign = [] then n else -n), r)
      else .error ⟨.tooManyDigits digits.length, cs⟩
    else .ok (.real ((Numeral.real? (sign ++ digits ++ frac ++ exp)).getD ""), r)

/-- What follows `word` at the front of `cs`. -/
def after? : (word cs : List Char) → Option (List Char)
  | [], cs => some cs
  | w :: ws, c :: cs => if w = c then after? ws cs else none
  | _ :: _, [] => none

/-- The words that are values. -/
def words : List (String × Json) :=
  [("null", .null), ("true", .bool true), ("false", .bool false), ("NaN", .real "nan"),
    ("Infinity", .real "inf"), ("-Infinity", .real "-inf")]

/-- A word or a number. -/
def scalar (cs : List Char) : Except FaultAt (Json × List Char) :=
  match words.findSome? fun w => (after? w.1.toList cs).map fun r => (w.2, r) with
  | some found => .ok found
  | none => number cs

/-- The fields of an object read so far with one more. A field that is there already
takes the new value and keeps its place. -/
def putField (fs : List (String × Json)) (k : String) (x : Json) : List (String × Json) :=
  if fs.any (·.1 == k) then fs.map fun f => if f.1 == k then (k, x) else f else fs ++ [(k, x)]

mutual

/-- A value at the front. The number bounds how many values, items and fields may be
entered one inside or after the other. -/
def value : Nat → List Char → Except FaultAt (Json × List Char)
  | 0, cs => .error ⟨.value, cs⟩
  | n + 1, cs =>
    match cs with
    | '"' :: r => do
      let (s, r) ← string cs [] r
      return (.str s, r)
    | '[' :: r =>
      match skip r with
      | ']' :: r' => .ok (.arr [], r')
      | r' => items n [] r'
    | '\x7b' :: r =>
      match skip r with
      | '\x7d' :: r' => .ok (.obj [], r')
      | r' => fields n [] r'
    | _ => scalar cs

/-- The items of an array from a value on. -/
def items : Nat → List Json → List Char → Except FaultAt (Json × List Char)
  | 0, _, cs => .error ⟨.value, cs⟩
  | n + 1, done, cs => do
    let (x, r) ← value n cs
    match skip r with
    | ']' :: r' => return (.arr (done ++ [x]), r')
    | ',' :: r' => items n (done ++ [x]) (skip r')
    | r' => .error ⟨.comma, r'⟩

/-- The fields of an object from a name on. -/
def fields : Nat → List (String × Json) → List Char → Except FaultAt (Json × List Char)
  | 0, _, cs => .error ⟨.value, cs⟩
  | n + 1, done, cs =>
    match cs with
    | '"' :: r => do
      let (k, r) ← string cs [] r
      match skip r with
      | ':' :: r' =>
        let (x, r) ← value n (skip r')
        match skip r with
        | '\x7d' :: r' => return (.obj (putField done k x), r')
        | ',' :: r' => fields n (putField done k x) (skip r')
        | r' => .error ⟨.comma, r'⟩
      | r' => .error ⟨.colon, r'⟩
    | _ => .error ⟨.propertyName, cs⟩

end

/-- The one value of a text, which may have blanks around it. -/
def readChars (cs : List Char) : Except FaultAt Json :=
  match cs with
  | '\ufeff' :: _ => .error ⟨.byteOrderMark, cs⟩
  | _ => do
    let (x, r) ← value (2 * cs.length + 2) (skip cs)
    match skip r with
    | [] => return x
    | r' => .error ⟨.extraData, r'⟩

end Json

/-- Why a text is no JSON value, with the place counted in characters from the start
of the text, and with its line and column. -/
structure JsonError where
  fault : Json.Fault
  offset : Nat
  line : Nat
  column : Nat
  deriving DecidableEq, Repr

namespace Json

def Fault.message : Fault → String
  | .value => "Expecting value"
  | .comma => "Expecting ',' delimiter"
  | .colon => "Expecting ':' delimiter"
  | .propertyName => "Expecting property name enclosed in double quotes"
  | .unterminatedString => "Unterminated string starting at"
  | .controlCharacter => "Invalid control character at"
  | .escape => "Invalid \\escape"
  | .unicodeEscape => "Invalid \\uXXXX escape"
  | .extraData => "Extra data"
  | .byteOrderMark => "Unexpected UTF-8 BOM (decode using utf-8-sig)"
  | .tooManyDigits count =>
    "Exceeds the limit (" ++ toString Numeral.digitLimit ++
      " digits) for integer string conversion: value has " ++ toString count ++
      " digits; use sys.set_int_max_str_digits() to increase the limit"

/-- Lines and columns count from one. -/
def FaultAt.locate (text : List Char) (f : FaultAt) : JsonError :=
  let before := text.take (text.length - f.rest.length)
  { fault := f.fault
    offset := before.length
    line := before.count '\n' + 1
    column := (before.reverse.takeWhile (· != '\n')).length + 1 }

def read (text : String) : Except JsonError Json :=
  (readChars text.toList).mapError (FaultAt.locate text.toList)

end Json

def JsonError.message (e : JsonError) : String :=
  e.fault.message ++ ": line " ++ toString e.line ++ " column " ++ toString e.column ++
    " (char " ++ toString e.offset ++ ")"

end NilGuard
