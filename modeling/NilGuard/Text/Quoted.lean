import NilGuard.Text.Printable
/-! Quoted text, the way messages show a piece of the input. The quotation mark is an
apostrophe unless the text holds an apostrophe and no double quote. Backslash, the
mark, tab, newline and carriage return have short escapes; other unprintable
characters are written by code point in two, four or eight hexadecimal digits. -/
namespace NilGuard.Text

/-- The last `width` hexadecimal digits of a number, in lower case. -/
def hex : (width n : Nat) → List Char
  | 0, _ => []
  | width + 1, n => hex width (n / 16) ++ [Nat.digitChar (n % 16)]

/-- One character inside quotation marks `mark`. -/
def quotedChar (mark c : Char) : List Char :=
  let n := c.toNat
  if c = mark ∨ c = '\\' then ['\\', c]
  else if c = '\t' then ['\\', 't']
  else if c = '\n' then ['\\', 'n']
  else if c = '\r' then ['\\', 'r']
  else if isPrintable c then [c]
  else if n < 0x100 then '\\' :: 'x' :: hex 2 n
  else if n < 0x10000 then '\\' :: 'u' :: hex 4 n
  else '\\' :: 'U' :: hex 8 n

/-- The mark that avoids an escape where one of the two does. -/
def quotationMark (cs : List Char) : Char :=
  if cs.contains '\'' && !cs.contains '"' then '"' else '\''

def quoted (s : String) : String :=
  let mark := quotationMark s.toList
  String.ofList (mark :: s.toList.flatMap (quotedChar mark) ++ [mark])

end NilGuard.Text
