import NilGuard.Numeral.Integer
/-! Places in source files. -/
namespace NilGuard

/-- A place in a source file. Line zero or below says that the place is not known; column
zero says that the column is not. -/
structure Location where
  file : String := ""
  line : Int := 0
  column : Int := 0
  deriving DecidableEq, Repr, Inhabited

namespace Location

def isKnown (l : Location) : Bool := 0 < l.line

/-- The place as reports show it, if its numbers have numerals. A place that is not known
shows its file alone, or a dash when there is no file either. -/
def text? (l : Location) : Option String :=
  if l.isKnown then do
    let line ← Numeral.text? l.line
    if l.column = 0 then return l.file ++ ":" ++ line
    let column ← Numeral.text? l.column
    return l.file ++ ":" ++ line ++ ":" ++ column
  else some (if l.file = "" then "-" else l.file)

end Location

end NilGuard
