import NilGuard.Text.Quoted
/-! JSON values. The fields of an object keep the order in which they are written. A
number that is not an integer is kept as its text. -/
namespace NilGuard

inductive Json where
  | null
  | bool (value : Bool)
  | int (value : Int)
  | real (text : String)
  | str (text : String)
  | arr (items : List Json)
  | obj (fields : List (String × Json))
  deriving Repr, Inhabited, BEq

namespace Json

mutual

/-- A value as messages about target files show it. -/
def shown : Json → String
  | .null => "None"
  | .bool true => "True"
  | .bool false => "False"
  | .int n => toString n
  | .real t => t
  | .str s => Text.quoted s
  | .arr xs => "[" ++ ", ".intercalate (shownItems xs) ++ "]"
  | .obj fs => "\x7b" ++ ", ".intercalate (shownFields fs) ++ "\x7d"

def shownItems : List Json → List String
  | [] => []
  | x :: xs => shown x :: shownItems xs

def shownFields : List (String × Json) → List String
  | [] => []
  | (k, x) :: fs => (Text.quoted k ++ ": " ++ shown x) :: shownFields fs

end

mutual

/-- The integers in a value. -/
def integers : Json → List Int
  | .int n => [n]
  | .arr xs => itemIntegers xs
  | .obj fs => fieldIntegers fs
  | _ => []

def itemIntegers : List Json → List Int
  | [] => []
  | x :: xs => integers x ++ itemIntegers xs

def fieldIntegers : List (String × Json) → List Int
  | [] => []
  | (_, x) :: fs => integers x ++ fieldIntegers fs

end

/-- The value of a field. -/
def field? (name : String) : Json → Option Json
  | .obj fs => fs.lookup name
  | _ => none

end Json

end NilGuard
