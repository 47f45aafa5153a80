import NilGuard.Text.Quoted
/-! Forms, the trees that dumps are made of: numbers, symbols, quoted strings and lists.
A number that is not an integer is kept as its text, since dumps never compute with
it. -/
namespace NilGuard

inductive Form where
  | int (value : Int)
  | real (text : String)
  | sym (name : String)
  | str (text : String)
  | list (items : List Form)
  deriving Repr, Inhabited, BEq

namespace Form

mutual

/-- A form as messages show it. Symbols and strings look alike. -/
def shown : Form → String
  | .int n => toString n
  | .real t => t
  | .sym s => Text.quoted s
  | .str s => Text.quoted s
  | .list xs => "[" ++ ", ".intercalate (shownAll xs) ++ "]"

def shownAll : List Form → List String
  | [] => []
  | x :: xs => shown x :: shownAll xs

end

/-- The name, path or literal that a form stands for: its own text for a symbol or a
string, and the shown form otherwise. -/
def text : Form → String
  | .sym s => s
  | .str s => s
  | x => x.shown

/-- The text of a symbol or of a string. -/
def word? : Form → Option String
  | .sym s => some s
  | .str s => some s
  | _ => none

def int? : Form → Option Int
  | .int n => some n
  | _ => none

/-- The word that a list starts with. It says what the list is for. -/
def head? : Form → Option String
  | .list (x :: _) => x.word?
  | _ => none

/-- The items of a list, and nothing for any other form. -/
def items : Form → List Form
  | .list xs => xs
  | _ => []

/-- Only the symbol is the nil literal; a quoted string is not. -/
def isNil : Form → Bool
  | .sym s => s == "nil"
  | _ => false

mutual

/-- How deep lists are nested in a form. -/
def depth : Form → Nat
  | .list xs => depthAll xs + 1
  | _ => 0

def depthAll : List Form → Nat
  | [] => 0
  | x :: xs => max (depth x) (depthAll xs)

end

end Form

end NilGuard
