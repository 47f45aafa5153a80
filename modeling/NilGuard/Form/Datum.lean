import NilGuard.Form.Basic
/-! What the reader of dumps finds before it is a form: besides lists in parentheses
there are lists in square brackets and quoted data. A bracketed list becomes one
symbol that spells it out. Quoted data outside brackets has no form. -/
namespace NilGuard

inductive Datum where
  | int (value : Int)
  | real (text : String)
  | sym (name : String)
  | str (text : String)
  | list (items : List Datum)
  | brackets (items : List Datum)
  | quote (item : Datum)
  deriving Repr, Inhabited

namespace Datum

mutual

/-- A datum spelled out, as it appears in the symbol of a bracketed list. -/
def spelled : Datum → String
  | .int n => toString n
  | .real t => t
  | .sym s => "Symbol(" ++ Text.quoted s ++ ")"
  | .str s => Text.quoted s
  | .list xs => "[" ++ ", ".intercalate (spelledAll xs) ++ "]"
  | .brackets xs => "Brackets(I=[" ++ ", ".intercalate (spelledAll xs) ++ "])"
  | .quote x => "Quoted(" ++ spelled x ++ ")"

def spelledAll : List Datum → List String
  | [] => []
  | x :: xs => spelled x :: spelledAll xs

end

mutual

/-- The form of a datum without quoted data outside brackets. -/
def form? : Datum → Option Form
  | .int n => some (.int n)
  | .real t => some (.real t)
  | .sym s => some (.sym s)
  | .str s => some (.str s)
  | .list xs => (formAll? xs).map .list
  | .brackets xs => some (.sym (spelled (.brackets xs)))
  | .quote _ => none

def formAll? : List Datum → Option (List Form)
  | [] => some []
  | x :: xs => do
    let f ← form? x
    let fs ← formAll? xs
    return f :: fs

end

end Datum

end NilGuard
