import NilGuard.Form.Reader
/-! Why a dump does not load. Most causes have a message that shows the form at fault;
a few inputs have no sense at all as a program and no message of their own. -/
namespace NilGuard

/-- What is wrong with a form of a dump. -/
inductive Problem where
  | notAProgram
  | notAPackage
  | notAMethod
  | unknownMember
  | declaredTwice (name : String)
  | unknownItem
  | badPosition
  | noBlockIndex
  | blockIndices (last : Int)
  | unknownSuccessor (item : Form)
  | badLet
  | assignedTwice (name : String)
  | dependsOnItself (name : String)
  | badIf
  | badStore
  | unknownStatement
  | undefinedName (name : String)
  | unknownExpression
  | noOperand (head : String)
  | badArrayLength
  | arity (head : String) (atLeast : Bool) (count : Nat)
  | successorCount (block count : Nat)
  deriving Repr

def Problem.message : Problem → String
  | .notAProgram => "expected a (program ...) form"
  | .notAPackage => "expected (package PATH ...)"
  | .notAMethod => "expected (method NAME ...)"
  | .unknownMember => "unknown package member"
  | .declaredTwice name => name ++ " is declared more than once"
  | .unknownItem => "unknown function item"
  | .badPosition => "pos takes FILE LINE [COLUMN]"
  | .noBlockIndex => "block needs an integer index"
  | .blockIndices last => "block indices must be 0.." ++ toString last
  | .unknownSuccessor item => "unknown successor " ++ item.shown
  | .badLet => "let needs a name and an expression"
  | .assignedTwice name => name ++ " is assigned more than once"
  | .dependsOnItself name => name ++ " depends on itself"
  | .badIf => "if takes one condition"
  | .badStore => "store takes an address and a value"
  | .unknownStatement => "unknown statement"
  | .undefinedName name => "undefined name " ++ name
  | .unknownExpression => "unknown expression"
  | .noOperand head => head ++ " needs an operand"
  | .badArrayLength => "array length must be a non-negative integer"
  | .arity head atLeast count =>
    head ++ " takes " ++ (if atLeast then "at least " else "") ++ toString count ++ " argument(s)"
  | .successorCount block count =>
    "block " ++ toString block ++ " ends in if but has " ++ toString count ++ " successor(s)"

/-- Why a dump does not load. -/
inductive LoadError where
  /-- The text is not one datum. -/
  | unreadable (error : ReadError)
  /-- A form is at fault, in a function if one is named. -/
  | refused (function : Option String) (problem : Problem) (form : Option Form)
  /-- A quoted datum stands outside brackets. -/
  | quotedDatum
  /-- A list that starts with no word stands where a value is needed. -/
  | listWithoutHead
  /-- A number stands where a statement is needed. -/
  | numberAsStatement
  /-- A let has a position in place of its expression. -/
  | letWithoutExpression
  deriving Repr

/-- The message about a dump that came from `source`, which is left out when it is
empty. The last four causes have none. -/
def LoadError.message? (source : String) (e : LoadError) : Option String :=
  let origin := if source = "" then "" else source ++ ": "
  match e with
  | .unreadable error => some (origin ++ "failed to parse S-expression: " ++ error.message)
  | .refused function problem form =>
    let place := match function with
      | some name => name ++ ": "
      | none => ""
    let shown := match form with
      | some f => " (in " ++ f.shown ++ ")"
      | none => ""
    some (origin ++ place ++ problem.message ++ shown)
  | _ => none

end NilGuard
