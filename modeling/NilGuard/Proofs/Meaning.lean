import NilGuard.Proofs.Header
/-! What the statements of a body stand for. The instructions of a statement are those of its
operands from left to right and then its own, whenever the lets that it names are evaluated. -/
namespace NilGuard

/-- The variable of a package. -/
def Program.global? (p : Program) (path name : String) : Option Value :=
  (p.package? path).bind (·.globals.find? name)

/-- The constant of a package. -/
def Program.const? (p : Program) (path name : String) : Option Value :=
  (p.package? path).bind (·.consts.find? name)

/-- A value of a kind that was made under a name. A conversion converts the first operand. -/
structure Value.IsMade (name : String) (length : Int) (kind : Kind) (operands : List Value)
    (v : Value) : Prop where
  name : v.tag.name = name
  length : v.tag.length = length
  kind : v.kind = kind
  inner : ∀ u, v.inner? = some u → operands.head? = some u

namespace Dump

/-- Where names are looked up: the values of parameters and lets, and the package. -/
structure Scope where
  names : Table Value
  program : Program
  package : String

/-- The function that a call or a reference names. -/
def functionOf (form : Form) : Callee where
  package := Shape.argText form 0
  name := Shape.argText form 1

/-- The method that a call names. -/
def methodOf (form : Form) : Callee where
  package := Shape.argText form 0
  name := Shape.argText form 2
  receiver := some (Shape.argText form 1)

/-- The literal of a constant with the given arguments, and whether it is nil. -/
def literalOf : List Form → Bool × String
  | [] => (true, "nil")
  | x :: _ => if x.isNil then (true, "nil") else (false, x.text)

namespace Scope

variable (sc : Scope)

/-- The value of a name that is neither a parameter nor a let. -/
def IsOuter (name : String) (v : Value) : Prop :=
  if name = "nil" then v.IsMade "nil" 0 (.leaf (.const true "nil")) []
  else sc.program.global? sc.package name = some v ∨ sc.program.const? sc.package name = some v

/-- The value of a form that is not a list. -/
def Denotes : Form → Value → Prop
  | .int n, v => v.IsMade (toString n) 0 (.leaf (.const false (toString n))) []
  | .real t, v => v.IsMade t 0 (.leaf (.const false t)) []
  | .str s, v => v.IsMade ("\"" ++ s ++ "\"") 0 (.leaf (.const false s)) []
  | .sym name, v =>
    sc.names.find? name = some v ∨ sc.names.find? name = none ∧ sc.IsOuter name v
  | .list _, _ => False

/-- The value of an expression and its own instruction, given the values of its operands. A
constant, a variable and a function have no instruction. The operands of a phi are values that
names and literals stand for, as long as it has no others. -/
def Makes (form : Form) (name : String) (location : Location) (values : List Value) (v : Value)
    (own : List Instr) : Shape → Prop
  | .const =>
    v.IsMade (if name = "" then (literalOf (form.items.drop 1)).2 else name) 0
      (.leaf (.const (literalOf (form.items.drop 1)).1 (literalOf (form.items.drop 1)).2)) [] ∧
    own = []
  | .global =>
    sc.program.global? (Shape.argText form 0) (Shape.argText form 1) = some v ∧ own = []
  | .funcRef =>
    v.IsMade (if name = "" then (functionOf form).text else name) 0 (.leaf .funcRef) [] ∧ own = []
  | .simple kind =>
    v.IsMade name 0 kind values ∧ own = [{ location, op := .define v (values.map some) }]
  | .fieldAddr =>
    v.IsMade name 0 (.leaf .fieldAddr) values ∧
    own = [{ location, op := .define v (values.map some) }]
  | .arrayPtr =>
    v.IsMade name ((((form.items.drop 1)[1]?).bind Form.int?).getD 0)
      (.converted .sliceToArrayPtr) values ∧
    own = [{ location, op := .define v (values.map some) }]
  | .closure =>
    v.IsMade name 0 (.leaf .makeClosure) values ∧
    own = [{ location, op := .define v (values.map some) }]
  | .single _ =>
    v.IsMade name 0 (.leaf .other) values ∧
    own = [{ location, op := .define v (values.map some) }]
  | .phi =>
    v.IsMade name 0 (.leaf .other) [] ∧
    ∃ operands, own = [{ location, op := .define v (operands.map some) }] ∧
      ((∀ x ∈ form.items.drop 1, ∀ items, x ≠ .list items) →
        List.Forall₂ sc.Denotes (form.items.drop 1) operands)
  | .binop =>
    v.IsMade name 0 (.leaf .other) [] ∧
    own = [{ location, op := .binary v (Shape.argText form 0) (values[0]?) (values[1]?) }]
  | .call =>
    v.IsMade name 0 (.leaf .other) [] ∧
    own = [{ location, op := .call v (some (functionOf form)) (values.map some) }]
  | .callMethod =>
    v.IsMade name 0 (.leaf .other) [] ∧
    own = [{ location, op := .call v (some (methodOf form)) (values.map some) }]
  | .callDynamic =>
    v.IsMade name 0 (.leaf .other) [] ∧
    own = [{ location, op := .call v none ((values.drop 1).map some) }]

mutual

/-- The value of a form under a name and at a place, and the instructions that compute it. -/
inductive Yields : String → Location → Form → Value → List Instr → Prop where
  | atom {name : String} {location : Location} {x : Form} {v : Value} :
      sc.Denotes x v → Yields name location x v []
  | list {name : String} {location : Location} {items : List Form} {head : String} {shape : Shape}
      {values : List Value} {v : Value} {is own : List Instr} :
      (Form.list items).head? = some head → Shape.ofHead? head = some shape →
      YieldsAll (shape.inline ((withoutPosition items).drop 1)) values is →
      sc.Makes (.list (withoutPosition items)) name (placed items location) values v own shape →
      Yields name location (.list items) v (is ++ own)

/-- The values of operands, and their instructions from left to right. -/
inductive YieldsAll : List Form → List Value → List Instr → Prop where
  | nil : YieldsAll [] [] []
  | cons {x : Form} {xs : List Form} {v : Value} {vs : List Value} {is js : List Instr} :
      Yields "" {} x v is → YieldsAll xs vs js → YieldsAll (x :: xs) (v :: vs) (is ++ js)

end

/-- The instructions of a statement. -/
inductive Performs : Form → List Instr → Prop where
  | binding {stmt x : Form} {v : Value} {is : List Instr} :
      stmt.head? = some "let" → letExpression? stmt = some x →
      sc.names.find? (letName stmt) = some v →
      sc.Yields (letName stmt) (locationOf stmt.items) x v is → Performs stmt is
  | ending {stmt : Form} {head : String} {ending : Ending} {values : List Value}
      {is : List Instr} :
      stmt.head? = some head → Ending.ofHead? head = some ending →
      ending.takes ((withoutPosition stmt.items).drop 1).length = true →
      sc.YieldsAll (ending.operands ((withoutPosition stmt.items).drop 1)) values is →
      Performs stmt (is ++ [{ location := locationOf stmt.items, op := ending.op values }])
  | expression {stmt : Form} {head : String} {shape : Shape} {v : Value} {is : List Instr} :
      stmt.head? = some head → Shape.ofHead? head = some shape →
      sc.Yields "" (locationOf stmt.items) (.list (withoutPosition stmt.items)) v is →
      Performs stmt is

end Scope

end Dump

end NilGuard
