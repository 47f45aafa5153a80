import NilGuard.Dump.Error
import NilGuard.Program.Basic
/-! Expressions of function bodies. An expression gives a value and the instructions that
compute it, those of its operands first. Names are resolved by a function that is
handed in, since a name may stand for a let that is still to be evaluated. The
operands of a phi are put off until all names have values. -/
namespace NilGuard.Dump

/-- A phi whose operands are put off, with the form that messages show. -/
structure Phi where
  value : Value
  operands : List Form
  form : Form

/-- What the loading of a body has come to: the program with what it declares, the
blocks so far, the values of names, the instructions of the lets that have been
evaluated, the phis that wait, and the operands of those that do not. -/
structure Body where
  program : Program
  blocks : Array Block := #[]
  names : Table Value := {}
  built : Table (List Instr) := {}
  waiting : List Phi := []
  settled : List (Value × List Value) := []

/-- Loading keeps what it has come to when it fails. -/
abbrev BodyM := EStateM LoadError Body

/-- The function whose body is loaded, and its lets by name. -/
structure Context where
  callee : Callee
  lets : Table Form := {}

def Context.refuse {α : Type} (cx : Context) (problem : Problem) (form : Option Form) : BodyM α :=
  throw (.refused (some cx.callee.text) problem form)

/-- The tag of the next value. -/
def freshTag (name : String) (length : Int := 0) : BodyM Tag := do
  let body ← get
  let id := body.program.nextId
  set { body with program := { body.program with nextId := id + 1 } }
  return { id, name, length }

def freshLeaf (name : String) (origin : Origin) : BodyM Value := do
  return .leaf (← freshTag name) origin

/-- The nil constant, called nil unless it is bound to a name. -/
def freshNil (name : String) : BodyM Value :=
  freshLeaf (if name = "" then "nil" else name) (.const true "nil")

def freshConstant (name literal : String) : BodyM Value :=
  freshLeaf name (.const false literal)

/-- The variable of a package. Both are added to the program if they are not there. -/
def globalValue (package name : String) : BodyM Value := do
  modify fun body => { body with program := body.program.addPackage package }
  match ((← get).program.package? package).bind (·.globals.find? name) with
  | some v => return v
  | none =>
    let v ← freshLeaf (package ++ "." ++ name) .global
    modify fun body =>
      { body with
        program := body.program.modifyPackage package fun p =>
          { p with globals := p.globals.insert name v } }
    return v

/-- The place that a position form gives. -/
def location? (form : Form) : Option Location :=
  match form.items with
  | [_, file, .int line] => some { file := file.text, line }
  | [_, file, .int line, .int column] => some { file := file.text, line, column }
  | _ => none

/-- Takes the position off the end of a list that has something before it. -/
def splitPosition (items : List Form) : BodyM (List Form × Location) :=
  match items.getLast? with
  | some last =>
    if 1 < items.length ∧ last.head? = some "pos" then
      match location? last with
      | some l => return (items.dropLast, l)
      | none => throw (.refused none .badPosition (some last))
    else return (items, {})
  | none => return (items, {})

/-- What an expression computes, by the word that it starts with. -/
inductive Shape where
  | const
  | global
  | funcRef
  /-- All arguments are operands. -/
  | simple (kind : Kind)
  | fieldAddr
  | arrayPtr
  | closure
  /-- The argument at this place, counted from one, is the only operand. -/
  | single (place : Nat)
  | phi
  | binop
  | call
  | callMethod
  | callDynamic
  deriving DecidableEq, Repr

def Shape.ofHead? : String → Option Shape
  | "const" => some .const
  | "global" => some .global
  | "func-ref" => some .funcRef
  | "alloc" => some (.simple (.leaf .alloc))
  | "index-addr" => some (.simple (.leaf .indexAddr))
  | "free-var" => some (.simple (.leaf .freeVar))
  | "make-chan" => some (.simple (.leaf .makeChan))
  | "make-map" => some (.simple (.leaf .makeMap))
  | "make-slice" => some (.simple (.leaf .makeSlice))
  | "make-interface" => some (.simple (.leaf .makeInterface))
  | "change-interface" => some (.simple (.converted .changeInterface))
  | "slice" => some (.simple (.converted .slice))
  | "field-addr" => some .fieldAddr
  | "slice-to-array-ptr" => some .arrayPtr
  | "make-closure" => some .closure
  | "type-assert" => some (.single 1)
  | "extract" => some (.single 1)
  | "convert" => some (.single 1)
  | "load" => some (.single 1)
  | "field" => some (.single 1)
  | "unop" => some (.single 2)
  | "phi" => some .phi
  | "binop" => some .binop
  | "call" => some .call
  | "call-method" => some .callMethod
  | "call-dynamic" => some .callDynamic
  | _ => none

/-- A value and the instructions that compute it. -/
abbrev Computed := Value × List Instr

/-- An operand that is still to be evaluated, given the form that messages show. -/
abbrev Operand := Form → BodyM Computed

/-- Evaluates operands from left to right. -/
def evalAll (form : Form) : List Operand → BodyM (List Value × List Instr)
  | [] => return ([], [])
  | x :: xs => do
    let (v, is) ← x form
    let (vs, js) ← evalAll form xs
    return (v :: vs, is ++ js)

/-- Makes the value of an instruction that is neither a call nor an operation on two
values, and adds the instruction after those of its operands. -/
def defineAs (name : String) (length : Int) (location : Location) (make : Tag → Value)
    (operands : List Value × List Instr) : BodyM Computed := do
  let value := make (← freshTag name length)
  return (value, operands.2 ++ [{ location, op := .define value (operands.1.map some) }])

/-- Defines a value of a kind. A conversion without an operand is refused. -/
def define (cx : Context) (form : Form) (head name : String) (length : Int) (location : Location)
    (kind : Kind) (operands : List Value × List Instr) : BodyM Computed :=
  match kind, operands.1 with
  | .leaf o, _ => defineAs name length location (.leaf · o) operands
  | .converted c, v :: _ => defineAs name length location (.converted · c v) operands
  | .converted _, [] => cx.refuse (.noOperand head) (some form)

/-- Refuses a form with the wrong number of arguments. -/
def expect (cx : Context) (form : Form) (head : String) (atLeast : Bool) (count : Nat) :
    BodyM Unit :=
  let got := form.items.length - 1
  if got < count ∨ (¬ atLeast ∧ got ≠ count) then
    cx.refuse (.arity head atLeast count) (some form)
  else return ()

/-- Evaluates a call to a known callee, or a dynamic one. -/
def call (name : String) (location : Location) (callee : Option Callee)
    (args : List Value × List Instr) : BodyM Computed := do
  let value ← freshLeaf name .other
  return (value, args.2 ++ [{ location, op := .call value callee (args.1.map some) }])

/-- Evaluates a form whose position is taken off. Its arguments are given as forms and
as operands. -/
def evalShape (cx : Context) (form : Form) (head : String) (shape : Shape) (name : String)
    (location : Location) (operands : List Operand) : BodyM Computed := do
  let args := form.items.drop 1
  let argText := fun i => ((args[i]?).map Form.text).getD ""
  match shape with
  | .const =>
    match args with
    | [] => return (← freshNil name, [])
    | x :: _ =>
      if x.isNil then return (← freshNil name, [])
      else return (← freshConstant (if name = "" then x.text else name) x.text, [])
  | .global =>
    expect cx form head false 2
    return (← globalValue (argText 0) (argText 1), [])
  | .funcRef =>
    expect cx form head false 2
    let callee : Callee := { package := argText 0, name := argText 1 }
    return (← freshLeaf (if name = "" then callee.text else name) .funcRef, [])
  | .simple kind => define cx form head name 0 location kind (← evalAll form operands)
  | .fieldAddr =>
    expect cx form head true 1
    define cx form head name 0 location (.leaf .fieldAddr) (← evalAll form (operands.take 1))
  | .arrayPtr =>
    expect cx form head false 2
    match (args[1]?).bind Form.int? with
    | some length =>
      if length < 0 then cx.refuse .badArrayLength (some form)
      else
        define cx form head name length location (.converted .sliceToArrayPtr)
          (← evalAll form (operands.take 1))
    | none => cx.refuse .badArrayLength (some form)
  | .closure =>
    expect cx form head true 2
    define cx form head name 0 location (.leaf .makeClosure) (← evalAll form (operands.drop 2))
  | .single place =>
    expect cx form head true place
    define cx form head name 0 location (.leaf .other)
      (← evalAll form ((operands.drop (place - 1)).take 1))
  | .phi =>
    let value ← freshLeaf name .other
    modify fun body => { body with waiting := body.waiting ++ [⟨value, args, form⟩] }
    return (value, [{ location, op := .define value [] }])
  | .binop =>
    expect cx form head false 3
    let ops ← evalAll form ((operands.drop 1).take 2)
    let value ← freshLeaf name .other
    return (value, ops.2 ++
      [{ location, op := .binary value (argText 0) (ops.1[0]?) (ops.1[1]?) }])
  | .call =>
    expect cx form head true 2
    call name location (some { package := argText 0, name := argText 1 })
      (← evalAll form (operands.drop 2))
  | .callMethod =>
    expect cx form head true 4
    call name location
      (some { package := argText 0, name := argText 2, receiver := some (argText 1) })
      (← evalAll form (operands.drop 3))
  | .callDynamic =>
    expect cx form head true 1
    let function ← evalAll form (operands.take 1)
    let args ← evalAll form (operands.drop 1)
    call name location none (args.1, function.2 ++ args.2)

/-- Evaluates a list where a value is needed. `operands` are its items, the word at the
front included, still to be evaluated. A known position of its own comes before
the given one. -/
def evalList (cx : Context) (name : String) (location : Location) (items : List Form)
    (operands : List Operand) : BodyM Computed :=
  match (Form.list items).head? with
  | none => throw .listWithoutHead
  | some head =>
    match Shape.ofHead? head with
    | none => cx.refuse .unknownExpression (some (.list items))
    | some shape => do
      let (items', own) ← splitPosition items
      evalShape cx (.list items') head shape name (if own.isKnown then own else location)
        ((operands.take items'.length).drop 1)

mutual

/-- Evaluates a form as an operand. -/
def evalOperand (cx : Context) (resolve : String → Form → BodyM Value) : Form → Operand
  | .int n, _ => return (← freshConstant (toString n) (toString n), [])
  | .real t, _ => return (← freshConstant t t, [])
  | .str s, _ => return (← freshConstant ("\"" ++ s ++ "\"") s, [])
  | .sym s, form => return (← resolve s form, [])
  | .list items, _ => evalList cx "" {} items (evalOperands cx resolve items)

def evalOperands (cx : Context) (resolve : String → Form → BodyM Value) :
    List Form → List Operand
  | [] => []
  | x :: xs => evalOperand cx resolve x :: evalOperands cx resolve xs

end

/-- Evaluates the expression of a let, which takes its name and position. -/
def evalBound (cx : Context) (resolve : String → Form → BodyM Value) (name : String)
    (location : Location) (form : Form) : BodyM Computed :=
  match form with
  | .list items => evalList cx name location items (evalOperands cx resolve items)
  | _ => evalOperand cx resolve form form

end NilGuard.Dump
