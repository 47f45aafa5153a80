import NilGuard.Dump.Body
/-! Loading of dumps. First every member of every package is declared, then the bodies
are loaded in the order of their declarations. A dump is added to what the program
holds already, and what a failed dump has added stays. -/
namespace NilGuard

namespace Dump

/-- A declared function whose body is still to be loaded. -/
structure Pending where
  function : Function
  blocks : List Form

structure Declared where
  program : Program
  pending : List Pending := []

abbrev DeclareM := EStateM LoadError Declared

def refuse {α : Type} (problem : Problem) (form : Option Form) : DeclareM α :=
  throw (.refused none problem form)

def freshValue (name : String) (origin : Origin) : DeclareM Value := do
  let s ← get
  let id := s.program.nextId
  set { s with program := { s.program with nextId := id + 1 } }
  return .leaf { id, name } origin

def modifyPackage (path : String) (f : Package → Package) : DeclareM Unit :=
  modify fun s => { s with program := s.program.modifyPackage path f }

def declareGlobal (path name : String) : DeclareM Unit := do
  match ((← get).program.package? path).bind (·.globals.find? name) with
  | some _ => return ()
  | none =>
    let v ← freshValue (path ++ "." ++ name) .global
    modifyPackage path fun p => { p with globals := p.globals.insert name v }

/-- A constant without a literal is nil. A constant that is there already is replaced. -/
def declareConst (path name : String) (literal : Option Form) : DeclareM Unit := do
  let origin := match literal with
    | none => Origin.const true "nil"
    | some x => if x.isNil then .const true "nil" else .const false x.text
  let v ← freshValue (match literal with
    | none => if name = "" then "nil" else name
    | some x => if x.isNil && name = "" then "nil" else name) origin
  modifyPackage path fun p => { p with consts := p.consts.insert name v }

/-- The items of a function: its position, parameters, free variables and blocks. -/
def readItems : Pending → List Form → DeclareM Pending
  | f, [] => return f
  | f, item :: rest => do
    match item.head? with
    | some "pos" =>
      match location? item with
      | some location => readItems { f with function := { f.function with location } } rest
      | none => refuse .badPosition (some item)
    | some "params" =>
      let vs ← (item.items.drop 1).mapM fun x => freshValue x.text .other
      readItems { f with function := { f.function with params := f.function.params ++ vs } } rest
    | some "free-vars" =>
      let vs ← (item.items.drop 1).mapM fun x => freshValue x.text .freeVar
      readItems { f with function := { f.function with freeVars := f.function.freeVars ++ vs } } rest
    | some "block" => readItems { f with blocks := f.blocks ++ [item] } rest
    | _ => throw (.refused (some f.function.name) .unknownItem (some item))

/-- Declares a function or method, which must not be there already. -/
def declareFunction (callee : Callee) (items : List Form) : DeclareM Unit := do
  match ((← get).program.package? callee.package).bind (·.function? callee) with
  | some _ => refuse (.declaredTwice callee.text) none
  | none =>
    let f ← readItems { function := { callee }, blocks := [] } items
    modifyPackage callee.package (·.addFunction f.function)
    if !f.blocks.isEmpty then modify fun s => { s with pending := s.pending ++ [f] }

def declareMethods (path type : String) : List Form → DeclareM Unit
  | [] => return ()
  | m :: rest => do
    match m.head?, m.items with
    | some "method", _ :: name :: items =>
      declareFunction { package := path, name := name.text, receiver := some type } items
    | _, _ => refuse .notAMethod (some m)
    declareMethods path type rest

def declareMember (path : String) (member : Form) : DeclareM Unit := do
  match member.head?, member.items with
  | some "global", [_, name] => declareGlobal path name.text
  | some "const", [_, name] => declareConst path name.text none
  | some "const", [_, name, literal] => declareConst path name.text (some literal)
  | some "type", _ :: name :: methods =>
    modifyPackage path fun p => { p with types := p.types.insertIfNew name.text {} }
    declareMethods path name.text methods
  | some "func", _ :: name :: items => declareFunction { package := path, name := name.text } items
  | some "method", _ :: type :: name :: items =>
    declareFunction { package := path, name := name.text, receiver := some type.text } items
  | _, _ => refuse .unknownMember (some member)

def declarePackage (form : Form) : DeclareM Unit := do
  match form.head?, form.items with
  | some "package", _ :: path :: members =>
    modify fun s => { s with program := s.program.addPackage path.text }
    members.forM (declareMember path.text)
  | _, _ => refuse .notAPackage (some form)

def declareProgram (form : Form) : DeclareM Unit :=
  if form.head? = some "program" then (form.items.drop 1).forM declarePackage
  else refuse .notAProgram none

/-- A program after a dump was added to it, the functions whose bodies were loaded in
order, and why the loading stopped if it did. -/
structure Loaded where
  program : Program
  functions : List Function := []
  error : Option LoadError := none

def loadBodies (program : Program) : List Pending → Loaded
  | [] => { program }
  | f :: rest =>
    match loadBody program f.function f.blocks with
    | (program', .error e) => { program := program', error := some e }
    | (program', .ok fn) =>
      let loaded := loadBodies program' rest
      { loaded with functions := fn :: loaded.functions }

def loadForm (program : Program) (form : Form) : Loaded :=
  match declareProgram form { program } with
  | .error e s => { program := s.program, error := some e }
  | .ok _ s => loadBodies s.program s.pending

end Dump

/-- Adds a dump to a program. -/
def Program.load (program : Program) (text : String) : Dump.Loaded :=
  match Datum.read text with
  | .error e => { program, error := some (.unreadable e) }
  | .ok datum =>
    match datum.form? with
    | none => { program, error := some .quotedDatum }
    | some form => Dump.loadForm program form

end NilGuard
