import NilGuard.Program.Function
import NilGuard.Program.Table
/-! Programs: packages with their functions, types, variables and constants. -/
namespace NilGuard

structure Package where
  path : String
  functions : Table Function := {}
  /-- The methods of each type. -/
  types : Table (Table Function) := {}
  globals : Table Value := {}
  consts : Table Value := {}
  deriving DecidableEq, Repr

/-- What a name of a package stands for. -/
inductive Member where
  | function (fn : Function)
  | type
  | variable
  | constant
  deriving DecidableEq, Repr

namespace Package

/-- Functions come before types, types before variables and variables before
constants of the same name. -/
def member? (p : Package) (name : String) : Option Member :=
  match p.functions.find? name with
  | some fn => some (.function fn)
  | none =>
    if p.types.contains name then some .type
    else if p.globals.contains name then some .variable
    else if p.consts.contains name then some .constant
    else none

/-- The function or method of a package. -/
def function? (p : Package) (c : Callee) : Option Function :=
  match c.receiver with
  | none => p.functions.find? c.name
  | some r => (p.types.find? r).bind (·.find? c.name)

/-- Puts a function in under its name, or a method under its type and name. The type
is added if it is not there. -/
def addFunction (p : Package) (fn : Function) : Package :=
  match fn.callee.receiver with
  | none => { p with functions := p.functions.insert fn.callee.name fn }
  | some r =>
    { p with types := (p.types.insertIfNew r {}).modify r fun ms => ms.insert fn.callee.name fn }

def modifyFunction (p : Package) (c : Callee) (f : Function → Function) : Package :=
  match c.receiver with
  | none => { p with functions := p.functions.modify c.name f }
  | some r => { p with types := p.types.modify r fun ms => ms.modify c.name f }

/-- Functions first, then the methods type by type. -/
def allFunctions (p : Package) : List Function :=
  p.functions.values ++ p.types.values.flatMap Table.values

end Package

/-- A program and the number that the next value gets. -/
structure Program where
  packages : Table Package := {}
  nextId : Nat := 0
  deriving DecidableEq, Repr

namespace Program

def package? (p : Program) (path : String) : Option Package := p.packages.find? path

def addPackage (p : Program) (path : String) : Program :=
  { p with packages := p.packages.insertIfNew path { path } }

def modifyPackage (p : Program) (path : String) (f : Package → Package) : Program :=
  { p with packages := p.packages.modify path f }

/-- The functions with a body, package by package. -/
def functions (p : Program) : List Function :=
  (p.packages.values.flatMap Package.allFunctions).filter Function.hasBody

end Program

end NilGuard
