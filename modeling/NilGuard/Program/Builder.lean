import NilGuard.Flow.Link
/-! Building functions step by step. Values are numbered from zero in the order in which
they are made. -/
namespace NilGuard

structure Builder where
  function : Function
  nextId : Nat := 0
  deriving Repr

/-- Why an instruction cannot be added: a conversion lists no operands, or the operand
that it converts is left open. -/
inductive BuildError where
  | noOperands
  | value (error : ValueError)
  deriving DecidableEq, Repr

namespace Builder

def modifyBlock (b : Builder) (block : Nat) (f : Block → Block) : Builder :=
  { b with function := { b.function with blocks := b.function.blocks.modify block f } }

/-- Adds a block at the end. The places of the removed blocks move up to make room. -/
def newBlock (b : Builder) (comment : String) : Builder :=
  let fn := b.function
  let size := fn.blocks.size
  let block : Block := { index := size, comment }
  let moved := Block.relocate fun place => if place < size then place else place + 1
  { b with
    function :=
      { fn with blocks := (fn.blocks.map moved).push block, removed := fn.removed.map moved } }

/-- Removes the last block. It keeps its place, and edges to it stay. -/
def dropLastBlock (b : Builder) : Builder :=
  let fn := b.function
  { b with
    function :=
      { fn with blocks := fn.blocks.pop, removed := fn.blocks.back?.toList ++ fn.removed } }

/-- Makes a value that no instruction defines. -/
def leaf (b : Builder) (name : String) (origin : Origin) : Value × Builder :=
  (.leaf { id := b.nextId, name } origin, { b with nextId := b.nextId + 1 })

def param (b : Builder) (name : String) : Value × Builder :=
  let (v, b) := b.leaf name .other
  (v, { b with function := { b.function with params := b.function.params ++ [v] } })

def freeVar (b : Builder) (name : String) : Value × Builder :=
  let (v, b) := b.leaf name .freeVar
  (v, { b with function := { b.function with freeVars := b.function.freeVars ++ [v] } })

def append (b : Builder) (block : Nat) (i : Instr) : Builder :=
  b.modifyBlock block fun x => { x with instrs := x.instrs ++ [i] }

/-- Adds an instruction that defines a value of a kind. A conversion converts its first
operand. -/
def define (b : Builder) (block : Nat) (kind : Kind) (name : String)
    (operands : List (Option Value)) (length : Int) (location : Location) :
    Except BuildError (Value × Builder) :=
  match kind, operands with
  | .converted _, [] => .error .noOperands
  | _, _ =>
    match Value.make kind { id := b.nextId, name, length } operands.head?.join with
    | .error e => .error (.value e)
    | .ok v =>
      .ok (v, { b with nextId := b.nextId + 1 }.append block
        { location, op := .define v operands })

def call (b : Builder) (block : Nat) (callee : Option Callee) (args : List (Option Value))
    (name : String) (location : Location) : Value × Builder :=
  let (v, b) := b.leaf name .other
  (v, b.append block { location, op := .call v callee args })

def binary (b : Builder) (block : Nat) (operator : String) (left right : Option Value)
    (name : String) (location : Location) : Value × Builder :=
  let (v, b) := b.leaf name .other
  (v, b.append block { location, op := .binary v operator left right })

def setSuccs (b : Builder) (block : Nat) (succs : List Nat) : Builder :=
  b.modifyBlock block fun x => { x with succs }

def setDominees (b : Builder) (block : Nat) (dominees : List Nat) : Builder :=
  b.modifyBlock block fun x => { x with dominees }

/-- Ends a block in a branch. -/
def branch (b : Builder) (block : Nat) (condition : Option Value) (onTrue onFalse : Nat)
    (location : Location) : Builder :=
  (b.append block { location, op := .branch condition }).setSuccs block [onTrue, onFalse]

/-- Ends a block in a jump. -/
def jump (b : Builder) (block target : Nat) : Builder :=
  (b.append block { op := .jump }).setSuccs block [target]

/-- Ends a block in a return. -/
def ret (b : Builder) (block : Nat) (results : List (Option Value)) : Builder :=
  (b.append block { op := .ret results }).setSuccs block []

/-- Links the function. -/
def finish (b : Builder) : Builder × Option LinkError :=
  match b.function.link with
  | (fn, .ok _) => ({ b with function := fn }, none)
  | (fn, .error e) => ({ b with function := fn }, some e)

end Builder

end NilGuard
