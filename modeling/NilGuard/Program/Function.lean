import NilGuard.Program.Location
import NilGuard.Program.Value
/-! Functions, their blocks and instructions. A block names its neighbours by their
places in the function. Predecessors and the dominator tree are filled in when the
function is linked. -/
namespace NilGuard

/-- A function or method as it is declared. The receiver is the name of its type; an
empty name still makes it a method. -/
structure Callee where
  package : String
  name : String
  receiver : Option String := none
  deriving DecidableEq, Repr

namespace Callee

def isMethod (c : Callee) : Bool := c.receiver.isSome

/-- The name without the package. An empty receiver is not shown. -/
def display (c : Callee) : String :=
  match c.receiver with
  | none => c.name
  | some "" => c.name
  | some r => r ++ "." ++ c.name

def text (c : Callee) : String := c.package ++ "." ++ c.display

end Callee

/-- What an instruction does. A call without a callee is dynamic; the receiver of a
method call is its first argument. An operand that is left open still has its place. -/
inductive Op where
  | define (result : Value) (operands : List (Option Value))
  | call (result : Value) (callee : Option Callee) (args : List (Option Value))
  | binary (result : Value) (operator : String) (left right : Option Value)
  | branch (condition : Option Value)
  | jump
  | ret (results : List (Option Value))
  | panic (argument : Option Value)
  | store (address value : Value)
  deriving DecidableEq, Repr

structure Instr where
  location : Location := {}
  op : Op
  deriving DecidableEq, Repr

/-- The value that an instruction defines. -/
def Instr.result? (i : Instr) : Option Value :=
  match i.op with
  | .define r _ | .call r _ _ | .binary r _ _ _ => some r
  | _ => none

structure Block where
  index : Int
  comment : String := ""
  instrs : List Instr := []
  succs : List Nat := []
  preds : List Nat := []
  idom : Option Nat := none
  dominees : List Nat := []
  deriving DecidableEq, Repr

/-- A block with its neighbours at other places. -/
def Block.relocate (f : Nat → Nat) (b : Block) : Block :=
  { b with
    succs := b.succs.map f
    preds := b.preds.map f
    idom := b.idom.map f
    dominees := b.dominees.map f }

/-- A function with its blocks. Blocks that were removed from the end are kept apart, since
edges may still lead to them; they have the places after the last block, beginning with
the one that was removed last. -/
structure Function where
  callee : Callee
  location : Location := {}
  params : List Value := []
  freeVars : List Value := []
  blocks : Array Block := #[]
  removed : List Block := []
  deriving DecidableEq, Repr

namespace Function

/-- The qualified name. -/
def name (fn : Function) : String := fn.callee.text

/-- A function without blocks is only declared. -/
def hasBody (fn : Function) : Bool := 0 < fn.blocks.size

/-- The block at a place, removed or not. -/
def block? (fn : Function) (b : Nat) : Option Block :=
  if b < fn.blocks.size then fn.blocks[b]? else fn.removed[b - fn.blocks.size]?

theorem block?_of_lt {fn : Function} {b : Nat} (h : b < fn.blocks.size) :
    fn.block? b = fn.blocks[b]? := if_pos h

def succs (fn : Function) (b : Nat) : List Nat := ((fn.block? b).map (·.succs)).getD []

def preds (fn : Function) (b : Nat) : List Nat := ((fn.block? b).map (·.preds)).getD []

def dominees (fn : Function) (b : Nat) : List Nat := ((fn.block? b).map (·.dominees)).getD []

def instrs (fn : Function) (b : Nat) : List Instr := ((fn.block? b).map (·.instrs)).getD []

/-- The index of the block at a place. -/
def indexAt (fn : Function) (place : Nat) : Int := ((fn.block? place).map (·.index)).getD place

/-- The first place of a block with an index. -/
def placeOf? (fn : Function) (index : Int) : Option Nat :=
  fn.blocks.findIdx? (·.index == index)

/-- The place that a block goes by: its own, or for a removed block the place that it had,
where another block may be by now. -/
def slot (fn : Function) (b : Nat) : Nat :=
  if b < fn.blocks.size then b else (fn.indexAt b).toNat

theorem slot_of_lt {fn : Function} {b : Nat} (h : b < fn.blocks.size) : fn.slot b = b := if_pos h

/-- The mark of a block: its index, which counts from the end when it is negative. A block that
is before the first then gets the mark after the last. -/
def markOf (fn : Function) (b : Nat) : Nat :=
  let size : Int := fn.blocks.size
  let index := fn.indexAt b
  if 0 ≤ index then index.toNat
  else if 0 ≤ index + size then (index + size).toNat
  else fn.blocks.size

theorem markOf_of_index {fn : Function} {b : Nat} (h : fn.indexAt b = b) : fn.markOf b = b := by
  simp [markOf, h]

end Function

end NilGuard
