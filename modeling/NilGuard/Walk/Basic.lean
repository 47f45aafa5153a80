import NilGuard.Flow.Marks
import NilGuard.Nilness.Basic
import NilGuard.Program.Function
/-! The walk down the dominator tree of a function. Each block is visited with the facts
that hold whenever it is entered. A comparison with nil at the end of a block adds
facts for the blocks that can only be entered through it, and prunes a block that
can only be entered through an outcome that never happens. -/
namespace NilGuard

/-- A binary operation and its place. -/
structure Binary where
  location : Location
  result : Value
  operator : String
  left : Option Value
  right : Option Value
  deriving DecidableEq, Repr

def Instr.binary? (i : Instr) : Option Binary :=
  match i.op with
  | .binary result operator left right => some ⟨i.location, result, operator, left, right⟩
  | _ => none

/-- A test of two values for equality at the end of a block, with the blocks entered
when they are equal and when they differ. -/
structure Comparison where
  location : Location
  result : Value
  operator : String
  left : Value
  right : Value
  onEqual : Nat
  onDiffer : Nat
  deriving DecidableEq, Repr

/-- What a comparison comes to under the facts: nothing, an outcome that is fixed, or
that a value is nil when the outcome is equality. -/
inductive Lesson where
  | nothing
  | fixed (comparison : Comparison) (left right : Nilness)
  | learned (comparison : Comparison) (other : Value)
  deriving DecidableEq, Repr

/-- A block with the facts that hold on entry to it. -/
structure Visit where
  block : Nat
  facts : Facts
  deriving DecidableEq, Repr

/-- The visits of a walk in order, and whether it never came to an index that no block has. -/
structure Trail where
  visits : List Visit
  complete : Bool
  deriving DecidableEq, Repr

namespace Comparison

/-- Both sides are known and one of them is nil, or one is nil and the other unknown. -/
def lesson (c : Comparison) (facts : Facts) : Lesson :=
  match facts.classify c.left, facts.classify c.right with
  | .nil, .unknown => .learned c c.right
  | .unknown, .nil => .learned c c.left
  | .nil, y => .fixed c .nil y
  | x, .nil => .fixed c x .nil
  | _, _ => .nothing

/-- The block that can never be entered when the outcome is fixed. -/
def deadEnd (c : Comparison) (x y : Nilness) : Nat := if x = y then c.onDiffer else c.onEqual

end Comparison

namespace Function

def binaries (fn : Function) : List Binary :=
  fn.blocks.toList.flatMap fun b => b.instrs.filterMap Instr.binary?

/-- The operation that defines a value, the last one if there are several. -/
def binaryOf? (fn : Function) (v : Value) : Option Binary :=
  (fn.binaries.filter (·.result = v)).getLast?

/-- The condition of the branch at the end of a block. -/
def branchCondition? (fn : Function) (b : Nat) : Option Value :=
  match (fn.instrs b).getLast? with
  | some ⟨_, .branch c⟩ => c
  | _ => none

/-- The comparison at the end of a block with two successors, if its branch tests one
for equality or inequality. -/
def comparison? (fn : Function) (b : Nat) : Option Comparison := do
  let condition ← fn.branchCondition? b
  match fn.succs b with
  | [onTrue, onFalse] =>
    let d ← fn.binaryOf? condition
    let left ← d.left
    let right ← d.right
    if d.operator = "==" then
      return { d with left, right, onEqual := onTrue, onDiffer := onFalse }
    else if d.operator = "!=" then
      return { d with left, right, onEqual := onFalse, onDiffer := onTrue }
    else none
  | _ => none

def lesson (fn : Function) (v : Visit) : Lesson :=
  match fn.comparison? v.block with
  | none => .nothing
  | some c => c.lesson v.facts

/-- Whether a block can be entered through one edge only. -/
def hasOneEdge (fn : Function) (b : Nat) : Bool := (fn.preds b).length == 1

/-- The facts with which a block below a comparison is visited. -/
def factsBelow (fn : Function) (facts : Facts) (c : Comparison) (other : Value) (d : Nat) : Facts :=
  let new := Fact.expand ⟨other, .nil⟩
  if fn.hasOneEdge d then
    if d = c.onEqual then facts.push new
    else if d = c.onDiffer then facts.push (new.map Fact.negate)
    else facts
  else facts

/-- The blocks to visit right below a visit, each with its facts. -/
def below (fn : Function) (v : Visit) : List Visit :=
  match fn.lesson v with
  | .nothing => (fn.dominees v.block).map (⟨·, v.facts⟩)
  | .fixed c x y =>
    ((fn.dominees v.block).filter fun d => !(d == c.deadEnd x y && fn.hasOneEdge d)).map
      (⟨·, v.facts⟩)
  | .learned c other =>
    (fn.dominees v.block).map fun d => ⟨d, fn.factsBelow v.facts c other d⟩

/-- Continues a walk. The first of the visits ahead is made next, and no index is visited
twice. -/
def walkFrom (fn : Function) : List Visit → Marks → Trail
  | [], _ => ⟨[], true⟩
  | v :: ahead, m =>
    if fn.blocks.size ≤ fn.markOf v.block then ⟨[], false⟩
    else if _h : m.isFree (fn.markOf v.block) then
      let rest := walkFrom fn (fn.below v ++ ahead) (m.mark (fn.markOf v.block))
      { rest with visits := v :: rest.visits }
    else walkFrom fn ahead m
termination_by ahead m => (m.free, ahead.length)
decreasing_by
  · exact Prod.Lex.left _ _ (Marks.free_mark_lt _h)
  · exact Prod.Lex.right _ (by simp)

/-- The walk from the entry, where nothing is known. -/
def walk (fn : Function) : Trail :=
  if fn.hasBody then fn.walkFrom [⟨0, []⟩] (Marks.clear fn.blocks.size) else ⟨[], true⟩

end Function

end NilGuard
