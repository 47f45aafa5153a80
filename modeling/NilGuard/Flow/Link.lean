import NilGuard.Flow.Dominator
import NilGuard.Program.Function
/-! Linking: filling in the predecessors and the dominator tree of a function from the
successors of its blocks. -/
namespace NilGuard

/-- Why a function cannot be linked: a block whose index is not its place, or an edge
to a block that is not there. -/
inductive LinkError where
  | misplaced (function : String) (place : Nat) (index : Int)
  | missingBlock (index : Int)
  deriving DecidableEq, Repr

def LinkError.message : LinkError → String
  | .misplaced function place index =>
    function ++ ": block at position " ++ toString place ++ " has index " ++ toString index
  | .missingBlock _ => "list index out of range"

namespace Function

/-- The first place that is not the index of its block. -/
def misplaced? (fn : Function) : Option Nat :=
  (List.range fn.blocks.size).find? fun i => fn.indexAt i != i

/-- Blocks are looked up by index, counting from the end for a negative one. -/
def hasIndex (fn : Function) (index : Int) : Bool :=
  -(fn.blocks.size : Int) ≤ index && index < fn.blocks.size

/-- The places of the blocks that share the index of a block. -/
def twins (fn : Function) (b : Nat) : List Nat :=
  (List.range fn.blocks.size).filter fun a => fn.indexAt a = fn.indexAt b

/-- The places entered from those ahead when no index is entered twice. -/
def enteredFrom (fn : Function) : List Nat → Marks → List Nat
  | [], _ => []
  | b :: ahead, m =>
    if _h : m.isFree (fn.slot b) then
      b :: enteredFrom fn (fn.succs b ++ ahead) ((m.mark (fn.slot b)).markAll (fn.twins b))
    else enteredFrom fn ahead m
termination_by ahead m => (m.free, ahead.length)
decreasing_by
  · exact Prod.Lex.left _ _ (Nat.lt_of_le_of_lt (Marks.free_markAll_le _ _) (Marks.free_mark_lt _h))
  · exact Prod.Lex.right _ (by simp)

/-- The places entered from the first one. -/
def entered (fn : Function) : List Nat := fn.enteredFrom [0] (Marks.clear fn.blocks.size)

/-- The first index on the way from the entry that no block can be looked up by. -/
def missingIndex? (fn : Function) : Option Int :=
  (fn.entered.flatMap fn.succs).findSome? fun s =>
    let index := fn.indexAt s
    if index = fn.indexAt 0 ∨ fn.hasIndex index then none else some index

/-- The control-flow graph by the places that blocks go by. When a removed block is entered
before the block that goes by the same place now, its edges count. -/
def graph (fn : Function) : Graph :=
  let entered := fn.entered
  let standIn := fun (place : Nat) => (entered.find? (fn.slot · = place)).getD place
  { size := fn.blocks.size
    succs := fun place => (fn.succs (standIn place)).map fn.slot
    preds := fun place => (fn.preds place).map fn.slot }

/-- The dominator tree of the blocks with the predecessors they have now. -/
def domTree (fn : Function) : Except LinkError DomTree :=
  match fn.missingIndex? with
  | some index => .error (.missingBlock index)
  | none => .ok fn.graph.domTree

/-- Forgets the predecessors and dominators of the blocks before a place. -/
def clearBefore (fn : Function) (place : Nat) : Function :=
  { fn with
    blocks := fn.blocks.mapIdx fun i b =>
      if i < place then { b with preds := [], idom := none, dominees := [] } else b }

/-- The blocks with an edge to a block, once for each edge. -/
def edgesInto (fn : Function) (b : Nat) : List Nat :=
  (List.range fn.blocks.size).flatMap fun a => ((fn.succs a).filter (· = b)).map fun _ => a

/-- Every edge gives its target a predecessor, and all dominators are forgotten. Removed
blocks keep what they have. -/
def withPreds (fn : Function) : Function :=
  { fn with
    blocks := fn.blocks.mapIdx fun i b =>
      { b with preds := fn.edgesInto i, idom := none, dominees := [] }
    removed := fn.removed.mapIdx fun i b =>
      { b with preds := b.preds ++ fn.edgesInto (fn.blocks.size + i) } }

/-- Fills in a dominator tree. Edges from blocks that cannot be reached are never
taken, so such blocks are no predecessors. -/
def withTree (fn : Function) (t : DomTree) : Function :=
  { fn with
    blocks := fn.blocks.mapIdx fun i b =>
      { b with
        preds := b.preds.filter t.reachable
        idom := (t.get i).filter (· != i)
        dominees := t.children i } }

/-- Links a function. When a block is misplaced, the blocks before it are not linked any
more; when the tree cannot be computed, there are only the predecessors. -/
def link (fn : Function) : Function × Except LinkError DomTree :=
  match fn.misplaced? with
  | some i => (fn.clearBefore i, .error (.misplaced fn.name i (fn.indexAt i)))
  | none =>
    let fn' := fn.withPreds
    match fn'.domTree with
    | .error e => (fn', .error e)
    | .ok t => (fn'.withTree t, .ok t)

end Function

end NilGuard
