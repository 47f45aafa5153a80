import NilGuard.Flow.Order
/-! Immediate dominators. The places are numbered in reverse postorder, and a table
from numbers to numbers is improved pass by pass until a pass changes nothing: the
entry of a number becomes the place where the ways up from its predecessors meet. -/
namespace NilGuard

/-- The entry of a number is the number of its immediate dominator as far as it is
known. The entry of the first number is itself. -/
abbrev Idoms := Array (Option Nat)

namespace Idoms

def start (size : Nat) : Idoms := (Array.replicate size none).setIfInBounds 0 (some 0)

def get (t : Idoms) (a : Nat) : Option Nat := t[a]?.join

/-- One step up from a number. -/
def up (t : Idoms) (a : Nat) : Nat := (t.get a).getD 0

/-- Where the ways up from two numbers meet: the larger number goes up until they are
equal. The first argument bounds the steps. -/
def meet (t : Idoms) : Nat → Nat → Nat → Nat
  | 0, a, _ => a
  | steps + 1, a, b =>
    if a = b then a
    else if b < a then meet t steps (t.up a) b
    else meet t steps a (t.up b)

/-- The steps in which two ways up meet: each is shorter than the table. -/
def meetSteps (t : Idoms) : Nat := 2 * t.size

/-- Improves the entry of one number from those of its predecessors that have an
entry. -/
def improve (t : Idoms) (preds : List Nat) (a : Nat) : Idoms :=
  match preds.filter fun p => (t.get p).isSome with
  | [] => t
  | p :: ps => t.setIfInBounds a (some (ps.foldl (t.meet t.meetSteps) p))

/-- Improves every entry but the first, in order. -/
def pass (preds : Array (List Nat)) (t : Idoms) : Idoms :=
  (List.range' 1 (t.size - 1)).foldl (fun t a => t.improve (preds[a]?.getD []) a) t

/-- Passes until one changes nothing, at most the given number of times. -/
def settle (preds : Array (List Nat)) : Nat → Idoms → Idoms
  | 0, t => t
  | passes + 1, t =>
    let t' := t.pass preds
    if t' = t then t else settle preds passes t'

end Idoms

/-- The dominator tree by place: each place that can be reached has its immediate
dominator, and the entry has itself. -/
structure DomTree where
  idom : Array (Option Nat)
  deriving DecidableEq, Repr

namespace Graph

/-- The predecessors by number. Predecessors that cannot be reached have none. -/
def numberedPreds (g : Graph) (order : List Nat) : Array (List Nat) :=
  (order.map fun b => (g.preds b).filterMap order.idxOf?).toArray

/-- After the first pass every entry is there, and then every pass that changes the
table lowers an entry, so this many passes suffice. -/
def passes (order : List Nat) : Nat := order.length * order.length + order.length + 2

/-- The table of immediate dominators by number. -/
def idoms (g : Graph) (order : List Nat) : Idoms :=
  Idoms.settle (g.numberedPreds order) (passes order) (Idoms.start order.length)

def domTree (g : Graph) : DomTree :=
  let order := g.order
  let idoms := g.idoms order
  ⟨((List.range g.size).map fun b => do
    let a ← order.idxOf? b
    let d ← idoms.get a
    order[d]?).toArray⟩

end Graph

namespace DomTree

def get (t : DomTree) (b : Nat) : Option Nat := t.idom[b]?.join

def reachable (t : DomTree) (b : Nat) : Bool := (t.get b).isSome

/-- The places that a place dominates immediately, in increasing order. -/
def children (t : DomTree) (a : Nat) : List Nat :=
  (List.range t.idom.size).filter fun b => t.get b == some a && b != a

/-- Whether a place is met on the way up, within a number of steps. -/
def onWayUp (t : DomTree) (a : Nat) : Nat → Nat → Bool
  | 0, _ => false
  | steps + 1, b =>
    if b = a then true
    else
      match t.get b with
      | none => false
      | some d => if d = b then false else onWayUp t a steps d

def dominates (t : DomTree) (a b : Nat) : Bool := t.reachable b && t.onWayUp a t.idom.size b

def strictlyDominates (t : DomTree) (a b : Nat) : Bool := a != b && t.dominates a b

end DomTree

end NilGuard
