import NilGuard.Flow.Marks
/-! Reverse postorder of the places that can be reached from the first one, by a
depth-first search with a stack of its own. -/
namespace NilGuard

/-- A control-flow graph on the places below `size`, entered at place zero. -/
structure Graph where
  size : Nat
  succs : Nat → List Nat
  preds : Nat → List Nat

namespace Graph

/-- A place that the search is in, and its successors still to be tried. -/
abbrev Frame := Nat × List Nat

/-- Continues a search. A place is added to the front of `finished` when all its
successors have been tried. Successors outside the graph are passed over. -/
def search (g : Graph) : List Frame → Marks → List Nat → List Nat
  | [], _, finished => finished
  | (b, []) :: stack, m, finished => search g stack m (b :: finished)
  | (b, c :: cs) :: stack, m, finished =>
    if _h : m.isFree c then search g ((c, g.succs c) :: (b, cs) :: stack) (m.mark c) finished
    else search g ((b, cs) :: stack) m finished
termination_by stack m => (m.free, (stack.flatMap (·.2)).length + stack.length)
decreasing_by
  · exact Prod.Lex.right _ (by simp)
  · exact Prod.Lex.left _ _ (Marks.free_mark_lt _h)
  · exact Prod.Lex.right _ (by simp)

/-- The places that can be reached, each after the one from which it was entered. -/
def order (g : Graph) : List Nat :=
  if g.size = 0 then [] else g.search [(0, g.succs 0)] ((Marks.clear g.size).mark 0) []

end Graph

end NilGuard
