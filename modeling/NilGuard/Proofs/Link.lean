import NilGuard.Flow.Link
import NilGuard.Proofs.DomTree
/-! What linking fills in: the predecessors that can be reached, and the dominator tree
that the paths of the function define. -/
namespace NilGuard

namespace Function

def Edge (fn : Function) (b c : Nat) : Prop := c ∈ fn.succs b

/-- A path along successors leads from the first block to the block. -/
def Reaches (fn : Function) (b : Nat) : Prop := fn.hasBody = true ∧ Reachable fn.Edge b

/-- Every block has its place as index, and its successors are blocks of the function. -/
structure IsWellFormed (fn : Function) : Prop where
  index : ∀ b < fn.blocks.size, fn.indexAt b = b
  inside : ∀ b < fn.blocks.size, ∀ c ∈ fn.succs b, c < fn.blocks.size

/-- The immediate dominator that a block was given. -/
def idom? (fn : Function) (b : Nat) : Option Nat := (fn.block? b).bind (·.idom)

/-- The tree and what the blocks say about their neighbours agree with the paths of the
function. -/
structure HasDominatorTree (fn : Function) (tree : DomTree) : Prop where
  reachable_iff : ∀ b, tree.reachable b = true ↔ fn.Reaches b
  dominates_iff : ∀ a b, tree.dominates a b = true ↔ fn.Reaches b ∧ Dominates fn.Edge a b
  idom_of_reaches : ∀ b, fn.Reaches b → b ≠ 0 → ∃ d, fn.idom? b = some d ∧
    ImmediatelyDominates fn.Edge d b ∧ ∀ e, ImmediatelyDominates fn.Edge e b → e = d
  idom_eq_none : ∀ b < fn.blocks.size, b = 0 ∨ ¬ fn.Reaches b → fn.idom? b = none
  dominees_increasing : ∀ b < fn.blocks.size, (fn.dominees b).Pairwise (· < ·)
  mem_dominees_iff : ∀ b < fn.blocks.size, ∀ c,
    c ∈ fn.dominees b ↔ c < fn.blocks.size ∧ fn.idom? c = some b
  preds_increasing : ∀ b < fn.blocks.size, (fn.preds b).Pairwise (· ≤ ·)
  count_preds : ∀ b < fn.blocks.size, ∀ a, fn.Reaches a →
    (fn.preds b).count a = (fn.succs a).count b
  reaches_of_mem_preds : ∀ b < fn.blocks.size, ∀ a ∈ fn.preds b, fn.Reaches a

theorem IsWellFormed.lt_size {fn : Function} (hWell : fn.IsWellFormed) {b : Nat}
    (hReach : fn.Reaches b) : b < fn.blocks.size := by
  obtain ⟨hBody, hReach⟩ := hReach
  exact hReach.induct (by simpa [hasBody] using hBody) fun b c _ hLt hEdge =>
    hWell.inside b hLt c hEdge

section Predecessors

theorem size_withPreds (fn : Function) : fn.withPreds.blocks.size = fn.blocks.size := by
  simp [withPreds]

theorem block?_withPreds (fn : Function) (b : Nat) : fn.withPreds.block? b =
    (fn.block? b).map fun x =>
      if b < fn.blocks.size then { x with preds := fn.edgesInto b, idom := none, dominees := [] }
      else { x with preds := x.preds ++ fn.edgesInto b } := by
  rw [block?, block?, size_withPreds]
  by_cases hLt : b < fn.blocks.size
  · simp [withPreds, hLt]
  · simp only [withPreds, hLt, ↓reduceIte, List.getElem?_mapIdx]
    rw [show fn.blocks.size + (b - fn.blocks.size) = b by omega]

theorem succs_withPreds (fn : Function) : fn.withPreds.succs = fn.succs := by
  funext b
  rw [succs, succs, block?_withPreds]
  by_cases hLt : b < fn.blocks.size <;> cases fn.block? b <;> simp [hLt]

theorem indexAt_withPreds (fn : Function) (b : Nat) : fn.withPreds.indexAt b = fn.indexAt b := by
  rw [indexAt, indexAt, block?_withPreds]
  by_cases hLt : b < fn.blocks.size <;> cases fn.block? b <;> simp [hLt]

theorem preds_withPreds {fn : Function} {b : Nat} (hLt : b < fn.blocks.size) :
    fn.withPreds.preds b = fn.edgesInto b := by
  rw [preds, block?_withPreds, block?_of_lt hLt]
  simp [hLt]

theorem IsWellFormed.withPreds {fn : Function} (hWell : fn.IsWellFormed) :
    fn.withPreds.IsWellFormed := by
  constructor
  · intro b hLt
    rw [size_withPreds] at hLt
    rw [indexAt_withPreds, hWell.index b hLt]
  · rw [size_withPreds, succs_withPreds]
    exact hWell.inside

/-- The blocks with an edge to a block stand in order, each as often as it has such edges. -/
theorem edgesInto_eq (fn : Function) (b : Nat) : fn.edgesInto b =
    (List.range fn.blocks.size).flatMap fun a => List.replicate ((fn.succs a).count b) a := by
  rw [edgesInto]
  congr 1
  funext a
  rw [List.map_const', List.count_eq_length_filter]
  rfl

theorem count_edgesInto (fn : Function) (a b : Nat) :
    (fn.edgesInto b).count a = if a < fn.blocks.size then (fn.succs a).count b else 0 := by
  rw [edgesInto_eq]
  generalize fn.blocks.size = size
  induction size with
  | zero => simp
  | succ size ih =>
      rw [List.range_succ, List.flatMap_append, List.count_append, ih]
      simp only [List.flatMap_singleton, List.count_replicate, beq_iff_eq]
      by_cases hEq : size = a
      · simp [hEq]
      · by_cases hLt : a < size
        · simp [hEq, hLt, Nat.lt_succ_of_lt hLt]
        · simp [hEq, hLt, show ¬ a < size + 1 by omega]

theorem edgesInto_increasing (fn : Function) (b : Nat) :
    (fn.edgesInto b).Pairwise (· ≤ ·) := by
  rw [edgesInto_eq, List.pairwise_flatMap]
  constructor
  · intro a _
    simp [List.pairwise_replicate]
  · apply List.pairwise_lt_range.imp
    intro a c hLt x hx y hy
    rw [(List.mem_replicate.mp hx).2, (List.mem_replicate.mp hy).2]
    exact Nat.le_of_lt hLt

theorem mem_edgesInto_iff {fn : Function} {a b : Nat} :
    a ∈ fn.edgesInto b ↔ a < fn.blocks.size ∧ fn.Edge a b := by
  rw [← List.count_pos_iff, count_edgesInto]
  split
  case isTrue hLt => simp [hLt, Edge, List.count_pos_iff]
  case isFalse hNot => simp [hNot]

end Predecessors

section Tree

theorem mem_enteredFrom {fn : Function} (hWell : fn.IsWellFormed) {ahead : List Nat} {m : Marks}
    (hAhead : ∀ b ∈ ahead, b < fn.blocks.size) :
    ∀ b ∈ fn.enteredFrom ahead m, b < fn.blocks.size := by
  induction ahead, m using enteredFrom.induct fn with
  | case1 m =>
      rw [enteredFrom]
      exact hAhead
  | case2 b ahead m hFree ih =>
      rw [enteredFrom, dif_pos hFree]
      have hb := hAhead b List.mem_cons_self
      intro x hx
      rcases List.mem_cons.mp hx with rfl | hx
      · exact hb
      · apply ih ?_ x hx
        intro y hy
        rcases List.mem_append.mp hy with hy | hy
        · exact hWell.inside b hb y hy
        · exact hAhead y (List.mem_cons_of_mem _ hy)
  | case3 b ahead m hFree ih =>
      rw [enteredFrom, dif_neg hFree]
      exact ih fun y hy => hAhead y (List.mem_cons_of_mem _ hy)

variable {fn : Function} (hWell : fn.IsWellFormed)
include hWell

theorem lt_size_of_mem_entered : ∀ b ∈ fn.entered, b < fn.blocks.size := by
  rw [entered]
  by_cases hBody : 0 < fn.blocks.size
  · exact mem_enteredFrom hWell (by simpa using hBody)
  · have hFree : ¬ (Marks.clear fn.blocks.size).isFree (fn.slot 0) = true := by
      rw [Marks.isFree_clear, decide_eq_true_eq]
      omega
    rw [enteredFrom, dif_neg hFree, enteredFrom]
    exact fun b hb => absurd hb List.not_mem_nil

theorem missingIndex?_eq_none : fn.missingIndex? = none := by
  rw [missingIndex?, List.findSome?_eq_none_iff]
  intro s hs
  obtain ⟨b, hb, hs⟩ := List.mem_flatMap.mp hs
  have hLt := hWell.inside b (lt_size_of_mem_entered hWell b hb) s hs
  have hHas : fn.hasIndex (fn.indexAt s) = true := by
    rw [hWell.index s hLt, hasIndex, Bool.and_eq_true, decide_eq_true_eq, decide_eq_true_eq]
    omega
  simp [hHas]

/-- No block stands in for another one. -/
theorem graph_succs {b : Nat} (hLt : b < fn.blocks.size) : fn.graph.succs b = fn.succs b := by
  have hStandIn : (fn.entered.find? (fn.slot · = b)).getD b = b := by
    cases hFind : fn.entered.find? (fn.slot · = b) with
    | none => rfl
    | some c =>
        have hSlot := List.find?_some hFind
        rw [decide_eq_true_eq, slot_of_lt
          (lt_size_of_mem_entered hWell c (List.mem_of_find?_eq_some hFind))] at hSlot
        exact hSlot
  simp only [graph, hStandIn]
  rw [List.map_congr_left fun c hc => slot_of_lt (hWell.inside b hLt c hc), List.map_id']

theorem route_graph (hBody : fn.hasBody = true) : Route fn.graph.Edge = Route fn.Edge := by
  apply route_eq_of_edge_iff (P := (· < fn.blocks.size))
  · simpa [hasBody] using hBody
  · intro b c hLt hEdge
    rw [Graph.Edge, graph_succs hWell hLt] at hEdge
    exact hWell.inside b hLt c hEdge
  · intro b c hLt
    rw [Graph.Edge, graph_succs hWell hLt, Edge]

theorem isLinked_graph (hBody : fn.hasBody = true) : fn.withPreds.graph.IsLinked := by
  have hNew := hWell.withPreds
  constructor
  case toIsClosed =>
    constructor
    · simpa [graph, size_withPreds, hasBody] using hBody
    · intro b hLt
      rw [graph_succs hNew hLt]
      exact hNew.inside b hLt
  case mem_preds_iff =>
    intro b hLt p
    have hb : b < fn.blocks.size := size_withPreds fn ▸ hLt
    have hSlots : fn.withPreds.graph.preds b = fn.edgesInto b := by
      simp only [graph, preds_withPreds hb]
      have hSlot : ∀ c ∈ fn.edgesInto b, fn.withPreds.slot c = c := by
        intro c hc
        apply slot_of_lt
        rw [size_withPreds]
        exact (mem_edgesInto_iff.mp hc).1
      rw [List.map_congr_left hSlot, List.map_id']
    rw [hSlots, mem_edgesInto_iff]
    constructor
    · rintro ⟨hp, hEdge⟩
      have hpNew : p < fn.withPreds.blocks.size := size_withPreds fn ▸ hp
      refine ⟨hpNew, ?_⟩
      rw [Graph.Edge, graph_succs hNew hpNew, succs_withPreds]
      exact hEdge
    · rintro ⟨hp, hEdge⟩
      have hpNew : p < fn.withPreds.blocks.size := hp
      rw [Graph.Edge, graph_succs hNew hpNew, succs_withPreds] at hEdge
      exact ⟨size_withPreds fn ▸ hpNew, hEdge⟩

end Tree

section Linked

theorem size_withTree (fn : Function) (t : DomTree) :
    (fn.withTree t).blocks.size = fn.blocks.size := by
  simp [withTree]

theorem block?_withTree (fn : Function) (t : DomTree) (b : Nat) : (fn.withTree t).block? b =
    (fn.block? b).map fun x =>
      if b < fn.blocks.size then
        { x with
          preds := x.preds.filter t.reachable
          idom := (t.get b).filter (· != b)
          dominees := t.children b }
      else x := by
  rw [block?, block?, size_withTree]
  by_cases hLt : b < fn.blocks.size
  · simp [withTree, hLt]
  · simp [withTree, hLt]

theorem succs_withTree (fn : Function) (t : DomTree) : (fn.withTree t).succs = fn.succs := by
  funext b
  rw [succs, succs, block?_withTree]
  by_cases hLt : b < fn.blocks.size <;> cases fn.block? b <;> simp [hLt]

theorem indexAt_withTree (fn : Function) (t : DomTree) (b : Nat) :
    (fn.withTree t).indexAt b = fn.indexAt b := by
  rw [indexAt, indexAt, block?_withTree]
  by_cases hLt : b < fn.blocks.size <;> cases fn.block? b <;> simp [hLt]

variable {fn : Function} {t : DomTree} {b : Nat}

theorem preds_withTree (hLt : b < fn.blocks.size) :
    (fn.withTree t).preds b = (fn.preds b).filter t.reachable := by
  rw [preds, preds, block?_withTree, block?_of_lt hLt]
  simp [hLt]

theorem dominees_withTree (hLt : b < fn.blocks.size) :
    (fn.withTree t).dominees b = t.children b := by
  rw [dominees, block?_withTree, block?_of_lt hLt]
  simp [hLt]

theorem idom?_withTree (hLt : b < fn.blocks.size) :
    (fn.withTree t).idom? b = (t.get b).filter (· != b) := by
  rw [idom?, block?_withTree, block?_of_lt hLt]
  simp [hLt]

/-- Linking a well-formed function succeeds. -/
theorem link_eq (hWell : fn.IsWellFormed) : fn.link =
    (fn.withPreds.withTree fn.withPreds.graph.domTree, .ok fn.withPreds.graph.domTree) := by
  have hPlaced : fn.misplaced? = none := by
    rw [misplaced?, List.find?_eq_none]
    intro i hi
    rw [hWell.index i (List.mem_range.mp hi)]
    simp
  rw [link, hPlaced]
  simp only [domTree, missingIndex?_eq_none hWell.withPreds]

section PathTree

variable (hWell : fn.IsWellFormed)
include hWell

theorem route_withPreds_graph (hBody : fn.hasBody = true) :
    Route fn.withPreds.graph.Edge = Route fn.Edge := by
  have hEdge : fn.withPreds.Edge = fn.Edge := by
    funext b c
    rw [Edge, Edge, succs_withPreds]
  rw [route_graph hWell.withPreds (by simpa [hasBody, size_withPreds] using hBody), hEdge]

omit hWell in
theorem get_graph_of_empty (hBody : fn.hasBody = false) (b : Nat) :
    fn.withPreds.graph.domTree.get b = none := by
  have hSize : fn.blocks.size = 0 := by simpa [hasBody] using hBody
  simp [DomTree.get, Graph.domTree, graph, size_withPreds, hSize]

theorem tree_reachable_iff :
    fn.withPreds.graph.domTree.reachable b = true ↔ fn.Reaches b := by
  cases hBody : fn.hasBody with
  | false => simp [DomTree.reachable, get_graph_of_empty hBody, Reaches, hBody]
  | true =>
      rw [Graph.domTree_reachable_iff (isLinked_graph hWell hBody),
        reachable_eq_of_route_eq (route_withPreds_graph hWell hBody), Reaches]
      simp [hBody]

theorem tree_dominates_iff {a : Nat} : fn.withPreds.graph.domTree.dominates a b = true ↔
    fn.Reaches b ∧ Dominates fn.Edge a b := by
  cases hBody : fn.hasBody with
  | false =>
      simp [DomTree.dominates, DomTree.reachable, get_graph_of_empty hBody, Reaches, hBody]
  | true =>
      have hRoute := route_withPreds_graph hWell hBody
      rw [Graph.domTree_dominates_iff (isLinked_graph hWell hBody),
        reachable_eq_of_route_eq hRoute, dominates_eq_of_route_eq hRoute, Reaches]
      simp [hBody]

/-- The entry is its own parent in the tree, but has no immediate dominator. -/
theorem tree_idom_iff {d : Nat} :
    (fn.withPreds.graph.domTree.get b).filter (· != b) = some d ↔
      fn.Reaches b ∧ ImmediatelyDominates fn.Edge d b := by
  rw [Option.filter_eq_some_iff]
  cases hBody : fn.hasBody with
  | false => simp [get_graph_of_empty hBody, Reaches, hBody]
  | true =>
      have hRoute := route_withPreds_graph hWell hBody
      rw [Graph.domTree_get_eq_some_iff (isLinked_graph hWell hBody),
        reachable_eq_of_route_eq hRoute, immediatelyDominates_eq_of_route_eq hRoute, Reaches]
      constructor
      · rintro ⟨⟨rfl, rfl⟩ | hIdom, hNe⟩
        · simp at hNe
        · exact ⟨⟨hBody, hIdom.1⟩, hIdom.2⟩
      · rintro ⟨hReach, hIdom⟩
        exact ⟨Or.inr ⟨hReach.2, hIdom⟩, by simpa using hIdom.1.1⟩

theorem exists_tree_idom (hReach : fn.Reaches b) (hZero : b ≠ 0) :
    ∃ d, ImmediatelyDominates fn.Edge d b := by
  have hRoute := route_withPreds_graph hWell hReach.1
  have hThere := hReach.2
  rw [← reachable_eq_of_route_eq hRoute] at hThere
  obtain ⟨d, -, hIdom⟩ :=
    Graph.domTree_get_of_ne_zero (isLinked_graph hWell hReach.1) hThere hZero
  rw [immediatelyDominates_eq_of_route_eq hRoute] at hIdom
  exact ⟨d, hIdom⟩

end PathTree

theorem hasDominatorTree_link (hWell : fn.IsWellFormed) :
    (fn.withPreds.withTree fn.withPreds.graph.domTree).HasDominatorTree
      fn.withPreds.graph.domTree := by
  have hSize : (fn.withPreds.withTree fn.withPreds.graph.domTree).blocks.size =
      fn.blocks.size := by
    rw [size_withTree, size_withPreds]
  have hSuccs : (fn.withPreds.withTree fn.withPreds.graph.domTree).succs = fn.succs := by
    rw [succs_withTree, succs_withPreds]
  have hEdge : (fn.withPreds.withTree fn.withPreds.graph.domTree).Edge = fn.Edge := by
    funext b c
    rw [Edge, Edge, hSuccs]
  have hReaches : (fn.withPreds.withTree fn.withPreds.graph.domTree).Reaches = fn.Reaches := by
    funext b
    rw [Reaches, Reaches, hEdge, hasBody, hasBody, hSize]
  have hIdom : ∀ b < fn.blocks.size, ∀ d,
      (fn.withPreds.withTree fn.withPreds.graph.domTree).idom? b = some d ↔
        fn.Reaches b ∧ ImmediatelyDominates fn.Edge d b := by
    intro b hLt d
    rw [idom?_withTree (size_withPreds fn ▸ hLt), tree_idom_iff hWell]
  have hPreds : ∀ b < fn.blocks.size,
      (fn.withPreds.withTree fn.withPreds.graph.domTree).preds b =
        (fn.edgesInto b).filter fn.withPreds.graph.domTree.reachable := by
    intro b hLt
    rw [preds_withTree (size_withPreds fn ▸ hLt), preds_withPreds hLt]
  constructor
  case reachable_iff =>
    rw [hReaches]
    exact fun b => tree_reachable_iff hWell
  case dominates_iff =>
    rw [hReaches, hEdge]
    exact fun a b => tree_dominates_iff hWell
  case idom_of_reaches =>
    rw [hReaches, hEdge]
    intro b hReach hZero
    obtain ⟨d, hd⟩ := exists_tree_idom hWell hReach hZero
    refine ⟨d, (hIdom b (hWell.lt_size hReach) d).mpr ⟨hReach, hd⟩, hd, ?_⟩
    exact fun e he => he.unique hReach.2 hd
  case idom_eq_none =>
    rw [hReaches, hSize]
    intro b hLt hCase
    rw [Option.eq_none_iff_forall_ne_some]
    intro d hGet
    obtain ⟨hReach, hd⟩ := (hIdom b hLt d).mp hGet
    exact hCase.elim hd.ne_zero (absurd hReach)
  case dominees_increasing =>
    rw [hSize]
    intro b hLt
    rw [dominees_withTree (size_withPreds fn ▸ hLt), DomTree.children]
    exact List.pairwise_lt_range.filter _
  case mem_dominees_iff =>
    rw [hSize]
    intro b hLt c
    rw [dominees_withTree (size_withPreds fn ▸ hLt), DomTree.children, List.mem_filter,
      List.mem_range, Graph.size_domTree_idom]
    have hGraph : fn.withPreds.graph.size = fn.blocks.size := size_withPreds fn
    rw [hGraph]
    refine and_congr_right fun hc => ?_
    rw [idom?_withTree (size_withPreds fn ▸ hc), Option.filter_eq_some_iff, Bool.and_eq_true,
      beq_iff_eq, bne_iff_ne, bne_iff_ne, ne_comm]
  case preds_increasing =>
    rw [hSize]
    intro b hLt
    rw [hPreds b hLt]
    exact (edgesInto_increasing fn b).filter _
  case count_preds =>
    rw [hSize, hReaches, hSuccs]
    intro b hLt a hReach
    rw [hPreds b hLt, List.count_filter ((tree_reachable_iff hWell).mpr hReach),
      count_edgesInto, if_pos (hWell.lt_size hReach)]
  case reaches_of_mem_preds =>
    rw [hSize, hReaches]
    intro b hLt a hMem
    rw [hPreds b hLt] at hMem
    exact (tree_reachable_iff hWell).mp (List.mem_filter.mp hMem).2

end Linked

/-- The function is what linking made of a well-formed one. -/
def IsLinked (fn : Function) : Prop :=
  ∃ (source : Function) (tree : DomTree), source.IsWellFormed ∧ source.link = (fn, .ok tree)

namespace IsLinked

variable {fn : Function} (hLinked : fn.IsLinked)
include hLinked

theorem exists_tree : ∃ tree, fn.HasDominatorTree tree := by
  obtain ⟨source, tree, hWell, hLink⟩ := hLinked
  rw [link_eq hWell] at hLink
  obtain ⟨rfl, -⟩ := Prod.mk.inj hLink
  exact ⟨_, hasDominatorTree_link hWell⟩

theorem isWellFormed : fn.IsWellFormed := by
  obtain ⟨source, tree, hWell, hLink⟩ := hLinked
  rw [link_eq hWell] at hLink
  obtain ⟨rfl, -⟩ := Prod.mk.inj hLink
  constructor
  · intro b hLt
    rw [size_withTree] at hLt
    rw [indexAt_withTree, hWell.withPreds.index b hLt]
  · rw [size_withTree, succs_withTree]
    exact hWell.withPreds.inside

/-- The dominees of a block are the blocks that it dominates immediately. -/
theorem mem_dominees_iff {b c : Nat} (hLt : b < fn.blocks.size) :
    c ∈ fn.dominees b ↔ fn.Reaches c ∧ ImmediatelyDominates fn.Edge b c := by
  obtain ⟨tree, hTree⟩ := exists_tree hLinked
  rw [hTree.mem_dominees_iff b hLt]
  constructor
  · rintro ⟨hc, hIdom⟩
    have hReach : fn.Reaches c := by
      apply Classical.byContradiction
      intro hNot
      rw [hTree.idom_eq_none c hc (Or.inr hNot)] at hIdom
      cases hIdom
    have hZero : c ≠ 0 := by
      intro hEq
      rw [hTree.idom_eq_none c hc (Or.inl hEq)] at hIdom
      cases hIdom
    obtain ⟨d, hd, hDom, -⟩ := hTree.idom_of_reaches c hReach hZero
    rw [hIdom] at hd
    cases hd
    exact ⟨hReach, hDom⟩
  · rintro ⟨hReach, hDom⟩
    obtain ⟨d, hd, -, hUnique⟩ := hTree.idom_of_reaches c hReach hDom.ne_zero
    rw [hUnique b hDom]
    exact ⟨(isWellFormed hLinked).lt_size hReach, hd⟩

theorem exists_idom {b : Nat} (hReach : fn.Reaches b) (hZero : b ≠ 0) :
    ∃ d, ImmediatelyDominates fn.Edge d b := by
  obtain ⟨tree, hTree⟩ := exists_tree hLinked
  obtain ⟨d, -, hDom, -⟩ := hTree.idom_of_reaches b hReach hZero
  exact ⟨d, hDom⟩

/-- A block with one predecessor is entered from one block only, along one edge. -/
theorem eq_of_preds_length_eq_one {a b d : Nat} (hOne : (fn.preds d).length = 1)
    (ha : fn.Reaches a) (hb : fn.Reaches b) (haEdge : fn.Edge a d) (hbEdge : fn.Edge b d) :
    a = b ∧ (fn.succs b).count d = 1 := by
  obtain ⟨tree, hTree⟩ := exists_tree hLinked
  have hWell := isWellFormed hLinked
  have hd : d < fn.blocks.size := hWell.inside b (hWell.lt_size hb) d hbEdge
  obtain ⟨p, hPreds⟩ := List.length_eq_one_iff.mp hOne
  have hMem : ∀ x, fn.Reaches x → fn.Edge x d → x = p := by
    intro x hx hEdge
    have hPos : 0 < (fn.preds d).count x := by
      rw [hTree.count_preds d hd x hx]
      exact List.count_pos_iff.mpr hEdge
    rw [hPreds] at hPos
    exact List.mem_singleton.mp (List.count_pos_iff.mp hPos)
  refine ⟨(hMem a ha haEdge).trans (hMem b hb hbEdge).symm, ?_⟩
  rw [← hTree.count_preds d hd b hb, hPreds, hMem b hb hbEdge]
  simp

end IsLinked

/-- Linking fills in exactly the dominator tree. Paths, dominance and reachability are those
of the successors, which linking leaves alone; what the blocks had as predecessors,
immediate dominator or dominees before does not matter. -/
theorem link_computes_dominator_tree (fn : Function) (hWell : fn.IsWellFormed) :
    ∃ linked tree, fn.link = (linked, .ok tree) ∧ linked.succs = fn.succs ∧
      linked.blocks.size = fn.blocks.size ∧ linked.HasDominatorTree tree := by
  refine ⟨_, _, link_eq hWell, ?_, ?_, hasDominatorTree_link hWell⟩
  · rw [succs_withTree, succs_withPreds]
  · rw [size_withTree, size_withPreds]

/-- A loop that is entered at two places, with a doubled edge, a self-loop, a way back to the
entry, a dead block, and neighbours that were filled in wrongly before. -/
def twoEntryLoop : Function :=
  { callee := { package := "graphs", name := "loop" }
    blocks := #[
      { index := 0, succs := [1, 2], idom := some 3 },
      { index := 1, succs := [2, 1] },
      { index := 2, succs := [1, 1, 3], preds := [4, 4], dominees := [0] },
      { index := 3, succs := [0] },
      { index := 4, succs := [3] }] }

theorem link_computes_dominator_tree_twoEntryLoop : twoEntryLoop.IsWellFormed ∧
    ∃ linked tree, twoEntryLoop.link = (linked, .ok tree) ∧
      linked.succs = twoEntryLoop.succs ∧
      linked.blocks.size = twoEntryLoop.blocks.size ∧ linked.HasDominatorTree tree :=
  ⟨⟨by decide, by decide⟩, link_computes_dominator_tree twoEntryLoop ⟨by decide, by decide⟩⟩

example : (List.range 5).map twoEntryLoop.link.1.dominees = [[1, 2], [], [3], [], []] ∧
    (List.range 5).map twoEntryLoop.link.1.preds = [[3], [0, 1, 2, 2], [0, 1], [2], []] := by
  cbv

end Function

end NilGuard
