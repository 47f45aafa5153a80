import Mathlib
import NilGuard.Proofs.Convergence
/-! The depth-first search as a loop over a stack of places, each with the number of its
successors that were tried. The loop ends when every edge was tried once and every place was
left once. The places in the order opposite to that in which they were left are a reverse
postorder: an edge that leads back in it closes a cycle. -/
namespace NilGuard

open Relation

/-- Where the loop is. The newest place of the stack comes first, and the place that was left
first comes first among those that were left. -/
structure Traversal where
  stack : List (Nat × Nat)
  entered : List Nat
  left : List Nat

namespace Traversal

def start : Traversal := ⟨[(0, 0)], [0], []⟩

/-- One round of the loop: the next successor of the newest place is tried, and entered if it is
new, or the place is left when there is none. -/
def round (succs : Nat → List Nat) (s : Traversal) : Option Traversal :=
  match s.stack with
  | [] => none
  | (b, tried) :: rest =>
    match (succs b)[tried]? with
    | none => some { s with stack := rest, left := s.left ++ [b] }
    | some c =>
      if c ∈ s.entered then some { s with stack := (b, tried + 1) :: rest }
      else some { s with stack := (c, 0) :: (b, tried + 1) :: rest, entered := c :: s.entered }

/-- The loop after a number of rounds, unless it has ended before. -/
def rounds (succs : Nat → List Nat) : Nat → Traversal → Option Traversal
  | 0, s => some s
  | n + 1, s => (s.round succs).bind (rounds succs n)

/-- How many times a successor was tried or a place was left. -/
def work (succs : Nat → List Nat) (s : Traversal) : Nat :=
  (s.left.map fun b => (succs b).length + 1).sum + (s.stack.map (·.2)).sum

section Rounds

variable {succs : Nat → List Nat} {s t : Traversal} {b c tried : Nat} {rest : List (Nat × Nat)}

theorem round_of_nil (hStack : s.stack = []) : s.round succs = none := by
  simp [round, hStack]

theorem round_leave (hStack : s.stack = (b, tried) :: rest) (hNext : (succs b)[tried]? = none) :
    s.round succs = some { s with stack := rest, left := s.left ++ [b] } := by
  simp [round, hStack, hNext]

theorem round_skip (hStack : s.stack = (b, tried) :: rest) (hNext : (succs b)[tried]? = some c)
    (hOld : c ∈ s.entered) : s.round succs = some { s with stack := (b, tried + 1) :: rest } := by
  simp [round, hStack, hNext, hOld]

theorem round_enter (hStack : s.stack = (b, tried) :: rest) (hNext : (succs b)[tried]? = some c)
    (hNew : c ∉ s.entered) : s.round succs =
      some { s with stack := (c, 0) :: (b, tried + 1) :: rest, entered := c :: s.entered } := by
  simp [round, hStack, hNext, hNew]

theorem rounds_add (m n : Nat) (s : Traversal) :
    rounds succs (m + n) s = (rounds succs m s).bind (rounds succs n) := by
  induction m generalizing s with
  | zero => rw [Nat.zero_add, rounds, Option.bind_some]
  | succ m ih =>
      rw [Nat.succ_add, rounds, rounds]
      cases s.round succs with
      | none => rfl
      | some t => exact ih t

theorem rounds_of_round {n : Nat} (hFirst : s.round succs = some t) :
    rounds succs (n + 1) s = rounds succs n t := by
  rw [rounds, hFirst, Option.bind_some]

/-- No more successors of a place are tried than it has. -/
def IsBounded (succs : Nat → List Nat) (s : Traversal) : Prop :=
  ∀ f ∈ s.stack, f.2 ≤ (succs f.1).length

/-- Every round does one piece of work. -/
theorem work_round (hBounded : s.IsBounded succs) (hRound : s.round succs = some t) :
    t.work succs = s.work succs + 1 ∧ t.IsBounded succs := by
  cases hStack : s.stack with
  | nil =>
      rw [round_of_nil hStack] at hRound
      cases hRound
  | cons f rest =>
      obtain ⟨b, tried⟩ := f
      rw [IsBounded, hStack, List.forall_mem_cons] at hBounded
      obtain ⟨hTop, hRest⟩ := hBounded
      cases hNext : (succs b)[tried]? with
      | none =>
          rw [round_leave hStack hNext] at hRound
          cases hRound
          have hAll : (succs b).length ≤ tried := List.getElem?_eq_none_iff.mp hNext
          have hTried : tried = (succs b).length := Nat.le_antisymm hTop hAll
          refine ⟨?_, hRest⟩
          simp only [work, hStack, List.map_append, List.map_cons, List.map_nil, List.sum_append,
            List.sum_cons, List.sum_nil]
          omega
      | some c =>
          have hMore : tried < (succs b).length := (List.getElem?_eq_some_iff.mp hNext).1
          have hFrames : ∀ f ∈ (b, tried + 1) :: rest, f.2 ≤ (succs f.1).length :=
            List.forall_mem_cons.mpr ⟨hMore, hRest⟩
          by_cases hOld : c ∈ s.entered
          · rw [round_skip hStack hNext hOld] at hRound
            cases hRound
            refine ⟨?_, hFrames⟩
            simp only [work, hStack, List.map_cons, List.sum_cons]
            omega
          · rw [round_enter hStack hNext hOld] at hRound
            cases hRound
            refine ⟨?_, List.forall_mem_cons.mpr ⟨Nat.zero_le _, hFrames⟩⟩
            simp only [work, hStack, List.map_cons, List.sum_cons]
            omega

theorem work_rounds {n : Nat} (hBounded : s.IsBounded succs) (hRounds : rounds succs n s = some t) :
    t.work succs = s.work succs + n := by
  induction n generalizing s with
  | zero =>
      cases hRounds
      rfl
  | succ n ih =>
      rw [rounds] at hRounds
      obtain ⟨u, hFirst, hLater⟩ := Option.bind_eq_some_iff.mp hRounds
      obtain ⟨hWork, hNext⟩ := work_round hBounded hFirst
      rw [ih hNext hLater, hWork, Nat.add_right_comm, Nat.add_assoc]

/-- A loop that ends takes as many rounds as there are pieces of work, no more and no less. -/
theorem isSome_rounds_iff {total n : Nat} (hRounds : rounds succs total s = some t)
    (hEnd : t.stack = []) : (rounds succs n s).isSome ↔ n ≤ total := by
  constructor
  · intro hSome
    apply Nat.le_of_not_lt
    intro hLonger
    obtain ⟨more, rfl⟩ := Nat.exists_eq_add_of_lt hLonger
    rw [Nat.add_assoc, rounds_add, hRounds, Option.bind_some, rounds, round_of_nil hEnd] at hSome
    cases hSome
  · intro hLe
    obtain ⟨more, rfl⟩ := Nat.exists_eq_add_of_le hLe
    rw [rounds_add] at hRounds
    obtain ⟨u, hu, -⟩ := Option.bind_eq_some_iff.mp hRounds
    rw [hu]
    rfl

end Rounds

/-- The loop is where the recursive search of a graph is: the frames hold what is left to try,
and what was entered is marked. -/
structure Follows (succs : Nat → List Nat) (size : Nat) (frames : List Graph.Frame) (m : Marks)
    (finished : List Nat) (s : Traversal) : Prop where
  frames : frames = s.stack.map fun f => (f.1, (succs f.1).drop f.2)
  entered : ∀ c < size, c ∈ s.entered ↔ m.isFree c = false
  left : finished = s.left.reverse

section Simulation

variable {g : Graph} {succs : Nat → List Nat} {frames : List Graph.Frame} {m : Marks}
  {finished cs : List Nat} {b c : Nat} {s : Traversal}

theorem Follows.exists_top (h : Follows succs g.size ((b, cs) :: frames) m finished s) :
    ∃ tried rest, s.stack = (b, tried) :: rest ∧ (succs b).drop tried = cs ∧
      frames = rest.map fun f => (f.1, (succs f.1).drop f.2) := by
  have hFrames := h.frames
  cases hStack : s.stack with
  | nil =>
      rw [hStack] at hFrames
      cases hFrames
  | cons f rest =>
      rw [hStack, List.map_cons] at hFrames
      obtain ⟨hTop, hRest⟩ := List.cons.inj hFrames
      obtain ⟨rfl, hDrop⟩ := Prod.mk.inj hTop
      exact ⟨f.2, rest, rfl, hDrop.symm, hRest⟩

theorem getElem?_of_drop_eq_cons {xs : List Nat} {i : Nat} (hDrop : xs.drop i = c :: cs) :
    xs[i]? = some c ∧ xs.drop (i + 1) = cs := by
  constructor
  · rw [← List.head?_drop, hDrop, List.head?_cons]
  · rw [← List.tail_drop, hDrop, List.tail_cons]

variable (hClosed : g.IsClosed) (hSuccs : ∀ b < g.size, g.succs b = succs b)
include hClosed hSuccs

/-- The loop runs to its end and leaves the places in the order opposite to that in which the
recursive search lists them. -/
theorem Follows.exists_rounds (hSearch : Graph.Searching g frames m finished)
    (h : Follows succs g.size frames m finished s) :
    ∃ n last, rounds succs n s = some last ∧ last.stack = [] ∧
      last.left.reverse = g.search frames m finished := by
  -- a call of the recursive search by itself is one round of the loop
  induction frames, m, finished using Graph.search.induct g generalizing s with
  | case1 m finished =>
      rw [Graph.search]
      exact ⟨0, s, rfl, List.map_eq_nil_iff.mp h.frames.symm, h.left.symm⟩
  | case2 b frames m finished ih =>
      obtain ⟨tried, rest, hStack, hDrop, hRest⟩ := h.exists_top
      have hNext : (succs b)[tried]? = none := by rw [← List.head?_drop, hDrop, List.head?_nil]
      have hFollows : Follows succs g.size frames m (b :: finished)
          { s with stack := rest, left := s.left ++ [b] } :=
        ⟨hRest, h.entered, by simp [h.left]⟩
      obtain ⟨n, last, hRounds, hEnd⟩ := ih hSearch.finish hFollows
      rw [Graph.search]
      exact ⟨n + 1, last, (rounds_of_round (round_leave hStack hNext)).trans hRounds, hEnd⟩
  | case3 b c cs frames m finished hFree ih =>
      obtain ⟨tried, rest, hStack, hDrop, hRest⟩ := h.exists_top
      obtain ⟨hNext, hLater⟩ := getElem?_of_drop_eq_cons hDrop
      have hLt : c < g.size := ((hSearch.isFree_iff c).mp hFree).1
      have hNew : c ∉ s.entered := by
        rw [h.entered c hLt, hFree]
        exact Bool.noConfusion
      have hFollows : Follows succs g.size ((c, g.succs c) :: (b, cs) :: frames) (m.mark c) finished
          { s with stack := (c, 0) :: (b, tried + 1) :: rest, entered := c :: s.entered } := by
        refine ⟨by simp [hLater, hRest, hSuccs c hLt], fun x hx => ?_, h.left⟩
        rw [List.mem_cons, h.entered x hx, Marks.isFree_mark, Bool.and_eq_false_iff,
          decide_eq_false_iff_not, Decidable.not_not, eq_comm]
      obtain ⟨n, last, hRounds, hEnd⟩ := ih (hSearch.enter hFree) hFollows
      rw [Graph.search, dif_pos hFree]
      exact ⟨n + 1, last, (rounds_of_round (round_enter hStack hNext hNew)).trans hRounds, hEnd⟩
  | case4 b c cs frames m finished hFree ih =>
      obtain ⟨tried, rest, hStack, hDrop, hRest⟩ := h.exists_top
      obtain ⟨hNext, hLater⟩ := getElem?_of_drop_eq_cons hDrop
      have hMarked : m.isFree c = false := Bool.eq_false_iff.mpr hFree
      have hReach : Reachable g.Edge b :=
        (hSearch.route (List.cons_ne_nil _ _)).reachable_of_mem List.mem_cons_self
      have hEdge : g.Edge b c := hSearch.pending _ List.mem_cons_self c List.mem_cons_self
      have hOld : c ∈ s.entered := (h.entered c (hClosed.lt_size (hReach.step hEdge))).mpr hMarked
      have hFollows : Follows succs g.size ((b, cs) :: frames) m finished
          { s with stack := (b, tried + 1) :: rest } :=
        ⟨by simp [hLater, hRest], h.entered, h.left⟩
      obtain ⟨n, last, hRounds, hEnd⟩ := ih (hSearch.skip hMarked) hFollows
      rw [Graph.search, dif_neg hFree]
      exact ⟨n + 1, last, (rounds_of_round (round_skip hStack hNext hOld)).trans hRounds, hEnd⟩

theorem follows_start :
    Follows succs g.size [(0, g.succs 0)] ((Marks.clear g.size).mark 0) [] start := by
  refine ⟨by simp [start, hSuccs 0 hClosed.nonempty], fun c hc => ?_, rfl⟩
  rw [start, List.mem_singleton, Marks.isFree_mark, Marks.isFree_clear, Bool.and_eq_false_iff,
    decide_eq_false_iff_not, decide_eq_false_iff_not, Decidable.not_not, eq_comm]
  exact ⟨.inl, fun h => h.resolve_right (absurd hc)⟩

/-- The loop takes one round for every place that it lists and one for every edge out of it. -/
theorem exists_rounds_start :
    ∃ last, rounds succs (g.order.map fun b => (succs b).length + 1).sum start = some last ∧
      last.stack = [] ∧ last.left.reverse = g.order := by
  obtain ⟨n, last, hRounds, hEnd, hLeft⟩ :=
    (follows_start hClosed hSuccs).exists_rounds hClosed hSuccs (Graph.searching_start g)
  have hOrder : last.left.reverse = g.order := by
    rw [hLeft, Graph.order, if_neg (Nat.ne_of_gt hClosed.nonempty)]
  have hBounded : start.IsBounded succs := by simp [IsBounded, start]
  have hTotal : (g.order.map fun b => (succs b).length + 1).sum = n := by
    have hWork := work_rounds hBounded hRounds
    simp only [work, hEnd, start, List.map_nil, List.map_cons, List.sum_nil, List.sum_cons,
      Nat.add_zero, Nat.zero_add] at hWork
    rw [← hOrder, List.map_reverse, List.sum_reverse, hWork]
  exact ⟨last, hTotal ▸ hRounds, hEnd, hOrder⟩

end Simulation

end Traversal

/-- The places of a route are on a way to its newest place. -/
theorem Route.reflTransGen {edge : Nat → Nat → Prop} {path : List Nat} {b c : Nat}
    (route : Route edge (b :: path)) (hMem : c ∈ b :: path) : ReflTransGen edge c b := by
  induction path generalizing b with
  | nil => rw [List.mem_singleton.mp hMem]
  | cons a path ih =>
      cases route with
      | step prior last =>
          rcases List.mem_cons.mp hMem with rfl | hMem
          · exact .refl
          · exact (ih prior hMem).tail last

namespace Graph

/-- An edge from a finished place leads to one that was finished before it, or a way leads
back from its end. -/
def RetreatsOnCycles (g : Graph) (finished : List Nat) : Prop :=
  ∀ newer b older, finished = newer ++ b :: older → ∀ c, g.Edge b c →
    c ∈ older ∨ ReflTransGen g.Edge c b

section Retreat

variable {g : Graph} {stack : List Frame} {m : Marks} {finished : List Nat} {b c : Nat}

/-- The successors of a place that is finished were entered before: those that are not finished
are in the frames, and from there the search has come. -/
theorem RetreatsOnCycles.finish (hClosed : g.IsClosed)
    (hSearch : Searching g ((b, []) :: stack) m finished) (h : g.RetreatsOnCycles finished) :
    g.RetreatsOnCycles (b :: finished) := by
  intro newer x older hSplit c hEdge
  cases newer with
  | nil =>
      obtain ⟨rfl, rfl⟩ := List.cons.inj hSplit
      have hRoute : Route g.Edge (b :: places stack) := hSearch.route (List.cons_ne_nil _ _)
      have hLt : c < g.size :=
        hClosed.lt_size ((hRoute.reachable_of_mem List.mem_cons_self).step hEdge)
      have hMarked : m.isFree c = false :=
        (hSearch.tried _ List.mem_cons_self c hEdge).resolve_left List.not_mem_nil
      have hEntered : c ∈ places ((b, []) :: stack) ++ finished := by
        apply Decidable.byContradiction
        intro hNew
        rw [(hSearch.isFree_iff c).mpr ⟨hLt, hNew⟩] at hMarked
        exact Bool.noConfusion hMarked
      rcases List.mem_append.mp hEntered with hFrame | hFinished
      · exact .inr (hRoute.reflTransGen hFrame)
      · exact .inl hFinished
  | cons y newer =>
      obtain ⟨rfl, hRest⟩ := List.cons.inj hSplit
      exact h newer x older hRest c hEdge

theorem RetreatsOnCycles.search (hClosed : g.IsClosed) (hSearch : Searching g stack m finished)
    (h : g.RetreatsOnCycles finished) : g.RetreatsOnCycles (g.search stack m finished) := by
  induction stack, m, finished using Graph.search.induct g with
  | case1 m finished =>
      rw [Graph.search]
      exact h
  | case2 b stack m finished ih =>
      rw [Graph.search]
      exact ih hSearch.finish (h.finish hClosed hSearch)
  | case3 b c cs stack m finished hFree ih =>
      rw [Graph.search, dif_pos hFree]
      exact ih (hSearch.enter hFree) h
  | case4 b c cs stack m finished hFree ih =>
      rw [Graph.search, dif_neg hFree]
      exact ih (hSearch.skip (Bool.eq_false_iff.mpr hFree)) h

theorem retreatsOnCycles_order (hClosed : g.IsClosed) : g.RetreatsOnCycles g.order := by
  rw [order, if_neg (Nat.ne_of_gt hClosed.nonempty)]
  apply RetreatsOnCycles.search hClosed (searching_start g)
  intro newer b older hSplit
  simp at hSplit

theorem mem_order_of_number? (hClosed : g.IsClosed) {i : Nat} (hb : g.number? b = some i) :
    b ∈ g.order := by
  obtain ⟨hi, rfl⟩ := (idxOf?_eq_some_iff hClosed).mp hb
  exact place_mem_order hi

/-- A way leads back from the end of an edge that does not have the larger number. -/
theorem reflTransGen_of_edge (hClosed : g.IsClosed) {i j : Nat} (hb : g.number? b = some i)
    (hc : g.number? c = some j) (hEdge : g.Edge b c) (hLe : j ≤ i) : ReflTransGen g.Edge c b := by
  obtain ⟨newer, older, hSplit⟩ := List.append_of_mem (mem_order_of_number? hClosed hb)
  refine (retreatsOnCycles_order hClosed newer b older hSplit c hEdge).resolve_left fun hOlder => ?_
  obtain ⟨middle, oldest, rfl⟩ := List.append_of_mem hOlder
  have hSplit' : g.order = (newer ++ b :: middle) ++ c :: oldest := by simp [hSplit]
  obtain ⟨i', j', hi', hj', hLt⟩ :=
    Iteration.isBefore_of_split hClosed hSplit' (List.mem_append_right newer List.mem_cons_self)
  rw [hb] at hi'
  rw [hc] at hj'
  cases hi'
  cases hj'
  omega

end Retreat

end Graph

namespace Function

section Blocks

variable {fn : Function} (hWell : fn.IsWellFormed) (hBody : fn.hasBody = true) {b c : Nat}
include hWell hBody

theorem mem_order_graph_iff : b ∈ fn.graph.order ↔ fn.Reaches b := by
  rw [Graph.mem_order_iff (isClosed_graph hWell hBody),
    reachable_eq_of_route_eq (route_graph hWell hBody), Reaches, and_iff_right hBody]

omit hBody in
theorem edge_graph_iff (hReach : fn.Reaches b) : fn.graph.Edge b c ↔ fn.Edge b c := by
  rw [Graph.Edge, graph_succs hWell (hWell.lt_size hReach), Edge]

/-- A way from a block that can be reached stays among such blocks, where the graph has the edges
of the function. -/
theorem reaches_of_reflTransGen (hReach : fn.Reaches c) (hWay : ReflTransGen fn.graph.Edge c b) :
    fn.Reaches b ∧ ReflTransGen fn.Edge c b := by
  induction hWay with
  | refl => exact ⟨hReach, .refl⟩
  | tail _ hLast ih =>
      have hEdge := (edge_graph_iff hWell ih.1).mp hLast
      exact ⟨⟨hBody, ih.1.2.step hEdge⟩, ih.2.tail hEdge⟩

end Blocks

/-- The search from the first block ends, after every block that it lists was left once and every
edge out of it was tried once. It lists the blocks that can be reached, each once, the first
one first; every other block comes after one of its predecessors, and an edge to a block that
does not come later closes a cycle. -/
theorem search_is_reverse_postorder (fn : Function) (hWell : fn.IsWellFormed)
    (hBody : fn.hasBody = true) :
    (∃ total last, Traversal.rounds fn.succs total .start = some last ∧ last.stack = [] ∧
      last.left.reverse = fn.graph.order ∧
      total = (fn.graph.order.map fun b => (fn.succs b).length + 1).sum ∧
      ∀ n, (Traversal.rounds fn.succs n .start).isSome ↔ n ≤ total) ∧
    fn.graph.order.Nodup ∧ (∀ b, b ∈ fn.graph.order ↔ fn.Reaches b) ∧
    fn.graph.order.head? = some 0 ∧
    (∀ b ∈ fn.graph.order, b ≠ 0 → ∃ p, fn.Edge p b ∧ fn.graph.IsBefore p b) ∧
    ∀ b c i j, fn.graph.number? b = some i → fn.graph.number? c = some j → fn.Edge b c → j ≤ i →
      ReflTransGen fn.Edge c b := by
  have hClosed := isClosed_graph hWell hBody
  have hSuccs : ∀ b < fn.graph.size, fn.graph.succs b = fn.succs b := fun b hb =>
    graph_succs hWell hb
  have hMem : ∀ b, b ∈ fn.graph.order ↔ fn.Reaches b := fun _ => mem_order_graph_iff hWell hBody
  refine ⟨?_, Graph.nodup_order hClosed, hMem, ?_, ?_, ?_⟩
  · obtain ⟨last, hRounds, hEnd, hOrder⟩ := Traversal.exists_rounds_start hClosed hSuccs
    exact ⟨_, last, hRounds, hEnd, hOrder, rfl, fun n => Traversal.isSome_rounds_iff hRounds hEnd⟩
  · obtain ⟨rest, hOrder⟩ := Graph.order_eq_zero_cons hClosed
    rw [hOrder, List.head?_cons]
  · intro b hb hZero
    obtain ⟨newer, older, hSplit⟩ := List.append_of_mem hb
    obtain ⟨p, hp, hpEdge⟩ := Graph.exists_pred_before hClosed hSplit hZero
    have hpReach : fn.Reaches p := (hMem p).mp (by simp [hSplit, hp])
    exact ⟨p, (edge_graph_iff hWell hpReach).mp hpEdge,
      Iteration.isBefore_of_split hClosed hSplit hp⟩
  · intro b c i j hb hc hbc hLe
    have hbReach : fn.Reaches b := (hMem b).mp (Graph.mem_order_of_number? hClosed hb)
    have hcReach : fn.Reaches c := (hMem c).mp (Graph.mem_order_of_number? hClosed hc)
    have hGraphEdge := (edge_graph_iff hWell hbReach).mpr hbc
    have hBack := Graph.reflTransGen_of_edge hClosed hb hc hGraphEdge hLe
    exact (reaches_of_reflTransGen hWell hBody hcReach hBack).2

/-- The loop that is entered at two places is searched in twelve rounds. The edge from its third
block to its second one leads back. -/
theorem search_is_reverse_postorder_twoEntryLoop : twoEntryLoop.IsWellFormed ∧
    twoEntryLoop.hasBody = true ∧
    Traversal.rounds twoEntryLoop.succs 12 .start = some ⟨[], [3, 2, 1, 0], [3, 2, 1, 0]⟩ ∧
    twoEntryLoop.graph.order = [0, 1, 2, 3] ∧ ReflTransGen twoEntryLoop.Edge 1 2 := by
  have hWell : twoEntryLoop.IsWellFormed := ⟨by decide, by decide⟩
  have hTwelve : Traversal.rounds twoEntryLoop.succs 12 .start =
      some ⟨[], [3, 2, 1, 0], [3, 2, 1, 0]⟩ := rfl
  obtain ⟨⟨total, last, hRounds, hEnd, hLeft, -, hEnds⟩, -, -, -, -, hBack⟩ :=
    search_is_reverse_postorder twoEntryLoop hWell (by decide)
  have hTotal : total = 12 := by
    have hEnough : 12 ≤ total := (hEnds 12).mp (by rw [hTwelve]; rfl)
    have hNoMore : ¬ 13 ≤ total := fun hMore => Bool.noConfusion ((hEnds 13).mpr hMore)
    omega
  rw [hTotal, hTwelve] at hRounds
  cases hRounds
  have hOrder : twoEntryLoop.graph.order = [0, 1, 2, 3] := hLeft.symm
  refine ⟨hWell, by decide, hTwelve, hOrder, hBack 2 1 2 1 ?_ ?_ ?_ (by decide)⟩
  · rw [Graph.number?, hOrder]
    rfl
  · rw [Graph.number?, hOrder]
    rfl
  · exact List.mem_cons_self

end Function

end NilGuard
