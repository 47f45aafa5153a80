import NilGuard.Proofs.Idoms
import NilGuard.Proofs.Search
/-! The dominator tree of a graph is the one that routes define. The table of immediate
dominators speaks about numbers in reverse postorder; here it is read back by place. -/
namespace NilGuard

namespace Graph

/-- The predecessors of a place are the places with an edge to it. -/
structure IsLinked (g : Graph) : Prop extends IsClosed g where
  mem_preds_iff : ∀ b < g.size, ∀ p, p ∈ g.preds b ↔ p < g.size ∧ g.Edge p b

/-- The place with a number. -/
def place (g : Graph) (a : Nat) : Nat := g.order[a]?.getD 0

/-- The edges between the numbers of places. -/
abbrev NumberEdge (g : Graph) : Nat → Nat → Prop := Idoms.Edge (g.numberedPreds g.order)

theorem size_numberedPreds (g : Graph) : (g.numberedPreds g.order).size = g.order.length := by
  simp [numberedPreds]

theorem place_mem_order {g : Graph} {a : Nat} (ha : a < g.order.length) : g.place a ∈ g.order := by
  simp [place, ha]

section Numbers

variable {g : Graph} (hClosed : g.IsClosed)
include hClosed

theorem place_zero : g.place 0 = 0 := by
  obtain ⟨rest, hOrder⟩ := order_eq_zero_cons hClosed
  simp [place, hOrder]

theorem order_length_pos : 0 < g.order.length := by
  obtain ⟨rest, hOrder⟩ := order_eq_zero_cons hClosed
  simp [hOrder]

theorem order_length_le : g.order.length ≤ g.size := by
  have hSubset : g.order ⊆ List.range g.size := fun b hb =>
    List.mem_range.mpr (hClosed.lt_size ((mem_order_iff hClosed).mp hb))
  simpa using (nodup_order hClosed).length_le_of_subset hSubset

theorem reachable_place {a : Nat} (ha : a < g.order.length) : Reachable g.Edge (g.place a) :=
  (mem_order_iff hClosed).mp (place_mem_order ha)

theorem exists_number {b : Nat} (hReach : Reachable g.Edge b) :
    ∃ a < g.order.length, g.place a = b := by
  obtain ⟨a, ha, hGet⟩ := List.mem_iff_getElem.mp ((mem_order_iff hClosed).mpr hReach)
  exact ⟨a, ha, by simp [place, ha, hGet]⟩

theorem place_inj {a b : Nat} (ha : a < g.order.length) (hb : b < g.order.length)
    (hEq : g.place a = g.place b) : a = b := by
  have hGet : g.order[a] = g.order[b] := by simpa [place, ha, hb] using hEq
  exact (List.getElem_inj (nodup_order hClosed)).mp hGet

theorem idxOf?_eq_some_iff {a b : Nat} :
    g.order.idxOf? b = some a ↔ a < g.order.length ∧ g.place a = b := by
  rw [List.idxOf?_eq_some_iff]
  constructor
  · rintro ⟨ha, hGet, -⟩
    exact ⟨ha, by simp [place, ha, hGet]⟩
  · rintro ⟨ha, hPlace⟩
    refine ⟨ha, by simpa [place, ha] using hPlace, ?_⟩
    intro j hj hGet
    have hSame : g.place j = g.place a := by
      rw [hPlace]
      simp [place, Nat.lt_trans hj ha, hGet]
    have hEq := place_inj hClosed (Nat.lt_trans hj ha) ha hSame
    omega

end Numbers

section Preds

/-- Every edge from a place that can be reached is among the predecessors of its target. -/
def HasReachedPreds (g : Graph) : Prop :=
  ∀ b < g.size, ∀ p, Reachable g.Edge p → g.Edge p b → p ∈ g.preds b

variable {g : Graph}

theorem IsLinked.hasReachedPreds (hLinked : g.IsLinked) : g.HasReachedPreds := by
  intro b hb p hReach hEdge
  exact (hLinked.mem_preds_iff b hb p).mpr ⟨hLinked.lt_size hReach, hEdge⟩

theorem getD_numberedPreds {a : Nat} (ha : a < g.order.length) :
    (g.numberedPreds g.order)[a]?.getD [] = (g.preds (g.place a)).filterMap g.order.idxOf? := by
  simp [numberedPreds, place, ha]

/-- In reverse postorder every place but the first has a predecessor that comes before it. -/
theorem isNumbering_of_hasReachedPreds (hClosed : g.IsClosed) (hPreds : g.HasReachedPreds) :
    Idoms.IsNumbering (g.numberedPreds g.order) := by
  constructor
  case nonempty =>
    rw [size_numberedPreds]
    exact order_length_pos hClosed
  case forward =>
    intro a hPos ha
    rw [size_numberedPreds] at ha
    have hZero : g.place a ≠ 0 := by
      intro hEq
      rw [← place_zero hClosed] at hEq
      exact absurd (place_inj hClosed ha (order_length_pos hClosed) hEq) (Nat.ne_of_gt hPos)
    have hSplit : g.order = g.order.take a ++ g.place a :: g.order.drop (a + 1) := by
      simp [place, ha]
    obtain ⟨q, hMem, hEdge⟩ := exists_pred_before hClosed hSplit hZero
    obtain ⟨p, hp, hGet⟩ := List.mem_take_iff_getElem.mp hMem
    have hpPlace : g.place p = q := by simp [place, show p < g.order.length by omega, hGet]
    have hpLt : p < g.order.length := by omega
    refine ⟨p, ?_, by omega⟩
    rw [Idoms.Edge, getD_numberedPreds ha]
    refine List.mem_filterMap.mpr ⟨q, ?_, (idxOf?_eq_some_iff hClosed).mpr ⟨hpLt, hpPlace⟩⟩
    exact hPreds _ (hClosed.lt_size (reachable_place hClosed ha)) q
      (hpPlace ▸ reachable_place hClosed hpLt) hEdge

end Preds

section Transport

variable {g : Graph} (hLinked : g.IsLinked)
include hLinked

theorem numberEdge_iff {p a : Nat} : g.NumberEdge p a ↔
    p < g.order.length ∧ a < g.order.length ∧ g.Edge (g.place p) (g.place a) := by
  have hClosed := hLinked.toIsClosed
  by_cases ha : a < g.order.length
  · have hReach := reachable_place hClosed ha
    rw [NumberEdge, Idoms.Edge, getD_numberedPreds ha, List.mem_filterMap]
    constructor
    · rintro ⟨q, hq, hIdx⟩
      obtain ⟨hp, rfl⟩ := (idxOf?_eq_some_iff hClosed).mp hIdx
      exact ⟨hp, ha, ((hLinked.mem_preds_iff _ (hClosed.lt_size hReach) _).mp hq).2⟩
    · rintro ⟨hp, -, hEdge⟩
      refine ⟨g.place p, ?_, (idxOf?_eq_some_iff hClosed).mpr ⟨hp, rfl⟩⟩
      have hpLt := hClosed.lt_size (reachable_place hClosed hp)
      exact (hLinked.mem_preds_iff _ (hClosed.lt_size hReach) _).mpr ⟨hpLt, hEdge⟩
  · have hNone : ¬ g.NumberEdge p a := by simp [Idoms.Edge, numberedPreds, ha]
    exact ⟨fun hEdge => absurd hEdge hNone, fun hEdge => absurd hEdge.2.1 ha⟩

theorem isNumbering : Idoms.IsNumbering (g.numberedPreds g.order) :=
  isNumbering_of_hasReachedPreds hLinked.toIsClosed hLinked.hasReachedPreds

theorem lt_length_of_reachable {a : Nat} (hReach : Reachable g.NumberEdge a) :
    a < g.order.length := by
  obtain ⟨path, route⟩ := hReach
  rw [← size_numberedPreds]
  exact (isNumbering hLinked).lt_size_of_route route a List.mem_cons_self

theorem reachable_number {a : Nat} (ha : a < g.order.length) : Reachable g.NumberEdge a := by
  obtain ⟨path, route, -⟩ :=
    (isNumbering hLinked).exists_forward_route a (by rwa [size_numberedPreds])
  exact ⟨path, route⟩

/-- Routes are the same between numbers as between their places. -/
theorem isRouteMap_place : IsRouteMap g.place g.NumberEdge g.Edge := by
  have hClosed := hLinked.toIsClosed
  apply IsRouteMap.of_edge_iff (place_zero hClosed)
  · intro a hReach c
    have ha := lt_length_of_reachable hLinked hReach
    constructor
    · intro hEdge
      obtain ⟨d, hd, rfl⟩ := exists_number hClosed ((reachable_place hClosed ha).step hEdge)
      exact ⟨d, (numberEdge_iff hLinked).mpr ⟨ha, hd, hEdge⟩, rfl⟩
    · rintro ⟨d, hEdge, rfl⟩
      exact ((numberEdge_iff hLinked).mp hEdge).2.2
  · intro a b ha hb hEq
    exact place_inj hClosed (lt_length_of_reachable hLinked ha)
      (lt_length_of_reachable hLinked hb) hEq

end Transport

section Tree

theorem size_domTree_idom (g : Graph) : g.domTree.idom.size = g.size := by
  simp [domTree]

variable {g : Graph} (hLinked : g.IsLinked)
include hLinked

/-- The entry of a place is read from the table at its number. A smaller number as
parent is what ends the way up. -/
theorem domTree_get_place {a : Nat} (ha : a < g.order.length) :
    ∃ d ≤ a, g.domTree.get (g.place a) = some (g.place d) ∧ (0 < a → d < a ∧
      ImmediatelyDominates g.Edge (g.place d) (g.place a)) := by
  have hClosed := hLinked.toIsClosed
  have hPasses : (g.numberedPreds g.order).size ≤ passes g.order := by
    rw [size_numberedPreds, passes]
    omega
  obtain ⟨d, hGet, hFirst, hRest⟩ := Idoms.get_settle (isNumbering hLinked) hPasses
    (show a < _ by rwa [size_numberedPreds])
  rw [size_numberedPreds] at hGet
  have hLe : d ≤ a := by
    rcases Nat.eq_zero_or_pos a with hZero | hPos
    · rw [hFirst hZero]
      exact Nat.zero_le a
    · exact Nat.le_of_lt (hRest hPos).1
  have hd : d < g.order.length := Nat.lt_of_le_of_lt hLe ha
  have hIdx : g.order.idxOf? (g.place a) = some a := (idxOf?_eq_some_iff hClosed).mpr ⟨ha, rfl⟩
  have hLt : g.place a < g.size := hClosed.lt_size (reachable_place hClosed ha)
  refine ⟨d, hLe, ?_, fun hPos => ⟨(hRest hPos).1, ?_⟩⟩
  · have hPlace : g.order[d]? = some (g.place d) := by simp [place, hd]
    simp [domTree, DomTree.get, idoms, hLt, hIdx, hGet, hPlace]
  · exact ((isRouteMap_place hLinked).immediatelyDominates_iff (reachable_number hLinked hd)
      (reachable_number hLinked ha)).mpr (hRest hPos).2

theorem domTree_get_of_not_reachable {b : Nat} (hNot : ¬ Reachable g.Edge b) :
    g.domTree.get b = none := by
  have hIdx : g.order.idxOf? b = none := by
    rw [List.idxOf?_eq_none_iff, mem_order_iff hLinked.toIsClosed]
    exact hNot
  by_cases hLt : b < g.size <;> simp [domTree, DomTree.get, hLt, hIdx]

theorem domTree_get_zero : g.domTree.get 0 = some 0 := by
  obtain ⟨d, hd, hGet, -⟩ := domTree_get_place hLinked (order_length_pos hLinked.toIsClosed)
  obtain rfl : d = 0 := by omega
  rwa [place_zero hLinked.toIsClosed] at hGet

theorem domTree_get_of_ne_zero {b : Nat} (hReach : Reachable g.Edge b) (hZero : b ≠ 0) :
    ∃ d, g.domTree.get b = some d ∧ ImmediatelyDominates g.Edge d b := by
  obtain ⟨a, ha, rfl⟩ := exists_number hLinked.toIsClosed hReach
  have hPos : 0 < a := by
    apply Nat.pos_of_ne_zero
    rintro rfl
    exact hZero (place_zero hLinked.toIsClosed)
  obtain ⟨d, -, hGet, hRest⟩ := domTree_get_place hLinked ha
  exact ⟨g.place d, hGet, (hRest hPos).2⟩

/-- The tree gives a place its immediate dominator if it can be reached, and the entry
itself. -/
theorem domTree_get_eq_some_iff {b d : Nat} : g.domTree.get b = some d ↔
    (b = 0 ∧ d = 0) ∨ (Reachable g.Edge b ∧ ImmediatelyDominates g.Edge d b) := by
  by_cases hReach : Reachable g.Edge b
  · by_cases hZero : b = 0
    · subst hZero
      rw [domTree_get_zero hLinked]
      constructor
      · rintro ⟨⟩
        exact Or.inl ⟨rfl, rfl⟩
      · rintro (⟨-, rfl⟩ | ⟨-, hIdom⟩)
        · rfl
        · exact absurd rfl hIdom.ne_zero
    · obtain ⟨e, hGet, hIdom⟩ := domTree_get_of_ne_zero hLinked hReach hZero
      rw [hGet]
      constructor
      · rintro ⟨⟩
        exact Or.inr ⟨hReach, hIdom⟩
      · rintro (⟨hEq, -⟩ | ⟨-, hOther⟩)
        · exact absurd hEq hZero
        · rw [hIdom.unique hReach hOther]
  · rw [domTree_get_of_not_reachable hLinked hReach]
    constructor
    · intro hNone
      cases hNone
    · rintro (⟨rfl, -⟩ | ⟨hThere, -⟩)
      · exact absurd Reachable.zero hReach
      · exact absurd hThere hReach

theorem domTree_reachable_iff {b : Nat} :
    g.domTree.reachable b = true ↔ Reachable g.Edge b := by
  rw [DomTree.reachable]
  constructor
  · intro hSome
    apply Classical.byContradiction
    intro hNot
    rw [domTree_get_of_not_reachable hLinked hNot] at hSome
    cases hSome
  · intro hReach
    obtain ⟨a, ha, rfl⟩ := exists_number hLinked.toIsClosed hReach
    obtain ⟨d, -, hGet, -⟩ := domTree_get_place hLinked ha
    rw [hGet]
    rfl

theorem onWayUp_iff {a steps i : Nat} (hi : i < g.order.length) (hSteps : i < steps) :
    g.domTree.onWayUp a steps (g.place i) = true ↔ Dominates g.Edge a (g.place i) := by
  induction steps generalizing i with
  | zero => exact absurd hSteps (Nat.not_lt_zero i)
  | succ steps ih =>
      rw [DomTree.onWayUp]
      split
      case isTrue hEq =>
        rw [hEq]
        exact ⟨fun _ => Dominates.refl a, fun _ => rfl⟩
      case isFalse hNe =>
        obtain ⟨d, hd, hGet, hRest⟩ := domTree_get_place hLinked hi
        simp only [hGet]
        rcases Nat.eq_zero_or_pos i with rfl | hPos
        · obtain rfl : d = 0 := by omega
          rw [if_pos rfl]
          refine ⟨fun hFalse => Bool.noConfusion hFalse, fun hDom => ?_⟩
          rw [place_zero hLinked.toIsClosed] at hDom hNe
          exact absurd hDom.eq_zero.symm hNe
        · obtain ⟨hLt, hIdom⟩ := hRest hPos
          rw [if_neg hIdom.1.1, ih (by omega) (by omega)]
          exact ⟨fun hDom => hDom.trans hIdom.1.2, fun hDom => hIdom.2 a ⟨Ne.symm hNe, hDom⟩⟩

theorem domTree_dominates_iff {a b : Nat} :
    g.domTree.dominates a b = true ↔ Reachable g.Edge b ∧ Dominates g.Edge a b := by
  rw [DomTree.dominates, Bool.and_eq_true, domTree_reachable_iff hLinked, size_domTree_idom]
  constructor
  · rintro ⟨hReach, hUp⟩
    obtain ⟨i, hi, rfl⟩ := exists_number hLinked.toIsClosed hReach
    have hSteps := Nat.lt_of_lt_of_le hi (order_length_le hLinked.toIsClosed)
    exact ⟨hReach, (onWayUp_iff hLinked hi hSteps).mp hUp⟩
  · rintro ⟨hReach, hDom⟩
    obtain ⟨i, hi, rfl⟩ := exists_number hLinked.toIsClosed hReach
    have hSteps := Nat.lt_of_lt_of_le hi (order_length_le hLinked.toIsClosed)
    exact ⟨hReach, (onWayUp_iff hLinked hi hSteps).mpr hDom⟩

end Tree

end Graph

end NilGuard
