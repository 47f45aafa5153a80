import NilGuard.Proofs.Persistence
/-! Every edge that is the only way into a block delivers what the comparison before it
teaches. The block at its end is immediately dominated by the block at its start, so the walk
comes to it from there. All other blocks right below a comparison keep the facts of the
block above. -/
namespace NilGuard

/-- A place with one way in is immediately dominated by the place before it. -/
theorem ImmediatelyDominates.of_sole_edge {edge : Nat → Nat → Prop} {b d : Nat}
    (hReach : Reachable edge d) (hZero : d ≠ 0)
    (hSole : ∀ a, Reachable edge a → edge a d → a = b) : ImmediatelyDominates edge b d := by
  have hLast : ∀ path, Route edge (d :: path) → edge b d ∧ ∃ older, path = b :: older := by
    intro path route
    cases route with
    | entry => exact absurd rfl hZero
    | @step a _ older prior last =>
        obtain rfl := hSole a ⟨older, prior⟩ last
        exact ⟨last, older, rfl⟩
  obtain ⟨path, route⟩ := hReach
  have hEdge := (hLast path route).1
  have hNe : b ≠ d := by
    rintro rfl
    obtain ⟨rest, hRoute, hNodup, -⟩ := route.exists_nodup
    obtain ⟨-, older, rfl⟩ := hLast rest hRoute
    exact (List.nodup_cons.mp hNodup).1 List.mem_cons_self
  have hDom : Dominates edge b d := by
    intro path route
    obtain ⟨-, older, rfl⟩ := hLast path route
    exact List.mem_cons_of_mem _ List.mem_cons_self
  exact ⟨⟨hNe, hDom⟩, fun a hStrict => hStrict.2.of_edge hStrict.1 hEdge⟩

namespace Function

section Single

variable {fn : Function} (hLinked : fn.IsLinked) {a b d : Nat}
include hLinked

theorem IsLinked.mem_preds_iff (hd : d < fn.blocks.size) :
    a ∈ fn.preds d ↔ fn.Reaches a ∧ fn.Edge a d := by
  obtain ⟨tree, hTree⟩ := hLinked.exists_tree
  constructor
  · intro hMem
    have hReach := hTree.reaches_of_mem_preds d hd a hMem
    rw [← List.count_pos_iff, hTree.count_preds d hd a hReach, List.count_pos_iff] at hMem
    exact ⟨hReach, hMem⟩
  · rintro ⟨hReach, hEdge⟩
    rw [← List.count_pos_iff, hTree.count_preds d hd a hReach, List.count_pos_iff]
    exact hEdge

theorem IsLinked.immediatelyDominates_of_preds (hd : d < fn.blocks.size) (hZero : d ≠ 0)
    (hPreds : fn.preds d = [b]) : fn.Reaches d ∧ ImmediatelyDominates fn.Edge b d := by
  have hMem : b ∈ fn.preds d := by rw [hPreds]; exact List.mem_singleton_self b
  obtain ⟨⟨hBody, hReach⟩, hEdge⟩ := (hLinked.mem_preds_iff hd).mp hMem
  have hNext : Reachable fn.Edge d := hReach.step hEdge
  refine ⟨⟨hBody, hNext⟩, .of_sole_edge hNext hZero fun a ha hEdge => ?_⟩
  have hPred : a ∈ fn.preds d := (hLinked.mem_preds_iff hd).mpr ⟨⟨hBody, ha⟩, hEdge⟩
  rw [hPreds] at hPred
  exact List.mem_singleton.mp hPred

theorem IsLinked.idom?_of_preds (hd : d < fn.blocks.size) (hZero : d ≠ 0)
    (hPreds : fn.preds d = [b]) : fn.idom? d = some b := by
  obtain ⟨hReach, hIdom⟩ := hLinked.immediatelyDominates_of_preds hd hZero hPreds
  obtain ⟨tree, hTree⟩ := hLinked.exists_tree
  obtain ⟨e, hGiven, -, hUnique⟩ := hTree.idom_of_reaches d hReach hZero
  rw [hGiven, hUnique b hIdom]

/-- Among the blocks that can be entered in one way only, the dominees of a block other than
the entry are its successors. -/
theorem IsLinked.mem_dominees_iff_mem_succs (hb : fn.Reaches b) (hd : d < fn.blocks.size)
    (hZero : d ≠ 0) (hOne : (fn.preds d).length = 1) : d ∈ fn.dominees b ↔ d ∈ fn.succs b := by
  obtain ⟨p, hPreds⟩ := List.length_eq_one_iff.mp hOne
  obtain ⟨hReach, hIdom⟩ := hLinked.immediatelyDominates_of_preds hd hZero hPreds
  have hEdge : d ∈ fn.succs b ↔ b = p := by
    rw [← List.mem_singleton, ← hPreds, hLinked.mem_preds_iff hd]
    exact ⟨fun hEdge => ⟨hb, hEdge⟩, And.right⟩
  rw [hEdge, hLinked.mem_dominees_iff (hLinked.isWellFormed.lt_size hb)]
  constructor
  · rintro ⟨-, hAlso⟩
    exact hAlso.unique hReach.2 hIdom
  · rintro rfl
    exact ⟨hReach, hIdom⟩

end Single

/-- The block is visited, and only with these facts. -/
def IsVisitedWith (fn : Function) (d : Nat) (facts : Facts) : Prop :=
  ⟨d, facts⟩ ∈ fn.walk.visits ∧ ∀ v ∈ fn.walk.visits, v.block = d → v.facts = facts

variable {fn : Function} {u v : Visit} {c : Comparison} {other : Value} {d : Nat}

theorem isVisitedWith_of_mem_below (hLinked : fn.IsLinked) (hu : u ∈ fn.walk.visits)
    (hv : v ∈ fn.below u) : fn.IsVisitedWith v.block v.facts := by
  have hVisit := (mem_visits_iff hLinked).mpr (Or.inr ⟨u, hu, hv⟩)
  refine ⟨hVisit, fun w hw hBlock => ?_⟩
  rw [eq_of_mem_visits hLinked hVisit hw hBlock]

/-- Below a comparison that teaches something, no dominee is pruned. -/
theorem isVisitedWith_factsBelow (hLinked : fn.IsLinked) (hu : u ∈ fn.walk.visits)
    (hComparison : fn.comparison? u.block = some c)
    (hLesson : c.lesson u.facts = .learned c other) (hd : d ∈ fn.dominees u.block) :
    fn.IsVisitedWith d (fn.factsBelow u.facts c other d) := by
  have hLearned : fn.lesson u = .learned c other := by simp only [lesson, hComparison, hLesson]
  have hBelow : ⟨d, fn.factsBelow u.facts c other d⟩ ∈ fn.below u := by
    simp only [below, hLearned]
    exact List.mem_map_of_mem hd
  exact isVisitedWith_of_mem_below hLinked hu hBelow

theorem eq_onEqual_or_eq_onDiffer (hComparison : fn.comparison? u.block = some c)
    (hd : d ∈ fn.succs u.block) : d = c.onEqual ∨ d = c.onDiffer := by
  obtain ⟨_, _, onTrue, onFalse, -, -, hSuccs, -, hOutcome⟩ := comparison?_eq_some hComparison
  rw [hSuccs] at hd
  rcases hOutcome with ⟨-, hTrue, hFalse⟩ | ⟨-, hFalse, hTrue⟩ <;> rw [hTrue, hFalse] <;>
    simp at hd <;> omega

/-- The only edge into a block is not both outcomes of a comparison. -/
theorem onDiffer_ne_onEqual_of_preds (hLinked : fn.IsLinked) (hu : fn.Reaches u.block)
    (hComparison : fn.comparison? u.block = some c) (hd : d ∈ fn.succs u.block)
    (hOne : (fn.preds d).length = 1) : c.onDiffer ≠ c.onEqual := by
  have hCount := (hLinked.eq_of_preds_length_eq_one hOne hu hu hd hd).2
  exact (onEqual_ne_onDiffer hComparison hCount (eq_onEqual_or_eq_onDiffer hComparison hd)).symm

theorem factsBelow_of_not_single (facts : Facts) (c : Comparison) (other : Value)
    (hMany : (fn.preds d).length ≠ 1) : fn.factsBelow facts c other d = facts := by
  have hNot : fn.hasOneEdge d = false := by rw [hasOneEdge, beq_eq_false_iff_ne]; exact hMany
  simp [factsBelow, hNot]

/-- A block other than the entry with one predecessor has it as its immediate dominator. So
where a visit ends in a comparison of nil with an unknown value, each of its successors with
no other way in is visited with what the outcome says about the value, and all other dominees
with the facts of the visit. -/
theorem single_edges_deliver (fn : Function) (hLinked : fn.IsLinked) :
    (∀ b d, d < fn.blocks.size → d ≠ 0 → fn.preds d = [b] → fn.idom? d = some b) ∧
    ∀ u ∈ fn.walk.visits, ∀ c other, fn.comparison? u.block = some c →
      ((other = c.right ∧ u.facts.classify c.left = .nil ∧
          u.facts.classify c.right = .unknown) ∨
        (other = c.left ∧ u.facts.classify c.right = .nil ∧
          u.facts.classify c.left = .unknown)) →
      (∀ d ∈ fn.succs u.block, d ≠ 0 → (fn.preds d).length = 1 →
        (d = c.onEqual ∨ d = c.onDiffer) ∧
        (d = c.onEqual → fn.IsVisitedWith d (u.facts.push (Fact.expand ⟨other, .nil⟩))) ∧
        (d = c.onDiffer →
          fn.IsVisitedWith d (u.facts.push ((Fact.expand ⟨other, .nil⟩).map Fact.negate)))) ∧
      ∀ d ∈ fn.dominees u.block, ¬ (d ∈ fn.succs u.block ∧ (fn.preds d).length = 1) →
        fn.IsVisitedWith d u.facts := by
  constructor
  · intro b d hd hZero hPreds
    exact hLinked.idom?_of_preds hd hZero hPreds
  intro u hu c other hComparison hSides
  have hReach := reaches_of_mem_visits hLinked hu
  have hWell := hLinked.isWellFormed
  have hLesson : c.lesson u.facts = .learned c other :=
    Comparison.lesson_eq_learned_iff.mpr ⟨rfl, hSides⟩
  have hVisited := fun d => isVisitedWith_factsBelow hLinked hu hComparison hLesson (d := d)
  constructor
  · intro d hSucc hZero hOne
    have hd := hWell.inside _ (hWell.lt_size hReach) d hSucc
    have hNe := onDiffer_ne_onEqual_of_preds hLinked hReach hComparison hSucc hOne
    have hSingle : fn.hasOneEdge d = true := by rw [hasOneEdge, hOne]; rfl
    have hHere := hVisited d ((hLinked.mem_dominees_iff_mem_succs hReach hd hZero hOne).mpr hSucc)
    refine ⟨eq_onEqual_or_eq_onDiffer hComparison hSucc, ?_, ?_⟩
    · rintro rfl
      simpa [factsBelow, hSingle] using hHere
    · rintro rfl
      simpa [factsBelow, hSingle, hNe] using hHere
  · intro d hDominee hOther
    have hHere := hVisited d hDominee
    have hIdom := (hLinked.mem_dominees_iff (hWell.lt_size hReach)).mp hDominee
    have hMany : (fn.preds d).length ≠ 1 := by
      intro hOne
      have hSuccs := hLinked.mem_dominees_iff_mem_succs hReach (hWell.lt_size hIdom.1)
        hIdom.2.ne_zero hOne
      exact hOther ⟨hSuccs.mp hDominee, hOne⟩
    rwa [factsBelow_of_not_single _ _ _ hMany] at hHere

/-- Both outcomes of the first test are delivered, and the block where the branches join gets
neither. Of the second test only equality is delivered, since its other outcome leads to the
join too. -/
theorem single_edges_deliver_nestedGuard :
    nestedGuard.IsLinked ∧ nestedGuard.idom? 4 = some 2 ∧
      nestedGuard.IsVisitedWith 1 [⟨guardedValue, .nil⟩, ⟨guardedWrapped, .nil⟩] ∧
      nestedGuard.IsVisitedWith 2 nestedFacts ∧ nestedGuard.IsVisitedWith 3 [] ∧
      nestedGuard.IsVisitedWith 4 (⟨guardedNext, .nil⟩ :: nestedFacts) := by
  obtain ⟨hEntry, hSome, -⟩ := mem_visits_nestedGuard
  obtain ⟨hIdom, hDeliver⟩ := single_edges_deliver nestedGuard isLinked_nestedGuard
  have hFirst : nestedGuard.comparison? 0 = some
      { location := {}, result := .leaf { id := 4, name := "isNull" } .other, operator := "=="
        left := guardedWrapped, right := .leaf { id := 0, name := "" } (.const true "nil")
        onEqual := 1, onDiffer := 2 } := by decide
  have hSecond : nestedGuard.comparison? 2 = some
      { location := {}, result := .leaf { id := 5, name := "isSome" } .other, operator := "!="
        left := guardedNext, right := .leaf { id := 0, name := "" } (.const true "nil")
        onEqual := 4, onDiffer := 3 } := by decide
  obtain ⟨hOutcome, hJoin⟩ :=
    hDeliver ⟨0, []⟩ hEntry _ guardedWrapped hFirst (Or.inr ⟨rfl, by decide, by decide⟩)
  obtain ⟨hOutcome', -⟩ :=
    hDeliver ⟨2, nestedFacts⟩ hSome _ guardedNext hSecond (Or.inr ⟨rfl, by decide, by decide⟩)
  exact ⟨isLinked_nestedGuard, hIdom 2 4 (by decide) (by decide) (by decide),
    (hOutcome 1 (by decide) (by decide) (by decide)).2.1 rfl,
    (hOutcome 2 (by decide) (by decide) (by decide)).2.2 rfl,
    hJoin 3 (by decide) (by decide), (hOutcome' 4 (by decide) (by decide) (by decide)).2.1 rfl⟩

end Function

end NilGuard
