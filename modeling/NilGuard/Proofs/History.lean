import NilGuard.Proofs.Walk
/-! Histories of a function: the blocks that an execution goes through, with what is nil in
each of them. A value may change where it is made again. Whatever a history goes
through is visited by the walk, and the facts of the visit are true there. -/
namespace NilGuard

/-- The values can have the nilness of the valuation when the comparison leads to a block.
Two values that differ cannot both be nil. -/
def Comparison.Leads (c : Comparison) (s : Valuation) (b : Nat) : Prop :=
  (b = c.onEqual ∧ s c.left = s c.right) ∨
    (b = c.onDiffer ∧ ¬ (s c.left = true ∧ s c.right = true))

instance (c : Comparison) (s : Valuation) (b : Nat) : Decidable (c.Leads s b) :=
  inferInstanceAs (Decidable (_ ∨ _))

/-- Values that are nil or not as given can be equal, or can differ. Two values that differ cannot
both be nil. -/
def Valuation.CanCompare (s : Valuation) (v w : Value) (equal : Bool) : Prop :=
  if equal then s v = s w else ¬ (s v = true ∧ s w = true)

namespace Binary

/-- The operation can come out as given. Only tests for equality depend on what is nil. -/
def CanBe (x : Binary) (s : Valuation) (outcome : Bool) : Prop :=
  ∀ v w, x.left = some v → x.right = some w →
    (x.operator = "==" → s.CanCompare v w outcome) ∧
      (x.operator = "!=" → s.CanCompare v w !outcome)

/-- A branch on the operation can lead to a block. The first of two successors is entered when the
operation holds, the second when it does not. -/
def Takes (x : Binary) (succs : List Nat) (s : Valuation) (b : Nat) : Prop :=
  ∀ onTrue onFalse, succs = [onTrue, onFalse] →
    (b = onTrue ∧ x.CanBe s true) ∨ (b = onFalse ∧ x.CanBe s false)

end Binary

/-- A block that has been executed, and what is nil then. -/
structure Moment where
  block : Nat
  isNil : Valuation

theorem Moment.exists_last {h : List Moment} {a : Nat} (hMem : a ∈ h.map Moment.block) :
    ∃ newer z older, h = newer ++ z :: older ∧ z.block = a ∧ ∀ w ∈ newer, w.block ≠ a := by
  obtain ⟨x, hx, rfl⟩ := List.mem_map.mp hMem
  have hSome : (h.find? (·.block = x.block)).isSome = true :=
    List.find?_isSome.mpr ⟨x, hx, by simp⟩
  obtain ⟨z, hz⟩ := Option.isSome_iff_exists.mp hSome
  obtain ⟨hEq, newer, older, hSplit, hNewer⟩ := List.find?_eq_some_iff_append.mp hz
  exact ⟨newer, z, older, hSplit, by simpa using hEq, fun w hw => by simpa using hNewer w hw⟩

namespace Comparison

variable {c : Comparison} {facts : Facts} {s : Valuation} {b : Nat}

/-- Each outcome of a comparison with nil settles the other side. -/
theorem admits_of_leads {other : Value} {n : Nilness} (hLesson : c.lesson facts = .learned c other)
    (hLeft : (facts.classify c.left).admits (s c.left) = true)
    (hRight : (facts.classify c.right).admits (s c.right) = true)
    (hApart : c.onEqual ≠ c.onDiffer) (hLeads : c.Leads s b)
    (hOutcome : (n = .nil ∧ b = c.onEqual) ∨ (n = .nonNil ∧ b = c.onDiffer)) :
    n.admits (s other) = true := by
  obtain ⟨-, hNil⟩ := lesson_eq_learned hLesson
  have hOther : (b = c.onEqual → s other = true) ∧ (b = c.onDiffer → s other = false) := by
    rcases hNil with ⟨rfl, hNil⟩ | ⟨rfl, hNil⟩
    · have hTrue : s c.left = true := by simpa [hNil, Nilness.admits] using hLeft
      rcases hLeads with ⟨rfl, hSame⟩ | ⟨rfl, hNot⟩
      · exact ⟨fun _ => hSame ▸ hTrue, fun hEq => absurd hEq hApart⟩
      · exact ⟨fun hEq => absurd hEq.symm hApart, fun _ => by simpa [hTrue] using hNot⟩
    · have hTrue : s c.right = true := by simpa [hNil, Nilness.admits] using hRight
      rcases hLeads with ⟨rfl, hSame⟩ | ⟨rfl, hNot⟩
      · exact ⟨fun _ => hSame ▸ hTrue, fun hEq => absurd hEq hApart⟩
      · exact ⟨fun hEq => absurd hEq.symm hApart, fun _ => by simpa [hTrue] using hNot⟩
  rcases hOutcome with ⟨rfl, hEqual⟩ | ⟨rfl, hDiffer⟩
  · exact hOther.1 hEqual
  · simp [Nilness.admits, hOther.2 hDiffer]

/-- When the outcome is fixed, it is the one that the two sides have. -/
theorem eq_iff_of_fixed {x y : Nilness} (hLesson : c.lesson facts = .fixed c x y)
    (hLeft : (facts.classify c.left).admits (s c.left) = true)
    (hRight : (facts.classify c.right).admits (s c.right) = true) :
    (x = y ∧ s c.left = true ∧ s c.right = true) ∨ (x ≠ y ∧ s c.left ≠ s c.right) := by
  obtain ⟨-, rfl, rfl, hKnown⟩ := lesson_eq_fixed hLesson
  revert hLeft hRight hKnown
  generalize s c.left = left
  generalize s c.right = right
  cases facts.classify c.left <;> cases facts.classify c.right <;> cases left <;> cases right <;>
    simp [Nilness.admits]

theorem ne_deadEnd_of_leads {x y : Nilness} (hLesson : c.lesson facts = .fixed c x y)
    (hLeft : (facts.classify c.left).admits (s c.left) = true)
    (hRight : (facts.classify c.right).admits (s c.right) = true)
    (hApart : c.onEqual ≠ c.onDiffer) (hLeads : c.Leads s b) : b ≠ c.deadEnd x y := by
  rw [deadEnd]
  rcases eq_iff_of_fixed hLesson hLeft hRight with ⟨hSame, hBoth⟩ | ⟨hNe, hDiffer⟩
  · rw [if_pos hSame]
    rcases hLeads with ⟨rfl, -⟩ | ⟨rfl, hNot⟩
    · exact hApart
    · exact absurd hBoth hNot
  · rw [if_neg hNe]
    rcases hLeads with ⟨rfl, hEq⟩ | ⟨rfl, -⟩
    · exact absurd hEq hDiffer
    · exact hApart.symm

end Comparison

namespace Function

/-- Which values may change in a block, and which a block can rely on: only those that change
nowhere but in blocks which dominate it. What calls and comparisons use is available. -/
structure Scope (fn : Function) where
  changes : Nat → Value → Prop
  available : Nat → Value → Prop
  inner : ∀ {b t c v}, available b (.converted t c v) → available b v
  below : ∀ {a b v}, available a v → Dominates fn.Edge a b → available b v
  dominates : ∀ {b d v}, available b v → changes d v → Dominates fn.Edge d b
  comparison : ∀ {b c}, fn.Reaches b → fn.comparison? b = some c →
    available b c.left ∧ available b c.right
  call : ∀ {b i result callee args v}, fn.Reaches b → i ∈ fn.instrs b →
    i.op = .call result callee args → some v ∈ args → available b v

/-- A path through the function with a valuation for every block on it, the newest first. A
value changes only where it may, those that are available are as nil as their kinds
dictate, and a comparison leads on as its operands allow. -/
inductive History (fn : Function) (scope : fn.Scope) : List Moment → Prop where
  | start {s : Valuation} (body : fn.hasBody = true)
      (kinds : ∀ v, scope.available 0 v → s.RespectsAt v) : History fn scope [⟨0, s⟩]
  | step {x y : Moment} {older : List Moment} (prior : History fn scope (x :: older))
      (edge : fn.Edge x.block y.block)
      (branch : ∀ c, fn.comparison? x.block = some c → c.Leads x.isNil y.block)
      (keeps : ∀ v, ¬ scope.changes y.block v → y.isNil v = x.isNil v)
      (kinds : ∀ v, scope.available y.block v → y.isNil.RespectsAt v) :
      History fn scope (y :: x :: older)

/-- The walk visits the block, and only with facts that are true at the moment. -/
structure IsCovered (fn : Function) (z : Moment) : Prop where
  visited : ∃ v ∈ fn.walk.visits, v.block = z.block
  facts : ∀ v ∈ fn.walk.visits, v.block = z.block → ∀ f ∈ v.facts, f.HoldsIn z.isNil

section Branches

variable {fn : Function} {b d : Nat} {s : Valuation} {condition : Value} {x : Binary}
  (hCondition : fn.branchCondition? b = some condition)
  (hBinary : fn.binaryOf? condition = some x)
include hCondition hBinary

theorem eq_of_comparison? {c : Comparison} (hComparison : fn.comparison? b = some c) :
    x = ⟨c.location, c.result, c.operator, some c.left, some c.right⟩ := by
  obtain ⟨_, _, _, _, hCondition', hBinary', -, rfl, -⟩ := comparison?_eq_some hComparison
  rw [hCondition] at hCondition'
  cases hCondition'
  exact Option.some.inj (hBinary.symm.trans hBinary')

theorem takes_iff_leads {c : Comparison} (hComparison : fn.comparison? b = some c) :
    x.Takes (fn.succs b) s d ↔ c.Leads s d := by
  obtain rfl := eq_of_comparison? hCondition hBinary hComparison
  obtain ⟨_, _, onTrue, onFalse, -, -, hSuccs, -, hOutcome⟩ := comparison?_eq_some hComparison
  rcases hOutcome with ⟨hOperator, rfl, rfl⟩ | ⟨hOperator, rfl, rfl⟩
  · simp [Binary.Takes, Binary.CanBe, Valuation.CanCompare, Comparison.Leads, hSuccs, hOperator]
  · simp [Binary.Takes, Binary.CanBe, Valuation.CanCompare, Comparison.Leads, hSuccs, hOperator,
      or_comm]

/-- A branch that tests nothing for equality can lead to each of its successors. -/
theorem takes_of_comparison?_eq_none (hNone : fn.comparison? b = none) (edge : fn.Edge b d) :
    x.Takes (fn.succs b) s d := by
  intro onTrue onFalse hSuccs
  have hFree : ∀ outcome, x.CanBe s outcome := by
    intro outcome v w hv hw
    simp only [comparison?, hCondition, hBinary, hSuccs, hv, hw, Option.bind_eq_bind,
      Option.bind_some] at hNone
    constructor
    · intro hEqual
      rw [if_pos hEqual] at hNone
      cases hNone
    · intro hDiffer
      rw [if_neg (by rw [hDiffer]; decide), if_pos hDiffer] at hNone
      cases hNone
  rw [Edge, hSuccs, List.mem_cons, List.mem_singleton] at edge
  exact edge.imp (⟨·, hFree true⟩) (⟨·, hFree false⟩)

/-- Where a branch can lead is what its comparison says, if it has one. -/
theorem takes_iff (edge : fn.Edge b d) :
    x.Takes (fn.succs b) s d ↔ ∀ c, fn.comparison? b = some c → c.Leads s d := by
  constructor
  · intro hTakes c hComparison
    exact (takes_iff_leads hCondition hBinary hComparison).mp hTakes
  · intro hLeads
    cases hComparison : fn.comparison? b with
    | none => exact takes_of_comparison?_eq_none hCondition hBinary hComparison edge
    | some c => exact (takes_iff_leads hCondition hBinary hComparison).mpr (hLeads c hComparison)

end Branches

theorem takes_all_iff {fn : Function} {b d : Nat} {s : Valuation} (edge : fn.Edge b d) :
    (∀ v x, fn.branchCondition? b = some v → fn.binaryOf? v = some x →
      x.Takes (fn.succs b) s d) ↔ ∀ c, fn.comparison? b = some c → c.Leads s d := by
  constructor
  · intro hTakes c hComparison
    obtain ⟨v, x, _, _, hCondition, hBinary, -⟩ := comparison?_eq_some hComparison
    exact (takes_iff_leads hCondition hBinary hComparison).mp (hTakes v x hCondition hBinary)
  · intro hLeads v x hCondition hBinary
    exact (takes_iff hCondition hBinary edge).mpr hLeads

variable {fn : Function} {scope : fn.Scope}

namespace Scope

/-- Below a dominator nothing changes that is available in it. -/
theorem not_changes {a b : Nat} {v : Value} (hv : scope.available a v)
    (hDom : Dominates fn.Edge a b) (hNe : b ≠ a) (hReach : Reachable fn.Edge b) :
    ¬ scope.changes b v := by
  intro hChanges
  exact hNe ((scope.dominates hv hChanges).antisymm hDom (hDom.reachable hReach))

theorem available_of_learned {b : Nat} (hReach : fn.Reaches b) {c : Comparison}
    (hComparison : fn.comparison? b = some c) {facts : Facts} {other : Value}
    (hLesson : c.lesson facts = .learned c other) : scope.available b other := by
  obtain ⟨hLeft, hRight⟩ := scope.comparison hReach hComparison
  obtain ⟨-, ⟨rfl, -⟩ | ⟨rfl, -⟩⟩ := Comparison.lesson_eq_learned hLesson
  · exact hRight
  · exact hLeft

end Scope

namespace History

variable {h older newer rest : List Moment} {x y z : Moment}

theorem hasBody (history : fn.History scope h) : fn.hasBody = true := by
  induction history with
  | start body _ => exact body
  | step _ _ _ _ _ ih => exact ih

theorem route (history : fn.History scope h) : Route fn.Edge (h.map Moment.block) := by
  induction history with
  | start _ _ => exact Route.entry
  | step _ edge _ _ _ ih => exact ih.step edge

theorem of_append (history : fn.History scope (newer ++ z :: older)) :
    fn.History scope (z :: older) := by
  induction newer with
  | nil => exact history
  | cons y newer ih =>
      apply ih
      cases newer with
      | nil => cases history with | step prior => exact prior
      | cons x newer => cases history with | step prior => exact prior

theorem reaches (history : fn.History scope (z :: older)) : fn.Reaches z.block :=
  ⟨history.hasBody, _, history.route⟩

theorem respectsAt (history : fn.History scope (z :: older)) {v : Value}
    (hv : scope.available z.block v) : z.isNil.RespectsAt v := by
  cases history with
  | start _ kinds => exact kinds v hv
  | step _ _ _ _ kinds => exact kinds v hv

/-- A value that is available in a dominator does not change after the dominator was last
left: to change it again, the history would have to go back up the dominator tree. -/
theorem isNil_eq (history : fn.History scope (y :: rest)) (hSplit : y :: rest = newer ++ z :: older)
    (hNewer : ∀ w ∈ newer, w.block ≠ z.block) (hDom : Dominates fn.Edge z.block y.block)
    {v : Value} (hv : scope.available z.block v) : y.isNil v = z.isNil v := by
  induction newer generalizing y rest with
  | nil =>
      cases hSplit
      rfl
  | cons w newer ih =>
      obtain ⟨rfl, hRest⟩ := List.cons.inj hSplit
      have hNe := hNewer y List.mem_cons_self
      have hKeep := scope.not_changes hv hDom hNe history.reaches.2
      cases history with
      | start _ _ => simp at hRest
      | step prior edge _ keeps _ =>
          rw [keeps v hKeep]
          exact ih prior hRest (fun w hw => hNewer w (List.mem_cons_of_mem _ hw))
            (hDom.of_edge hNe.symm edge)

theorem classify_admits (history : fn.History scope (z :: older)) {facts : Facts}
    (hFacts : ∀ f ∈ facts, f.HoldsIn z.isNil) {v : Value} (hv : scope.available z.block v) :
    (facts.classify v).admits (z.isNil v) = true :=
  Facts.classify_admits (P := scope.available z.block) (fun _ _ _ => scope.inner)
    (fun _ hv => history.respectsAt hv) hFacts hv

end History

section Covered

variable (hLinked : fn.IsLinked)
include hLinked

/-- The facts of a visit are about values that are available to the block and do not change
in it. -/
theorem available_of_visit (scope : fn.Scope) {v : Visit} (hv : v ∈ fn.walk.visits) :
    fn.Reaches v.block ∧ ∀ f ∈ v.facts,
      scope.available v.block f.value ∧ ¬ scope.changes v.block f.value := by
  refine (walk_visits_induct hLinked (P := fun v => fn.Reaches v.block ∧ ∀ f ∈ v.facts,
    scope.available v.block f.value ∧ ¬ scope.changes v.block f.value) ?_ ?_ v hv).2
  · exact fun hBody => ⟨⟨hBody, Reachable.zero⟩, by simp⟩
  · rintro u hu ⟨hReach, hFacts⟩ w hw
    obtain ⟨hDominee, hCases⟩ := mem_below hw
    obtain ⟨hBelow, hIdom⟩ := (hLinked.mem_dominees_iff hu).mp hDominee
    suffices hAbove : ∀ f ∈ w.facts, scope.available u.block f.value by
      refine ⟨hBelow, fun f hf => ⟨scope.below (hAbove f hf) hIdom.1.2, ?_⟩⟩
      exact scope.not_changes (hAbove f hf) hIdom.1.2 hIdom.1.1.symm hBelow.2
    intro f hf
    rcases hCases with hSame | ⟨c, other, n, hComparison, hLesson, -, hPush, -⟩
    · exact (hFacts f (hSame ▸ hf)).1
    · rw [hPush] at hf
      rcases List.mem_append.mp hf with hNew | hOld
      · have hOther := scope.available_of_learned hReach hComparison hLesson
        exact (Fact.forall_mem_chain (fun _ _ => scope.inner) hOther f
          (List.mem_reverse.mp hNew)).2
      · exact (hFacts f hOld).1

/-- A block with one edge is entered from no other block than the one whose comparison leads
to it, and on one outcome only. -/
theorem eq_of_hasOneEdge {b e d : Nat} {c : Comparison} (hb : fn.Reaches b) (he : fn.Reaches e)
    (hEdge : fn.Edge b d) (hOne : fn.hasOneEdge d = true) (hComparison : fn.comparison? e = some c)
    (hd : d = c.onEqual ∨ d = c.onDiffer) : b = e ∧ c.onEqual ≠ c.onDiffer := by
  have hLength : (fn.preds d).length = 1 := by simpa [hasOneEdge] using hOne
  have hFrom : fn.Edge e d := by
    rcases hd with rfl | rfl
    · exact (edge_of_comparison hComparison).1
    · exact (edge_of_comparison hComparison).2
  obtain ⟨hEq, hCount⟩ := hLinked.eq_of_preds_length_eq_one hLength hb he hEdge hFrom
  exact ⟨hEq, onEqual_ne_onDiffer hComparison hCount hd⟩

theorem isCovered_zero (hBody : fn.hasBody = true) {z : Moment} (hZero : z.block = 0) :
    fn.IsCovered z := by
  constructor
  case visited =>
    rw [hZero]
    exact exists_visit_of_below hLinked hBody (Or.inl rfl)
  case facts =>
    intro v hv hBlock
    rcases eq_start_or_mem_below hv with rfl | ⟨u, hu, hBelow⟩
    · exact fun f hf => absurd hf List.not_mem_nil
    · have hDominee := (hLinked.mem_dominees_iff (lt_size_of_mem_visits hLinked hu)).mp
        (mem_below hBelow).1
      exact absurd (hBlock.trans hZero) hDominee.2.ne_zero

theorem History.leads_of_hasOneEdge {y z : Moment} {newer older : List Moment}
    (history : fn.History scope (y :: newer ++ z :: older))
    (hNewer : ∀ w ∈ newer, w.block ≠ z.block) {c : Comparison}
    (hComparison : fn.comparison? z.block = some c) (hOne : fn.hasOneEdge y.block = true)
    (hEntered : y.block = c.onEqual ∨ y.block = c.onDiffer) :
    c.Leads z.isNil y.block ∧ c.onEqual ≠ c.onDiffer := by
  have hReach := history.of_append.reaches
  cases newer with
  | nil =>
      cases history with
      | step prior edge branch _ _ =>
          exact ⟨branch c hComparison,
            (eq_of_hasOneEdge hLinked hReach hReach edge hOne hComparison hEntered).2⟩
  | cons x newer =>
      -- the block was entered from elsewhere, which one edge does not allow
      cases history with
      | step prior edge _ _ _ =>
          have hEq := eq_of_hasOneEdge hLinked prior.reaches hReach edge hOne hComparison hEntered
          exact absurd hEq.1 (hNewer x List.mem_cons_self)

omit hLinked in
theorem History.operands_admit {z : Moment} {older : List Moment}
    (history : fn.History scope (z :: older)) (hCovered : fn.IsCovered z) {u : Visit}
    (hu : u ∈ fn.walk.visits) (hBlock : u.block = z.block) {c : Comparison}
    (hComparison : fn.comparison? z.block = some c) :
    (u.facts.classify c.left).admits (z.isNil c.left) = true ∧
      (u.facts.classify c.right).admits (z.isNil c.right) = true := by
  have hFacts := hCovered.facts u hu hBlock
  obtain ⟨hLeft, hRight⟩ := scope.comparison history.reaches hComparison
  exact ⟨history.classify_admits hFacts hLeft, history.classify_admits hFacts hRight⟩

section Step

variable {y z : Moment} {newer older : List Moment}
  (history : fn.History scope (y :: newer ++ z :: older))
  (hNewer : ∀ w ∈ newer, w.block ≠ z.block)
  (hIdom : ImmediatelyDominates fn.Edge z.block y.block) (hCovered : fn.IsCovered z)
include history hNewer hIdom hCovered

/-- A block that is left out below its immediate dominator could only be entered from it,
on an outcome that does not happen. -/
theorem exists_visit_of_idom : ∃ v ∈ fn.walk.visits, v.block = y.block := by
  obtain ⟨u, hu, hBlock⟩ := hCovered.visited
  have hDominee : y.block ∈ fn.dominees u.block := by
    rw [hLinked.mem_dominees_iff (lt_size_of_mem_visits hLinked hu), hBlock]
    exact ⟨history.reaches, hIdom⟩
  rcases exists_mem_below hDominee with ⟨w, hw, hEq⟩ | ⟨c, l, r, hComparison, hLesson, hOne, hDead⟩
  · obtain ⟨v, hv, hSame⟩ :=
      exists_visit_of_below hLinked history.hasBody (Or.inr ⟨u, hu, hw⟩)
    exact ⟨v, hv, hSame.trans hEq⟩
  · rw [hBlock] at hComparison
    have hEntered : y.block = c.onEqual ∨ y.block = c.onDiffer := by
      rw [hDead, Comparison.deadEnd]
      split
      · exact Or.inr rfl
      · exact Or.inl rfl
    obtain ⟨hLeads, hApart⟩ :=
      history.leads_of_hasOneEdge hLinked hNewer hComparison hOne hEntered
    obtain ⟨hLeft, hRight⟩ :=
      history.of_append.operands_admit hCovered hu hBlock hComparison
    exact absurd hDead (Comparison.ne_deadEnd_of_leads hLesson hLeft hRight hApart hLeads)

/-- New facts come from the outcome that was taken; the others have not changed since the
immediate dominator was left. -/
theorem holdsIn_of_idom {v : Visit} (hv : v ∈ fn.walk.visits) (hBlock : v.block = y.block) :
    ∀ f ∈ v.facts, f.HoldsIn y.isNil := by
  have hNewerY : ∀ w ∈ y :: newer, w.block ≠ z.block := by
    intro w hw
    rcases List.mem_cons.mp hw with rfl | hw
    · exact hIdom.1.1.symm
    · exact hNewer w hw
  suffices hLast : ∀ f ∈ v.facts, f.HoldsIn z.isNil ∧ scope.available z.block f.value by
    intro f hf
    obtain ⟨hHolds, hAvailable⟩ := hLast f hf
    rw [Fact.HoldsIn, history.isNil_eq rfl hNewerY hIdom.1.2 hAvailable]
    exact hHolds
  rcases eq_start_or_mem_below hv with rfl | ⟨u, hu, hBelow⟩
  · exact fun f hf => absurd hf List.not_mem_nil
  · obtain ⟨hDominee, hCases⟩ := mem_below hBelow
    have hIdomU := (hLinked.mem_dominees_iff (lt_size_of_mem_visits hLinked hu)).mp hDominee
    rw [hBlock] at hIdomU
    have hEq : u.block = z.block := hIdomU.2.unique history.reaches.2 hIdom
    have hOld : ∀ f ∈ u.facts, f.HoldsIn z.isNil ∧ scope.available z.block f.value := by
      intro f hf
      have hAvailable := ((available_of_visit hLinked scope hu).2 f hf).1
      rw [hEq] at hAvailable
      exact ⟨hCovered.facts u hu hEq f hf, hAvailable⟩
    rcases hCases with hSame | ⟨c, other, n, hComparison, hLesson, hOne, hPush, hOutcome⟩
    · rw [hSame]
      exact hOld
    · rw [hEq] at hComparison
      rw [hBlock] at hOne hOutcome
      have hHistoryZ := history.of_append
      obtain ⟨hLeads, hApart⟩ := history.leads_of_hasOneEdge hLinked hNewer hComparison hOne
        (hOutcome.imp (·.2) (·.2))
      obtain ⟨hLeft, hRight⟩ := hHistoryZ.operands_admit hCovered hu hEq hComparison
      have hOther := scope.available_of_learned hHistoryZ.reaches hComparison hLesson
      have hNew := Fact.holdsIn_chain (P := scope.available z.block)
        (fun _ _ _ => scope.inner) (fun _ hv => hHistoryZ.respectsAt hv) hOther
        (Comparison.admits_of_leads hLesson hLeft hRight hApart hLeads hOutcome)
      rw [hPush]
      intro f hf
      rcases List.mem_append.mp hf with hf | hf
      · exact hNew f (List.mem_reverse.mp hf)
      · exact hOld f hf

end Step

/-- The walk covers every moment of a history. The immediate dominator of a block lies on
the way to it, so the induction is on the history. -/
theorem History.isCovered {h : List Moment} (history : fn.History scope h) :
    ∀ z ∈ h, fn.IsCovered z := by
  induction history with
  | start body kinds =>
      intro z hz
      obtain rfl := List.mem_singleton.mp hz
      exact isCovered_zero hLinked body rfl
  | @step x y older prior edge branch keeps kinds ih =>
      have history := History.step prior edge branch keeps kinds
      intro w hw
      rcases List.mem_cons.mp hw with rfl | hw
      · by_cases hZero : w.block = 0
        · exact isCovered_zero hLinked history.hasBody hZero
        · obtain ⟨e, hIdom⟩ := hLinked.exists_idom history.reaches hZero
          have hMem : e ∈ (x :: older).map Moment.block := by
            rcases List.mem_cons.mp (hIdom.1.2 _ history.route) with hEq | hMem
            · exact absurd hEq hIdom.1.1
            · exact hMem
          -- the last time in the dominator: since then nothing it relies on has changed
          obtain ⟨newer, z, oldest, hSplit, rfl, hNewer⟩ := Moment.exists_last hMem
          have hCovered := ih z (hSplit ▸ List.mem_append_right _ List.mem_cons_self)
          rw [hSplit] at history
          exact ⟨exists_visit_of_idom hLinked history hNewer hIdom hCovered,
            fun v hv hBlock =>
              holdsIn_of_idom hLinked history hNewer hIdom hCovered hv hBlock⟩
      · exact ih w hw

/-- The facts of a visit do not change in its block, so they held already on entry to it. -/
theorem History.holdsIn_on_entry {x y : Moment} {older : List Moment}
    (history : fn.History scope (y :: x :: older)) {v : Visit} (hv : v ∈ fn.walk.visits)
    (hBlock : v.block = y.block) {f : Fact} (hf : f ∈ v.facts) (hHolds : f.HoldsIn y.isNil) :
    f.HoldsIn x.isNil := by
  have hKeep := ((available_of_visit hLinked scope hv).2 f hf).2
  rw [hBlock] at hKeep
  cases history with
  | step _ _ _ keeps _ =>
      rw [Fact.HoldsIn, ← keeps f.value hKeep]
      exact hHolds

end Covered

end Function

end NilGuard
