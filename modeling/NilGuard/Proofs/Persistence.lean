import NilGuard.Proofs.Recall
import NilGuard.Proofs.Walk
/-! Known answers persist down the dominator tree. A walk learns only about values that it
knows nothing of, and with a value it learns about everything under its interface
conversions. So what is known about a value under interface conversions alone is never
revised at a dominated block, and no two facts about such a value contradict each other. -/
namespace NilGuard

namespace Facts

variable {s s' s'' : Facts} {v w u : Value} {n : Nilness}

theorem lookup_of_classify (hKind : v.kind.ignoresFacts = false)
    (hUnknown : s.classify v = .unknown) : s.lookup v = .unknown := by
  cases v with
  | leaf t o =>
      cases o with
      | const isNil literal => exact Bool.noConfusion hKind
      | other => exact hUnknown
      | _ => exact Nilness.noConfusion hUnknown
  | converted t c v =>
      have hSort : c ≠ .sliceToArrayPtr := by
        rintro rfl
        exact Bool.noConfusion hKind
      rw [classify_converted hSort] at hUnknown
      exact (Nilness.orElse_eq_unknown.mp hUnknown).2

theorem lookup_ne_unknown_of_mem (hKnown : ∀ f ∈ s, f.nilness ≠ .unknown) {f : Fact}
    (hf : f ∈ s) : s.lookup f.value ≠ .unknown := by
  have hFound : (s.find? (·.value = f.value)).isSome := by
    rw [List.find?_isSome]
    exact ⟨f, hf, by simp⟩
  obtain ⟨g, hg⟩ := Option.isSome_iff_exists.mp hFound
  rw [lookup, hg]
  exact hKnown g (List.mem_of_find?_eq_some hg)

/-- Facts as a walk gathers them: all of them say something, what is said about an interface
conversion is said about its operand too, and no two contradict each other unless they are
about a value whose kind ignores them. -/
structure IsCoherent (s : Facts) : Prop where
  known : ∀ f ∈ s, f.nilness ≠ .unknown
  inner : ∀ t v, s.lookup (.converted t .changeInterface v) ≠ .unknown → s.lookup v ≠ .unknown
  agree : ∀ f ∈ s, ∀ g ∈ s, f.value = g.value → f.value.kind.ignoresFacts = false →
    f.nilness = g.nilness

theorem isCoherent_nil : IsCoherent [] where
  known := fun _ hf => absurd hf List.not_mem_nil
  inner := fun _ _ hKnown => absurd rfl hKnown
  agree := fun _ hf => absurd hf List.not_mem_nil

theorem mem_push {new : List Fact} {f : Fact} : f ∈ s.push new ↔ f ∈ new ∨ f ∈ s := by
  rw [push, List.mem_append, List.mem_reverse]

namespace IsCoherent

/-- A fact about a value that was learned to be unknown does not meet an older one. -/
theorem not_mem_of_unwrapsTo (hs : s.IsCoherent) (hUnknown : s.classify v = .unknown) {f : Fact}
    (hUnwraps : v.UnwrapsTo [.changeInterface] f.value)
    (hKind : f.value.kind.ignoresFacts = false) : f ∉ s := by
  intro hf
  apply lookup_ne_unknown_of_mem hs.known hf
  exact lookup_of_classify hKind (classify_of_unwrapsTo hUnwraps hUnknown)

theorem push_chain (hs : s.IsCoherent) (hUnknown : s.classify v = .unknown)
    (hn : n ≠ .unknown) : (s.push (Fact.chain n v)).IsCoherent where
  known := by
    intro f hf
    rcases mem_push.mp hf with hNew | hOld
    · rw [(Fact.mem_chain_iff.mp hNew).2]
      exact hn
    · exact hs.known f hOld
  inner := by
    intro t w hKnown
    by_cases hInner : v.UnwrapsTo [.changeInterface] w
    · rw [lookup_push_chain_of_unwrapsTo hInner]
      exact hn
    · rw [lookup_push_chain_of_not_unwrapsTo hInner]
      apply hs.inner t w
      rw [lookup_push_chain_of_not_unwrapsTo] at hKnown
      · exact hKnown
      · intro hOuter
        exact hInner (hOuter.trans (.step (List.mem_singleton_self _) (.refl w)))
  agree := by
    intro f hf g hg hValue hKind
    have hApart := fun {f} => hs.not_mem_of_unwrapsTo hUnknown (f := f)
    rcases mem_push.mp hf with hf | hf <;> rcases mem_push.mp hg with hg | hg
    · rw [(Fact.mem_chain_iff.mp hf).2, (Fact.mem_chain_iff.mp hg).2]
    · have hUnwraps := (Fact.mem_chain_iff.mp hf).1
      rw [hValue] at hUnwraps hKind
      exact absurd hg (hApart hUnwraps hKind)
    · have hUnwraps := (Fact.mem_chain_iff.mp hg).1
      rw [← hValue] at hUnwraps
      exact absurd hf (hApart hUnwraps hKind)
    · exact hs.agree f hf g hg hValue hKind

end IsCoherent

/-- What the first facts say about a value under interface conversions alone, the second say
too. -/
def Keeps (s s' : Facts) : Prop :=
  ∀ u t o, u.UnwrapsTo [.changeInterface] (.leaf t o) → s.classify u ≠ .unknown →
    s'.classify u = s.classify u

theorem Keeps.refl (s : Facts) : s.Keeps s := fun _ _ _ _ _ => rfl

theorem Keeps.trans (first : s.Keeps s') (second : s'.Keeps s'') : s.Keeps s'' := by
  intro u t o hUnwraps hKnown
  have hFirst := first u t o hUnwraps hKnown
  rw [← hFirst] at hKnown
  rw [second u t o hUnwraps hKnown, hFirst]

/-- A value under interface conversions alone whose kind ignores facts is a constant. -/
theorem classify_of_ignoresFacts {t : Tag} {o : Origin}
    (hUnwraps : u.UnwrapsTo [.changeInterface] (.leaf t o))
    (hKind : u.kind.ignoresFacts = true) : s'.classify u = s.classify u := by
  cases hUnwraps with
  | refl =>
      cases o with
      | const isNil literal => rfl
      | _ => exact Bool.noConfusion hKind
  | step link rest =>
      obtain rfl := List.mem_singleton.mp link
      exact Bool.noConfusion hKind

/-- Facts about an unknown value do not revise what is known. Where a conversion is known only
by a fact about itself, its operand has one too, so its operand ignores facts. -/
theorem IsCoherent.keeps_push_chain (hs : s.IsCoherent) (hUnknown : s.classify v = .unknown) :
    s.Keeps (s.push (Fact.chain n v)) := by
  have hSame : ∀ u, s.classify u ≠ .unknown →
      (s.push (Fact.chain n v)).lookup u = s.lookup u := by
    intro u hKnown
    apply lookup_push_chain_of_not_unwrapsTo
    intro hUnwraps
    exact hKnown (classify_of_unwrapsTo hUnwraps hUnknown)
  intro u t o hUnwraps
  generalize hBottom : Value.leaf t o = bottom at hUnwraps
  induction hUnwraps with
  | refl =>
      subst hBottom
      intro hKnown
      apply classify_congr
      intro w hw
      rw [List.mem_singleton.mp hw]
      exact hSame _ hKnown
  | @step t' c x bottom link rest ih =>
      subst hBottom
      obtain rfl := List.mem_singleton.mp link
      intro hKnown
      have hFact := hSame _ hKnown
      rw [classify_converted Conversion.noConfusion] at hKnown
      have hInner : (s.push (Fact.chain n v)).classify x = s.classify x := by
        by_cases hOperand : s.classify x = .unknown
        · rw [hOperand] at hKnown
          have hKind : x.kind.ignoresFacts = true := by
            rw [← Bool.not_eq_false]
            intro hKind
            exact hs.inner t' x hKnown (lookup_of_classify hKind hOperand)
          exact classify_of_ignoresFacts rest hKind
        · exact ih rfl hOperand
      rw [classify_converted Conversion.noConfusion, classify_converted Conversion.noConfusion,
        hInner, hFact]

/-- A slice does not keep its answer: it gives way to what is learned about the value sliced. -/
example :
    let whole : Value := .leaf { id := 1, name := "whole" } .other
    let part : Value := .converted { id := 2, name := "part" } .slice whole
    Facts.classify [⟨part, .nil⟩] part = .nil ∧ Facts.classify [⟨part, .nil⟩] whole = .unknown ∧
      (Facts.push [⟨part, .nil⟩] (Fact.chain .nonNil whole)).classify part = .nonNil := by
  decide

end Facts

namespace Function

variable {fn : Function} {u v w : Visit}

theorem isCoherent_of_mem_below (hu : u.facts.IsCoherent) (hv : v ∈ fn.below u) :
    v.facts.IsCoherent := by
  obtain ⟨-, hSame | ⟨c, other, n, -, hLesson, -, hFacts, hOutcome⟩⟩ := mem_below hv
  · rw [hSame]
    exact hu
  · rw [hFacts]
    apply hu.push_chain (Comparison.classify_of_learned hLesson)
    rcases hOutcome with ⟨rfl, -⟩ | ⟨rfl, -⟩ <;> exact Nilness.noConfusion

theorem keeps_of_mem_below (hu : u.facts.IsCoherent) (hv : v ∈ fn.below u) :
    u.facts.Keeps v.facts := by
  obtain ⟨-, hSame | ⟨c, other, n, -, hLesson, -, hFacts, -⟩⟩ := mem_below hv
  · rw [hSame]
    exact .refl _
  · rw [hFacts]
    exact hu.keeps_push_chain (Comparison.classify_of_learned hLesson)

theorem isCoherent_of_mem_visits (hLinked : fn.IsLinked) (hv : v ∈ fn.walk.visits) :
    v.facts.IsCoherent :=
  (walk_visits_induct hLinked (P := fun v => v.facts.IsCoherent)
    (fun _ => Facts.isCoherent_nil) (fun _ _ hu _ hv => isCoherent_of_mem_below hu hv) v hv).2

/-- Each visit keeps what was known at the visits of the blocks that dominate its own. -/
theorem keeps_of_dominates (hLinked : fn.IsLinked) (hu : u ∈ fn.walk.visits)
    (hv : v ∈ fn.walk.visits) (hDom : Dominates fn.Edge u.block v.block) :
    u.facts.Keeps v.facts := by
  apply (walk_visits_induct hLinked (P := fun v => v ∈ fn.walk.visits ∧
    (Dominates fn.Edge u.block v.block → u.facts.Keeps v.facts)) ?_ ?_ v hv).2.2 hDom
  · intro hBody
    have hStart := (mem_visits_iff hLinked).mpr (Or.inl ⟨hBody, rfl⟩)
    refine ⟨hStart, fun hEntry => ?_⟩
    rw [eq_of_mem_visits hLinked hStart hu hEntry.eq_zero]
    exact .refl _
  · rintro w hw ⟨hVisit, hKeeps⟩ v hBelow
    have hv := (mem_visits_iff hLinked).mpr (Or.inr ⟨w, hVisit, hBelow⟩)
    refine ⟨hv, fun hDom => ?_⟩
    by_cases hBlock : u.block = v.block
    · rw [eq_of_mem_visits hLinked hv hu hBlock]
      exact .refl _
    · -- every other dominator of a dominee dominates the block above it
      have hIdom := ((hLinked.mem_dominees_iff hw).mp (mem_below hBelow).1).2
      have hCoherent := isCoherent_of_mem_visits hLinked hVisit
      exact (hKeeps (hIdom.2 u.block ⟨hBlock, hDom⟩)).trans (keeps_of_mem_below hCoherent hBelow)

/-- What is known about a value under interface conversions alone is known in the same way at
every visit of a dominated block. The facts of a visit never contradict each other about a
value of a kind that does not ignore them. -/
theorem known_answers_persist (fn : Function) (hLinked : fn.IsLinked) :
    (∀ x t o, x.UnwrapsTo [.changeInterface] (.leaf t o) →
      ∀ u ∈ fn.walk.visits, u.facts.classify x ≠ .unknown →
      ∀ v ∈ fn.walk.visits, Dominates fn.Edge u.block v.block →
        v.facts.classify x = u.facts.classify x) ∧
    ∀ v ∈ fn.walk.visits, ∀ f ∈ v.facts, ∀ g ∈ v.facts, f.value = g.value →
      f.value.kind.ignoresFacts = false → f.nilness = g.nilness ∧ f.nilness ≠ .unknown := by
  constructor
  · intro x t o hUnwraps u hu hKnown v hv hDom
    exact keeps_of_dominates hLinked hu hv hDom x t o hUnwraps hKnown
  · intro v hv f hf g hg hValue hKind
    have hCoherent := isCoherent_of_mem_visits hLinked hv
    exact ⟨hCoherent.agree f hf g hg hValue hKind, hCoherent.known f hf⟩

def guardedValue : Value := .leaf { id := 1, name := "held" } .other

def guardedWrapped : Value := .converted { id := 2, name := "boxed" } .changeInterface guardedValue

def guardedNext : Value := .leaf { id := 3, name := "next" } .other

/-- Tests a wrapped value, and where it is not nil another one. Both the first branch and the
second can lead to the third block, only the second to the last. -/
def nestedGuard : Function :=
  let null : Value := .leaf { id := 0, name := "" } (.const true "nil")
  let isNull : Value := .leaf { id := 4, name := "isNull" } .other
  let isSome : Value := .leaf { id := 5, name := "isSome" } .other
  { callee := { package := "guards", name := "nested" }
    blocks := #[
      { index := 0
        instrs := [{ op := .binary isNull "==" (some guardedWrapped) (some null) },
          { op := .branch (some isNull) }]
        succs := [1, 2]
        dominees := [1, 2, 3] },
      { index := 1, instrs := [{ op := .jump }], succs := [3], preds := [0], idom := some 0 },
      { index := 2
        instrs := [{ op := .binary isSome "!=" (some guardedNext) (some null) },
          { op := .branch (some isSome) }]
        succs := [3, 4]
        preds := [0]
        idom := some 0
        dominees := [4] },
      { index := 3, instrs := [{ op := .ret [] }], preds := [1, 2], idom := some 0 },
      { index := 4, instrs := [{ op := .ret [] }], preds := [2], idom := some 2 }] }

theorem isLinked_nestedGuard : nestedGuard.IsLinked := by
  have hWell : nestedGuard.IsWellFormed := ⟨by decide, by decide⟩
  have hOrder : nestedGuard.withPreds.graph.order = [0, 2, 4, 1, 3] := by cbv
  have hTree : nestedGuard.withPreds.graph.domTree =
      ⟨#[some 0, some 0, some 0, some 0, some 2]⟩ := by
    rw [Graph.domTree, hOrder]
    decide
  have hSame : nestedGuard.withPreds.withTree ⟨#[some 0, some 0, some 0, some 0, some 2]⟩ =
      nestedGuard := by decide
  exact ⟨nestedGuard, _, hWell, by rw [link_eq hWell, hTree, hSame]⟩

def nestedFacts : Facts := [⟨guardedValue, .nonNil⟩, ⟨guardedWrapped, .nonNil⟩]

theorem mem_visits_nestedGuard :
    ⟨0, []⟩ ∈ nestedGuard.walk.visits ∧ ⟨2, nestedFacts⟩ ∈ nestedGuard.walk.visits ∧
      ⟨4, ⟨guardedNext, .nil⟩ :: nestedFacts⟩ ∈ nestedGuard.walk.visits := by
  have hVisit := fun v => mem_visits_iff isLinked_nestedGuard (v := v)
  have hEntry := (hVisit ⟨0, []⟩).mpr (Or.inl ⟨by decide, rfl⟩)
  have hSome := (hVisit ⟨2, nestedFacts⟩).mpr (Or.inr ⟨_, hEntry, by decide⟩)
  exact ⟨hEntry, hSome, (hVisit _).mpr (Or.inr ⟨_, hSome, by decide⟩)⟩

/-- The first test is remembered after the second, also for another conversion of the value
that it tested. -/
theorem known_answers_persist_nestedGuard :
    let again : Value := .converted { id := 6, name := "again" } .changeInterface guardedWrapped
    nestedGuard.IsLinked ∧ nestedFacts.classify again = .nonNil ∧
      Dominates nestedGuard.Edge 2 4 ∧
      Facts.classify (⟨guardedNext, .nil⟩ :: nestedFacts) again = .nonNil := by
  intro again
  obtain ⟨-, hSome, hNext⟩ := mem_visits_nestedGuard
  have hUnwraps : again.UnwrapsTo [.changeInterface] guardedValue :=
    .step (by decide) (.step (by decide) (.refl _))
  have hDom : Dominates nestedGuard.Edge 2 4 :=
    ((isLinked_nestedGuard.mem_dominees_iff (by decide)).mp (by decide)).2.1.2
  have hPersist := (known_answers_persist nestedGuard isLinked_nestedGuard).1 again _ _ hUnwraps
    ⟨2, nestedFacts⟩ hSome (by decide) _ hNext hDom
  exact ⟨isLinked_nestedGuard, by decide, hDom, hPersist.trans (by decide)⟩

end Function

end NilGuard
