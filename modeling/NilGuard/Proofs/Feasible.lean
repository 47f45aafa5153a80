import Mathlib
import NilGuard.Proofs.Findings
/-! Paths that can be taken when every value is nil or not once and for all. The walk visits
all of their blocks with true facts, and its findings are right wherever such a path
comes to them. -/
namespace NilGuard

namespace Function

/-- A path from the entry, the newest block first, on which every branch on an operation leads on
as the operation can come out under the valuation. -/
inductive Feasible (fn : Function) (s : Valuation) : List Nat → Prop where
  | entry (body : fn.hasBody = true) : Feasible fn s [0]
  | step {b d : Nat} {path : List Nat} (prior : Feasible fn s (b :: path)) (edge : fn.Edge b d)
      (branch : ∀ v x, fn.branchCondition? b = some v → fn.binaryOf? v = some x →
        x.Takes (fn.succs b) s d) : Feasible fn s (d :: b :: path)

instance decidableFeasible (fn : Function) (s : Valuation) :
    (path : List Nat) → Decidable (fn.Feasible s path)
  | [] => isFalse fun h => nomatch h
  | [b] => decidable_of_iff (b = 0 ∧ fn.hasBody = true)
      ⟨fun ⟨hZero, hBody⟩ => hZero ▸ .entry hBody, fun | .entry hBody => ⟨rfl, hBody⟩⟩
  | d :: b :: path =>
    have := decidableFeasible fn s (b :: path)
    decidable_of_iff
      (fn.Feasible s (b :: path) ∧ d ∈ fn.succs b ∧ ∀ c ∈ fn.comparison? b, c.Leads s d)
      ⟨fun ⟨prior, edge, branch⟩ => .step prior edge ((takes_all_iff edge).mpr branch),
        fun | .step prior edge branch => ⟨prior, edge, (takes_all_iff edge).mp branch⟩⟩

/-- The scope of a function in which nothing ever changes. -/
def constantScope (fn : Function) : fn.Scope where
  changes _ _ := False
  available _ _ := True
  inner _ := trivial
  below _ _ := trivial
  dominates _ hChanges := hChanges.elim
  comparison _ _ := ⟨trivial, trivial⟩
  call _ _ _ _ := trivial

variable {fn : Function}

/-- A feasible path is a history in which nothing changes. -/
theorem Feasible.history {s : Valuation} (hRespects : s.Respects) {path : List Nat}
    (feasible : fn.Feasible s path) : fn.History fn.constantScope (path.map (⟨·, s⟩)) := by
  induction feasible with
  | entry body => exact History.start body fun v _ => hRespects v
  | step prior edge branch ih =>
      exact History.step ih edge ((takes_all_iff edge).mp branch) (fun _ _ => rfl)
        fun v _ => hRespects v

def loopValue : Value := .leaf { id := 1, name := "x" } .other

def loopWrapped : Value := .converted { id := 3, name := "wrapped" } .changeInterface loopValue

/-- Goes around a loop with a value that is made anew each time. It is passed on where it is
nil; where it is not, a second test of it is always true, and the last block is dead. -/
def guardedLoop : Function :=
  let null : Value := .leaf { id := 0, name := "" } (.const true "nil")
  let isNull : Value := .leaf { id := 2, name := "isNull" } .other
  let result : Value := .leaf { id := 4, name := "result" } .other
  let isSome : Value := .leaf { id := 5, name := "isSome" } .other
  let use : Callee := { package := "guards", name := "use" }
  { callee := { package := "guards", name := "loop" }
    blocks := #[
      { index := 0, instrs := [{ op := .jump }], succs := [1], dominees := [1] },
      { index := 1
        instrs := [{ op := .define loopValue [some null, some loopValue] },
          { location := { file := "loop", line := 3 }
            op := .binary isNull "==" (some loopValue) (some null) },
          { op := .branch (some isNull) }]
        succs := [2, 3]
        preds := [0, 2, 3]
        idom := some 0
        dominees := [2, 3] },
      { index := 2
        instrs := [{ op := .define loopWrapped [some loopValue] },
          { op := .call result (some use) [some loopWrapped] }, { op := .jump }]
        succs := [1]
        preds := [1]
        idom := some 1 },
      { index := 3
        instrs := [{ location := { file := "loop", line := 7 }
                     op := .binary isSome "!=" (some null) (some loopValue) },
          { op := .branch (some isSome) }]
        succs := [1, 4]
        preds := [1]
        idom := some 1
        dominees := [4] },
      { index := 4, instrs := [{ op := .ret [] }], preds := [3], idom := some 3 }] }

theorem isLinked_guardedLoop : guardedLoop.IsLinked := by
  have hWell : guardedLoop.IsWellFormed := ⟨by decide, by decide⟩
  -- only the search recurses by a measure; the rest of the tree is decided from its order
  have hOrder : guardedLoop.withPreds.graph.order = [0, 1, 3, 4, 2] := by cbv
  have hTree : guardedLoop.withPreds.graph.domTree =
      ⟨#[some 0, some 0, some 1, some 1, some 3]⟩ := by
    rw [Graph.domTree, hOrder]
    decide
  have hSame : guardedLoop.withPreds.withTree ⟨#[some 0, some 0, some 1, some 1, some 3]⟩ =
      guardedLoop := by decide
  exact ⟨guardedLoop, _, hWell, by rw [link_eq hWell, hTree, hSame]⟩

def guardedTarget : ResolvedTarget := ⟨{ package := "guards", name := "use" }, 0⟩

/-- No code that can run is pruned. Every block of a feasible path is visited, with facts that
are true; its calls are validated unless the validator itself crashes on a call. -/
theorem feasible_path_visited (fn : Function) (hLinked : fn.IsLinked) (s : Valuation)
    (hRespects : s.Respects) (path : List Nat) (hPath : fn.Feasible s path) :
    ∀ b ∈ path, (∃ v ∈ fn.walk.visits, v.block = b) ∧
      ∀ v ∈ fn.walk.visits, v.block = b → (∀ f ∈ v.facts, f.HoldsIn s) ∧
        ∀ settings : Settings,
          ((fn.events settings).crash = none → ∀ i ∈ fn.instrs b, fn.IsValidated settings v i) ∧
          ∀ k, (fn.events settings).crash = some k → ∃ u ∈ fn.walk.visits,
            ∃ i ∈ fn.instrs u.block, (fn.callEvents settings u.facts i).crash = some k := by
  intro b hb
  have hComplete := walk_complete hLinked
  have hCovered := (hPath.history hRespects).isCovered hLinked ⟨b, s⟩ (List.mem_map_of_mem hb)
  refine ⟨hCovered.visited, fun v hv hBlock => ⟨hCovered.facts v hv hBlock, fun settings => ?_⟩⟩
  refine ⟨fun hCrash i hi => ?_, fun k hCrash => fn.exists_crash settings hComplete hCrash⟩
  exact isValidated_of_visit hComplete hCrash hv (hBlock ▸ hi)

theorem feasible_path_visited_guardedLoop :
    guardedLoop.IsLinked ∧ (Valuation.ofTags (·.id = 1)).Respects ∧
      guardedLoop.Feasible (Valuation.ofTags (·.id = 1)) [1, 2, 1, 0] ∧
      ∀ b ∈ [1, 2, 1, 0], ∃ v ∈ guardedLoop.walk.visits, v.block = b ∧
        ∀ f ∈ v.facts, f.HoldsIn (Valuation.ofTags (·.id = 1)) := by
  have hRespects := Valuation.respects_ofTags (·.id = 1)
  have hPath : guardedLoop.Feasible (Valuation.ofTags (·.id = 1)) [1, 2, 1, 0] := by decide
  refine ⟨isLinked_guardedLoop, hRespects, hPath, fun b hb => ?_⟩
  obtain ⟨⟨v, hv, hBlock⟩, hAll⟩ :=
    feasible_path_visited _ isLinked_guardedLoop _ hRespects _ hPath b hb
  exact ⟨v, hv, hBlock, (hAll v hv hBlock).1⟩

/-- Every report is sound. Each finding, in order, is about an argument or a comparison of its
block; and whatever feasible path comes to the block, the argument is nil there, or the
comparison comes out as the finding says. -/
theorem findings_hold_on_feasible_paths (fn : Function) (hLinked : fn.IsLinked)
    (targets : List ResolvedTarget) (reportConditions : Bool) (s : Valuation)
    (hRespects : s.Respects) :
    let settings := Settings.ofTargets targets reportConditions
    fn.findings settings <+: (fn.located settings).map Finding.diagnostic ∧
      ((fn.events settings).crash = none →
        fn.findings settings = (fn.located settings).map Finding.diagnostic) ∧
      ∀ f ∈ fn.located settings, fn.Concerns targets f ∧
        ∀ path, fn.Feasible s (f.block :: path) → f.HoldsIn s := by
  intro settings
  have hComplete := walk_complete hLinked
  refine ⟨fn.findings_prefix settings hComplete, fn.findings_eq settings hComplete, ?_⟩
  intro f hf
  refine ⟨concerns_of_located hf, fun path hPath => ?_⟩
  exact (hPath.history hRespects).holdsIn_of_located hLinked hf rfl

/-- The nil that the loop passes on. -/
def guardedFinding : Finding where
  block := 2
  subject := .argument loopWrapped
  diagnostic := .nilArgument {} "use" 0 "guards.loop"

theorem guardedFinding_mem_located :
    guardedFinding ∈ guardedLoop.located (.ofTargets [guardedTarget] true) := by
  have hFirst : (guardedLoop.located (.ofTargets [guardedTarget] true)).head? =
      some guardedFinding := by cbv
  exact List.mem_of_head? hFirst

theorem findings_hold_on_feasible_paths_guardedLoop :
    guardedLoop.IsLinked ∧ (Valuation.ofTags (·.id = 1)).Respects ∧
      guardedLoop.Feasible (Valuation.ofTags (·.id = 1)) [2, 1, 0] ∧
      guardedFinding ∈ guardedLoop.located (.ofTargets [guardedTarget] true) ∧
      guardedFinding.HoldsIn (Valuation.ofTags (·.id = 1)) := by
  have hRespects := Valuation.respects_ofTags (·.id = 1)
  have hPath : guardedLoop.Feasible (Valuation.ofTags (·.id = 1)) [2, 1, 0] := by decide
  have hSound :=
    findings_hold_on_feasible_paths _ isLinked_guardedLoop [guardedTarget] true _ hRespects
  exact ⟨isLinked_guardedLoop, hRespects, hPath, guardedFinding_mem_located,
    (hSound.2.2 _ guardedFinding_mem_located).2 [1, 0] hPath⟩

example : (guardedLoop.findings (.ofTargets [guardedTarget] true)).map (·.errorId) =
    ["nilPassed", "condTautological"] := by
  cbv

end Function

end NilGuard
