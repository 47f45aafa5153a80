import Mathlib
import NilGuard.Proofs.Copy
import NilGuard.Proofs.Feasible
/-! Functions with their blocks in another order. Numbers decide in which order predecessors,
dominees and visits come, but not which there are, so the same findings are reported. -/
namespace NilGuard

/-- Where a permutation of the places of a function takes a place. -/
def placeAfter {size : Nat} (σ : Equiv.Perm (Fin size)) (b : Nat) : Nat :=
  if h : b < size then σ ⟨b, h⟩ else b

section Places

variable {size : Nat} (σ : Equiv.Perm (Fin size)) {a b : Nat}

theorem placeAfter_of_lt (hLt : b < size) : placeAfter σ b = σ ⟨b, hLt⟩ := dif_pos hLt

theorem placeAfter_lt (hLt : b < size) : placeAfter σ b < size := by
  rw [placeAfter_of_lt σ hLt]
  exact (σ ⟨b, hLt⟩).isLt

theorem placeAfter_inj (ha : a < size) (hb : b < size) (hEq : placeAfter σ a = placeAfter σ b) :
    a = b := by
  rw [placeAfter_of_lt σ ha, placeAfter_of_lt σ hb] at hEq
  exact Fin.mk.inj (σ.injective (Fin.ext hEq))

theorem exists_placeAfter (hb : b < size) : ∃ a < size, placeAfter σ a = b := by
  refine ⟨σ.symm ⟨b, hb⟩, (σ.symm ⟨b, hb⟩).isLt, ?_⟩
  rw [placeAfter_of_lt σ (σ.symm ⟨b, hb⟩).isLt, Fin.eta, Equiv.apply_symm_apply]

end Places

namespace Function

/-- The function with each block at the place, and under the number, that a permutation
gives. -/
def renumber (fn : Function) (σ : Equiv.Perm (Fin fn.blocks.size)) : Function :=
  { fn with
    blocks := Array.ofFn fun place =>
      { fn.blocks[σ.symm place].relocate (placeAfter σ) with index := (place : Nat) }
    removed := fn.removed.map (Block.relocate (placeAfter σ)) }

/-- All operations with a result that a live branch tests stand in one block. In
single-assignment form there is only one such operation. -/
def TestsOneBlock (fn : Function) : Prop :=
  ∀ b, fn.Reaches b → ∀ v, fn.branchCondition? b = some v →
    ∀ a < fn.blocks.size, ∀ c < fn.blocks.size, ∀ i ∈ fn.instrs a, ∀ j ∈ fn.instrs c,
      i.IsBinaryOf v → j.IsBinaryOf v → a = c

section Renumber

variable {fn : Function} (σ : Equiv.Perm (Fin fn.blocks.size)) {b : Nat}

theorem size_renumber : (fn.renumber σ).blocks.size = fn.blocks.size := by
  simp [renumber]

theorem block?_renumber (hLt : b < fn.blocks.size) :
    (fn.renumber σ).block? (placeAfter σ b) = (fn.block? b).map fun x =>
      { x.relocate (placeAfter σ) with index := (placeAfter σ b : Nat) } := by
  have hPlace := placeAfter_lt σ hLt
  have hBack : σ.symm ⟨placeAfter σ b, hPlace⟩ = ⟨b, hLt⟩ := by
    rw [Equiv.symm_apply_eq]
    exact Fin.ext (placeAfter_of_lt σ hLt)
  rw [block?_of_lt hLt, block?_of_lt (by rwa [size_renumber]), renumber,
    Array.getElem?_ofFn, dif_pos hPlace]
  simp [hBack, hLt]

theorem succs_renumber (hLt : b < fn.blocks.size) :
    (fn.renumber σ).succs (placeAfter σ b) = (fn.succs b).map (placeAfter σ) := by
  rw [succs, succs, block?_renumber σ hLt]
  cases fn.block? b <;> rfl

theorem instrs_renumber (hLt : b < fn.blocks.size) :
    (fn.renumber σ).instrs (placeAfter σ b) = fn.instrs b := by
  rw [instrs, instrs, block?_renumber σ hLt]
  cases fn.block? b <;> rfl

theorem isWellFormed_renumber (hWell : fn.IsWellFormed) : (fn.renumber σ).IsWellFormed := by
  constructor
  · intro c hLt
    rw [size_renumber] at hLt
    obtain ⟨b, hb, rfl⟩ := exists_placeAfter σ hLt
    rw [indexAt, block?_renumber σ hb, block?_of_lt hb]
    simp [hb]
  · intro c hLt d hd
    rw [size_renumber] at hLt ⊢
    obtain ⟨b, hb, rfl⟩ := exists_placeAfter σ hLt
    rw [succs_renumber σ hb] at hd
    obtain ⟨e, he, rfl⟩ := List.mem_map.mp hd
    exact placeAfter_lt σ (hWell.inside b hb e he)

end Renumber

/-- The operations of a block with a value as result. -/
def operationsOf (fn : Function) (v : Value) (b : Nat) : List Binary :=
  ((fn.instrs b).filterMap Instr.binary?).filter (·.result = v)

theorem binaryOf?_eq (fn : Function) (v : Value) : fn.binaryOf? v =
    ((List.range fn.blocks.size).flatMap (fn.operationsOf v)).getLast? := by
  rw [binaryOf?, binaries_eq_flatMap, List.filter_flatMap]
  rfl

theorem exists_of_mem_operationsOf {fn : Function} {v : Value} {b : Nat} {x : Binary}
    (hx : x ∈ fn.operationsOf v b) : ∃ i ∈ fn.instrs b, i.IsBinaryOf v := by
  obtain ⟨hx, hResult⟩ := List.mem_filter.mp hx
  obtain ⟨i, hi, hBinary⟩ := List.mem_filterMap.mp hx
  exact ⟨i, hi, by rw [Instr.IsBinaryOf, hBinary, Option.map_some, of_decide_eq_true hResult]⟩

/-- When only one block has operations for a value, the last of them is the last of all. -/
theorem binaryOf?_eq_of_unique {fn : Function} {v : Value} {b : Nat} (hLt : b < fn.blocks.size)
    (hUnique : ∀ a < fn.blocks.size, a ≠ b → fn.operationsOf v a = []) :
    fn.binaryOf? v = (fn.operationsOf v b).getLast? := by
  obtain ⟨before, after, hRange⟩ := List.append_of_mem (List.mem_range.mpr hLt)
  have hNodup : (before ++ b :: after).Nodup := hRange ▸ List.nodup_range
  have hOther : ∀ a ∈ before ++ after, fn.operationsOf v a = [] := by
    intro a ha
    apply hUnique
    · rw [← List.mem_range, hRange]
      exact List.mem_append.mpr ((List.mem_append.mp ha).imp_right (List.mem_cons_of_mem b))
    · rintro rfl
      exact (List.nodup_cons.mp (List.perm_middle.nodup_iff.mp hNodup)).1 ha
  have hBefore : before.flatMap (fn.operationsOf v) = [] :=
    List.flatMap_eq_nil_iff.mpr fun a ha => hOther a (List.mem_append_left _ ha)
  have hAfter : after.flatMap (fn.operationsOf v) = [] :=
    List.flatMap_eq_nil_iff.mpr fun a ha => hOther a (List.mem_append_right _ ha)
  rw [binaryOf?_eq, hRange, List.flatMap_append, List.flatMap_cons, hBefore, hAfter,
    List.nil_append, List.append_nil]

section Copied

variable {fn : Function} (σ : Equiv.Perm (Fin fn.blocks.size)) {b : Nat} {v : Value}

theorem operationsOf_renumber (hLt : b < fn.blocks.size) :
    (fn.renumber σ).operationsOf v (placeAfter σ b) = fn.operationsOf v b := by
  rw [operationsOf, operationsOf, instrs_renumber σ hLt]

theorem binaryOf?_renumber (hOne : ∀ a < fn.blocks.size, ∀ c < fn.blocks.size,
      ∀ i ∈ fn.instrs a, ∀ j ∈ fn.instrs c, i.IsBinaryOf v → j.IsBinaryOf v → a = c) :
    (fn.renumber σ).binaryOf? v = fn.binaryOf? v := by
  by_cases hSome : ∃ b < fn.blocks.size, fn.operationsOf v b ≠ []
  · obtain ⟨b, hb, hNe⟩ := hSome
    obtain ⟨x, hx⟩ := List.exists_mem_of_ne_nil _ hNe
    obtain ⟨i, hi, hBinary⟩ := exists_of_mem_operationsOf hx
    have hUnique : ∀ a < fn.blocks.size, a ≠ b → fn.operationsOf v a = [] := by
      intro a ha hOther
      rw [List.eq_nil_iff_forall_not_mem]
      intro y hy
      obtain ⟨j, hj, hBinary'⟩ := exists_of_mem_operationsOf hy
      exact hOther (hOne a ha b hb j hj i hi hBinary' hBinary)
    have hUnique' : ∀ c < (fn.renumber σ).blocks.size, c ≠ placeAfter σ b →
        (fn.renumber σ).operationsOf v c = [] := by
      intro c hc hOther
      rw [size_renumber] at hc
      obtain ⟨a, ha, rfl⟩ := exists_placeAfter σ hc
      rw [operationsOf_renumber σ ha]
      exact hUnique a ha fun hEq => hOther (by rw [hEq])
    rw [binaryOf?_eq_of_unique hb hUnique, ← operationsOf_renumber σ hb]
    exact binaryOf?_eq_of_unique (by rw [size_renumber]; exact placeAfter_lt σ hb) hUnique'
  · have hNone : ∀ b < fn.blocks.size, fn.operationsOf v b = [] := by
      intro b hb
      exact Classical.byContradiction fun hNe => hSome ⟨b, hb, hNe⟩
    rw [binaryOf?_eq, binaryOf?_eq, size_renumber, List.flatMap_eq_nil_iff.mpr,
      List.flatMap_eq_nil_iff.mpr]
    · exact fun b hb => hNone b (List.mem_range.mp hb)
    · intro c hc
      obtain ⟨a, ha, rfl⟩ := exists_placeAfter σ (List.mem_range.mp hc)
      rw [operationsOf_renumber σ ha, hNone a ha]

theorem isCopy_renumber (hWell : fn.IsWellFormed) (hTests : fn.TestsOneBlock)
    (hEntry : placeAfter σ 0 = 0) : fn.IsCopy (placeAfter σ) (fn.renumber σ) := by
  have hInside := fun b => hWell.lt_size (b := b)
  constructor
  case callee => rfl
  case hasBody => rw [hasBody, hasBody, size_renumber]
  case zero => exact hEntry
  case injective => exact fun ha hb => placeAfter_inj σ (hInside _ ha) (hInside _ hb)
  case succs => exact fun hReach => succs_renumber σ (hInside _ hReach)
  case instrs => exact fun hReach => instrs_renumber σ (hInside _ hReach)
  case operation =>
    exact fun hReach hCondition => binaryOf?_renumber σ (hTests _ hReach _ hCondition)

end Copied

/-- Block numbering is irrelevant to a function whose edges lead to its own blocks, if all
operations that a live branch may test stand in one block: of operations in several blocks, the
one with the highest number counts. The blocks are put in another order with the entry first.
After linking, each block is visited with the same facts; the walk crashes if it did, and
otherwise reports the same findings in some order. -/
theorem findings_renumber (fn : Function) (hWell : fn.IsWellFormed) (hTests : fn.TestsOneBlock)
    (σ : Equiv.Perm (Fin fn.blocks.size)) (hEntry : placeAfter σ 0 = 0)
    (targets : List ResolvedTarget) (reportConditions : Bool) :
    ∃ linked renumbered tree tree', fn.link = (linked, .ok tree) ∧
      (fn.renumber σ).link = (renumbered, .ok tree') ∧
      renumbered.walk.visits.Perm (linked.walk.visits.map (Visit.relocate (placeAfter σ))) ∧
      let settings := Settings.ofTargets targets reportConditions
      ((renumbered.events settings).crash = none ↔ (linked.events settings).crash = none) ∧
        ((linked.events settings).crash = none →
          (renumbered.findings settings).Perm (linked.findings settings)) := by
  have hWell' := isWellFormed_renumber σ hWell
  have hCopy := (isCopy_renumber σ hWell hTests hEntry).link
  have hVisits := hCopy.visits_perm hWell.isLinked_link hWell'.isLinked_link
  have hFindings := hCopy.findings_perm hWell.isLinked_link hWell'.isLinked_link
    (Settings.ofTargets targets reportConditions)
  rw [link_eq hWell, link_eq hWell'] at hVisits hFindings
  exact ⟨_, _, _, _, link_eq hWell, link_eq hWell', hVisits, hFindings⟩

/-- Exchanges the two blocks that the loop branches to. -/
def branchesSwapped : Equiv.Perm (Fin guardedLoop.blocks.size) :=
  Equiv.swap ⟨2, by decide⟩ ⟨3, by decide⟩

theorem findings_renumber_guardedLoop :
    guardedLoop.IsWellFormed ∧ guardedLoop.TestsOneBlock ∧ placeAfter branchesSwapped 0 = 0 ∧
      ∃ linked renumbered tree tree', guardedLoop.link = (linked, .ok tree) ∧
        (guardedLoop.renumber branchesSwapped).link = (renumbered, .ok tree') ∧
        ((linked.events (.ofTargets [guardedTarget] true)).crash = none →
          (renumbered.findings (.ofTargets [guardedTarget] true)).Perm
            (linked.findings (.ofTargets [guardedTarget] true))) := by
  have hWell : guardedLoop.IsWellFormed := ⟨by decide, by decide⟩
  have hTests : guardedLoop.TestsOneBlock := by
    have hOwn : ∀ b < 5, ∀ v ∈ guardedLoop.branchCondition? b, ∀ a < 5,
        ∀ i ∈ guardedLoop.instrs a, i.IsBinaryOf v → a = b := by
      decide
    intro b hReach v hCondition a ha c hc i hi j hj hLeft hRight
    have hb := hWell.lt_size hReach
    rw [hOwn b hb v hCondition a ha i hi hLeft, hOwn b hb v hCondition c hc j hj hRight]
  have hEntry : placeAfter branchesSwapped 0 = 0 := by decide
  obtain ⟨linked, renumbered, tree, tree', hLink, hLink', -, -, hFindings⟩ :=
    findings_renumber guardedLoop hWell hTests branchesSwapped hEntry [guardedTarget] true
  exact ⟨hWell, hTests, hEntry, linked, renumbered, tree, tree', hLink, hLink', hFindings⟩

example : ((guardedLoop.renumber branchesSwapped).link.1.findings
    (.ofTargets [guardedTarget] true)).map (·.errorId) = ["condTautological", "nilPassed"] := by
  cbv

/-- Branches on a result that both blocks below give anew, by opposite comparisons, before they
pass on what they compared. -/
def retestedBranch : Function :=
  let null : Value := .leaf { id := 0, name := "" } (.const true "nil")
  let isNull : Value := .leaf { id := 2, name := "isNull" } .other
  let result : Value := .leaf { id := 3, name := "result" } .other
  let use : Callee := { package := "guards", name := "use" }
  let test (operator : String) : Instr :=
    { op := .binary isNull operator (some loopValue) (some null) }
  let pass (line : Int) : Instr :=
    { location := { file := "branch", line }, op := .call result (some use) [some loopValue] }
  { callee := { package := "guards", name := "branch" }
    params := [loopValue]
    blocks := #[
      { index := 0, instrs := [{ op := .branch (some isNull) }], succs := [1, 2] },
      { index := 1, instrs := [test "==", pass 1] },
      { index := 2, instrs := [test "!=", pass 2] }] }

/-- Leads from the entry to a block that was removed, and to two more that were added later; the
first of these has the number of the removed one, and the second passes on nil. -/
def staleEdge : Function :=
  let null : Value := .leaf { id := 0, name := "" } (.const true "nil")
  let result : Value := .leaf { id := 1, name := "result" } .other
  let use : Callee := { package := "guards", name := "use" }
  { callee := { package := "guards", name := "stale" }
    blocks := #[
      { index := 0, succs := [4, 1] },
      { index := 1, instrs := [{ op := .jump }], succs := [2] },
      { index := 2, instrs := [{ op := .jump }], succs := [3] },
      { index := 3, instrs := [{ op := .call result (some use) [some null] }] }]
    removed := [{ index := 2 }] }

/-- Numbering matters where a branch tests the results of two blocks, and where an edge leads to
a block that was removed. -/
theorem findings_renumber_ne :
    let settings := Settings.ofTargets [guardedTarget] true
    (∃ σ : Equiv.Perm (Fin retestedBranch.blocks.size), placeAfter σ 0 = 0 ∧
      retestedBranch.IsWellFormed ∧
      ¬ ((retestedBranch.renumber σ).link.1.findings settings).Perm
        (retestedBranch.link.1.findings settings)) ∧
    ∃ σ : Equiv.Perm (Fin staleEdge.blocks.size), placeAfter σ 0 = 0 ∧
      staleEdge.link.2.isOk ∧ (staleEdge.renumber σ).link.2.isOk ∧
      ¬ ((staleEdge.renumber σ).link.1.findings settings).Perm
        (staleEdge.link.1.findings settings) := by
  intro settings
  constructor
  · let σ : Equiv.Perm (Fin retestedBranch.blocks.size) :=
      Equiv.swap ⟨1, by decide⟩ ⟨2, by decide⟩
    have hLines : ((retestedBranch.renumber σ).link.1.findings settings).map (·.location.line) =
          [1] ∧ (retestedBranch.link.1.findings settings).map (·.location.line) = [2] := by
      cbv
    refine ⟨σ, by decide, ⟨by decide, by decide⟩, fun hPerm => ?_⟩
    have hPerm := hPerm.map (·.location.line)
    rw [hLines.1, hLines.2] at hPerm
    exact absurd hPerm (by decide)
  · let σ : Equiv.Perm (Fin staleEdge.blocks.size) :=
      Equiv.swap ⟨2, by decide⟩ ⟨3, by decide⟩
    have hCounts : ((staleEdge.renumber σ).link.1.findings settings).length = 1 ∧
        (staleEdge.link.1.findings settings).length = 0 := by
      cbv
    refine ⟨σ, by decide, by cbv, by cbv, fun hPerm => ?_⟩
    have hLength := hPerm.length_eq
    omega

end Function

end NilGuard
