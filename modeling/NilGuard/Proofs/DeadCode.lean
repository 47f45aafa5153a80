import NilGuard.Proofs.Copy
import NilGuard.Proofs.Feasible
/-! Blocks that cannot be reached. Their edges are counted at first, into live blocks too, but
linking takes them out again; what is left is a copy of the function without them. -/
namespace NilGuard

/-- Places named by number stay where they are. -/
theorem Events.relocate_id (e : Events) : e.relocate id = e := by
  have hEvent : Event.relocate id = id := by
    funext e
    cases e <;> rfl
  simp [relocate, hEvent]

namespace Function

/-- The function with more blocks after its last one. The places of removed blocks move up to
make room. -/
def append (fn : Function) (extra : Array Block) : Function :=
  let moved := Block.relocate fun place =>
    if place < fn.blocks.size then place else place + extra.size
  { fn with blocks := fn.blocks.map moved ++ extra, removed := fn.removed.map moved }

theorem size_append (fn : Function) (extra : Array Block) :
    (fn.append extra).blocks.size = fn.blocks.size + extra.size := by
  simp [append]

theorem block?_append {fn : Function} (extra : Array Block) {b : Nat}
    (hLt : b < fn.blocks.size) : (fn.append extra).block? b = (fn.block? b).map
      (Block.relocate fun place =>
        if place < fn.blocks.size then place else place + extra.size) := by
  rw [block?_of_lt hLt, block?_of_lt (by rw [size_append]; omega), append,
    Array.getElem?_append_left (by simpa using hLt), Array.getElem?_map]

theorem instrs_append {fn : Function} (extra : Array Block) {b : Nat}
    (hLt : b < fn.blocks.size) : (fn.append extra).instrs b = fn.instrs b := by
  rw [instrs, instrs, block?_append extra hLt, Option.map_map]
  rfl

theorem succs_append {fn : Function} (hWell : fn.IsWellFormed) (extra : Array Block) {b : Nat}
    (hLt : b < fn.blocks.size) : (fn.append extra).succs b = fn.succs b := by
  have hInside := hWell.inside b hLt
  rw [succs] at hInside ⊢
  rw [succs, block?_append extra hLt, Option.map_map]
  cases hBlock : fn.block? b with
  | none => rfl
  | some x =>
      rw [hBlock] at hInside
      exact (List.map_congr_left fun c hc => if_pos (hInside c hc)).trans (List.map_id' _)

theorem binaries_append (fn : Function) (extra : Array Block) : (fn.append extra).binaries =
    fn.binaries ++ extra.toList.flatMap fun b => b.instrs.filterMap Instr.binary? := by
  simp only [binaries, append, Array.toList_append, Array.toList_map, List.flatMap_append,
    List.flatMap_map]
  rfl

theorem binaryOf?_append {fn : Function} {extra : Array Block} {v : Value}
    (hOther : ∀ b ∈ extra, ∀ i ∈ b.instrs, ¬ i.IsBinaryOf v) :
    (fn.append extra).binaryOf? v = fn.binaryOf? v := by
  have hNone : (extra.toList.flatMap fun b => b.instrs.filterMap Instr.binary?).filter
      (·.result = v) = [] := by
    rw [List.filter_eq_nil_iff]
    intro x hx hResult
    obtain ⟨b, hb, hx⟩ := List.mem_flatMap.mp hx
    obtain ⟨i, hi, hBinary⟩ := List.mem_filterMap.mp hx
    apply hOther b (Array.mem_toList_iff.mp hb) i hi
    rw [Instr.IsBinaryOf, hBinary, Option.map_some, of_decide_eq_true hResult]
  rw [binaryOf?, binaryOf?, binaries_append, List.filter_append, hNone, List.append_nil]

section Dead

variable {fn : Function} {dead : Array Block} (hWell : fn.IsWellFormed)
  (hDead : ∀ b, fn.blocks.size ≤ b → ¬ (fn.append dead).Reaches b)
  (hConditions : ∀ b, fn.Reaches b → ∀ v, fn.branchCondition? b = some v →
    ∀ block ∈ dead, ∀ i ∈ block.instrs, ¬ i.IsBinaryOf v)

include hDead in
/-- A block appended to nothing would be the entry. -/
theorem hasBody_append : (fn.append dead).hasBody = fn.hasBody := by
  cases hBody : fn.hasBody with
  | true =>
      have hSize : 0 < fn.blocks.size := by simpa [hasBody] using hBody
      simp [hasBody, size_append]
      omega
  | false =>
      have hSize : fn.blocks.size = 0 := by simpa [hasBody] using hBody
      apply Bool.eq_false_iff.mpr
      intro hBodyAppended
      exact hDead 0 (Nat.le_of_eq hSize) ⟨hBodyAppended, Reachable.zero⟩

include hWell hDead hConditions in
theorem isCopy_append : fn.IsCopy id (fn.append dead) := by
  constructor
  case callee => rfl
  case hasBody => exact hasBody_append hDead
  case zero => rfl
  case injective => exact fun _ _ hEq => hEq
  case succs =>
    intro b hReach
    rw [List.map_id]
    exact succs_append hWell dead (hWell.lt_size hReach)
  case instrs =>
    intro b hReach
    exact instrs_append dead (hWell.lt_size hReach)
  case operation =>
    intro b v hReach hCondition
    exact binaryOf?_append (hConditions b hReach v hCondition)

end Dead

/-- Dead code is inert. Blocks are appended that cannot be reached; they may hold anything and
lead anywhere, but make no value that a live branch tests. After linking, the walk makes the
same visits and reports the same findings in the same order, and it crashes where it did. -/
theorem findings_append_dead (fn : Function) (dead : Array Block) (hWell : fn.IsWellFormed)
    (hAppended : (fn.append dead).IsWellFormed)
    (hDead : ∀ b, fn.blocks.size ≤ b → ¬ (fn.append dead).Reaches b)
    (hConditions : ∀ b, fn.Reaches b → ∀ v, fn.branchCondition? b = some v →
      ∀ block ∈ dead, ∀ i ∈ block.instrs, ¬ i.IsBinaryOf v)
    (targets : List ResolvedTarget) (reportConditions : Bool) :
    ∃ linked appended tree tree', fn.link = (linked, .ok tree) ∧
      (fn.append dead).link = (appended, .ok tree') ∧
      appended.walk.visits = linked.walk.visits ∧
      let settings := Settings.ofTargets targets reportConditions
      appended.findings settings = linked.findings settings ∧
        (appended.events settings).crash = (linked.events settings).crash := by
  have hCopy := (isCopy_append hWell hDead hConditions).link
  have hMono : ∀ {a b}, fn.link.1.Reaches a → fn.link.1.Reaches b → a < b → id a < id b :=
    fun _ _ hLt => hLt
  have hVisits := hCopy.visits_eq hWell.isLinked_link hAppended.isLinked_link hMono
  have hEvents := hCopy.events_eq hWell.isLinked_link hAppended.isLinked_link hMono
    (Settings.ofTargets targets reportConditions)
  rw [Events.relocate_id] at hEvents
  refine ⟨_, _, _, _, link_eq hWell, link_eq hAppended, ?_, ?_⟩
  · rw [link_eq hWell, link_eq hAppended] at hVisits
    exact hVisits.trans (List.map_id _)
  · rw [link_eq hWell, link_eq hAppended] at hEvents
    exact ⟨congrArg Events.diagnostics hEvents, congrArg Events.crash hEvents⟩

/-- Two dead blocks that lead to each other, to a block with one edge and to the entry, and
that compare the value the loop goes by. -/
def deadPair : Array Block :=
  let null : Value := .leaf { id := 0, name := "" } (.const true "nil")
  let isNull : Value := .leaf { id := 6, name := "isNull" } .other
  #[{ index := 5
      instrs := [{ location := { file := "loop", line := 9 }
                   op := .binary isNull "!=" (some null) (some null) },
        { op := .branch (some isNull) }]
      succs := [2, 6] },
    { index := 6, instrs := [{ op := .jump }], succs := [0, 5, 5], preds := [1], dominees := [3] }]

theorem findings_append_dead_guardedLoop :
    guardedLoop.IsWellFormed ∧ (guardedLoop.append deadPair).IsWellFormed ∧
      (∀ b, 5 ≤ b → ¬ (guardedLoop.append deadPair).Reaches b) ∧
      (∀ b, guardedLoop.Reaches b → ∀ v, guardedLoop.branchCondition? b = some v →
        ∀ block ∈ deadPair, ∀ i ∈ block.instrs, ¬ i.IsBinaryOf v) ∧
      ∃ linked appended tree tree', guardedLoop.link = (linked, .ok tree) ∧
        (guardedLoop.append deadPair).link = (appended, .ok tree') ∧
        appended.findings (.ofTargets [guardedTarget] true) =
          linked.findings (.ofTargets [guardedTarget] true) := by
  have hWell : guardedLoop.IsWellFormed := ⟨by decide, by decide⟩
  have hAppended : (guardedLoop.append deadPair).IsWellFormed :=
    ⟨by decide +kernel, by decide +kernel⟩
  have hDead : ∀ b, 5 ≤ b → ¬ (guardedLoop.append deadPair).Reaches b := by
    intro b hLe hReach
    have hClosed : ∀ a < 5, ∀ c ∈ (guardedLoop.append deadPair).succs a, c < 5 := by
      decide +kernel
    have hLt : b < 5 := hReach.2.induct (by decide) fun a c _ ha hEdge => hClosed a ha c hEdge
    omega
  have hConditions : ∀ b, guardedLoop.Reaches b → ∀ v, guardedLoop.branchCondition? b = some v →
      ∀ block ∈ deadPair, ∀ i ∈ block.instrs, ¬ i.IsBinaryOf v := by
    intro b hReach
    have hAll : ∀ a < 5, ∀ v ∈ guardedLoop.branchCondition? a, ∀ block ∈ deadPair,
        ∀ i ∈ block.instrs, ¬ i.IsBinaryOf v := by decide
    exact hAll b (hWell.lt_size hReach)
  obtain ⟨linked, appended, tree, tree', hLink, hLinkAppended, -, hFindings, -⟩ :=
    findings_append_dead guardedLoop deadPair hWell hAppended hDead hConditions [guardedTarget] true
  exact ⟨hWell, hAppended, hDead, hConditions, linked, appended, tree, tree', hLink,
    hLinkAppended, hFindings⟩

end Function

end NilGuard
