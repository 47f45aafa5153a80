import Mathlib.Data.List.Basic
import NilGuard.Proofs.Findings
/-! Functions that do the same wherever control can go. A copy of a function has every block
that the function reaches at a place of its own; what else it has does not matter. When
both are linked, dominators, facts and events of the one are those of the other. -/
namespace NilGuard

/-- The instruction is a binary operation with the value as result. -/
def Instr.IsBinaryOf (i : Instr) (v : Value) : Prop := i.binary?.map Binary.result = some v

instance (i : Instr) (v : Value) : Decidable (i.IsBinaryOf v) :=
  inferInstanceAs (Decidable (i.binary?.map Binary.result = some v))

/-- The visit of the same block at another place. -/
def Visit.relocate (f : Nat → Nat) (v : Visit) : Visit := { v with block := f v.block }

def Comparison.relocate (f : Nat → Nat) (c : Comparison) : Comparison :=
  { c with onEqual := f c.onEqual, onDiffer := f c.onDiffer }

def Lesson.relocate (f : Nat → Nat) : Lesson → Lesson
  | .nothing => .nothing
  | .fixed c x y => .fixed (c.relocate f) x y
  | .learned c other => .learned (c.relocate f) other

theorem Comparison.lesson_relocate (f : Nat → Nat) (c : Comparison) (facts : Facts) :
    (c.relocate f).lesson facts = (c.lesson facts).relocate f := by
  unfold lesson
  simp only [relocate]
  cases facts.classify c.left <;> cases facts.classify c.right <;> rfl

theorem Comparison.deadEnd_relocate (f : Nat → Nat) (c : Comparison) (x y : Nilness) :
    (c.relocate f).deadEnd x y = f (c.deadEnd x y) := by
  unfold deadEnd
  split <;> rfl

/-- The same event in a block at another place. -/
def Event.relocate (f : Nat → Nat) : Event → Event
  | .learned block facts => .learned (f block) facts
  | e => e

theorem Event.diagnostic?_relocate (f : Nat → Nat) (e : Event) :
    (e.relocate f).diagnostic? = e.diagnostic? := by
  cases e <;> rfl

namespace Events

def relocate (f : Nat → Nat) (e : Events) : Events :=
  { e with events := e.events.map (Event.relocate f) }

theorem relocate_append (f : Nat → Nat) (a b : Events) :
    (a.append b).relocate f = (a.relocate f).append (b.relocate f) := by
  unfold append
  cases hCrash : a.crash with
  | some k => simp [relocate, hCrash]
  | none => simp [relocate, hCrash]

theorem relocate_concat (f : Nat → Nat) (es : List Events) :
    (concat es).relocate f = concat (es.map (relocate f)) := by
  induction es with
  | nil => rfl
  | cons e es ih => rw [concat, relocate_append, ih, List.map_cons, concat]

end Events

namespace Function

section Linking

/-- The operations stand in the order of their blocks. -/
theorem binaries_eq_flatMap (fn : Function) : fn.binaries =
    (List.range fn.blocks.size).flatMap fun b => (fn.instrs b).filterMap Instr.binary? := by
  have hInstrs : fn.blocks.toList.map Block.instrs = (List.range fn.blocks.size).map fn.instrs := by
    apply List.ext_getElem
    · simp
    · intro b hLeft hRight
      have hLt : b < fn.blocks.size := by simpa using hLeft
      simp [instrs, block?_of_lt hLt, hLt]
  rw [binaries, ← List.flatMap_map Block.instrs, hInstrs, List.flatMap_map]

theorem instrs_withPreds (fn : Function) : fn.withPreds.instrs = fn.instrs := by
  funext b
  rw [instrs, instrs, block?_withPreds]
  by_cases hLt : b < fn.blocks.size <;> cases fn.block? b <;> simp [hLt]

theorem instrs_withTree (fn : Function) (t : DomTree) : (fn.withTree t).instrs = fn.instrs := by
  funext b
  rw [instrs, instrs, block?_withTree]
  by_cases hLt : b < fn.blocks.size <;> cases fn.block? b <;> simp [hLt]

/-- The functions have the same instructions and edges in the same places. What their blocks
say about predecessors and dominators may differ. -/
structure HasSameCode (fn other : Function) : Prop where
  callee : other.callee = fn.callee
  size : other.blocks.size = fn.blocks.size
  succs : other.succs = fn.succs
  instrs : other.instrs = fn.instrs

theorem hasSameCode_clearBefore (fn : Function) (place : Nat) :
    fn.HasSameCode (fn.clearBefore place) := by
  have hSize : (fn.clearBefore place).blocks.size = fn.blocks.size := by simp [clearBefore]
  have hBlock (b : Nat) : ((fn.clearBefore place).block? b).map (fun x => (x.succs, x.instrs)) =
      (fn.block? b).map fun x => (x.succs, x.instrs) := by
    rw [block?, block?, hSize]
    split
    case isTrue hLt =>
      simp only [clearBefore, Array.getElem?_mapIdx, Option.map_map]
      refine congrArg (fun f => (fn.blocks[b]?).map f) (funext fun x => ?_)
      dsimp only [Function.comp_apply]
      split <;> rfl
    case isFalse => rfl
  refine ⟨rfl, hSize, funext fun b => ?_, funext fun b => ?_⟩
  · have hSuccs := congrArg (Option.map Prod.fst) (hBlock b)
    rw [Option.map_map, Option.map_map] at hSuccs
    exact congrArg (·.getD []) hSuccs
  · have hInstrs := congrArg (Option.map Prod.snd) (hBlock b)
    rw [Option.map_map, Option.map_map] at hInstrs
    exact congrArg (·.getD []) hInstrs

theorem hasSameCode_withPreds (fn : Function) : fn.HasSameCode fn.withPreds :=
  ⟨rfl, fn.size_withPreds, fn.succs_withPreds, fn.instrs_withPreds⟩

theorem hasSameCode_withTree (fn : Function) (t : DomTree) : fn.HasSameCode (fn.withTree t) :=
  ⟨rfl, fn.size_withTree t, fn.succs_withTree t, fn.instrs_withTree t⟩

namespace HasSameCode

theorem trans {fn other third : Function} (hFirst : fn.HasSameCode other)
    (hSecond : other.HasSameCode third) : fn.HasSameCode third :=
  ⟨hSecond.callee.trans hFirst.callee, hSecond.size.trans hFirst.size,
    hSecond.succs.trans hFirst.succs, hSecond.instrs.trans hFirst.instrs⟩

variable {fn other : Function} (hSame : fn.HasSameCode other)
include hSame

theorem hasBody : other.hasBody = fn.hasBody := by
  rw [Function.hasBody, Function.hasBody, hSame.size]

theorem reaches (b : Nat) : other.Reaches b ↔ fn.Reaches b := by
  have hEdge : other.Edge = fn.Edge := by
    funext a c
    rw [Edge, Edge, hSame.succs]
  rw [Reaches, Reaches, hSame.hasBody, hEdge]

theorem branchCondition? (b : Nat) : other.branchCondition? b = fn.branchCondition? b := by
  rw [Function.branchCondition?, Function.branchCondition?, hSame.instrs]

theorem binaryOf? (v : Value) : other.binaryOf? v = fn.binaryOf? v := by
  rw [Function.binaryOf?, Function.binaryOf?, binaries_eq_flatMap, binaries_eq_flatMap,
    hSame.size, hSame.instrs]

end HasSameCode

theorem hasSameCode_link (fn : Function) : fn.HasSameCode fn.link.1 := by
  unfold link
  split
  case h_1 i _ => exact fn.hasSameCode_clearBefore i
  case h_2 =>
    simp only
    split
    case h_1 => exact fn.hasSameCode_withPreds
    case h_2 t _ => exact fn.hasSameCode_withPreds.trans (fn.withPreds.hasSameCode_withTree t)

theorem IsWellFormed.isLinked_link {fn : Function} (hWell : fn.IsWellFormed) :
    fn.link.1.IsLinked :=
  ⟨fn, _, hWell, by rw [link_eq hWell]⟩

end Linking

/-- Events of calls do not name their block. -/
theorem relocate_callEvents (fn : Function) (f : Nat → Nat) (settings : Settings) (facts : Facts)
    (i : Instr) : (fn.callEvents settings facts i).relocate f = fn.callEvents settings facts i := by
  unfold callEvents
  cases i.op with
  | call result callee args =>
      cases callee with
      | none => rfl
      | some c =>
          cases hFound : (settings.validator.validate facts (some c) args).found with
          | error k => simp [hFound, Events.relocate, Event.relocate]
          | ok position? =>
              cases position? with
              | none => simp [hFound, Events.relocate, Event.relocate]
              | some position => simp [hFound, Events.relocate, Event.relocate]
  | _ => rfl

/-- Another function has the blocks that a function reaches, at the places that `f` gives.
Branches there test the results of the same operations. -/
structure IsCopy (f : Nat → Nat) (fn copy : Function) : Prop where
  callee : copy.callee = fn.callee
  hasBody : copy.hasBody = fn.hasBody
  zero : f 0 = 0
  injective : ∀ {a b}, fn.Reaches a → fn.Reaches b → f a = f b → a = b
  succs : ∀ {b}, fn.Reaches b → copy.succs (f b) = (fn.succs b).map f
  instrs : ∀ {b}, fn.Reaches b → copy.instrs (f b) = fn.instrs b
  operation : ∀ {b v}, fn.Reaches b → fn.branchCondition? b = some v →
    copy.binaryOf? v = fn.binaryOf? v

theorem Reaches.step {fn : Function} {b c : Nat} (hReach : fn.Reaches b) (hEdge : fn.Edge b c) :
    fn.Reaches c :=
  ⟨hReach.1, hReach.2.step hEdge⟩

namespace IsCopy

variable {f : Nat → Nat} {fn copy : Function} (hCopy : fn.IsCopy f copy)
include hCopy

/-- Linking changes nothing that a copy needs. -/
theorem link : fn.link.1.IsCopy f copy.link.1 := by
  have hSame := fn.hasSameCode_link
  have hSameCopy := copy.hasSameCode_link
  constructor
  case callee => rw [hSameCopy.callee, hCopy.callee, hSame.callee]
  case hasBody => rw [hSameCopy.hasBody, hCopy.hasBody, hSame.hasBody]
  case zero => exact hCopy.zero
  case injective =>
    intro a b ha hb
    exact hCopy.injective ((hSame.reaches a).mp ha) ((hSame.reaches b).mp hb)
  case succs =>
    intro b hReach
    rw [hSameCopy.succs, hSame.succs, hCopy.succs ((hSame.reaches b).mp hReach)]
  case instrs =>
    intro b hReach
    rw [hSameCopy.instrs, hSame.instrs, hCopy.instrs ((hSame.reaches b).mp hReach)]
  case operation =>
    intro b v hReach hCondition
    rw [hSame.branchCondition?] at hCondition
    rw [hSameCopy.binaryOf?, hSame.binaryOf?,
      hCopy.operation ((hSame.reaches b).mp hReach) hCondition]

theorem isRouteMap (hBody : fn.hasBody = true) : IsRouteMap f fn.Edge copy.Edge := by
  apply IsRouteMap.of_edge_iff hCopy.zero
  · intro b hReach c
    rw [Edge, hCopy.succs ⟨hBody, hReach⟩, List.mem_map]
    rfl
  · exact fun ha hb => hCopy.injective ⟨hBody, ha⟩ ⟨hBody, hb⟩

theorem reaches {b : Nat} (hReach : fn.Reaches b) : copy.Reaches (f b) :=
  ⟨by rw [hCopy.hasBody, hReach.1], (hCopy.isRouteMap hReach.1).reachable hReach.2⟩

theorem exists_source {c : Nat} (hReach : copy.Reaches c) : ∃ b, fn.Reaches b ∧ f b = c := by
  have hBody : fn.hasBody = true := by rw [← hCopy.hasBody, hReach.1]
  obtain ⟨b, hb, hEq⟩ := (hCopy.isRouteMap hBody).exists_source hReach.2
  exact ⟨b, ⟨hBody, hb⟩, hEq⟩

theorem comparison? {b : Nat} (hReach : fn.Reaches b) :
    copy.comparison? (f b) = (fn.comparison? b).map (Comparison.relocate f) := by
  have hCondition : copy.branchCondition? (f b) = fn.branchCondition? b := by
    rw [branchCondition?, branchCondition?, hCopy.instrs hReach]
  unfold Function.comparison?
  rw [hCondition, hCopy.succs hReach]
  cases hTest : fn.branchCondition? b with
  | none => rfl
  | some v =>
      simp only [Option.bind_eq_bind, Option.bind_some, hCopy.operation hReach hTest]
      match fn.succs b with
      | [] => rfl
      | [_] => rfl
      | _ :: _ :: _ :: _ => rfl
      | [onTrue, onFalse] =>
          cases fn.binaryOf? v with
          | none => rfl
          | some d =>
              obtain ⟨location, result, operator, left, right⟩ := d
              cases left with
              | none => rfl
              | some l =>
                  cases right with
                  | none => rfl
                  | some r =>
                      simp only [List.map_cons, List.map_nil, Option.bind_some]
                      split
                      · rfl
                      · split <;> rfl

theorem lesson {v : Visit} (hReach : fn.Reaches v.block) :
    copy.lesson (v.relocate f) = (fn.lesson v).relocate f := by
  rw [Function.lesson, Function.lesson, Visit.relocate, hCopy.comparison? hReach]
  cases fn.comparison? v.block with
  | none => rfl
  | some c => exact c.lesson_relocate f v.facts

theorem apply_eq_iff {a b : Nat} (ha : fn.Reaches a) (hb : fn.Reaches b) : f a = f b ↔ a = b :=
  ⟨hCopy.injective ha hb, fun hEq => by rw [hEq]⟩

theorem count_map {places : List Nat} (hAll : ∀ a ∈ places, fn.Reaches a) {b : Nat}
    (hb : fn.Reaches b) : (places.map f).count (f b) = places.count b := by
  rw [List.count_eq_countP, List.countP_map, List.count_eq_countP]
  apply List.countP_congr
  intro a ha
  simp only [Function.comp_apply, beq_iff_eq]
  exact hCopy.apply_eq_iff (hAll a ha) hb

section Linked

variable (hLinked : fn.IsLinked) (hLinkedCopy : copy.IsLinked)
include hLinked hLinkedCopy

/-- The immediate dominator of a block is copied with it. -/
theorem dominees_perm {b : Nat} (hReach : fn.Reaches b) :
    (copy.dominees (f b)).Perm ((fn.dominees b).map f) := by
  obtain ⟨tree, hTree⟩ := hLinked.exists_tree
  obtain ⟨treeCopy, hTreeCopy⟩ := hLinkedCopy.exists_tree
  have hb := hLinked.isWellFormed.lt_size hReach
  have hbCopy := hLinkedCopy.isWellFormed.lt_size (hCopy.reaches hReach)
  have hNodup : (fn.dominees b).Nodup := (hTree.dominees_increasing b hb).imp Nat.ne_of_lt
  have hNodupMap : ((fn.dominees b).map f).Nodup := by
    rw [List.Nodup, List.pairwise_map]
    apply hNodup.imp_of_mem
    intro a d ha hd hNe hEq
    exact hNe (hCopy.injective ((hLinked.mem_dominees_iff hb).mp ha).1
      ((hLinked.mem_dominees_iff hb).mp hd).1 hEq)
  have hNodupCopy : (copy.dominees (f b)).Nodup :=
    (hTreeCopy.dominees_increasing _ hbCopy).imp Nat.ne_of_lt
  have hMap := hCopy.isRouteMap hReach.1
  rw [List.perm_ext_iff_of_nodup hNodupCopy hNodupMap]
  intro c
  rw [hLinkedCopy.mem_dominees_iff hbCopy, List.mem_map]
  constructor
  · rintro ⟨hc, hIdom⟩
    obtain ⟨d, hd, rfl⟩ := hCopy.exists_source hc
    refine ⟨d, (hLinked.mem_dominees_iff hb).mpr ⟨hd, ?_⟩, rfl⟩
    exact (hMap.immediatelyDominates_iff hReach.2 hd.2).mp hIdom
  · rintro ⟨d, hd, rfl⟩
    obtain ⟨hd, hIdom⟩ := (hLinked.mem_dominees_iff hb).mp hd
    exact ⟨hCopy.reaches hd, (hMap.immediatelyDominates_iff hReach.2 hd.2).mpr hIdom⟩

/-- Edges into a block that are ever taken come from copied blocks. -/
theorem preds_perm {b : Nat} (hReach : fn.Reaches b) :
    (copy.preds (f b)).Perm ((fn.preds b).map f) := by
  obtain ⟨tree, hTree⟩ := hLinked.exists_tree
  obtain ⟨treeCopy, hTreeCopy⟩ := hLinkedCopy.exists_tree
  have hb := hLinked.isWellFormed.lt_size hReach
  have hbCopy := hLinkedCopy.isWellFormed.lt_size (hCopy.reaches hReach)
  rw [List.perm_iff_count]
  intro c
  by_cases hc : copy.Reaches c
  · obtain ⟨a, ha, rfl⟩ := hCopy.exists_source hc
    rw [hTreeCopy.count_preds _ hbCopy _ hc, hCopy.succs ha, hCopy.count_map _ hReach,
      hCopy.count_map (hTree.reaches_of_mem_preds b hb) ha, hTree.count_preds b hb a ha]
    exact fun d hd => ha.step hd
  · rw [List.count_eq_zero.mpr fun hMem => hc (hTreeCopy.reaches_of_mem_preds _ hbCopy c hMem),
      List.count_eq_zero.mpr]
    intro hMem
    obtain ⟨a, ha, rfl⟩ := List.mem_map.mp hMem
    exact hc (hCopy.reaches (hTree.reaches_of_mem_preds b hb a ha))

theorem hasOneEdge {b : Nat} (hReach : fn.Reaches b) :
    copy.hasOneEdge (f b) = fn.hasOneEdge b := by
  have hLength := (hCopy.preds_perm hLinked hLinkedCopy hReach).length_eq
  rw [List.length_map] at hLength
  rw [Function.hasOneEdge, Function.hasOneEdge, hLength]

theorem factsBelow {b d : Nat} (hReach : fn.Reaches b) (hd : fn.Reaches d) {c : Comparison}
    (hComparison : fn.comparison? b = some c) (facts : Facts) (other : Value) :
    copy.factsBelow facts (c.relocate f) other (f d) = fn.factsBelow facts c other d := by
  obtain ⟨hEqual, hDiffer⟩ := edge_of_comparison hComparison
  have hOnEqual : f d = (c.relocate f).onEqual ↔ d = c.onEqual :=
    hCopy.apply_eq_iff hd (hReach.step hEqual)
  have hOnDiffer : f d = (c.relocate f).onDiffer ↔ d = c.onDiffer :=
    hCopy.apply_eq_iff hd (hReach.step hDiffer)
  simp only [Function.factsBelow, hCopy.hasOneEdge hLinked hLinkedCopy hd, hOnEqual, hOnDiffer]

theorem visitOf? {v : Visit} {d : Nat} (hReach : fn.Reaches v.block) (hd : fn.Reaches d) :
    copy.visitOf? (v.relocate f) (f d) = (fn.visitOf? v d).map (Visit.relocate f) := by
  rw [Function.visitOf?, Function.visitOf?, hCopy.lesson hReach]
  cases hLesson : fn.lesson v with
  | nothing => rfl
  | learned c other =>
      obtain ⟨hComparison, -⟩ := lesson_eq_learned hLesson
      have hFacts := hCopy.factsBelow hLinked hLinkedCopy hReach hd hComparison v.facts other
      exact congrArg (fun facts => some (Visit.mk (f d) facts)) hFacts
  | fixed c x y =>
      obtain ⟨hComparison, -⟩ := lesson_eq_fixed hLesson
      obtain ⟨hEqual, hDiffer⟩ := edge_of_comparison hComparison
      have hDeadReach : fn.Reaches (c.deadEnd x y) := by
        rw [Comparison.deadEnd]
        split
        · exact hReach.step hDiffer
        · exact hReach.step hEqual
      have hDead : (f d == (c.relocate f).deadEnd x y) = (d == c.deadEnd x y) := by
        rw [Comparison.deadEnd_relocate, Bool.eq_iff_iff, beq_iff_eq, beq_iff_eq]
        exact hCopy.apply_eq_iff hd hDeadReach
      simp only [Lesson.relocate, hDead, hCopy.hasOneEdge hLinked hLinkedCopy hd]
      split <;> rfl

/-- The visits below a visit, given the dominees of the copy in some order. -/
theorem filterMap_visitOf? {v : Visit} (hReach : fn.Reaches v.block) :
    ((fn.dominees v.block).map f).filterMap (copy.visitOf? (v.relocate f)) =
      (fn.below v).map (Visit.relocate f) := by
  have hb := hLinked.isWellFormed.lt_size hReach
  rw [below_eq_filterMap, List.filterMap_map, List.map_filterMap]
  apply List.filterMap_congr
  intro d hd
  exact hCopy.visitOf? hLinked hLinkedCopy hReach ((hLinked.mem_dominees_iff hb).mp hd).1

theorem below_perm {v : Visit} (hReach : fn.Reaches v.block) :
    (copy.below (v.relocate f)).Perm ((fn.below v).map (Visit.relocate f)) := by
  rw [below_eq_filterMap, ← hCopy.filterMap_visitOf? hLinked hLinkedCopy hReach]
  exact (hCopy.dominees_perm hLinked hLinkedCopy hReach).filterMap _

/-- The same visits are made, perhaps in another order. -/
theorem visits_perm :
    copy.walk.visits.Perm (fn.walk.visits.map (Visit.relocate f)) := by
  have hReaches := fun v => reaches_of_mem_visits hLinked (v := v)
  have hNodup : (fn.walk.visits.map (Visit.relocate f)).Nodup := by
    rw [List.Nodup, List.pairwise_map]
    apply (List.pairwise_map.mp (nodup_blocks hLinked)).imp_of_mem
    intro v w hv hw hNe hEq
    exact hNe (hCopy.injective (hReaches v hv) (hReaches w hw) (congrArg Visit.block hEq))
  have hNodupCopy : copy.walk.visits.Nodup :=
    (List.pairwise_map.mp (nodup_blocks hLinkedCopy)).imp fun hNe hEq => hNe (by rw [hEq])
  have hBelow : ∀ {u}, fn.Reaches u.block → ∀ w,
      w ∈ copy.below (u.relocate f) ↔ ∃ v ∈ fn.below u, v.relocate f = w := by
    intro u hu w
    rw [(hCopy.below_perm hLinked hLinkedCopy hu).mem_iff, List.mem_map]
  rw [List.perm_ext_iff_of_nodup hNodupCopy hNodup]
  intro w
  rw [List.mem_map]
  constructor
  · intro hw
    refine (walk_visits_induct hLinkedCopy
      (P := fun w => ∃ v ∈ fn.walk.visits, v.relocate f = w) ?_ ?_ w hw).2
    · intro hBody
      rw [hCopy.hasBody] at hBody
      exact ⟨⟨0, []⟩, (mem_visits_iff hLinked).mpr (Or.inl ⟨hBody, rfl⟩),
        by rw [Visit.relocate, hCopy.zero]⟩
    · rintro _ - ⟨u, hu, rfl⟩ w hw
      obtain ⟨v, hv, rfl⟩ := (hBelow (hReaches u hu) w).mp hw
      exact ⟨v, (mem_visits_iff hLinked).mpr (Or.inr ⟨u, hu, hv⟩), rfl⟩
  · rintro ⟨v, hv, rfl⟩
    refine (walk_visits_induct hLinked
      (P := fun v => v ∈ fn.walk.visits ∧ v.relocate f ∈ copy.walk.visits) ?_ ?_ v hv).2.2
    · intro hBody
      rw [mem_visits_iff hLinked, mem_visits_iff hLinkedCopy, Visit.relocate, hCopy.zero,
        hCopy.hasBody]
      exact ⟨Or.inl ⟨hBody, rfl⟩, Or.inl ⟨hBody, rfl⟩⟩
    · rintro u - ⟨hu, huCopy⟩ v hv
      rw [mem_visits_iff hLinked, mem_visits_iff hLinkedCopy]
      exact ⟨Or.inr ⟨u, hu, hv⟩,
        Or.inr ⟨_, huCopy, (hBelow (hReaches u hu) _).mpr ⟨v, hv, rfl⟩⟩⟩

section Monotone

variable (hMono : ∀ {a b}, fn.Reaches a → fn.Reaches b → a < b → f a < f b)
include hMono

/-- Dominees stand in increasing order, so they keep it when places do. -/
theorem below_eq {v : Visit} (hReach : fn.Reaches v.block) :
    copy.below (v.relocate f) = (fn.below v).map (Visit.relocate f) := by
  obtain ⟨tree, hTree⟩ := hLinked.exists_tree
  obtain ⟨treeCopy, hTreeCopy⟩ := hLinkedCopy.exists_tree
  have hb := hLinked.isWellFormed.lt_size hReach
  have hbCopy := hLinkedCopy.isWellFormed.lt_size (hCopy.reaches hReach)
  have hIncreasing : ((fn.dominees v.block).map f).Pairwise (· < ·) := by
    rw [List.pairwise_map]
    apply (hTree.dominees_increasing _ hb).imp_of_mem
    intro a d ha hd hLt
    exact hMono ((hLinked.mem_dominees_iff hb).mp ha).1 ((hLinked.mem_dominees_iff hb).mp hd).1 hLt
  have hDominees : copy.dominees (f v.block) = (fn.dominees v.block).map f :=
    (hCopy.dominees_perm hLinked hLinkedCopy hReach).eq_of_pairwise
      (fun a d _ _ hLt hGt => absurd hLt (Nat.lt_asymm hGt))
      (hTreeCopy.dominees_increasing _ hbCopy) hIncreasing
  rw [← hCopy.filterMap_visitOf? hLinked hLinkedCopy hReach, ← hDominees]
  exact below_eq_filterMap copy (v.relocate f)

theorem visits_walkFrom {ahead : List Visit} {m mCopy : Marks}
    (hAhead : ∀ v ∈ ahead, fn.Reaches v.block)
    (hMarks : ∀ b, fn.Reaches b → mCopy.isFree (f b) = m.isFree b) :
    (copy.walkFrom (ahead.map (Visit.relocate f)) mCopy).visits =
      (fn.walkFrom ahead m).visits.map (Visit.relocate f) := by
  have hOwn : ∀ {b}, fn.Reaches b → fn.markOf b = b ∧ copy.markOf (f b) = f b := fun hb =>
    ⟨hLinked.isWellFormed.markOf_eq (hLinked.isWellFormed.lt_size hb),
      hLinkedCopy.isWellFormed.markOf_eq (hLinkedCopy.isWellFormed.lt_size (hCopy.reaches hb))⟩
  induction ahead, m using walkFrom.induct fn generalizing mCopy with
  | case1 m => simp [walkFrom]
  | case2 v ahead m hOut =>
      have hv := hAhead v List.mem_cons_self
      rw [(hOwn hv).1] at hOut
      exact absurd hOut (Nat.not_le_of_lt (hLinked.isWellFormed.lt_size hv))
  | case3 v ahead m hIn hFree ih =>
      have hv := hAhead v List.mem_cons_self
      have hInCopy := Nat.not_le_of_lt (hLinkedCopy.isWellFormed.lt_size (hCopy.reaches hv))
      have hFreeCopy : mCopy.isFree (f v.block) = true := by
        rw [hMarks _ hv, ← hFree, (hOwn hv).1]
      have hNext : ∀ u ∈ fn.below v ++ ahead, fn.Reaches u.block := by
        intro u hu
        rcases List.mem_append.mp hu with hu | hu
        · exact ((hLinked.mem_dominees_iff (hLinked.isWellFormed.lt_size hv)).mp (mem_below hu).1).1
        · exact hAhead u (List.mem_cons_of_mem _ hu)
      have hMarked : ∀ b, fn.Reaches b →
          (mCopy.mark (f v.block)).isFree (f b) = (m.mark (fn.markOf v.block)).isFree b := by
        intro b hb
        rw [Marks.isFree_mark, Marks.isFree_mark, hMarks b hb, (hOwn hv).1]
        simp only [ne_eq, hCopy.apply_eq_iff hv hb]
      have hRest := ih hNext hMarked
      rw [List.map_append, ← hCopy.below_eq hLinked hLinkedCopy hMono hv] at hRest
      rw [walkFrom, if_neg hIn, dif_pos hFree, List.map_cons, walkFrom]
      simp only [Visit.relocate, (hOwn hv).2, hInCopy, hFreeCopy, ↓reduceIte, ↓reduceDIte]
      simp only [Visit.relocate] at hRest
      rw [hRest]
      rfl
  | case4 v ahead m hIn hFree ih =>
      have hv := hAhead v List.mem_cons_self
      have hInCopy := Nat.not_le_of_lt (hLinkedCopy.isWellFormed.lt_size (hCopy.reaches hv))
      have hFreeCopy : ¬ mCopy.isFree (f v.block) = true := by
        rw [hMarks _ hv, ← (hOwn hv).1]
        exact hFree
      rw [walkFrom, if_neg hIn, dif_neg hFree, List.map_cons, walkFrom]
      simp only [Visit.relocate, (hOwn hv).2, hInCopy, hFreeCopy, ↓reduceIte]
      exact ih (fun u hu => hAhead u (List.mem_cons_of_mem _ hu)) hMarks

/-- When places keep their order, the same visits are made in the same order. -/
theorem visits_eq : copy.walk.visits = fn.walk.visits.map (Visit.relocate f) := by
  rw [walk, walk, hCopy.hasBody]
  split
  case isTrue hBody =>
    have hAhead : ∀ v ∈ [(⟨0, []⟩ : Visit)], fn.Reaches v.block := fun v hv =>
      List.mem_singleton.mp hv ▸ ⟨hBody, Reachable.zero⟩
    have hMarks : ∀ b, fn.Reaches b → (Marks.clear copy.blocks.size).isFree (f b) =
        (Marks.clear fn.blocks.size).isFree b := fun b hb => by
      rw [Marks.isFree_clear, Marks.isFree_clear,
        decide_eq_true (hLinked.isWellFormed.lt_size hb),
        decide_eq_true (hLinkedCopy.isWellFormed.lt_size (hCopy.reaches hb))]
    have hVisits := hCopy.visits_walkFrom hLinked hLinkedCopy hMono hAhead hMarks
    rwa [List.map_singleton, Visit.relocate, hCopy.zero] at hVisits
  case isFalse => rfl

end Monotone

end Linked

theorem name : copy.name = fn.name := by rw [Function.name, Function.name, hCopy.callee]

theorem callEvents (settings : Settings) : copy.callEvents settings = fn.callEvents settings := by
  funext facts i
  simp only [Function.callEvents, hCopy.name]

theorem lessonEvents (settings : Settings) {v : Visit} (hReach : fn.Reaches v.block) :
    copy.lessonEvents settings (v.relocate f) =
      (fn.lessonEvents settings v).map (Event.relocate f) := by
  rw [Function.lessonEvents, Function.lessonEvents, hCopy.lesson hReach, hCopy.name]
  cases fn.lesson v with
  | nothing => rfl
  | learned c other => rfl
  | fixed c x y =>
      simp only [Lesson.relocate, Comparison.relocate, Comparison.adjective]
      split <;> rfl

theorem visitEvents (settings : Settings) {v : Visit} (hReach : fn.Reaches v.block) :
    copy.visitEvents settings (v.relocate f) = (fn.visitEvents settings v).relocate f := by
  rw [Function.visitEvents, Function.visitEvents, Events.relocate_append, Events.relocate_concat,
    List.map_map, hCopy.lessonEvents settings hReach, hCopy.callEvents settings]
  simp only [Visit.relocate, hCopy.instrs hReach]
  congr 2
  exact List.map_congr_left fun i _ => (fn.relocate_callEvents f settings v.facts i).symm

theorem events_eq (hLinked : fn.IsLinked) (hLinkedCopy : copy.IsLinked)
    (hMono : ∀ {a b}, fn.Reaches a → fn.Reaches b → a < b → f a < f b) (settings : Settings) :
    copy.events settings = (fn.events settings).relocate f := by
  rw [events, events, walk_complete hLinked, walk_complete hLinkedCopy, Events.relocate_append,
    Events.relocate_concat, hCopy.visits_eq hLinked hLinkedCopy hMono, List.map_map, List.map_map]
  congr 2
  exact List.map_congr_left fun v hv =>
    hCopy.visitEvents settings (reaches_of_mem_visits hLinked hv)

/-- What a copy reports is what the function does, when the order does not matter. -/
theorem findings_perm (hLinked : fn.IsLinked) (hLinkedCopy : copy.IsLinked) (settings : Settings) :
    ((copy.events settings).crash = none ↔ (fn.events settings).crash = none) ∧
      ((fn.events settings).crash = none →
        (copy.findings settings).Perm (fn.findings settings)) := by
  have hVisits := hCopy.visits_perm hLinked hLinkedCopy
  have hReaches := fun v => reaches_of_mem_visits hLinked (v := v)
  have hCrash : (copy.events settings).crash = none ↔ (fn.events settings).crash = none := by
    rw [crash_eq_none_iff _ _ (walk_complete hLinked),
      crash_eq_none_iff _ _ (walk_complete hLinkedCopy), hCopy.callEvents settings]
    constructor
    · intro hAll v hv i hi
      apply hAll (v.relocate f) (hVisits.mem_iff.mpr (List.mem_map_of_mem hv)) i
      rwa [Visit.relocate, hCopy.instrs (hReaches v hv)]
    · intro hAll w hw i hi
      obtain ⟨v, hv, rfl⟩ := List.mem_map.mp (hVisits.mem_iff.mp hw)
      rw [Visit.relocate, hCopy.instrs (hReaches v hv)] at hi
      exact hAll v hv i hi
  refine ⟨hCrash, fun hNone => ?_⟩
  rw [findings, findings, Events.diagnostics, Events.diagnostics,
    (fn.isStartOf_raised settings (walk_complete hLinked)).2 hNone,
    (copy.isStartOf_raised settings (walk_complete hLinkedCopy)).2 (hCrash.mpr hNone),
    raised, raised, List.filterMap_flatMap, List.filterMap_flatMap]
  refine (hVisits.flatMap_right _).trans (List.Perm.of_eq ?_)
  rw [List.flatMap_map]
  apply List.flatMap_congr
  intro v hv
  rw [hCopy.lessonEvents settings (hReaches v hv), hCopy.callEvents settings]
  simp only [Visit.relocate, hCopy.instrs (hReaches v hv), List.filterMap_append,
    List.filterMap_map, Function.comp_def, Event.diagnostic?_relocate]

end IsCopy

end Function

end NilGuard
