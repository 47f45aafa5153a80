import Mathlib
import NilGuard.Proofs.Analysis
import NilGuard.Proofs.Copy
import NilGuard.Proofs.Feasible
/-! Other spellings of comparisons. The sides of a test for equality may be exchanged, and so may
its operator with the opposite one if the edges of the branches on it are exchanged too. Edges
come in another order then, but dominators, visits and facts are the same. -/
namespace NilGuard

/-- A way to write a test for equality anew: with its sides exchanged, with the opposite operator,
or both. -/
structure Spelling where
  turned : Bool := false
  opposite : Bool := false
  deriving DecidableEq, Repr

namespace Spelling

variable (s : Spelling)

/-- What comes to stand on the left. -/
def left {α : Type} (x y : α) : α := if s.turned then y else x

/-- What comes to stand on the right. -/
def right {α : Type} (x y : α) : α := if s.turned then x else y

def operator (operator : String) : String :=
  if s.opposite then if operator = "==" then "!=" else "==" else operator

/-- What always holds never does with the opposite operator. -/
def adjective (adjective : String) : String :=
  if s.opposite then if adjective = "tautological" then "impossible" else "tautological"
  else adjective

end Spelling

namespace Binary

def IsEquality (x : Binary) : Prop := x.operator = "==" ∨ x.operator = "!="

instance (x : Binary) : Decidable x.IsEquality :=
  inferInstanceAs (Decidable (x.operator = "==" ∨ x.operator = "!="))

/-- The operation in another spelling. Only tests for equality have any. -/
def respell (s : Spelling) (x : Binary) : Binary :=
  if x.IsEquality then
    { x with
      operator := s.operator x.operator
      left := s.left x.left x.right
      right := s.right x.left x.right }
  else x

def instr (x : Binary) : Instr := ⟨x.location, .binary x.result x.operator x.left x.right⟩

/-- The blocks that a branch on the operation enters on equality and on difference. -/
def ends? (x : Binary) (succs : List Nat) : Option (Nat × Nat) :=
  match succs with
  | [onTrue, onFalse] =>
    if x.operator = "==" then some (onTrue, onFalse)
    else if x.operator = "!=" then some (onFalse, onTrue)
    else none
  | _ => none

/-- The comparison that a branch on the operation makes. -/
def comparison? (x : Binary) (succs : List Nat) : Option Comparison := do
  let (onEqual, onDiffer) ← x.ends? succs
  let left ← x.left
  let right ← x.right
  return { x with left, right, onEqual, onDiffer }

theorem result_respell (s : Spelling) (x : Binary) : (x.respell s).result = x.result := by
  rw [respell]
  split <;> rfl

end Binary

def Instr.respell (s : Spelling) (i : Instr) : Instr :=
  match i.binary? with
  | some x => (x.respell s).instr
  | none => i

theorem Instr.binary?_respell (s : Spelling) (i : Instr) :
    (i.respell s).binary? = i.binary?.map (Binary.respell s) := by
  obtain ⟨location, op⟩ := i
  cases op <;> rfl

/-- The comparison in another spelling. The blocks that are entered stay. -/
def Comparison.respell (s : Spelling) (c : Comparison) : Comparison :=
  { c with
    operator := s.operator c.operator
    left := s.left c.left c.right
    right := s.right c.left c.right }

def Lesson.respell (s : Spelling) : Lesson → Lesson
  | .nothing => .nothing
  | .fixed c x y => .fixed (c.respell s) (s.left x y) (s.right x y)
  | .learned c other => .learned (c.respell s) other

/-- Exchanges two successors. -/
def exchange : List Nat → List Nat
  | [a, b] => [b, a]
  | places => places

theorem exchange_perm (places : List Nat) : (exchange places).Perm places := by
  unfold exchange
  split
  case h_1 a b => exact List.Perm.swap a b []
  case h_2 => exact List.Perm.refl _

namespace Comparison

/-- The sides are told apart only by where the unknown one stands. -/
theorem lesson_respell (s : Spelling) (c : Comparison) (facts : Facts) :
    (c.respell s).lesson facts = (c.lesson facts).respell s := by
  obtain ⟨turned, opposite⟩ := s
  unfold lesson
  cases turned with
  | false =>
      have hLeft : (c.respell ⟨false, opposite⟩).left = c.left := rfl
      have hRight : (c.respell ⟨false, opposite⟩).right = c.right := rfl
      rw [hLeft, hRight]
      cases facts.classify c.left <;> cases facts.classify c.right <;> rfl
  | true =>
      have hLeft : (c.respell ⟨true, opposite⟩).left = c.right := rfl
      have hRight : (c.respell ⟨true, opposite⟩).right = c.left := rfl
      rw [hLeft, hRight]
      cases facts.classify c.left <;> cases facts.classify c.right <;> rfl

theorem deadEnd_respell (s : Spelling) (c : Comparison) (x y : Nilness) :
    (c.respell s).deadEnd (s.left x y) (s.right x y) = c.deadEnd x y := by
  obtain ⟨turned, opposite⟩ := s
  cases turned with
  | false => rfl
  | true => cases x <;> cases y <;> rfl

theorem adjective_respell (s : Spelling) {c : Comparison}
    (hOperator : c.operator = "==" ∨ c.operator = "!=") (x y : Nilness) :
    (c.respell s).adjective (s.left x y) (s.right x y) = s.adjective (c.adjective x y) := by
  obtain ⟨turned, opposite⟩ := s
  have hSides : (Spelling.left ⟨turned, opposite⟩ x y == Spelling.right ⟨turned, opposite⟩ x y) =
      (x == y) := by
    cases turned <;> cases x <;> cases y <;> rfl
  rw [adjective, adjective, hSides]
  rcases hOperator with hOperator | hOperator <;> cases opposite <;> cases x == y <;>
    simp [respell, Spelling.operator, Spelling.adjective, hOperator]

end Comparison

namespace Binary

/-- Where the operator becomes the opposite one and the edges are exchanged, the same blocks are
entered on equality and on difference. -/
theorem ends?_respell (s : Spelling) (x : Binary) (succs : List Nat) :
    (x.respell s).ends? (if x.IsEquality ∧ s.opposite then exchange succs else succs) =
      x.ends? succs := by
  -- only with two successors a branch compares anything
  rcases succs with _ | ⟨onTrue, _ | ⟨onFalse, _ | ⟨next, places⟩⟩⟩
  case cons.cons.nil =>
    by_cases hOperator : x.IsEquality
    · rw [respell, if_pos hOperator]
      rcases hOperator with hOperator | hOperator <;> cases hOpposite : s.opposite <;>
        simp [ends?, IsEquality, Spelling.operator, exchange, hOperator, hOpposite]
    · rw [respell, if_neg hOperator, if_neg fun h => hOperator h.1]
  all_goals simp [exchange, ends?]

theorem isEquality_of_ends? {x : Binary} {succs : List Nat} {ends : Nat × Nat}
    (h : x.ends? succs = some ends) : x.IsEquality := by
  unfold ends? at h
  split at h
  case h_1 =>
    split at h
    case isTrue hEqual => exact Or.inl hEqual
    case isFalse =>
      split at h
      case isTrue hDiffer => exact Or.inr hDiffer
      case isFalse => cases h
  case h_2 => cases h

theorem comparison?_respell (s : Spelling) (x : Binary) (succs : List Nat) :
    (x.respell s).comparison? (if x.IsEquality ∧ s.opposite then exchange succs else succs) =
      (x.comparison? succs).map (Comparison.respell s) := by
  rw [comparison?, ends?_respell, comparison?]
  cases hEnds : x.ends? succs with
  | none => rfl
  | some ends =>
      have hOperator := isEquality_of_ends? hEnds
      obtain ⟨location, result, operator, left, right⟩ := x
      obtain ⟨turned, opposite⟩ := s
      rw [respell, if_pos hOperator]
      cases turned <;> cases left <;> cases right <;> rfl

end Binary

namespace Analysis

/-- Two analyses make the same visits, report the same one by one up to a relation, and break off
alike. -/
structure Corresponds (R : Report → Report → Prop) (a b : Analysis) : Prop where
  visits : b.visits = a.visits
  reports : List.Forall₂ R a.reports b.reports
  crash : b.crash = a.crash

variable {R : Report → Report → Prop} {a b a' b' : Analysis}

theorem corresponds_self (h : ∀ r ∈ a.reports, R r r) : Corresponds R a a :=
  ⟨rfl, List.forall₂_same.mpr h, rfl⟩

theorem Corresponds.append (ha : Corresponds R a a') (hb : Corresponds R b b') :
    Corresponds R (a.append b) (a'.append b') := by
  have hCrash := ha.crash
  cases hCase : a.crash with
  | some k =>
      rw [hCase] at hCrash
      rw [append_of_crash (by rw [hCase]; rfl), append_of_crash (by rw [hCrash]; rfl)]
      exact ha
  | none =>
      rw [hCase] at hCrash
      rw [append_of_no_crash hCase, append_of_no_crash hCrash, ha.visits, hb.visits, hb.crash]
      exact ⟨rfl, List.rel_append ha.reports hb.reports, rfl⟩

theorem corresponds_concat {α : Type} {f g : α → Analysis} {xs : List α}
    (hEach : ∀ x ∈ xs, Corresponds R (f x) (g x)) :
    Corresponds R (concat (xs.map f)) (concat (xs.map g)) := by
  induction xs with
  | nil => exact ⟨rfl, .nil, rfl⟩
  | cons x xs ih =>
      exact (hEach x List.mem_cons_self).append
        (ih fun y hy => hEach y (List.mem_cons_of_mem x hy))

end Analysis

/-- An operation and its place: its block, and its number among the instructions there. -/
structure Operation where
  block : Nat
  number : Nat
  binary : Binary

namespace Function

variable (fn : Function)

def operations : List Operation :=
  (List.range fn.blocks.size).flatMap fun b =>
    (fn.instrs b).zipIdx.filterMap fun p => p.1.binary?.map (Operation.mk b p.2)

/-- The operation that the branch at the end of a block tests. -/
def test? (b : Nat) : Option Operation := do
  let condition ← fn.branchCondition? b
  (fn.operations.filter (·.binary.result = condition)).getLast?

variable (spelling : Nat → Nat → Spelling)

/-- The spelling that the test at the end of a block gets. -/
def testSpelling (b : Nat) : Spelling :=
  match fn.test? b with
  | some x => spelling x.block x.number
  | none => {}

/-- Whether the test at the end of a block gets the opposite operator. -/
def isExchanged (b : Nat) : Bool :=
  (fn.test? b).any fun x => x.binary.IsEquality ∧ (spelling x.block x.number).opposite

/-- Writes every test for equality as its place says, and exchanges the successors of each block
whose branch is on a test that gets the opposite operator. -/
def respell : Function :=
  { fn with
    blocks := fn.blocks.mapIdx fun b block =>
      { block with
        instrs := block.instrs.mapIdx fun n i => i.respell (spelling b n)
        succs := if fn.isExchanged spelling b then exchange block.succs else block.succs } }

section Places

theorem map_binary_operations : fn.operations.map Operation.binary = fn.binaries := by
  rw [binaries_eq_flatMap, operations, List.map_flatMap]
  congr 1
  funext b
  have hFirst : ∀ p : Instr × Nat, (p.1.binary?.map (Operation.mk b p.2)).map Operation.binary =
      p.1.binary? := by
    intro p
    cases p.1.binary? <;> rfl
  calc
    _ = (fn.instrs b).zipIdx.filterMap fun p => p.1.binary? := by
      simp only [List.map_filterMap, hFirst]
    _ = ((fn.instrs b).zipIdx.map Prod.fst).filterMap Instr.binary? := by
      rw [List.filterMap_map]
      rfl
    _ = _ := by rw [List.zipIdx_map_fst]

theorem binaryOf?_eq_map (v : Value) : fn.binaryOf? v =
    ((fn.operations.filter (·.binary.result = v)).getLast?).map Operation.binary := by
  rw [binaryOf?, ← map_binary_operations, List.filter_map, List.getLast?_map]
  rfl

theorem comparison?_eq (b : Nat) :
    fn.comparison? b = (fn.test? b).bind fun x => x.binary.comparison? (fn.succs b) := by
  rw [comparison?, test?]
  cases fn.branchCondition? b with
  | none => rfl
  | some condition =>
      simp only [Option.bind_eq_bind, Option.bind_some, binaryOf?_eq_map]
      cases (fn.operations.filter (·.binary.result = condition)).getLast? with
      | none =>
          rcases fn.succs b with _ | ⟨onTrue, _ | ⟨onFalse, _ | ⟨next, places⟩⟩⟩ <;> rfl
      | some x =>
          rcases fn.succs b with _ | ⟨onTrue, _ | ⟨onFalse, _ | ⟨next, places⟩⟩⟩
          case cons.cons.nil =>
            obtain ⟨block, number, location, result, operator, left, right⟩ := x
            by_cases hEqual : operator = "=="
            · simp [Binary.comparison?, Binary.ends?, hEqual]
            · by_cases hDiffer : operator = "!="
              · simp [Binary.comparison?, Binary.ends?, hDiffer]
              · simp [Binary.comparison?, Binary.ends?, hEqual, hDiffer]
          all_goals rfl

end Places

section Respell

variable {fn}

theorem size_respell : (fn.respell spelling).blocks.size = fn.blocks.size := by
  simp [respell]

theorem block?_respell (b : Nat) : (fn.respell spelling).block? b =
    if b < fn.blocks.size then
      (fn.block? b).map fun block =>
        { block with
          instrs := block.instrs.mapIdx fun n i => i.respell (spelling b n)
          succs := if fn.isExchanged spelling b then exchange block.succs else block.succs }
    else fn.block? b := by
  by_cases hLt : b < fn.blocks.size
  · simp [block?, respell, hLt]
  · simp [block?, respell, hLt]

theorem instrs_respell {b : Nat} (hLt : b < fn.blocks.size) :
    (fn.respell spelling).instrs b =
      (fn.instrs b).mapIdx fun n i => i.respell (spelling b n) := by
  rw [instrs, instrs, block?_respell, if_pos hLt]
  cases fn.block? b <;> rfl

theorem succs_respell {b : Nat} (hLt : b < fn.blocks.size) :
    (fn.respell spelling).succs b =
      if fn.isExchanged spelling b then exchange (fn.succs b) else fn.succs b := by
  rw [succs, succs, block?_respell, if_pos hLt]
  cases fn.block? b with
  | none => cases fn.isExchanged spelling b <;> rfl
  | some block => rfl

theorem succs_respell_perm (b : Nat) : ((fn.respell spelling).succs b).Perm (fn.succs b) := by
  by_cases hLt : b < fn.blocks.size
  · rw [succs_respell spelling hLt]
    split
    case isTrue => exact exchange_perm _
    case isFalse => exact List.Perm.refl _
  · rw [succs, succs, block?_respell, if_neg hLt]

theorem isWellFormed_respell (hWell : fn.IsWellFormed) : (fn.respell spelling).IsWellFormed := by
  constructor
  case index =>
    intro b hb
    rw [size_respell] at hb
    rw [← hWell.index b hb, indexAt, indexAt, block?_respell, if_pos hb]
    cases fn.block? b <;> rfl
  case inside =>
    intro b hb c hc
    rw [size_respell] at hb ⊢
    exact hWell.inside b hb c ((succs_respell_perm spelling b).mem_iff.mp hc)

theorem branchCondition?_respell {b : Nat} (hLt : b < fn.blocks.size) :
    (fn.respell spelling).branchCondition? b = fn.branchCondition? b := by
  rw [branchCondition?, branchCondition?, instrs_respell spelling hLt, List.getLast?_mapIdx]
  cases (fn.instrs b).getLast? with
  | none => rfl
  | some i =>
      obtain ⟨location, op⟩ := i
      cases op <;> rfl

/-- The operations stay in their places. -/
theorem operations_respell : (fn.respell spelling).operations = fn.operations.map fun x =>
    { x with binary := x.binary.respell (spelling x.block x.number) } := by
  rw [operations, operations, size_respell, List.map_flatMap]
  apply List.flatMap_congr
  intro b hb
  have hPlaces : ((fn.respell spelling).instrs b).zipIdx =
      (fn.instrs b).zipIdx.map fun p => (p.1.respell (spelling b p.2), p.2) := by
    rw [instrs_respell spelling (List.mem_range.mp hb)]
    apply List.ext_getElem
    · simp
    · intro n hLeft hRight
      simp
  rw [hPlaces, List.filterMap_map, List.map_filterMap]
  congr 1
  funext p
  rw [Function.comp_apply, Instr.binary?_respell, Option.map_map, Option.map_map]
  rfl

theorem test?_respell {b : Nat} (hLt : b < fn.blocks.size) :
    (fn.respell spelling).test? b = (fn.test? b).map fun x =>
      { x with binary := x.binary.respell (spelling x.block x.number) } := by
  rw [test?, test?, branchCondition?_respell spelling hLt, operations_respell]
  cases fn.branchCondition? b with
  | none => rfl
  | some condition =>
      simp only [Option.bind_eq_bind, Option.bind_some]
      rw [List.filter_map, List.getLast?_map]
      simp only [Function.comp_def, Binary.result_respell]

theorem comparison?_respell {b : Nat} (hLt : b < fn.blocks.size) :
    (fn.respell spelling).comparison? b =
      (fn.comparison? b).map (Comparison.respell (fn.testSpelling spelling b)) := by
  rw [comparison?_eq, comparison?_eq, test?_respell spelling hLt, succs_respell spelling hLt,
    testSpelling, isExchanged]
  cases fn.test? b with
  | none => rfl
  | some x =>
      simp only [Option.map_some, Option.bind_some, Option.any_some, decide_eq_true_eq]
      exact x.binary.comparison?_respell (spelling x.block x.number) (fn.succs b)

end Respell

/-- Another function has the same blocks, edges in another order perhaps, and the same comparisons
in the spellings that their blocks say. -/
structure IsRespelling (spelling : Nat → Spelling) (fn other : Function) : Prop where
  callee : other.callee = fn.callee
  size : other.blocks.size = fn.blocks.size
  succs : ∀ b, (other.succs b).Perm (fn.succs b)
  comparison : ∀ b < fn.blocks.size,
    other.comparison? b = (fn.comparison? b).map (Comparison.respell (spelling b))
  instrs : ∀ b < fn.blocks.size, ∃ s : Nat → Spelling,
    other.instrs b = (fn.instrs b).mapIdx fun n i => i.respell (s n)

theorem isRespelling_respell (fn : Function) (spelling : Nat → Nat → Spelling) :
    fn.IsRespelling (fn.testSpelling spelling) (fn.respell spelling) where
  callee := rfl
  size := size_respell spelling
  succs := succs_respell_perm spelling
  comparison _ hLt := comparison?_respell spelling hLt
  instrs b hLt := ⟨spelling b, instrs_respell spelling hLt⟩

theorem HasSameCode.comparison? {fn other : Function} (hSame : fn.HasSameCode other) (b : Nat) :
    other.comparison? b = fn.comparison? b := by
  simp only [Function.comparison?, hSame.branchCondition?, hSame.binaryOf?, hSame.succs]

/-- A report comes again: the one about a comparison in the spelling that its block says, with the
nilness of each side where the side now stands, and any other as it was. -/
def Restates (fn : Function) (spelling : Nat → Spelling) (r r' : Report) : Prop :=
  r'.topic = r.topic ∧
    match r.topic with
    | .test b => ∃ c x y, fn.comparison? b = some c ∧
        r.diagnostic = .condition c.location (c.adjective x y) x c.operator y fn.name ∧
        r'.diagnostic = .condition c.location ((spelling b).adjective (c.adjective x y))
          ((spelling b).left x y) ((spelling b).operator c.operator) ((spelling b).right x y)
          fn.name
    | _ => r'.diagnostic = r.diagnostic

section Restates

variable {fn : Function} {spelling : Nat → Spelling} {r r' : Report}

theorem restates_of_call {b : Nat} {i : Instr} (hTopic : r.topic = .call b i) :
    fn.Restates spelling r r := by
  rw [Restates, hTopic]
  exact ⟨rfl, rfl⟩

theorem Restates.eq_or_condition (h : fn.Restates spelling r r') :
    r'.diagnostic = r.diagnostic ∨ (r.diagnostic.category = Diagnostic.conditionCategory ∧
      r'.diagnostic.category = Diagnostic.conditionCategory) := by
  obtain ⟨-, h⟩ := h
  split at h
  case h_1 =>
    obtain ⟨c, x, y, -, hBefore, hAfter⟩ := h
    rw [hBefore, hAfter]
    exact Or.inr ⟨rfl, rfl⟩
  case h_2 => exact Or.inl h

theorem filter_argument_of_restates {rs rs' : List Report}
    (h : List.Forall₂ (fn.Restates spelling) rs rs') :
    (rs'.map Report.diagnostic).filter (·.category = Diagnostic.argumentCategory) =
      (rs.map Report.diagnostic).filter (·.category = Diagnostic.argumentCategory) := by
  induction h with
  | nil => rfl
  | cons hHead hTail ih =>
      rw [List.map_cons, List.map_cons, List.filter_cons, List.filter_cons, ih]
      rcases hHead.eq_or_condition with hSame | ⟨hBefore, hAfter⟩
      · rw [hSame]
      · rw [hBefore, hAfter]
        rfl

end Restates

/-- A walk is determined by the index of each block of the function and by what is below it. -/
theorem walkFrom_congr {fn other : Function} (hSize : other.blocks.size = fn.blocks.size)
    (hMark : ∀ b < fn.blocks.size, other.markOf b = fn.markOf b)
    (hBelow : ∀ v, v.block < fn.blocks.size → other.below v = fn.below v)
    (hInner : ∀ v, v.block < fn.blocks.size → ∀ w ∈ fn.below v, w.block < fn.blocks.size)
    {ahead : List Visit} {m : Marks} (hAhead : ∀ v ∈ ahead, v.block < fn.blocks.size) :
    other.walkFrom ahead m = fn.walkFrom ahead m := by
  induction ahead, m using walkFrom.induct fn with
  | case1 m => rw [walkFrom, walkFrom]
  | case2 v ahead m hOut =>
      have hv := hAhead v List.mem_cons_self
      rw [walkFrom, walkFrom, hMark v.block hv, hSize, if_pos hOut, if_pos hOut]
  | case3 v ahead m hIn hFree ih =>
      have hv := hAhead v List.mem_cons_self
      have hNext : ∀ w ∈ fn.below v ++ ahead, w.block < fn.blocks.size := by
        intro w hw
        rcases List.mem_append.mp hw with hw | hw
        · exact hInner v hv w hw
        · exact hAhead w (List.mem_cons_of_mem v hw)
      rw [walkFrom, walkFrom, hMark v.block hv, hSize, if_neg hIn, if_neg hIn, dif_pos hFree,
        dif_pos hFree, hBelow v hv, ih hNext]
  | case4 v ahead m hIn hFree ih =>
      have hv := hAhead v List.mem_cons_self
      rw [walkFrom, walkFrom, hMark v.block hv, hSize, if_neg hIn, if_neg hIn, dif_neg hFree,
        dif_neg hFree]
      exact ih fun w hw => hAhead w (List.mem_cons_of_mem v hw)

namespace IsRespelling

variable {spelling : Nat → Spelling} {fn other : Function}
  (hRespelled : fn.IsRespelling spelling other)
include hRespelled

/-- Linking changes nothing that a spelling does. -/
theorem link : fn.link.1.IsRespelling spelling other.link.1 := by
  have hSame := fn.hasSameCode_link
  have hSameOther := other.hasSameCode_link
  constructor
  case callee => rw [hSameOther.callee, hRespelled.callee, hSame.callee]
  case size => rw [hSameOther.size, hRespelled.size, hSame.size]
  case succs =>
    intro b
    rw [hSameOther.succs, hSame.succs]
    exact hRespelled.succs b
  case comparison =>
    intro b hLt
    rw [hSame.size] at hLt
    rw [hSameOther.comparison?, hSame.comparison?, hRespelled.comparison b hLt]
  case instrs =>
    intro b hLt
    rw [hSame.size] at hLt
    rw [hSameOther.instrs, hSame.instrs]
    exact hRespelled.instrs b hLt

theorem name : other.name = fn.name := by rw [Function.name, Function.name, hRespelled.callee]

theorem hasBody : other.hasBody = fn.hasBody := by
  rw [Function.hasBody, Function.hasBody, hRespelled.size]

theorem edge_eq : other.Edge = fn.Edge := by
  funext b c
  exact propext (hRespelled.succs b).mem_iff

theorem reaches (b : Nat) : other.Reaches b ↔ fn.Reaches b := by
  rw [Reaches, Reaches, hRespelled.hasBody, hRespelled.edge_eq]

theorem lesson {v : Visit} (hLt : v.block < fn.blocks.size) :
    other.lesson v = (fn.lesson v).respell (spelling v.block) := by
  rw [Function.lesson, Function.lesson, hRespelled.comparison _ hLt]
  cases fn.comparison? v.block with
  | none => rfl
  | some c => exact c.lesson_respell (spelling v.block) v.facts

section Linked

variable (hLinked : fn.IsLinked) (hOther : other.IsLinked)
include hLinked hOther

/-- Dominators are those of the same paths, whatever the order in which they were found. -/
theorem dominees_eq {b : Nat} (hLt : b < fn.blocks.size) : other.dominees b = fn.dominees b := by
  obtain ⟨tree, hTree⟩ := hLinked.exists_tree
  obtain ⟨treeOther, hTreeOther⟩ := hOther.exists_tree
  have hLtOther : b < other.blocks.size := by rw [hRespelled.size]; exact hLt
  have hIncreasing := hTree.dominees_increasing b hLt
  have hIncreasingOther := hTreeOther.dominees_increasing b hLtOther
  have hPerm : (other.dominees b).Perm (fn.dominees b) := by
    rw [List.perm_ext_iff_of_nodup (hIncreasingOther.imp Nat.ne_of_lt)
      (hIncreasing.imp Nat.ne_of_lt)]
    intro c
    rw [hOther.mem_dominees_iff hLtOther, hLinked.mem_dominees_iff hLt, hRespelled.reaches,
      hRespelled.edge_eq]
  exact hPerm.eq_of_pairwise (fun _ _ _ _ hLess hGreater => absurd hLess (Nat.lt_asymm hGreater))
    hIncreasingOther hIncreasing

theorem preds_eq {b : Nat} (hLt : b < fn.blocks.size) : other.preds b = fn.preds b := by
  obtain ⟨tree, hTree⟩ := hLinked.exists_tree
  obtain ⟨treeOther, hTreeOther⟩ := hOther.exists_tree
  have hLtOther : b < other.blocks.size := by rw [hRespelled.size]; exact hLt
  have hPerm : (other.preds b).Perm (fn.preds b) := by
    rw [List.perm_iff_count]
    intro a
    by_cases ha : fn.Reaches a
    · rw [hTreeOther.count_preds b hLtOther a ((hRespelled.reaches a).mpr ha),
        hTree.count_preds b hLt a ha, (hRespelled.succs a).count_eq]
    · rw [List.count_eq_zero.mpr fun hMem => ha (hTree.reaches_of_mem_preds b hLt a hMem),
        List.count_eq_zero.mpr fun hMem => ha ((hRespelled.reaches a).mp
          (hTreeOther.reaches_of_mem_preds b hLtOther a hMem))]
  exact hPerm.eq_of_pairwise (fun _ _ _ _ hLe hGe => Nat.le_antisymm hLe hGe)
    (hTreeOther.preds_increasing b hLtOther) (hTree.preds_increasing b hLt)

theorem hasOneEdge {b : Nat} (hLt : b < fn.blocks.size) :
    other.hasOneEdge b = fn.hasOneEdge b := by
  rw [Function.hasOneEdge, Function.hasOneEdge, hRespelled.preds_eq hLinked hOther hLt]

theorem visitOf?_eq {v : Visit} (hLt : v.block < fn.blocks.size) {d : Nat}
    (hd : d < fn.blocks.size) : other.visitOf? v d = fn.visitOf? v d := by
  rw [visitOf?, visitOf?, hRespelled.lesson hLt]
  cases fn.lesson v with
  | nothing => rfl
  | learned c value =>
      simp only [Lesson.respell, factsBelow, hRespelled.hasOneEdge hLinked hOther hd]
      rfl
  | fixed c x y =>
      simp only [Lesson.respell, Comparison.deadEnd_respell,
        hRespelled.hasOneEdge hLinked hOther hd]

theorem below_eq {v : Visit} (hLt : v.block < fn.blocks.size) : other.below v = fn.below v := by
  rw [below_eq_filterMap, below_eq_filterMap, hRespelled.dominees_eq hLinked hOther hLt]
  apply List.filterMap_congr
  intro d hd
  have hReach := ((hLinked.mem_dominees_iff hLt).mp hd).1
  exact hRespelled.visitOf?_eq hLinked hOther hLt (hLinked.isWellFormed.lt_size hReach)

/-- The same visits are made with the same facts in the same order. -/
theorem walk_eq : other.walk = fn.walk := by
  rw [walk, walk, hRespelled.hasBody, hRespelled.size]
  split
  case isTrue hBody =>
    apply walkFrom_congr hRespelled.size
    · intro b hb
      rw [hLinked.isWellFormed.markOf_eq hb, hOther.isWellFormed.markOf_eq (hRespelled.size ▸ hb)]
    · exact fun v hv => hRespelled.below_eq hLinked hOther hv
    · exact fun v hv w hw => lt_size_of_mem_below hLinked hv hw
    · intro v hv
      rw [List.mem_singleton.mp hv]
      simpa [Function.hasBody] using hBody
  case isFalse => rfl

end Linked

/-- A spelling leaves all calls as they are. -/
theorem map_callAnalysis (settings : Settings) {v : Visit} (hLt : v.block < fn.blocks.size) :
    (other.instrs v.block).map (other.callAnalysis settings v) =
      (fn.instrs v.block).map (fn.callAnalysis settings v) := by
  -- what is respelled is no call and adds nothing, in whatever spelling
  have hCall : ∀ (s : Spelling) (i : Instr),
      other.callAnalysis settings v (i.respell s) = fn.callAnalysis settings v i := by
    intro s i
    obtain ⟨location, op⟩ := i
    cases op with
    | call => simp only [callAnalysis, callEvents, Instr.respell, Instr.binary?, hRespelled.name]
    | _ => rfl
  obtain ⟨s, hInstrs⟩ := hRespelled.instrs v.block hLt
  rw [hInstrs]
  apply List.ext_getElem
  · simp
  · intro n hLeft hRight
    simp [hCall]

theorem corresponds_lessonAnalysis (settings : Settings) {v : Visit}
    (hLt : v.block < fn.blocks.size) :
    Analysis.Corresponds (fn.Restates spelling) (fn.lessonAnalysis settings v)
      (other.lessonAnalysis settings v) := by
  have hLesson := hRespelled.lesson hLt
  rw [lessonAnalysis, lessonAnalysis, lessonEvents, lessonEvents, hLesson, hRespelled.name]
  cases hCase : fn.lesson v with
  | nothing => exact ⟨rfl, .nil, rfl⟩
  | learned c value => exact ⟨rfl, .nil, rfl⟩
  | fixed c x y =>
      obtain ⟨hComparison, -⟩ := lesson_eq_fixed hCase
      have hLocation : (c.respell (spelling v.block)).location = c.location := rfl
      have hAdjective := Comparison.adjective_respell (spelling v.block)
        (operator_of_comparison hComparison) x y
      simp only [Lesson.respell, hLocation, hAdjective]
      by_cases hReported : (settings.reportConditions && c.location.isKnown) = true
      · rw [if_pos hReported, if_pos hReported]
        exact ⟨rfl, .cons ⟨rfl, c, x, y, hComparison, rfl, rfl⟩ .nil, rfl⟩
      · rw [if_neg hReported, if_neg hReported]
        exact ⟨rfl, .nil, rfl⟩

theorem corresponds_visitAnalysis (settings : Settings) {v : Visit}
    (hLt : v.block < fn.blocks.size) :
    Analysis.Corresponds (fn.Restates spelling) (fn.visitAnalysis settings v)
      (other.visitAnalysis settings v) := by
  rw [visitAnalysis, visitAnalysis, hRespelled.map_callAnalysis settings hLt]
  refine .append ⟨rfl, .nil, rfl⟩ (.append (Analysis.corresponds_concat fun i _ => ?_)
    (hRespelled.corresponds_lessonAnalysis settings hLt))
  exact Analysis.corresponds_self fun r hr => restates_of_call (category_of_mem_callAnalysis hr).1

/-- Every report is restated in its place, and the analysis breaks off where it did. -/
theorem corresponds_analyse (hLinked : fn.IsLinked) (hOther : other.IsLinked)
    (settings : Settings) :
    Analysis.Corresponds (fn.Restates spelling) (fn.analyse settings [])
      (other.analyse settings []) := by
  rw [analyse_eq, analyse_eq, hRespelled.walk_eq hLinked hOther, trailAnalysis, trailAnalysis]
  refine .append (Analysis.corresponds_concat fun v hv => ?_) ⟨rfl, .nil, rfl⟩
  exact hRespelled.corresponds_visitAnalysis settings (lt_size_of_mem_visits hLinked hv)

end IsRespelling

/-- The spelling of a comparison does not matter. Any tests for equality are written with their
sides exchanged or with the opposite operator, where the successors of the blocks that branch on
them are exchanged too. After linking, the same blocks are visited with the same facts in the same
order. Every report comes again in its place: those about arguments as they were, and those about
conditions in the new spelling. -/
theorem comparisons_may_be_respelled (fn : Function) (hWell : fn.IsWellFormed)
    (spelling : Nat → Nat → Spelling) (settings : Settings) :
    ∃ linked respelled tree tree', fn.link = (linked, .ok tree) ∧
      (fn.respell spelling).link = (respelled, .ok tree') ∧
      respelled.walk = linked.walk ∧
      (linked.analyse settings []).Tells (linked.events settings) ∧
      (respelled.analyse settings []).Tells (respelled.events settings) ∧
      Analysis.Corresponds (linked.Restates (fn.testSpelling spelling))
        (linked.analyse settings []) (respelled.analyse settings []) ∧
      (respelled.findings settings).filter (·.category = Diagnostic.argumentCategory) =
        (linked.findings settings).filter (·.category = Diagnostic.argumentCategory) := by
  have hWell' := isWellFormed_respell spelling hWell
  have hRespelled := (fn.isRespelling_respell spelling).link
  have hWalk := hRespelled.walk_eq hWell.isLinked_link hWell'.isLinked_link
  have hReports :=
    hRespelled.corresponds_analyse hWell.isLinked_link hWell'.isLinked_link settings
  rw [link_eq hWell, link_eq hWell'] at hWalk hReports
  have hTells := tells_analyse (fn.withPreds.withTree fn.withPreds.graph.domTree) settings
  have hTells' := tells_analyse ((fn.respell spelling).withPreds.withTree
    (fn.respell spelling).withPreds.graph.domTree) settings
  refine ⟨_, _, _, _, link_eq hWell, link_eq hWell', hWalk, hTells, hTells', hReports, ?_⟩
  rw [findings, findings, ← hTells.1, ← hTells'.1]
  exact filter_argument_of_restates hReports.reports

/-- The first test gets the opposite operator, and the second one its sides exchanged too. -/
def guardedSpelling (b _ : Nat) : Spelling := { turned := b = 3, opposite := true }

theorem comparisons_may_be_respelled_guardedLoop :
    guardedLoop.IsWellFormed ∧ (guardedLoop.respell guardedSpelling).succs 1 = [3, 2] ∧
      (guardedLoop.respell guardedSpelling).succs 3 = [4, 1] ∧
      ∃ linked respelled tree tree', guardedLoop.link = (linked, .ok tree) ∧
        (guardedLoop.respell guardedSpelling).link = (respelled, .ok tree') ∧
        respelled.walk = linked.walk ∧
        Analysis.Corresponds (linked.Restates (guardedLoop.testSpelling guardedSpelling))
          (linked.analyse (.ofTargets [guardedTarget] true) [])
          (respelled.analyse (.ofTargets [guardedTarget] true) []) := by
  have hWell : guardedLoop.IsWellFormed := ⟨by decide, by decide⟩
  obtain ⟨linked, respelled, tree, tree', hLink, hLink', hWalk, -, -, hReports, -⟩ :=
    comparisons_may_be_respelled guardedLoop hWell guardedSpelling (.ofTargets [guardedTarget] true)
  exact ⟨hWell, by decide, by decide, linked, respelled, tree, tree', hLink, hLink', hWalk,
    hReports⟩

example : ((guardedLoop.respell guardedSpelling).link.1.findings
    (.ofTargets [guardedTarget] true)).map (·.message) =
      ["nil is passed to use (argument 0)", "impossible condition: non-nil == nil"] := by
  cbv

end Function

end NilGuard
