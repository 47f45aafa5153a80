import NilGuard.Proofs.Growth
import NilGuard.Proofs.Renaming
/-! Well-formed expressions and statements: their positions give places, their words are known
and they take as many arguments as they are given. The evaluation of one refuses nothing of its
own; what can still go wrong is the resolution of a name. -/
namespace NilGuard

def Instr.isBranch (i : Instr) : Bool :=
  match i.op with
  | .branch _ => true
  | _ => false

namespace Dump

/-! ### Expressions -/

/-- A position at the end of a list gives a place. -/
def hasPlace (items : List Form) : Bool :=
  (ownPosition? items).all fun last => (location? last).isSome

namespace Shape

/-- Whether an expression takes the arguments that it is given. -/
def takes : Shape → List Form → Bool
  | .const, _ | .phi, _ | .simple (.leaf _), _ => true
  | .simple (.converted _), args | .fieldAddr, args | .callDynamic, args => 1 ≤ args.length
  | .global, args | .funcRef, args => args.length == 2
  | .closure, args | .call, args => 2 ≤ args.length
  | .single place, args => place ≤ args.length
  | .binop, args => args.length == 3
  | .callMethod, args => 4 ≤ args.length
  | .arrayPtr, args => args.length == 2 && ((args[1]?).bind Form.int?).any (0 ≤ ·)

/-- Whether an expression has no instruction of its own, nor any of an operand. -/
def isSilent : Shape → Bool
  | .const | .global | .funcRef => true
  | _ => false

end Shape

def isExpressionIn (items : List Form) (below : List Bool) : Bool :=
  match (Form.list items).head?.bind Shape.ofHead? with
  | none => false
  | some shape =>
    hasPlace items && shape.takes ((withoutPosition items).drop 1) &&
      (shape.operands (argsOf items below)).all id

/-- A form is well formed where a value is needed. The operands of phis are looked at as well. -/
def isExpression : Form → Bool := Form.fold (fun _ => true) isExpressionIn

def inlineNamesIn (items : List Form) (below : List (List String)) : List String :=
  match (Form.list items).head?.bind Shape.ofHead? with
  | none => []
  | some shape => (shape.inline (argsOf items below)).flatten

/-- The names that stand in an expression where values are needed, but not inside a phi. -/
def inlineNames : Form → List String :=
  Form.fold (fun x => match x with | .sym s => [s] | _ => []) inlineNamesIn

/-- Whether an expression has no instructions. -/
def isSilent (x : Form) : Bool :=
  match x with
  | .list _ => (x.head?.bind Shape.ofHead?).any Shape.isSilent
  | _ => true

/-- Whether the last of some instructions is a branch, if there are any. -/
def lastIsBranch? (is : List Instr) : Option Bool := is.getLast?.map Instr.isBranch

/-- Whether the last instruction of an expression is a branch, if it has any. -/
def expressionBranches? (x : Form) : Option Bool := if isSilent x then none else some false

section Expressions

variable {cx : Context} {form : Form} {head name : String} {shape : Shape} {items : List Form}

theorem splitPosition_of_hasPlace (h : hasPlace items = true) :
    splitPosition items = pure (withoutPosition items, locationOf items) := by
  unfold hasPlace at h
  unfold splitPosition withoutPosition locationOf
  unfold ownPosition? at h ⊢
  cases hLast : items.getLast? with
  | none => rfl
  | some last =>
      rw [hLast] at h
      simp only [Option.filter_some, decide_eq_true_eq] at h ⊢
      split
      case isTrue hPosition =>
        rw [if_pos hPosition] at h
        obtain ⟨place, hPlace⟩ := Option.isSome_iff_exists.mp h
        simp [hPlace]
      case isFalse => rfl

theorem expect_eq_pure {atLeast : Bool} {count : Nat}
    (h : count = form.items.length - 1 ∨ atLeast = true ∧ count ≤ form.items.length - 1) :
    expect cx form head atLeast count = pure () := by
  unfold expect
  refine if_neg ?_
  rcases h with rfl | ⟨rfl, hLe⟩
  · simp
  · simpa using hLe

theorem Shape.check_eq_pure (h : shape.takes (form.items.drop 1) = true) :
    shape.check cx form head = pure () := by
  have hLength : (form.items.drop 1).length = form.items.length - 1 := List.length_drop
  cases shape with
  | const | phi | simple => rfl
  | arrayPtr =>
      simp only [takes, Bool.and_eq_true, beq_iff_eq, hLength] at h
      obtain ⟨hCount, hInt⟩ := h
      rw [check, expect_eq_pure (.inl hCount.symm)]
      cases hNumber : ((form.items.drop 1)[1]?).bind Form.int? with
      | none =>
          rw [hNumber] at hInt
          cases hInt
      | some n =>
          rw [hNumber] at hInt
          have hSign : ¬ n < 0 := Int.not_lt.mpr (of_decide_eq_true hInt)
          simp only [pure_bind, if_neg hSign]
  | global | funcRef | binop =>
      simp only [takes, beq_iff_eq, hLength] at h
      exact expect_eq_pure (.inl h.symm)
  | fieldAddr | callDynamic | closure | call | single | callMethod =>
      simp only [takes, decide_eq_true_eq, hLength] at h
      exact expect_eq_pure (.inr ⟨rfl, h⟩)

theorem Shape.inline_of_isSilent {α : Type} (h : shape.isSilent = true) (xs : List α) :
    shape.inline xs = [] := by
  cases shape with
  | const | global | funcRef => rfl
  | _ => cases h

theorem exists_shape_of_isExpression (h : isExpression (.list items) = true) :
    ∃ head shape, (Form.list items).head? = some head ∧ Shape.ofHead? head = some shape ∧
      hasPlace items = true ∧ shape.takes ((withoutPosition items).drop 1) = true ∧
      ∀ x ∈ shape.operands ((withoutPosition items).drop 1), isExpression x = true := by
  rw [isExpression, Form.fold_list, isExpressionIn] at h
  cases hShape : (Form.list items).head?.bind Shape.ofHead? with
  | none =>
      rw [hShape] at h
      cases h
  | some shape =>
      rw [hShape] at h
      simp only [argsOf_map, Shape.map_operands, List.all_map, Bool.and_eq_true,
        List.all_eq_true] at h
      obtain ⟨head, hHead, hShape⟩ := Option.bind_eq_some_iff.mp hShape
      exact ⟨head, shape, hHead, hShape, h.1.1, h.1.2, h.2⟩

/-- A list with a known word and a good position is evaluated by its shape. -/
theorem evalList_eq_evalAs (operand : Form → Operand) (location : Location)
    (hHead : (Form.list items).head? = some head) (hShape : Shape.ofHead? head = some shape)
    (hPlace : hasPlace items = true) :
    evalList cx name location items (items.map operand) =
      evalAs cx operand head shape name location items := by
  have hArgs := argsOf_map items operand
  unfold evalList
  simp only [hHead, hShape, splitPosition_of_hasPlace hPlace, pure_bind]
  rw [evalShape_eq, ← argsOf, hArgs, Shape.map_inline]
  rfl

theorem inlineNames_list (hHead : (Form.list items).head? = some head)
    (hShape : Shape.ofHead? head = some shape) :
    inlineNames (.list items) =
      (shape.inline ((withoutPosition items).drop 1)).flatMap inlineNames := by
  rw [inlineNames, Form.fold_list, inlineNamesIn, hHead, Option.bind_some, hShape]
  simp only [argsOf_map, Shape.map_inline]
  rfl

theorem inlineNames_subset_operandNames (x : Form) : inlineNames x ⊆ operandNames x := by
  induction x using Form.induct with
  | atom x hAtom =>
      cases x with
      | list items => exact absurd rfl (hAtom items)
      | _ => exact fun _ h => h
  | list items ih =>
      intro name hName
      cases hShape : (Form.list items).head?.bind Shape.ofHead? with
      | none =>
          rw [inlineNames, Form.fold_list, inlineNamesIn, hShape] at hName
          cases hName
      | some shape =>
          obtain ⟨head, hHead, hShape⟩ := Option.bind_eq_some_iff.mp hShape
          rw [inlineNames_list hHead hShape] at hName
          obtain ⟨x, hx, hName⟩ := List.mem_flatMap.mp hName
          exact operandNames_of_mem hHead hShape (Shape.inline_subset_operands hx)
            (ih x (mem_of_mem_inline hx) hName)

theorem lastIsBranch?_append (is js : List Instr) :
    lastIsBranch? (is ++ js) = (lastIsBranch? js).or (lastIsBranch? is) := by
  rw [lastIsBranch?, List.getLast?_append, lastIsBranch?, lastIsBranch?]
  cases js.getLast? <;> rfl

theorem expressionBranches?_list (hHead : (Form.list items).head? = some head)
    (hShape : Shape.ofHead? head = some shape) :
    expressionBranches? (.list items) = if shape.isSilent then none else some false := by
  rw [expressionBranches?, isSilent, hHead, Option.bind_some, hShape]
  rfl

end Expressions

/-! ### Statements -/

/-- A statement is well formed: a let has a name and an expression, another statement has a known
word and takes the arguments that it is given, and what stands where values are needed is well
formed. -/
def isStatement (stmt : Form) : Bool :=
  hasPlace stmt.items && (partsOf stmt).all isExpression &&
    match stmt.head? with
    | none => false
    | some head =>
      if head = "let" then
        ((stmt.items[1]?).bind Form.word?).isSome && (letExpression? stmt).isSome
      else
        match Ending.ofHead? head with
        | some ending => ending.takes ((withoutPosition stmt.items).drop 1).length
        | none => (Shape.ofHead? head).isSome

/-- Whether the last instruction of a statement is a branch, if it has any. -/
def statementBranches? (stmt : Form) : Option Bool :=
  match stmt.head?.bind Ending.ofHead? with
  | some ending => some (ending == .branch)
  | none => (partsOf stmt).head?.bind expressionBranches?

section Statements

variable {cx : Context} {stmt : Form}

theorem Ending.isBranch_op (ending : Ending) (location : Location) (values : List Value) :
    Instr.isBranch { location, op := ending.op values } = (ending == .branch) := by
  cases ending with
  | store =>
      rcases values with _ | ⟨address, _ | ⟨value, rest⟩⟩
      all_goals rfl
  | _ => rfl

theorem isExpression_of_mem_partsOf (h : isStatement stmt = true) {x : Form}
    (hx : x ∈ partsOf stmt) : isExpression x = true := by
  simp only [isStatement, Bool.and_eq_true, List.all_eq_true] at h
  exact h.1.2 x hx

theorem hasPlace_of_isStatement (h : isStatement stmt = true) : hasPlace stmt.items = true := by
  simp only [isStatement, Bool.and_eq_true] at h
  exact h.1.1

/-- A well-formed let has a word for its name, and something after it. -/
theorem let_of_isStatement (h : isStatement stmt = true) (hLet : stmt.head? = some "let") :
    (∃ first nameForm third rest, stmt.items = first :: nameForm :: third :: rest ∧
      nameForm.word? = some (letName stmt)) ∧ ∃ x, letExpression? stmt = some x := by
  simp only [isStatement, hLet, Bool.and_eq_true, if_pos] at h
  obtain ⟨-, hWord, hExpression⟩ := h
  obtain ⟨x, hx⟩ := Option.isSome_iff_exists.mp hExpression
  have hThird : ∃ third, stmt.items[2]? = some third :=
    ⟨x, getElem?_of_withoutPosition hx⟩
  refine ⟨?_, x, hx⟩
  rcases hItems : stmt.items with _ | ⟨first, _ | ⟨nameForm, _ | ⟨third, rest⟩⟩⟩
  case cons.cons.cons =>
    rw [hItems] at hWord
    obtain ⟨name, hName⟩ := Option.isSome_iff_exists.mp hWord
    have hSame : letName stmt = name := by
      rw [letName, hItems]
      cases nameForm with
      | sym s | str s => exact Option.some.inj hName
      | int | real | list => cases hName
    exact ⟨first, nameForm, third, rest, rfl, hSame ▸ hName⟩
  all_goals
    obtain ⟨third, hThird⟩ := hThird
    rw [hItems] at hThird
    cases hThird

/-- All that can become of a well-formed statement. -/
theorem evalStatement_of_isStatement (h : isStatement stmt = true) :
    (stmt.head? = some "let" ∧ evalStatement cx stmt = evalLetStatement cx stmt) ∨
    (∃ head ending, stmt.head? = some head ∧ Ending.ofHead? head = some ending ∧
      evalStatement cx stmt = evalEnding cx ending stmt) ∨
    ∃ head shape, stmt.head? = some head ∧ Shape.ofHead? head = some shape ∧
      evalStatement cx stmt = Prod.snd <$>
        evalList cx "" (locationOf stmt.items) (withoutPosition stmt.items)
          ((withoutPosition stmt.items).map (evalOperand cx cx.lookup)) := by
  have hSplit := splitPosition_of_hasPlace (hasPlace_of_isStatement h)
  simp only [isStatement, Bool.and_eq_true] at h
  replace h := h.2
  cases stmt with
  | int | real | sym | str => cases h
  | list all =>
      rw [Form.items] at hSplit
      unfold evalStatement
      simp only
      split
      case isTrue hLet => exact .inl ⟨hLet, rfl⟩
      case isFalse hLet =>
        simp only [hSplit, pure_bind, evalOperands_eq_map, ← List.map_drop]
        split
        case h_1 hHead =>
          rw [hHead] at h
          have hCount : ((withoutPosition all).drop 1).length = 1 := eq_of_beq h
          obtain ⟨x, hArgs⟩ := List.length_eq_one_iff.mp hCount
          rw [hArgs]
          exact .inr (.inl ⟨"if", .branch, hHead, rfl,
            (evalEnding_branch cx (.list all) hArgs).symm⟩)
        case h_2 hHead => exact .inr (.inl ⟨"jump", .jump, hHead, rfl, rfl⟩)
        case h_3 hHead => exact .inr (.inl ⟨"return", .ret, hHead, rfl, rfl⟩)
        case h_4 hHead =>
          rw [← List.map_take]
          exact .inr (.inl ⟨"panic", .panic, hHead, rfl, rfl⟩)
        case h_5 hHead =>
          rw [hHead] at h
          have hCount : ((withoutPosition all).drop 1).length = 2 := eq_of_beq h
          obtain ⟨x, y, hArgs⟩ := List.length_eq_two.mp hCount
          rw [hArgs]
          exact .inr (.inl ⟨"store", .store, hHead, rfl,
            (evalEnding_store cx (.list all) hArgs).symm⟩)
        case h_6 head hIf hJump hRet hPanic hStore hHead =>
          have hKnown : (Shape.ofHead? head).isSome = true := by
            have hWord : head ≠ "let" := fun hEq => hLet (hEq ▸ hHead)
            have hEnding : Ending.ofHead? head = none := by
              unfold Ending.ofHead?
              split <;> simp_all
            simpa only [hHead, if_neg hWord, hEnding] using h
          obtain ⟨shape, hShape⟩ := Option.isSome_iff_exists.mp hKnown
          simp only [hShape]
          exact .inr (.inr ⟨head, shape, hHead, hShape, rfl⟩)
        case h_7 hHead =>
          rw [hHead] at h
          cases h

end Statements

end Dump

end NilGuard
