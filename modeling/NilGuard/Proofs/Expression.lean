import NilGuard.Proofs.Evaluation
/-! The evaluation of an expression in three parts: its arity is checked, its operands are
evaluated, and its own value is made. -/
namespace NilGuard.Dump

theorem bind_eq_ok {σ α β : Type} {x : EStateM LoadError σ α} {f : α → EStateM LoadError σ β}
    {s u : σ} {b : β} :
    (x >>= f) s = .ok b u ↔ ∃ a t, x s = .ok a t ∧ f a t = .ok b u := by
  change EStateM.bind x f s = .ok b u ↔ _
  unfold EStateM.bind
  cases x s with
  | ok a t =>
      constructor
      · exact fun h => ⟨a, t, rfl, h⟩
      · rintro ⟨_, _, ⟨⟩, h⟩
        exact h
  | error e t => simp

theorem map_eq_ok {σ α β : Type} {x : EStateM LoadError σ α} {f : α → β} {s t : σ} {b : β} :
    (f <$> x) s = .ok b t ↔ ∃ a, x s = .ok a t ∧ f a = b := by
  change EStateM.map f x s = .ok b t ↔ _
  unfold EStateM.map
  cases x s with
  | ok a t => simp [and_comm, and_assoc]
  | error e t => simp

/-- The position at the end of a list that has something before it. -/
def ownPosition? (items : List Form) : Option Form :=
  items.getLast?.filter fun last => 1 < items.length ∧ last.head? = some "pos"

def withoutPosition (items : List Form) : List Form :=
  if (ownPosition? items).isSome then items.dropLast else items

def locationOf (items : List Form) : Location :=
  ((ownPosition? items).bind location?).getD {}

theorem splitPosition_eq (items : List Form) :
    splitPosition items = pure (withoutPosition items, locationOf items) ∨
      ∃ last, splitPosition items = throw (.refused none .badPosition (some last)) := by
  unfold splitPosition withoutPosition locationOf ownPosition?
  cases items.getLast? with
  | none => exact .inl rfl
  | some last =>
      simp only [Option.filter_some, decide_eq_true_eq]
      split
      case isTrue =>
        cases hLocation : location? last with
        | none => exact .inr ⟨last, rfl⟩
        | some l => exact .inl (by simp [hLocation])
      case isFalse => exact .inl rfl

namespace Shape

variable {α : Type}

/-- The arguments that are operands and are evaluated where they stand. -/
def inline : Shape → List α → List α
  | .const, _ | .global, _ | .funcRef, _ | .phi, _ => []
  | .simple _, xs | .callDynamic, xs => xs
  | .fieldAddr, xs | .arrayPtr, xs => xs.take 1
  | .closure, xs | .call, xs => xs.drop 2
  | .single place, xs => (xs.drop (place - 1)).take 1
  | .binop, xs => (xs.drop 1).take 2
  | .callMethod, xs => xs.drop 3

/-- The arguments that are operands. Those of a phi are evaluated last of all. -/
def operands : Shape → List α → List α
  | .phi, xs => xs
  | shape, xs => shape.inline xs

/-- Refuses a form with the wrong arguments. -/
def check (cx : Context) (form : Form) (head : String) : Shape → BodyM Unit
  | .const | .simple _ | .phi => pure ()
  | .global | .funcRef => expect cx form head false 2
  | .fieldAddr | .callDynamic => expect cx form head true 1
  | .closure | .call => expect cx form head true 2
  | .single place => expect cx form head true place
  | .binop => expect cx form head false 3
  | .callMethod => expect cx form head true 4
  | .arrayPtr => do
    expect cx form head false 2
    match ((form.items.drop 1)[1]?).bind Form.int? with
    | some length => if length < 0 then cx.refuse .badArrayLength (some form) else pure ()
    | none => cx.refuse .badArrayLength (some form)

/-- The text of an argument. -/
def argText (form : Form) (i : Nat) : String := (((form.items.drop 1)[i]?).map Form.text).getD ""

/-- Makes the value of an expression from those of its operands, and its own instruction if it
has one. -/
def make (cx : Context) (form : Form) (head name : String) (location : Location) (shape : Shape)
    (values : List Value) : BodyM Computed :=
  match shape with
  | .const =>
    match form.items.drop 1 with
    | [] => return (← freshNil name, [])
    | x :: _ =>
      if x.isNil then return (← freshNil name, [])
      else return (← freshConstant (if name = "" then x.text else name) x.text, [])
  | .global => return (← globalValue (argText form 0) (argText form 1), [])
  | .funcRef => do
    let callee : Callee := { package := argText form 0, name := argText form 1 }
    return (← freshLeaf (if name = "" then callee.text else name) .funcRef, [])
  | .simple kind => define cx form head name 0 location kind (values, [])
  | .fieldAddr => define cx form head name 0 location (.leaf .fieldAddr) (values, [])
  | .arrayPtr =>
    define cx form head name ((((form.items.drop 1)[1]?).bind Form.int?).getD 0) location
      (.converted .sliceToArrayPtr) (values, [])
  | .closure => define cx form head name 0 location (.leaf .makeClosure) (values, [])
  | .single _ => define cx form head name 0 location (.leaf .other) (values, [])
  | .phi => do
    let value ← freshLeaf name .other
    modify fun body =>
      { body with waiting := body.waiting ++ [⟨value, form.items.drop 1, form⟩] }
    return (value, [{ location, op := .define value [] }])
  | .binop => do
    let value ← freshLeaf name .other
    return (value, [{ location, op := .binary value (argText form 0) (values[0]?) (values[1]?) }])
  | .call =>
    Dump.call name location (some { package := argText form 0, name := argText form 1 })
      (values, [])
  | .callMethod =>
    Dump.call name location
      (some { package := argText form 0, name := argText form 2,
              receiver := some (argText form 1) }) (values, [])
  | .callDynamic => Dump.call name location none (values.drop 1, [])

end Shape

theorem define_eq (cx : Context) (form : Form) (head name : String) (length : Int)
    (location : Location) (kind : Kind) (ops : List Value × List Instr) :
    define cx form head name length location kind ops = (do
      let c ← define cx form head name length location kind (ops.1, [])
      return (c.1, ops.2 ++ c.2)) := by
  obtain ⟨values, instrs⟩ := ops
  cases kind with
  | leaf o => rfl
  | converted c =>
      cases values with
      | nil => rfl
      | cons v vs => rfl

theorem call_eq (name : String) (location : Location) (callee : Option Callee)
    (values : List Value) (instrs : List Instr) :
    call name location callee (values, instrs) = (do
      let c ← call name location callee (values, [])
      return (c.1, instrs ++ c.2)) := rfl

/-- An expression is checked, then its operands are evaluated, then its own value is made. -/
theorem evalShape_eq (cx : Context) (form : Form) (head : String) (shape : Shape) (name : String)
    (location : Location) (operands : List Operand) :
    evalShape cx form head shape name location operands = (do
      shape.check cx form head
      let ops ← evalAll form (shape.inline operands)
      let c ← shape.make cx form head name location ops.1
      return (c.1, ops.2 ++ c.2)) := by
  cases shape with
  | const =>
      simp only [evalShape, Shape.check, Shape.inline, Shape.make, evalAll, pure_bind]
      cases form.items.drop 1 with
      | nil => simp
      | cons x xs => cases x.isNil <;> simp
  | global => simp [evalShape, Shape.check, Shape.inline, Shape.make, Shape.argText, evalAll]
  | funcRef => simp [evalShape, Shape.check, Shape.inline, Shape.make, Shape.argText, evalAll]
  | simple kind =>
      rw [Shape.check, pure_bind]
      exact bind_congr fun ops => define_eq ..
  | fieldAddr => exact bind_congr fun _ => bind_congr fun ops => define_eq ..
  | arrayPtr =>
      simp only [evalShape, Shape.check, bind_assoc]
      refine bind_congr fun _ => ?_
      cases hLength : ((form.items.drop 1)[1]?).bind Form.int? with
      | none => rfl
      | some length =>
          simp only
          split
          case isTrue => rfl
          case isFalse =>
            simp only [Shape.make, hLength, Option.getD_some, pure_bind]
            exact bind_congr fun ops => define_eq ..
  | closure => exact bind_congr fun _ => bind_congr fun ops => define_eq ..
  | single place => exact bind_congr fun _ => bind_congr fun ops => define_eq ..
  | phi => simp [evalShape, Shape.check, Shape.inline, Shape.make, evalAll]
  | binop => rfl
  | call => rfl
  | callMethod => rfl
  | callDynamic =>
      refine bind_congr fun _ => ?_
      cases operands with
      | nil => rfl
      | cons x xs =>
          simp only [Shape.inline, Shape.make, evalAll, List.take_succ_cons, List.take_zero,
            List.drop_succ_cons, List.drop_zero, bind_assoc, pure_bind, List.append_nil]
          refine bind_congr fun f => bind_congr fun args => ?_
          exact call_eq ..

theorem Shape.map_inline {α β : Type} (shape : Shape) (f : α → β) (xs : List α) :
    shape.inline (xs.map f) = (shape.inline xs).map f := by
  cases shape <;> simp [Shape.inline]

theorem Shape.map_operands {α β : Type} (shape : Shape) (f : α → β) (xs : List α) :
    shape.operands (xs.map f) = (shape.operands xs).map f := by
  cases shape <;> simp only [Shape.operands, Shape.map_inline]

theorem Shape.inline_sublist {α : Type} (shape : Shape) (xs : List α) :
    (shape.inline xs).Sublist xs := by
  cases shape with
  | const | global | funcRef | phi => exact List.nil_sublist xs
  | simple | callDynamic => exact List.Sublist.refl xs
  | fieldAddr | arrayPtr => exact List.take_sublist 1 xs
  | closure | call => exact List.drop_sublist 2 xs
  | single place => exact (List.take_sublist 1 _).trans (List.drop_sublist _ xs)
  | binop => exact (List.take_sublist 2 _).trans (List.drop_sublist 1 xs)
  | callMethod => exact List.drop_sublist 3 xs

theorem Shape.inline_subset_operands {α : Type} {shape : Shape} {xs : List α} {x : α}
    (h : x ∈ shape.inline xs) : x ∈ shape.operands xs := by
  cases shape with
  | phi => cases h
  | _ => exact h

theorem evalOperands_eq_map (cx : Context) (resolve : String → Form → BodyM Value)
    (items : List Form) : evalOperands cx resolve items = items.map (evalOperand cx resolve) := by
  induction items with
  | nil => rfl
  | cons x xs ih => rw [evalOperands, ih, List.map_cons]

theorem withoutPosition_isPrefix (items : List Form) : withoutPosition items <+: items := by
  unfold withoutPosition
  split
  case isTrue => exact List.dropLast_prefix items
  case isFalse => exact List.prefix_refl items

theorem mem_of_mem_inline {items : List Form} {shape : Shape} {x : Form}
    (hx : x ∈ shape.inline ((withoutPosition items).drop 1)) : x ∈ items :=
  (withoutPosition_isPrefix items).subset
    (List.mem_of_mem_drop ((shape.inline_sublist _).subset hx))

/-- What belongs to the arguments of an expression, taken from what belongs to its items. -/
def argsOf {α : Type} (items : List Form) (xs : List α) : List α :=
  (xs.take (withoutPosition items).length).drop 1

theorem argsOf_map {α : Type} (items : List Form) (f : Form → α) :
    argsOf items (items.map f) = ((withoutPosition items).drop 1).map f := by
  rw [argsOf, ← List.map_take, ← List.prefix_iff_eq_take.mp (withoutPosition_isPrefix items),
    List.map_drop]

/-- The place of an expression: its own if that is known, and the given one otherwise. -/
def placed (items : List Form) (location : Location) : Location :=
  if (locationOf items).isKnown then locationOf items else location

/-- Evaluates an expression of a shape, given how operands are evaluated. -/
def evalAs (cx : Context) (operand : Form → Operand) (head : String) (shape : Shape)
    (name : String) (location : Location) (items : List Form) : BodyM Computed := do
  let form := Form.list (withoutPosition items)
  shape.check cx form head
  let ops ← evalAll form ((shape.inline (form.items.drop 1)).map operand)
  let c ← shape.make cx form head name (placed items location) ops.1
  return (c.1, ops.2 ++ c.2)

/-- All that can become of a list where a value is needed. -/
theorem evalList_cases (cx : Context) (operand : Form → Operand) (name : String)
    (location : Location) (items : List Form) :
    ((Form.list items).head? = none ∧
      evalList cx name location items (items.map operand) = throw .listWithoutHead) ∨
    (∃ function problem form, evalList cx name location items (items.map operand) =
      throw (.refused function problem form)) ∨
    ∃ head shape, (Form.list items).head? = some head ∧ Shape.ofHead? head = some shape ∧
      evalList cx name location items (items.map operand) =
        evalAs cx operand head shape name location items := by
  unfold evalList
  cases hHead : (Form.list items).head? with
  | none => exact .inl ⟨rfl, rfl⟩
  | some head =>
      simp only
      cases hShape : Shape.ofHead? head with
      | none => exact .inr (.inl ⟨_, _, _, rfl⟩)
      | some shape =>
          rcases splitPosition_eq items with hSplit | ⟨last, hSplit⟩
          · refine .inr (.inr ⟨head, shape, rfl, hShape, ?_⟩)
            have hArgs := argsOf_map items operand
            simp only [hSplit, pure_bind]
            rw [evalShape_eq, ← argsOf, hArgs, Shape.map_inline]
            rfl
          · refine .inr (.inl ⟨none, .badPosition, some last, ?_⟩)
            simp only [hSplit]
            rfl

/-- Statements that are not evaluated for a value. -/
inductive Ending where
  | branch
  | jump
  | ret
  | panic
  | store
  deriving DecidableEq, Repr

namespace Ending

def ofHead? : String → Option Ending
  | "if" => some .branch
  | "jump" => some .jump
  | "return" => some .ret
  | "panic" => some .panic
  | "store" => some .store
  | _ => none

/-- The items after the word at the front that are operands. -/
def operands {α : Type} : Ending → List α → List α
  | .jump, _ => []
  | .panic, xs => xs.take 1
  | .branch, xs | .ret, xs | .store, xs => xs

/-- How many items may stand after the word at the front. -/
def takes : Ending → Nat → Bool
  | .branch, n => n == 1
  | .store, n => n == 2
  | .jump, _ | .ret, _ | .panic, _ => true

/-- What the instruction of a statement does, given the values of its operands. -/
def op : Ending → List Value → Op
  | .branch, vs => .branch vs.head?
  | .jump, _ => .jump
  | .ret, vs => .ret (vs.map some)
  | .panic, vs => .panic vs.head?
  | .store, address :: value :: _ => .store address value
  | .store, _ => .jump

/-- The words of expressions begin no other statement. -/
theorem ofHead?_eq_none {head : String} {shape : Shape} (h : Shape.ofHead? head = some shape) :
    ofHead? head = none := by
  unfold ofHead?
  split
  case h_6 => rfl
  all_goals cases h

end Ending

theorem head?_ne_let_of_ending {stmt : Form} {head : String} {ending : Ending}
    (hHead : stmt.head? = some head) (hEnding : Ending.ofHead? head = some ending) :
    stmt.head? ≠ some "let" := by
  rw [hHead]
  rintro ⟨⟩
  cases hEnding

theorem head?_ne_let_of_shape {stmt : Form} {head : String} {shape : Shape}
    (hHead : stmt.head? = some head) (hShape : Shape.ofHead? head = some shape) :
    stmt.head? ≠ some "let" := by
  rw [hHead]
  rintro ⟨⟩
  cases hShape

/-- The name that a let binds. -/
def letName (stmt : Form) : String := ((stmt.items[1]?).map Form.text).getD ""

/-- The expression of a let. -/
def letExpression? (stmt : Form) : Option Form := (withoutPosition stmt.items)[2]?

/-- A let that is evaluated with success binds its name to the value of its expression, and
keeps the instructions. -/
theorem evalLet_eq_ok {cx : Context} {resolve : String → Form → BodyM Value} {name : String}
    {stmt : Form} {s t : Body} {v : Value} :
    evalLet cx resolve name stmt s = .ok v t →
      ∃ x instrs u, letExpression? stmt = some x ∧
        evalBound cx resolve name (locationOf stmt.items) x s = .ok (v, instrs) u ∧
        t = { u with names := u.names.insert name v, built := u.built.insert name instrs } := by
  intro hRun
  unfold evalLet at hRun
  rcases splitPosition_eq stmt.items with hSplit | ⟨last, hSplit⟩
  · rw [hSplit, pure_bind] at hRun
    cases hExpression : letExpression? stmt with
    | none =>
        rw [letExpression?] at hExpression
        simp only [hExpression] at hRun
        cases hRun
    | some x =>
        rw [letExpression?] at hExpression
        simp only [hExpression] at hRun
        obtain ⟨⟨value, instrs⟩, u, hBound, hRest⟩ := bind_eq_ok.mp hRun
        cases hRest
        exact ⟨x, instrs, u, rfl, hBound, rfl⟩
  · rw [hSplit] at hRun
    cases hRun

theorem get_bind_apply {σ α : Type} (f : σ → EStateM LoadError σ α) (s : σ) :
    (get >>= f) s = f s s := rfl

/-- A name that is resolved with success has a value, or it has no let, or its let is evaluated
now. -/
theorem resolve_eq_ok {cx : Context} {depth : Nat} {entered : List String} {name : String}
    {form : Form} {s t : Body} {v : Value} (h : resolve cx depth entered name form s = .ok v t) :
    (s.names.find? name = some v ∧ t = s) ∨
    (s.names.find? name = none ∧ cx.lets.find? name = none ∧
      resolveOuter cx name form s = .ok v t) ∨
    ∃ below stmt, depth = below + 1 ∧ s.names.find? name = none ∧
      cx.lets.find? name = some stmt ∧ name ∉ entered ∧
      evalLet cx (resolve cx below (name :: entered)) name stmt s = .ok v t := by
  rw [resolve, get_bind_apply] at h
  cases hName : s.names.find? name with
  | some w =>
      rw [hName] at h
      cases h
      exact .inl ⟨rfl, rfl⟩
  | none =>
      rw [hName] at h
      cases hLet : cx.lets.find? name with
      | none =>
          rw [hLet] at h
          exact .inr (.inl ⟨rfl, rfl, h⟩)
      | some stmt =>
          rw [hLet] at h
          cases depth with
          | zero => cases h
          | succ below =>
              by_cases hEntered : name ∈ entered
              · simp only [if_pos hEntered] at h
                cases h
              · simp only [if_neg hEntered] at h
                exact .inr (.inr ⟨below, stmt, rfl, rfl, rfl, hEntered, h⟩)

/-- The instructions of a let, which may have been evaluated before. -/
def evalLetStatement (cx : Context) (stmt : Form) : BodyM (List Instr) := do
  match (← get).built.find? (letName stmt) with
  | some instrs => return instrs
  | none =>
    discard <| evalLet cx (resolve cx cx.lets.entries.length [letName stmt]) (letName stmt) stmt
    return ((← get).built.find? (letName stmt)).getD []

/-- The instructions of a let were kept for it, or it is evaluated now and they are kept. -/
theorem evalLetStatement_eq_ok {cx : Context} {stmt : Form} {s t : Body} {is : List Instr}
    (h : evalLetStatement cx stmt s = .ok is t) :
    (s.built.find? (letName stmt) = some is ∧ t = s) ∨
    s.built.find? (letName stmt) = none ∧ ∃ v,
      evalLet cx (resolve cx cx.lets.entries.length [letName stmt]) (letName stmt) stmt s =
        .ok v t ∧ is = (t.built.find? (letName stmt)).getD [] := by
  rw [evalLetStatement, get_bind_apply] at h
  cases hBuilt : s.built.find? (letName stmt) with
  | some kept =>
      rw [hBuilt] at h
      cases h
      exact .inl ⟨rfl, rfl⟩
  | none =>
      rw [hBuilt] at h
      obtain ⟨_, u, hLet, h⟩ := bind_eq_ok.mp h
      cases h
      obtain ⟨v, hLet, -⟩ := map_eq_ok.mp hLet
      exact .inr ⟨rfl, v, hLet, rfl⟩

/-- Evaluates a statement that ends in an instruction without a value. -/
def evalEnding (cx : Context) (ending : Ending) (stmt : Form) : BodyM (List Instr) := do
  let args := (withoutPosition stmt.items).drop 1
  let ops ← evalAll stmt ((ending.operands args).map (evalOperand cx cx.lookup))
  return ops.2 ++ [{ location := locationOf stmt.items, op := ending.op ops.1 }]

theorem evalEnding_branch (cx : Context) (stmt : Form) {x : Form}
    (hArgs : (withoutPosition stmt.items).drop 1 = [x]) :
    evalEnding cx .branch stmt = (do
      let c ← evalOperand cx cx.lookup x stmt
      return c.2 ++ [{ location := locationOf stmt.items, op := .branch (some c.1) }]) := by
  simp [evalEnding, hArgs, Ending.operands, Ending.op, evalAll]

theorem evalEnding_store (cx : Context) (stmt : Form) {x y : Form}
    (hArgs : (withoutPosition stmt.items).drop 1 = [x, y]) :
    evalEnding cx .store stmt = (do
      let a ← evalOperand cx cx.lookup x stmt
      let v ← evalOperand cx cx.lookup y stmt
      return a.2 ++ v.2 ++
        [{ location := locationOf stmt.items, op := .store a.1 v.1 }]) := by
  simp [evalEnding, hArgs, Ending.operands, Ending.op, evalAll]

/-- All that can become of a statement. -/
theorem evalStatement_cases (cx : Context) (stmt : Form) :
    (stmt.word? = none ∧ (∀ items, stmt ≠ .list items) ∧
      evalStatement cx stmt = throw .numberAsStatement) ∨
    (∃ function problem form, evalStatement cx stmt = throw (.refused function problem form)) ∨
    (stmt.head? = some "let" ∧ evalStatement cx stmt = evalLetStatement cx stmt) ∨
    (∃ head ending, stmt.head? = some head ∧ Ending.ofHead? head = some ending ∧
      ending.takes ((withoutPosition stmt.items).drop 1).length = true ∧
      evalStatement cx stmt = evalEnding cx ending stmt) ∨
    ∃ head shape, stmt.head? = some head ∧ Ending.ofHead? head = none ∧
      Shape.ofHead? head = some shape ∧ evalStatement cx stmt = Prod.snd <$>
        evalList cx "" (locationOf stmt.items) (withoutPosition stmt.items)
          ((withoutPosition stmt.items).map (evalOperand cx cx.lookup)) := by
  cases stmt with
  | int n => exact .inl ⟨rfl, by simp, rfl⟩
  | real t => exact .inl ⟨rfl, by simp, rfl⟩
  | sym s => exact .inr (.inl ⟨_, _, _, rfl⟩)
  | str s => exact .inr (.inl ⟨_, _, _, rfl⟩)
  | list all =>
      unfold evalStatement
      simp only
      split
      case isTrue hLet => exact .inr (.inr (.inl ⟨hLet, rfl⟩))
      case isFalse hLet =>
        rcases splitPosition_eq all with hSplit | ⟨last, hSplit⟩
        case inr => exact .inr (.inl ⟨none, .badPosition, some last, by rw [hSplit]; rfl⟩)
        simp only [hSplit, pure_bind, evalOperands_eq_map, ← List.map_drop]
        split
        case h_1 hHead =>
          -- anything but one operand is refused
          rcases hArgs : (withoutPosition all).drop 1 with _ | ⟨x, _ | ⟨y, ys⟩⟩
          · exact .inr (.inl ⟨_, _, _, rfl⟩)
          · exact .inr (.inr (.inr (.inl ⟨"if", .branch, hHead, rfl, by rw [Form.items, hArgs]; rfl,
              (evalEnding_branch cx (.list all) hArgs).symm⟩)))
          · exact .inr (.inl ⟨_, _, _, rfl⟩)
        case h_2 hHead => exact .inr (.inr (.inr (.inl ⟨"jump", .jump, hHead, rfl, rfl, rfl⟩)))
        case h_3 hHead => exact .inr (.inr (.inr (.inl ⟨"return", .ret, hHead, rfl, rfl, rfl⟩)))
        case h_4 hHead =>
          rw [← List.map_take]
          exact .inr (.inr (.inr (.inl ⟨"panic", .panic, hHead, rfl, rfl, rfl⟩)))
        case h_5 hHead =>
          rcases hArgs : (withoutPosition all).drop 1 with _ | ⟨x, _ | ⟨y, _ | ⟨z, zs⟩⟩⟩
          · exact .inr (.inl ⟨_, _, _, rfl⟩)
          · exact .inr (.inl ⟨_, _, _, rfl⟩)
          · exact .inr (.inr (.inr (.inl ⟨"store", .store, hHead, rfl,
              by rw [Form.items, hArgs]; rfl, (evalEnding_store cx (.list all) hArgs).symm⟩)))
          · exact .inr (.inl ⟨_, _, _, rfl⟩)
        case h_6 head hIf hJump hRet hPanic hStore hHead =>
          cases hShape : Shape.ofHead? head with
          | none => exact .inr (.inl ⟨_, _, _, rfl⟩)
          | some shape =>
              exact .inr (.inr (.inr (.inr
                ⟨head, shape, hHead, Ending.ofHead?_eq_none hShape, hShape, rfl⟩)))
        case h_7 => exact .inr (.inl ⟨_, _, _, rfl⟩)

end NilGuard.Dump
