import NilGuard.Proofs.Expression
/-! Properties of computations that hold of the single steps of a load and of whatever is put
together from them. -/
namespace NilGuard

namespace Form

variable {α : Type}

mutual

/-- Goes through a form from the inside out. -/
def fold (atom : Form → α) (list : List Form → List α → α) : Form → α
  | .list items => list items (foldAll atom list items)
  | x => atom x

def foldAll (atom : Form → α) (list : List Form → List α → α) : List Form → List α
  | [] => []
  | x :: xs => fold atom list x :: foldAll atom list xs

end

theorem fold_list (atom : Form → α) (list : List Form → List α → α) (items : List Form) :
    fold atom list (.list items) = list items (items.map (fold atom list)) := by
  have hAll : ∀ xs, foldAll atom list xs = xs.map (fold atom list) := by
    intro xs
    induction xs with
    | nil => rfl
    | cons x xs ih => rw [foldAll, ih, List.map_cons]
  rw [fold, hAll]

mutual

/-- What holds of a list if it holds of all its items, and of all other forms, holds of every
form. -/
theorem induct {P : Form → Prop} (atom : ∀ x, (∀ items, x ≠ .list items) → P x)
    (list : ∀ items, (∀ x ∈ items, P x) → P (.list items)) : ∀ x, P x
  | .list items => list items (inductAll atom list items)
  | .int _ => atom _ (by simp)
  | .real _ => atom _ (by simp)
  | .sym _ => atom _ (by simp)
  | .str _ => atom _ (by simp)

theorem inductAll {P : Form → Prop} (atom : ∀ x, (∀ items, x ≠ .list items) → P x)
    (list : ∀ items, (∀ x ∈ items, P x) → P (.list items)) : ∀ items : List Form, ∀ x ∈ items, P x
  | [] => List.forall_mem_nil P
  | y :: ys => List.forall_mem_cons.mpr ⟨induct atom list y, inductAll atom list ys⟩

end

theorem depth_le_of_mem {items : List Form} {x : Form} (h : x ∈ items) :
    x.depth ≤ depthAll items := by
  induction items with
  | nil => cases h
  | cons y ys ih =>
      rw [depthAll]
      rcases List.mem_cons.mp h with rfl | h
      · exact Nat.le_max_left _ _
      · exact Nat.le_trans (ih h) (Nat.le_max_right _ _)

end Form

namespace Dump

/-- What an expression is made of, for finding lists without a word at their front. -/
def lacksHeadIn (items : List Form) (below : List Bool) : Bool :=
  match (Form.list items).head? with
  | none => true
  | some head =>
    match Shape.ofHead? head with
    | none => false
    | some shape => (shape.operands (argsOf items below)).any id

end Dump

/-- A list that starts with no word stands in a form where a value is needed: it is the form
itself, or it stands so in an operand. -/
def Form.lacksHead : Form → Bool := Form.fold (fun _ => false) Dump.lacksHeadIn

namespace Dump

theorem lacksHead_of_head?_eq_none {items : List Form} (h : (Form.list items).head? = none) :
    (Form.list items).lacksHead = true := by
  rw [Form.lacksHead, Form.fold_list, lacksHeadIn, h]

theorem lacksHead_list {items : List Form} {head : String} {shape : Shape}
    (hHead : (Form.list items).head? = some head) (hShape : Shape.ofHead? head = some shape) :
    (Form.list items).lacksHead =
      (shape.operands ((withoutPosition items).drop 1)).any Form.lacksHead := by
  rw [Form.lacksHead, Form.fold_list, lacksHeadIn, hHead]
  simp only [hShape, argsOf_map, Shape.map_operands, List.any_map]
  rfl

/-- A computation can return a value. -/
def Returns {σ α : Type} (x : EStateM LoadError σ α) (a : α) : Prop := ∃ s t, x s = .ok a t

/-- A property of computations that is kept when one follows the other. Refusals have it. -/
structure IsClosed {σ : Type} (C : ∀ α : Type, EStateM LoadError σ α → Prop) : Prop where
  pure : ∀ {α : Type} (a : α), C α (pure a)
  seq : ∀ {α β : Type} {x : EStateM LoadError σ α} {f : α → EStateM LoadError σ β},
    C α x → (∀ a, Returns x a → C β (f a)) → C β (x >>= f)
  get : C σ get
  refused : ∀ {α : Type} (function : Option String) (problem : Problem) (form : Option Form),
    C α (throw (.refused function problem form))

namespace IsClosed

variable {σ α β : Type} {C : ∀ α : Type, EStateM LoadError σ α → Prop} (h : IsClosed C)
include h

theorem bind {x : EStateM LoadError σ α} {f : α → EStateM LoadError σ β} (hx : C α x)
    (hf : ∀ a, C β (f a)) : C β (x >>= f) :=
  h.seq hx fun a _ => hf a

theorem map {x : EStateM LoadError σ α} (f : α → β) (hx : C α x) : C β (f <$> x) := by
  rw [← bind_pure_comp]
  exact h.bind hx fun a => h.pure (f a)

theorem forM {f : α → EStateM LoadError σ PUnit} {xs : List α} (hf : ∀ x ∈ xs, C PUnit (f x)) :
    C PUnit (xs.forM f) := by
  induction xs with
  | nil => exact h.pure _
  | cons x xs ih =>
      rw [List.forall_mem_cons] at hf
      exact h.bind hf.1 fun _ => ih hf.2

theorem mapM {f : α → EStateM LoadError σ β} {xs : List α} (hf : ∀ x ∈ xs, C β (f x)) :
    C (List β) (xs.mapM f) := by
  induction xs with
  | nil => exact h.pure _
  | cons x xs ih =>
      rw [List.mapM_cons]
      refine h.bind (hf x List.mem_cons_self) fun y => ?_
      exact h.bind (ih fun z hz => hf z (List.mem_cons_of_mem x hz)) fun _ => h.pure _

theorem foldlM {f : β → α → EStateM LoadError σ β} {xs : List α} (hf : ∀ b, ∀ x ∈ xs, C β (f b x))
    (b : β) : C β (xs.foldlM f b) := by
  induction xs generalizing b with
  | nil => exact h.pure b
  | cons x xs ih =>
      rw [List.foldlM_cons]
      exact h.bind (hf b x List.mem_cons_self) fun c =>
        ih (fun d y hy => hf d y (List.mem_cons_of_mem x hy)) c

end IsClosed

/-- A run ends in a state with an invariant, or it fails as described. -/
def EndsIn {σ α : Type} (I : σ → Prop) (E : LoadError → σ → Prop) :
    EStateM.Result LoadError σ α → Prop
  | .ok _ t => I t
  | .error e t => E e t

/-- Every run from a state with an invariant ends in one, or it fails as described. -/
def Meets {σ α : Type} (I : σ → Prop) (E : LoadError → σ → Prop) (x : EStateM LoadError σ α) :
    Prop :=
  ∀ s, I s → EndsIn I E (x s)

section Meets

variable {σ α β : Type} {I J : σ → Prop} {E F : LoadError → σ → Prop}

theorem EndsIn.bind {x : EStateM LoadError σ α} {f : α → EStateM LoadError σ β} {s : σ}
    (hx : EndsIn J F (x s)) (hFailed : ∀ e t, F e t → E e t)
    (hf : ∀ a t, x s = .ok a t → J t → EndsIn I E (f a t)) : EndsIn I E ((x >>= f) s) := by
  change EndsIn I E (EStateM.bind x f s)
  unfold EStateM.bind
  cases hRun : x s with
  | ok a t =>
      rw [hRun] at hx
      exact hf a t hRun hx
  | error e t =>
      rw [hRun] at hx
      exact hFailed e t hx

theorem isClosed_meets
    (hRefused : ∀ function problem form s, I s → E (.refused function problem form) s) :
    IsClosed fun _ (x : EStateM LoadError σ _) => Meets I E x where
  pure _ _ hs := hs
  get _ hs := hs
  refused function problem form s hs := hRefused function problem form s hs
  seq hx hf s hs :=
    (hx s hs).bind (fun _ _ h => h) fun a t hRun ht => hf a ⟨s, t, hRun⟩ t ht

theorem Meets.ensures {x : EStateM LoadError σ α} (h : Meets I E x) :
    Ensures I x fun a t => Returns x a ∧ I t := by
  intro s a t hs hRun
  have hEnd := h s hs
  rw [hRun] at hEnd
  exact ⟨⟨s, t, hRun⟩, hEnd⟩

end Meets

/-- Looking up a variable of a package comes down to making a value and changing the program. -/
theorem IsClosed.globalValue {C : ∀ α : Type, BodyM α → Prop} (h : IsClosed C)
    (hTag : ∀ name length, C Tag (freshTag name length))
    (hProgram : ∀ f : Program → Program,
      C PUnit (modify fun body => { body with program := f body.program }))
    (package name : String) : C Value (globalValue package name) := by
  refine h.bind (hProgram (·.addPackage package)) fun _ => h.bind h.get fun body => ?_
  split
  case h_1 => exact h.pure _
  case h_2 =>
    refine h.bind (h.bind (hTag _ _) fun _ => h.pure _) fun v => ?_
    refine h.bind (hProgram fun p => p.modifyPackage package fun q =>
      { q with globals := q.globals.insert name v }) fun _ => h.pure _

/-- A property of computations on bodies that making values and looking up variables of
packages have as well. -/
structure IsEvaluable (C : ∀ α : Type, BodyM α → Prop) : Prop extends IsClosed C where
  tag : ∀ name length, C Tag (freshTag name length)
  global : ∀ package name, C Value (globalValue package name)

/-- What evaluating a form where a value is needed comes down to has a property: the failure at
a list without a word at its front, and the making of a phi. -/
structure Allows (C : ∀ α : Type, BodyM α → Prop) (x : Form) : Prop where
  headless : x.lacksHead = true → ∀ α, C α (throw .listWithoutHead)
  phi : ∀ (cx : Context) (items : List Form) (head name : String) (location : Location)
    (values : List Value), (Form.list items).depth ≤ x.depth →
      ((items.drop 1).any Form.lacksHead = true → x.lacksHead = true) →
      C Computed (Shape.phi.make cx (.list items) head name location values)

/-- What evaluating a let comes down to has a property. -/
structure AllowsLet (C : ∀ α : Type, BodyM α → Prop) (name : String) (stmt : Form) : Prop where
  expression : ∀ x, letExpression? stmt = some x → Allows C x
  missing : letExpression? stmt = none → 3 ≤ stmt.items.length →
    ∀ α, C α (throw .letWithoutExpression)
  binding : ∀ value instrs, C PUnit (modify fun body =>
    { body with names := body.names.insert name value, built := body.built.insert name instrs })

/-- The lets of a context have an expression or a position, and what evaluating them comes down
to has a property. -/
def AllowsLets (C : ∀ α : Type, BodyM α → Prop) (cx : Context) : Prop :=
  ∀ name stmt, cx.lets.find? name = some stmt → 3 ≤ stmt.items.length ∧ AllowsLet C name stmt

section Forms

variable {C : ∀ α : Type, BodyM α → Prop}

theorem depth_le_of_mem_inline {items : List Form} {shape : Shape} {x : Form}
    (hx : x ∈ shape.inline ((withoutPosition items).drop 1)) :
    x.depth ≤ (Form.list items).depth :=
  Nat.le_trans (Form.depth_le_of_mem (mem_of_mem_inline hx)) (Nat.le_succ _)

theorem depthAll_le_of_subset {xs ys : List Form} (h : xs ⊆ ys) :
    Form.depthAll xs ≤ Form.depthAll ys := by
  induction xs with
  | nil => exact Nat.zero_le _
  | cons x xs ih =>
      rw [Form.depthAll]
      have hTail : xs ⊆ ys := fun y hy => h (List.mem_cons_of_mem x hy)
      exact Nat.max_le.mpr ⟨Form.depth_le_of_mem (h List.mem_cons_self), ih hTail⟩

theorem Allows.operand {items : List Form} {head : String} {shape : Shape} {x : Form}
    (h : Allows C (.list items)) (hHead : (Form.list items).head? = some head)
    (hShape : Shape.ofHead? head = some shape)
    (hx : x ∈ shape.inline ((withoutPosition items).drop 1)) : Allows C x := by
  have hLacks : x.lacksHead = true → (Form.list items).lacksHead = true := by
    intro hx'
    rw [lacksHead_list hHead hShape]
    exact List.any_eq_true.mpr ⟨x, Shape.inline_subset_operands hx, hx'⟩
  refine ⟨fun hx' => h.headless (hLacks hx'), ?_⟩
  intro cx items' head' name location values hDepth hOperands
  exact h.phi cx items' head' name location values
    (Nat.le_trans hDepth (depth_le_of_mem_inline hx)) fun hAny => hLacks (hOperands hAny)

end Forms

namespace IsEvaluable

variable {C : ∀ α : Type, BodyM α → Prop} (h : IsEvaluable C) {cx : Context}
include h

theorem leaf (name : String) (origin : Origin) : C Value (freshLeaf name origin) :=
  h.bind (h.tag name 0) fun _ => h.pure _

theorem evalAll {operand : Form → Operand} {xs : List Form} {form : Form}
    (hOperands : ∀ x ∈ xs, C Computed (operand x form)) :
    C (List Value × List Instr) (evalAll form (xs.map operand)) := by
  induction xs with
  | nil => exact h.pure _
  | cons x xs ih =>
      rw [List.forall_mem_cons] at hOperands
      exact h.bind hOperands.1 fun c => h.bind (ih hOperands.2) fun _ => h.pure _

theorem expect (form : Form) (head : String) (atLeast : Bool) (count : Nat) :
    C Unit (expect cx form head atLeast count) := by
  unfold Dump.expect
  dsimp only
  split
  case isTrue => exact h.refused _ _ _
  case isFalse => exact h.pure _

theorem check (form : Form) (head : String) (shape : Shape) :
    C Unit (shape.check cx form head) := by
  cases shape with
  | const | simple | phi => exact h.pure _
  | arrayPtr =>
      refine h.bind (h.expect form head false 2) fun _ => ?_
      cases ((form.items.drop 1)[1]?).bind Form.int? with
      | none => exact h.refused _ _ _
      | some length =>
          dsimp only
          split
          case isTrue => exact h.refused _ _ _
          case isFalse => exact h.pure _
  | global | funcRef => exact h.expect form head false 2
  | fieldAddr | callDynamic => exact h.expect form head true 1
  | closure | call => exact h.expect form head true 2
  | single place => exact h.expect form head true place
  | binop => exact h.expect form head false 3
  | callMethod => exact h.expect form head true 4

theorem define (form : Form) (head name : String) (length : Int) (location : Location)
    (kind : Kind) (operands : List Value × List Instr) :
    C Computed (define cx form head name length location kind operands) := by
  unfold Dump.define
  split
  case h_1 => exact h.bind (h.tag name length) fun _ => h.pure _
  case h_2 => exact h.bind (h.tag name length) fun _ => h.pure _
  case h_3 => exact h.refused _ _ _

/-- Making a value has the property, if making a phi has it. -/
theorem make (form : Form) (head name : String) (location : Location) {shape : Shape}
    (values : List Value)
    (hPhi : shape = .phi → C Computed (Shape.phi.make cx form head name location values)) :
    C Computed (shape.make cx form head name location values) := by
  have hLeaf (name : String) (origin : Origin) (is : Value → List Instr) :
      C Computed (do let v ← freshLeaf name origin; return (v, is v)) :=
    h.bind (h.leaf name origin) fun _ => h.pure _
  cases shape with
  | const =>
      rw [Shape.make]
      split
      case h_1 => exact hLeaf _ _ _
      case h_2 =>
        split
        case isTrue => exact hLeaf _ _ _
        case isFalse => exact hLeaf _ _ _
  | global => exact h.bind (h.global _ _) fun _ => h.pure _
  | funcRef | binop | call | callMethod | callDynamic => exact hLeaf _ _ _
  | simple | fieldAddr | arrayPtr | closure | single =>
      rw [Shape.make]
      exact h.define _ _ _ _ _ _ _
  | phi => exact hPhi rfl

theorem evalList {operand : Form → Operand} (name : String) (location : Location)
    {items : List Form} (hAllows : Allows C (.list items))
    (hOperands : ∀ x ∈ items, Allows C x → ∀ form, C Computed (operand x form)) :
    C Computed (evalList cx name location items (items.map operand)) := by
  rcases evalList_cases cx operand name location items with
    ⟨hHead, hEval⟩ | ⟨_, _, _, hEval⟩ | ⟨head, shape, hHead, hShape, hEval⟩
  · rw [hEval]
    exact hAllows.headless (lacksHead_of_head?_eq_none hHead) _
  · rw [hEval]
    exact h.refused _ _ _
  · rw [hEval]
    refine h.bind (h.check _ head shape) fun _ => h.bind (h.evalAll fun x hx => ?_) fun ops => ?_
    · exact hOperands x (mem_of_mem_inline hx) (hAllows.operand hHead hShape hx) _
    · refine h.bind (h.make _ head name _ ops.1 ?_) fun _ => h.pure _
      rintro rfl
      refine hAllows.phi cx _ head name _ ops.1 ?_ ?_
      · exact Nat.succ_le_succ
          (depthAll_le_of_subset (withoutPosition_isPrefix items).subset)
      · rw [lacksHead_list hHead hShape]
        exact id

section Resolver

variable {resolve : String → Form → BodyM Value}
  (hResolve : ∀ name form, C Value (resolve name form))
include hResolve

theorem evalOperand (x : Form) (hAllows : Allows C x) :
    ∀ form, C Computed (evalOperand cx resolve x form) := by
  induction x using Form.induct with
  | atom x hAtom =>
      intro form
      cases x with
      | int | real | str => exact h.bind (h.leaf _ _) fun _ => h.pure _
      | sym s => exact h.bind (hResolve s form) fun _ => h.pure _
      | list items => exact absurd rfl (hAtom items)
  | list items ih =>
      intro form
      rw [Dump.evalOperand, evalOperands_eq_map]
      exact h.evalList "" {} hAllows fun x hx => ih x hx

theorem evalBound (name : String) (location : Location) {x : Form} (hAllows : Allows C x) :
    C Computed (evalBound cx resolve name location x) := by
  unfold Dump.evalBound
  split
  case h_1 items =>
    rw [evalOperands_eq_map]
    exact h.evalList name location hAllows fun x _ hx => h.evalOperand hResolve x hx
  case h_2 => exact h.evalOperand hResolve x hAllows _

theorem evalLet {name : String} {stmt : Form} (hLong : 3 ≤ stmt.items.length)
    (hAllows : AllowsLet C name stmt) : C Value (evalLet cx resolve name stmt) := by
  unfold Dump.evalLet
  rcases splitPosition_eq stmt.items with hSplit | ⟨last, hSplit⟩
  · simp only [hSplit, pure_bind]
    cases hExpression : (withoutPosition stmt.items)[2]? with
    | none => exact hAllows.missing hExpression hLong _
    | some x =>
        refine h.bind (h.evalBound hResolve name _ (hAllows.expression x hExpression)) fun c => ?_
        exact h.bind (hAllows.binding c.1 c.2) fun _ => h.pure _
  · rw [hSplit]
    exact h.refused _ _ _

end Resolver

theorem settlePhi {phi : Phi} (hLookup : ∀ name form, C Value (cx.lookup name form))
    (hOperands : ∀ x ∈ phi.operands, Allows C x)
    (hRecord : ∀ values, C PUnit (modify fun body =>
      { body with settled := body.settled ++ [(phi.value, values)] })) :
    C Unit (settlePhi cx phi) := by
  rw [Dump.settlePhi, evalOperands_eq_map]
  refine h.bind (h.evalAll fun x hx => ?_) fun _ => hRecord _
  exact h.evalOperand hLookup x (hOperands x hx) _

theorem resolveOuter (name : String) (form : Form) : C Value (resolveOuter cx name form) := by
  unfold Dump.resolveOuter
  split
  case isTrue => exact h.leaf _ _
  case isFalse =>
    refine h.bind h.get fun body => ?_
    dsimp only
    split
    case h_1 => exact h.pure _
    case h_2 =>
      split
      case h_1 => exact h.pure _
      case h_2 => exact h.refused _ _ _

theorem resolve (hLets : AllowsLets C cx) (depth : Nat) (entered : List String) (name : String)
    (form : Form) : C Value (resolve cx depth entered name form) := by
  induction depth generalizing entered name form with
  | zero =>
      rw [Dump.resolve]
      refine h.bind h.get fun body => ?_
      split
      case h_1 => exact h.pure _
      case h_2 =>
        split
        case h_1 => exact h.resolveOuter name form
        case h_2 => exact h.refused _ _ _
  | succ depth ih =>
      rw [Dump.resolve]
      refine h.bind h.get fun body => ?_
      split
      case h_1 => exact h.pure _
      case h_2 =>
        split
        case h_1 => exact h.resolveOuter name form
        case h_2 stmt hStmt =>
          dsimp only
          split
          case isTrue => exact h.refused _ _ _
          case isFalse =>
            obtain ⟨hLong, hAllows⟩ := hLets name stmt hStmt
            exact h.evalLet (ih (name :: entered)) hLong hAllows

end IsEvaluable

/-- The forms of a statement that stand where a value is needed. -/
def partsOf (stmt : Form) : List Form :=
  match stmt.head? with
  | none => []
  | some head =>
    if head = "let" then (letExpression? stmt).toList
    else
      match Ending.ofHead? head with
      | some ending => ending.operands ((withoutPosition stmt.items).drop 1)
      | none => [.list (withoutPosition stmt.items)]

theorem partsOf_let {stmt : Form} (h : stmt.head? = some "let") :
    partsOf stmt = (letExpression? stmt).toList := by
  rw [partsOf, h]
  rfl

theorem partsOf_ending {stmt : Form} {head : String} {ending : Ending}
    (hHead : stmt.head? = some head) (hEnding : Ending.ofHead? head = some ending) :
    partsOf stmt = ending.operands ((withoutPosition stmt.items).drop 1) := by
  have hLet : head ≠ "let" := by
    rintro rfl
    cases hEnding
  simp only [partsOf, hHead, if_neg hLet, hEnding]

theorem partsOf_expression {stmt : Form} {head : String} {shape : Shape}
    (hHead : stmt.head? = some head) (hShape : Shape.ofHead? head = some shape) :
    partsOf stmt = [.list (withoutPosition stmt.items)] := by
  have hLet : head ≠ "let" := by
    rintro rfl
    cases hShape
  simp only [partsOf, hHead, if_neg hLet, Ending.ofHead?_eq_none hShape]

/-- What evaluating a statement comes down to has a property. -/
structure AllowsStatement (C : ∀ α : Type, BodyM α → Prop) (stmt : Form) : Prop where
  number : stmt.word? = none → (∀ items, stmt ≠ .list items) → ∀ α, C α (throw .numberAsStatement)
  binding : stmt.head? = some "let" → AllowsLet C (letName stmt) stmt
  parts : ∀ x ∈ partsOf stmt, Allows C x

/-- The statements of a block: its items that are neither comments nor successors. -/
def statementsOf (blockForm : Form) : List Form :=
  (blockForm.items.drop 2).filter fun item => item.word?.isNone && item.head? != some "succs"

namespace IsEvaluable

variable {C : ∀ α : Type, BodyM α → Prop} (h : IsEvaluable C) {cx : Context}
  (hLets : AllowsLets C cx)
include h hLets

theorem evalStatement {stmt : Form}
    (hLong : stmt.head? = some "let" → 3 ≤ stmt.items.length)
    (hAllows : AllowsStatement C stmt) : C (List Instr) (evalStatement cx stmt) := by
  have hLookup (name : String) (form : Form) : C Value (cx.lookup name form) :=
    h.resolve hLets _ _ name form
  rcases evalStatement_cases cx stmt with ⟨hWord, hAtom, hEval⟩ | ⟨_, _, _, hEval⟩ |
    ⟨hLet, hEval⟩ | ⟨head, ending, hHead, hEnding, -, hEval⟩ |
    ⟨head, shape, hHead, hEnding, hShape, hEval⟩
  all_goals rw [hEval]
  · exact hAllows.number hWord hAtom _
  · exact h.refused _ _ _
  · refine h.bind h.get fun body => ?_
    split
    case h_1 => exact h.pure _
    case h_2 =>
      refine h.bind (h.map _ ?_) fun _ => h.bind h.get fun _ => h.pure _
      exact h.evalLet (h.resolve hLets _ _) (hLong hLet) (hAllows.binding hLet)
  · refine h.bind (h.evalAll fun x hx => ?_) fun _ => h.pure _
    refine h.evalOperand hLookup x (hAllows.parts x ?_) _
    rwa [partsOf_ending hHead hEnding]
  · refine h.map _ (h.evalList "" _ (hAllows.parts _ ?_) fun x _ hx => h.evalOperand hLookup x hx)
    rw [partsOf_expression hHead hShape]
    exact List.mem_singleton_self _

end IsEvaluable

end Dump

end NilGuard
