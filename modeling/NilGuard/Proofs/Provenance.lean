import NilGuard.Proofs.Filling
/-! Where the instructions of a body come from. Each call is what some expression of the body came
to when it was evaluated, and each place is one that a statement or an expression gives, also where
the loading of the body breaks off. -/
namespace NilGuard

def Instr.isCall (i : Instr) : Bool :=
  match i.op with
  | .call .. => true
  | _ => false

namespace Dump

/-- What an expression is made of, for finding the expressions in it. -/
def expressionsIn (items : List Form) (below : List (List Form)) : List Form :=
  .list items ::
    match (Form.list items).head?.bind Shape.ofHead? with
    | none => []
    | some shape => (shape.operands (argsOf items below)).flatten

/-- The lists that stand in a form where values are needed. The form itself is one of them, if it
is a list. -/
def expressions : Form → List Form := Form.fold (fun _ => []) expressionsIn

/-- The expressions of a block form. -/
def blockExpressions (block : Form) : List Form :=
  (statementsOf block).flatMap fun stmt => (partsOf stmt).flatMap expressions

/-- The operands of an expression that are evaluated where they stand. -/
def operandsOf (x : Form) : List Form :=
  match x.head?.bind Shape.ofHead? with
  | none => []
  | some shape => shape.inline ((withoutPosition x.items).drop 1)

/-- Evaluating an expression came to an instruction, after its operands had come to values. Both
are told from the same state, so the values are those that the instruction was made with. -/
def LoadedFrom (x : Form) (values : List Value) (i : Instr) : Prop :=
  ∃ (cx : Context) (depth : Nat) (entered : List String) (name : String) (location : Location)
    (v : Value) (before : List Instr) (s t u : Body),
    evalBound cx (resolve cx depth entered) name location x s = .ok (v, before ++ [i]) t ∧
    evalAll (.list (withoutPosition x.items))
      ((operandsOf x).map (evalOperand cx (resolve cx depth entered))) s = .ok (values, before) u

/-- What instructions may be loaded from: expressions, each with its own place, and places. -/
structure Sources where
  expression : Form → Prop
  place : Location → Prop
  nowhere : place {}
  own : ∀ x, expression x → place (locationOf x.items)

/-- The instructions stand at the given places, and every call among them was loaded from one of
the given expressions. -/
def AreTraced (S : Sources) (is : List Instr) : Prop :=
  ∀ i ∈ is, S.place i.location ∧
    (i.isCall = true → ∃ x values, S.expression x ∧ LoadedFrom x values i)

theorem expressions_list {items : List Form} {head : String} {shape : Shape}
    (hHead : (Form.list items).head? = some head) (hShape : Shape.ofHead? head = some shape) :
    expressions (.list items) =
      .list items :: (shape.operands ((withoutPosition items).drop 1)).flatMap expressions := by
  rw [expressions, Form.fold_list, expressionsIn, hHead, Option.bind_some, hShape]
  simp only [argsOf_map, Shape.map_operands, List.flatMap_def]

theorem mem_expressions_self (items : List Form) : .list items ∈ expressions (.list items) := by
  rw [expressions, Form.fold_list, expressionsIn]
  exact List.mem_cons_self

theorem operandsOf_list {items : List Form} {head : String} {shape : Shape}
    (hHead : (Form.list items).head? = some head) (hShape : Shape.ofHead? head = some shape) :
    operandsOf (.list items) = shape.inline ((withoutPosition items).drop 1) := by
  rw [operandsOf, hHead, Option.bind_some, hShape]
  rfl

/-- The operands of an expression are items of it, and their expressions are among its own. -/
theorem expressions_of_mem_operandsOf {items : List Form} {x : Form}
    (hx : x ∈ operandsOf (.list items)) :
    x ∈ items ∧ ∀ {y}, y ∈ expressions x → y ∈ expressions (.list items) := by
  cases hHead : (Form.list items).head? with
  | none =>
      rw [operandsOf, hHead] at hx
      cases hx
  | some head =>
      cases hShape : Shape.ofHead? head with
      | none =>
          rw [operandsOf, hHead, Option.bind_some, hShape] at hx
          cases hx
      | some shape =>
          rw [operandsOf_list hHead hShape] at hx
          refine ⟨mem_of_mem_inline hx, fun hy => ?_⟩
          rw [expressions_list hHead hShape]
          exact List.mem_cons_of_mem _
            (List.mem_flatMap.mpr ⟨x, Shape.inline_subset_operands hx, hy⟩)

section Upholds

variable {σ α β : Type} {I : σ → Prop} {x : EStateM LoadError σ α} {Q : α → Prop}

/-- A computation keeps an invariant, also when it fails, and returns what is asked for when it
succeeds. -/
def Upholds (I : σ → Prop) (x : EStateM LoadError σ α) (Q : α → Prop) : Prop :=
  Meets I (fun _ => I) x ∧ Keeps I x Q

theorem upholds_pure {a : α} (h : Q a) : Upholds I (pure a : EStateM LoadError σ α) Q :=
  ⟨fun _ hs => hs, keeps_pure h⟩

theorem upholds_throw (e : LoadError) : Upholds I (throw e : EStateM LoadError σ α) Q :=
  ⟨fun _ hs => hs, keeps_throw e⟩

theorem upholds_get : Upholds I (get : EStateM LoadError σ σ) I :=
  ⟨fun _ hs => hs, keeps_get⟩

theorem upholds_of_meets (h : Meets I (fun _ => I) x) : Upholds I x fun _ => True := by
  refine ⟨h, fun s a t hs hRun => ?_⟩
  have hEnd := h s hs
  rw [hRun] at hEnd
  exact ⟨hEnd, trivial⟩

theorem Upholds.bind {f : α → EStateM LoadError σ β} {R : β → Prop} (hx : Upholds I x Q)
    (hf : ∀ a, Q a → Upholds I (f a) R) : Upholds I (x >>= f) R := by
  refine ⟨fun s hs => ?_, hx.2.bind fun a ha => (hf a ha).2⟩
  refine (hx.1 s hs).bind (fun _ _ h => h) fun a t hRun ht => ?_
  exact (hf a (hx.2 s a t hs hRun).2).1 t ht

theorem Upholds.meets_bind {f : α → EStateM LoadError σ β} (hx : Upholds I x Q)
    (hf : ∀ a, Q a → Meets I (fun _ => I) (f a)) : Meets I (fun _ => I) (x >>= f) :=
  (hx.bind fun a ha => upholds_of_meets (hf a ha)).1

theorem Upholds.map {R : β → Prop} {f : α → β} (hx : Upholds I x Q) (hf : ∀ a, Q a → R (f a)) :
    Upholds I (f <$> x) R := by
  rw [← bind_pure_comp]
  exact hx.bind fun a ha => upholds_pure (hf a ha)

end Upholds

section Traced

variable {S : Sources}

theorem areTraced_nil : AreTraced S [] := by
  intro i hi
  cases hi

theorem AreTraced.append {is js : List Instr} (hi : AreTraced S is) (hj : AreTraced S js) :
    AreTraced S (is ++ js) := by
  intro i h
  rcases List.mem_append.mp h with h | h
  · exact hi i h
  · exact hj i h

theorem areTraced_singleton {i : Instr} (hPlace : S.place i.location)
    (h : i.isCall = true → ∃ x values, S.expression x ∧ LoadedFrom x values i) :
    AreTraced S [i] := by
  intro j hj
  rw [List.mem_singleton.mp hj]
  exact ⟨hPlace, h⟩

/-- The instructions in the blocks and those that are kept for lets are traced. -/
structure Body.IsTraced (S : Sources) (s : Body) : Prop where
  code : ∀ i is, s.code? i = some is → AreTraced S is
  built : ∀ is ∈ s.built.values, AreTraced S is

/-- Evaluation keeps the instructions traced, also where it breaks off. -/
abbrev Traces (S : Sources) {α : Type} (x : BodyM α) : Prop :=
  Meets (Body.IsTraced S) (fun _ => Body.IsTraced S) x

theorem isEvaluable_traces : IsEvaluable fun _ => Traces S where
  toIsClosed := isClosed_meets fun _ _ _ _ hs => hs
  tag _ _ _ hs := ⟨hs.code, hs.built⟩
  global := by
    have hClosed : IsClosed fun _ => Traces S := isClosed_meets fun _ _ _ _ hs => hs
    exact hClosed.globalValue (fun _ _ _ hs => ⟨hs.code, hs.built⟩)
      fun _ _ hs => ⟨hs.code, hs.built⟩

theorem traces_makePhi (cx : Context) (form : Form) (head name : String) (location : Location)
    (values : List Value) : Traces S (Shape.phi.make cx form head name location values) :=
  fun _ hs => ⟨hs.code, hs.built⟩

theorem traces_make (shape : Shape) (cx : Context) (form : Form) (head name : String)
    (location : Location) (values : List Value) :
    Traces S (shape.make cx form head name location values) :=
  isEvaluable_traces.make form head name location values fun _ => traces_makePhi _ _ _ _ _ _

theorem allows_traces (x : Form) : Allows (fun _ => Traces S) x where
  headless _ _ _ hs := hs
  phi cx items head name location values _ _ :=
    traces_makePhi cx (.list items) head name location values

/-- An expression has at most one instruction of its own, at its place. -/
theorem own_of_make {cx : Context} {form : Form} {head name : String} {location : Location}
    {shape : Shape} {values : List Value} {s t : Body} {v : Value} {own : List Instr}
    (h : shape.make cx form head name location values s = .ok (v, own) t) :
    own = [] ∨ ∃ i, own = [i] ∧ i.location = location := by
  cases shape with
  | const =>
      rw [Shape.make] at h
      cases hArgs : form.items.drop 1 with
      | nil =>
          rw [hArgs] at h
          cases h
          exact .inl rfl
      | cons x xs =>
          rw [hArgs] at h
          cases hNil : x.isNil with
          | true =>
              simp only [hNil] at h
              cases h
              exact .inl rfl
          | false =>
              simp only [hNil] at h
              cases h
              exact .inl rfl
  | global =>
      obtain ⟨w, u, -, h⟩ := bind_eq_ok.mp h
      cases h
      exact .inl rfl
  | funcRef =>
      cases h
      exact .inl rfl
  | simple | fieldAddr | arrayPtr | closure | single =>
      rw [Shape.make] at h
      exact .inr ⟨_, (define_eq_ok h).2.2.1, rfl⟩
  | phi | binop | call | callMethod | callDynamic =>
      cases h
      exact .inr ⟨_, rfl, rfl⟩

/-- An expression is at its own place or at that of its statement. -/
theorem Sources.placed {items : List Form} {location : Location}
    (hItems : S.expression (.list items)) (hPlace : S.place location) :
    S.place (Dump.placed items location) := by
  unfold Dump.placed
  split
  case isTrue => exact S.own (.list items) hItems
  case isFalse => exact hPlace

section Expressions

variable {cx : Context} {depth : Nat} {entered : List String}

theorem upholds_evalAll {operand : Form → Operand} {xs : List Form} {form : Form}
    (hOperands : ∀ x ∈ xs, Upholds (Body.IsTraced S) (operand x form) fun c => AreTraced S c.2) :
    Upholds (Body.IsTraced S) (evalAll form (xs.map operand)) fun r => AreTraced S r.2 := by
  induction xs with
  | nil => exact upholds_pure areTraced_nil
  | cons x xs ih =>
      rw [List.forall_mem_cons] at hOperands
      refine hOperands.1.bind fun c hc => (ih hOperands.2).bind fun r hr => ?_
      exact upholds_pure (hc.append hr)

/-- The calls of an expression are those of its operands, and its own is loaded from it. -/
theorem upholds_evalList (name : String) {location : Location} (hPlace : S.place location)
    {items : List Form} (hItems : S.expression (.list items))
    (hOperands : ∀ x ∈ operandsOf (.list items), ∀ form, Upholds (Body.IsTraced S)
      (evalOperand cx (resolve cx depth entered) x form) fun c => AreTraced S c.2) :
    Upholds (Body.IsTraced S) (evalList cx name location items
      (items.map (evalOperand cx (resolve cx depth entered)))) fun c => AreTraced S c.2 := by
  rcases evalList_cases cx (evalOperand cx (resolve cx depth entered)) name location items with
    ⟨-, hEval⟩ | ⟨_, _, _, hEval⟩ | ⟨head, shape, hHead, hShape, hEval⟩
  · rw [hEval]
    exact upholds_throw _
  · rw [hEval]
    exact upholds_throw _
  · have hSame := operandsOf_list hHead hShape
    have hAll : Upholds (Body.IsTraced S) (evalAll (.list (withoutPosition items))
        ((shape.inline ((withoutPosition items).drop 1)).map
          (evalOperand cx (resolve cx depth entered)))) fun r => AreTraced S r.2 :=
      upholds_evalAll fun x hx => hOperands x (hSame ▸ hx) _
    refine ⟨?_, fun s c t hs hRun => ?_⟩
    · rw [hEval]
      refine isEvaluable_traces.bind (isEvaluable_traces.check _ head shape) fun _ => ?_
      refine isEvaluable_traces.bind hAll.1 fun ops => ?_
      exact isEvaluable_traces.bind (traces_make shape cx _ head name _ ops.1) fun _ =>
        isEvaluable_traces.pure _
    · have hWhole := hRun
      rw [hEval] at hRun
      obtain ⟨_, s', hCheck, hRun⟩ := bind_eq_ok.mp hRun
      obtain ⟨⟨values, before⟩, u, hOps, hRun⟩ := bind_eq_ok.mp hRun
      obtain ⟨⟨v, own⟩, t', hMake, hRun⟩ := bind_eq_ok.mp hRun
      cases hRun
      rw [check_eq_ok hCheck] at hOps
      obtain ⟨hu, hBefore⟩ := hAll.2 s _ u hs hOps
      have hTraced : Body.IsTraced S t := by
        have hEnd := traces_make shape cx (.list (withoutPosition items)) head name
          (placed items location) values u hu
        rw [hMake] at hEnd
        exact hEnd
      refine ⟨hTraced, hBefore.append ?_⟩
      rcases own_of_make hMake with rfl | ⟨i, rfl, hOwn⟩
      · exact areTraced_nil
      · refine areTraced_singleton (hOwn ▸ S.placed hItems hPlace) fun _ => ⟨.list items, values,
          hItems, cx, depth, entered, name, location, v, before, s, t, u, ?_, ?_⟩
        · rw [evalBound, evalOperands_eq_map]
          exact hWhole
        · rw [hSame]
          exact hOps

variable (hResolve : ∀ name form, Traces S (resolve cx depth entered name form))
include hResolve

theorem upholds_atom {x : Form} (hAtom : ∀ items, x ≠ .list items) (form : Form) :
    Upholds (Body.IsTraced S) (evalOperand cx (resolve cx depth entered) x form) fun c =>
      AreTraced S c.2 := by
  have hTraces : Traces S (evalOperand cx (resolve cx depth entered) x form) :=
    isEvaluable_traces.evalOperand hResolve x (allows_traces x) form
  refine ⟨hTraces, ?_⟩
  rintro s ⟨v, is⟩ t hs hRun
  obtain ⟨ht, -⟩ := (upholds_of_meets hTraces).2 s _ t hs hRun
  obtain ⟨rfl, -⟩ := evalAtom_eq_ok hAtom hRun
  exact ⟨ht, areTraced_nil⟩

theorem upholds_evalOperand (x : Form) (hx : ∀ y ∈ expressions x, S.expression y) :
    ∀ form, Upholds (Body.IsTraced S) (evalOperand cx (resolve cx depth entered) x form) fun c =>
      AreTraced S c.2 := by
  induction x using Form.induct with
  | atom x hAtom => exact upholds_atom hResolve hAtom
  | list items ih =>
      intro form
      rw [Dump.evalOperand, evalOperands_eq_map]
      refine upholds_evalList "" S.nowhere (hx _ (mem_expressions_self items)) fun x hOperand => ?_
      obtain ⟨hItem, hBelow⟩ := expressions_of_mem_operandsOf hOperand
      exact ih x hItem fun y hy => hx y (hBelow hy)

/-- An expression with a name and a place of its own is traced like an operand. -/
theorem upholds_list (name : String) {location : Location} (hPlace : S.place location)
    {items : List Form} (hItems : ∀ y ∈ expressions (.list items), S.expression y) :
    Upholds (Body.IsTraced S) (evalList cx name location items
      (items.map (evalOperand cx (resolve cx depth entered)))) fun c => AreTraced S c.2 := by
  refine upholds_evalList name hPlace (hItems _ (mem_expressions_self items)) fun x hx => ?_
  obtain ⟨-, hBelow⟩ := expressions_of_mem_operandsOf hx
  exact upholds_evalOperand hResolve x fun y hy => hItems y (hBelow hy)

theorem upholds_evalBound (name : String) {location : Location} (hPlace : S.place location)
    {x : Form} (hx : ∀ y ∈ expressions x, S.expression y) :
    Upholds (Body.IsTraced S) (evalBound cx (resolve cx depth entered) name location x) fun c =>
      AreTraced S c.2 := by
  unfold evalBound
  split
  case h_1 items =>
    rw [evalOperands_eq_map]
    exact upholds_list hResolve name hPlace hx
  case h_2 hAtom => exact upholds_atom hResolve hAtom x

/-- The instructions of a let are kept with the expressions that they were loaded from. -/
theorem traces_evalLet (name : String) {stmt : Form} (hPlace : S.place (locationOf stmt.items))
    (hLet : ∀ x, letExpression? stmt = some x → ∀ y ∈ expressions x, S.expression y) :
    Traces S (evalLet cx (resolve cx depth entered) name stmt) := by
  unfold evalLet
  rcases splitPosition_eq stmt.items with hSplit | ⟨last, hSplit⟩
  · simp only [hSplit, pure_bind]
    cases hExpression : (withoutPosition stmt.items)[2]? with
    | none => exact fun _ hs => hs
    | some x =>
        refine (upholds_evalBound hResolve name hPlace (hLet x hExpression)).meets_bind
          fun c hc => ?_
        refine isEvaluable_traces.bind (fun s hs => ⟨hs.code, fun is his => ?_⟩) fun _ =>
          isEvaluable_traces.pure _
        rcases Table.mem_values_insert his with his | rfl
        · exact hs.built is his
        · exact hc
  · rw [hSplit]
    exact fun _ hs => hs

omit hResolve

/-- A statement is at one of the given places, and its expressions are among the given ones. -/
structure Sources.Cover (S : Sources) (stmt : Form) : Prop where
  place : S.place (locationOf stmt.items)
  parts : ∀ x ∈ partsOf stmt, ∀ y ∈ expressions x, S.expression y

theorem Sources.Cover.letExpression? {stmt : Form} (h : S.Cover stmt)
    (hLet : stmt.head? = some "let") {x : Form} (hx : letExpression? stmt = some x) :
    ∀ y ∈ expressions x, S.expression y := by
  refine h.parts x ?_
  rw [partsOf_let hLet, hx]
  exact List.mem_singleton_self x

/-- All lets are covered. -/
def Context.IsWithin (S : Sources) (cx : Context) : Prop :=
  ∀ name stmt, cx.lets.find? name = some stmt → stmt.head? = some "let" ∧ S.Cover stmt

variable (hLets : cx.IsWithin S)
include hLets

theorem traces_resolve (depth : Nat) (entered : List String) (name : String) (form : Form) :
    Traces S (resolve cx depth entered name form) := by
  induction depth generalizing entered name form with
  | zero =>
      rw [resolve]
      refine isEvaluable_traces.bind isEvaluable_traces.get fun body => ?_
      split
      case h_1 => exact isEvaluable_traces.pure _
      case h_2 =>
        split
        case h_1 => exact isEvaluable_traces.resolveOuter name form
        case h_2 => exact isEvaluable_traces.refused _ _ _
  | succ depth ih =>
      rw [resolve]
      refine isEvaluable_traces.bind isEvaluable_traces.get fun body => ?_
      split
      case h_1 => exact isEvaluable_traces.pure _
      case h_2 =>
        split
        case h_1 => exact isEvaluable_traces.resolveOuter name form
        case h_2 stmt hStmt =>
          dsimp only
          split
          case isTrue => exact isEvaluable_traces.refused _ _ _
          case isFalse =>
            obtain ⟨hLet, hCover⟩ := hLets name stmt hStmt
            exact traces_evalLet (ih (name :: entered)) name hCover.place fun x =>
              hCover.letExpression? hLet

theorem upholds_evalStatement {stmt : Form} (hCover : S.Cover stmt) :
    Upholds (Body.IsTraced S) (evalStatement cx stmt) (AreTraced S) := by
  have hLookup (name : String) (form : Form) : Traces S (cx.lookup name form) :=
    traces_resolve hLets _ _ name form
  rcases evalStatement_cases cx stmt with ⟨-, -, hEval⟩ | ⟨_, _, _, hEval⟩ |
    ⟨hLet, hEval⟩ | ⟨head, ending, hHead, hEnding, -, hEval⟩ |
    ⟨head, shape, hHead, -, hShape, hEval⟩
  all_goals rw [hEval]
  · exact upholds_throw _
  · exact upholds_throw _
  · refine upholds_get.bind fun body hBody => ?_
    split
    case h_1 is hBuilt => exact upholds_pure (hBody.built is (Table.mem_values_of_find? hBuilt))
    case h_2 =>
      have hEvalLet := traces_evalLet
        (traces_resolve hLets cx.lets.entries.length [letName stmt]) (letName stmt) hCover.place
        fun x => hCover.letExpression? hLet
      refine (upholds_of_meets (isEvaluable_traces.map _ hEvalLet)).bind fun _ _ => ?_
      refine upholds_get.bind fun body hBody => upholds_pure ?_
      cases hBuilt : body.built.find? (letName stmt) with
      | none => exact areTraced_nil
      | some is => exact hBody.built is (Table.mem_values_of_find? hBuilt)
  · have hParts := hCover.parts
    rw [partsOf_ending hHead hEnding] at hParts
    refine (upholds_evalAll fun x hx => upholds_evalOperand hLookup x (hParts x hx) _).bind
      fun r hr => upholds_pure (hr.append (areTraced_singleton hCover.place fun hCall => ?_))
    have hNone :
        Instr.isCall { location := locationOf stmt.items, op := ending.op r.1 } = false := by
      unfold Ending.op
      split
      all_goals rfl
    rw [hNone] at hCall
    cases hCall
  · have hParts := hCover.parts
    rw [partsOf_expression hHead hShape] at hParts
    exact (upholds_list hLookup "" hCover.place (hParts _ (List.mem_singleton_self _))).map
      fun _ hc => hc

theorem traces_evalStatements (i : Nat) {stmts : List Form}
    (hCover : ∀ stmt ∈ stmts, S.Cover stmt) :
    Traces S (evalStatements cx i stmts) := by
  induction stmts with
  | nil => exact isEvaluable_traces.pure _
  | cons stmt stmts ih =>
      rw [List.forall_mem_cons] at hCover
      rw [evalStatements]
      refine (upholds_evalStatement hLets hCover.1).meets_bind fun is his => ?_
      refine isEvaluable_traces.bind (fun s hs => ⟨fun j js hCode => ?_, hs.built⟩) fun _ =>
        ih hCover.2
      rw [code?_modifyBlock] at hCode
      obtain ⟨old, hOld, rfl⟩ := Option.map_eq_some_iff.mp hCode
      refine (hs.code j old hOld).append ?_
      split
      case isTrue => exact his
      case isFalse => exact areTraced_nil

theorem traces_fillBlocks (i : Nat) {bodies : List (List Form)}
    (hCover : ∀ stmts ∈ bodies, ∀ stmt ∈ stmts, S.Cover stmt) :
    Traces S (fillBlocks cx i bodies) := by
  induction bodies generalizing i with
  | nil => exact isEvaluable_traces.pure _
  | cons stmts bodies ih =>
      rw [List.forall_mem_cons] at hCover
      have hRest := ih (i + 1) hCover.2
      rw [fillBlocks]
      refine isEvaluable_traces.bind (traces_evalStatements hLets i hCover.1) fun _ => ?_
      refine isEvaluable_traces.bind isEvaluable_traces.get fun body => ?_
      dsimp only
      split
      case h_1 =>
        split
        case isTrue =>
          exact isEvaluable_traces.bind (isEvaluable_traces.refused _ _ _) fun _ => hRest
        case isFalse => exact hRest
      case h_2 => exact hRest

theorem traces_settlePhis (depth : Nat) : Traces S (settlePhis cx depth) := by
  have hPhi (phi : Phi) : Traces S (settlePhi cx phi) :=
    isEvaluable_traces.settlePhi (traces_resolve hLets _ _) (fun x _ => allows_traces x)
      fun _ _ hs => ⟨hs.code, hs.built⟩
  induction depth with
  | zero => exact isEvaluable_traces.pure _
  | succ depth ih =>
      rw [settlePhis]
      refine isEvaluable_traces.bind isEvaluable_traces.get fun body => ?_
      dsimp only
      split
      case isTrue => exact isEvaluable_traces.pure _
      case isFalse =>
        refine isEvaluable_traces.bind (fun _ hs => ⟨hs.code, hs.built⟩) fun _ => ?_
        exact isEvaluable_traces.bind (isEvaluable_traces.forM fun phi _ => hPhi phi) fun _ => ih

end Expressions

section Blocks

variable {cx : Context}

theorem isLayable_traces : IsLayable fun _ => Traces S where
  toIsClosed := isEvaluable_traces.toIsClosed
  header i f hf s hs := by
    refine ⟨fun j is hCode => ?_, hs.built⟩
    simp only [Body.code?, Array.getElem?_modify] at hCode
    by_cases hPlace : i = j
    · cases hBlock : s.blocks[j]? with
      | none => simp [hPlace, hBlock] at hCode
      | some b =>
          refine hs.code j is ?_
          simpa [hPlace, hBlock, hf, Body.code?] using hCode
    · refine hs.code j is ?_
      simpa [hPlace, Body.code?] using hCode

theorem traces_makeBlocks (last : Int) (place : Nat) (sorted : List (Int × Form)) :
    Traces S (makeBlocks cx last place sorted) := by
  induction sorted generalizing place with
  | nil => exact isEvaluable_traces.pure _
  | cons e sorted ih =>
      obtain ⟨index, form⟩ := e
      rw [makeBlocks]
      have hPush : Traces S (modify fun body : Body =>
          { body with blocks := body.blocks.push { index } }) := by
        refine fun s hs => ⟨fun j is hCode => ?_, hs.built⟩
        simp only [Body.code?, Array.getElem?_push] at hCode
        by_cases hLast : j = s.blocks.size
        · simp only [hLast, if_true, Option.map_some, Option.some.injEq] at hCode
          rw [← hCode]
          exact areTraced_nil
        · exact hs.code j is (by simpa [hLast, Body.code?] using hCode)
      have hRest := isEvaluable_traces.bind hPush fun _ => ih (place + 1)
      split
      case isTrue => exact isEvaluable_traces.bind (isEvaluable_traces.refused _ _ _) fun _ => hRest
      case isFalse => exact hRest

/-- The instructions of a body were loaded from the statements of its block forms. -/
theorem traces_loadBlocks (fn : Function) {forms : List Form}
    (hCover : ∀ block ∈ forms, ∀ stmt ∈ statementsOf block, S.Cover stmt) :
    Traces S (loadBlocks fn forms) := by
  unfold loadBlocks
  dsimp only
  refine isEvaluable_traces.bind (fun _ hs => ⟨hs.code, hs.built⟩) fun _ => ?_
  refine isEvaluable_traces.seq (isLayable_traces.sortBlocks forms) fun sorted hSorted => ?_
  refine isEvaluable_traces.bind (traces_makeBlocks _ 0 sorted) fun _ => ?_
  refine isEvaluable_traces.seq (isLayable_traces.readHeaders _ 0 sorted)
    fun ⟨cx, bodies⟩ hHeaders => ?_
  have hRead := areRead_of_returns rfl hSorted hHeaders
  have hAll : ∀ stmts ∈ bodies, ∀ stmt ∈ stmts, S.Cover stmt := by
    intro stmts hMem stmt hStmt
    obtain ⟨form, hForm, rfl⟩ := hRead.statements stmts hMem
    exact hCover form hForm stmt hStmt
  have hLets : cx.IsWithin S := by
    intro name stmt hFind
    obtain ⟨-, hLet, stmts, hMem, hStmt⟩ := hRead.of_find? hFind
    exact ⟨hLet, hAll stmts hMem stmt hStmt⟩
  refine isEvaluable_traces.bind (traces_fillBlocks hLets 0 hAll) fun _ => ?_
  exact isEvaluable_traces.bind isEvaluable_traces.get fun body => traces_settlePhis hLets _

/-- Giving phis their operands leaves them where they are. -/
theorem location_fillPhi (settled : List (Value × List Value)) (i : Instr) :
    (fillPhi settled i).location = i.location := by
  unfold fillPhi
  split
  case h_1 => split <;> rfl
  case h_2 => rfl

/-- Giving phis their operands leaves the calls alone. -/
theorem fillPhi_of_isCall {settled : List (Value × List Value)} {i : Instr}
    (h : (fillPhi settled i).isCall = true) : fillPhi settled i = i := by
  unfold fillPhi at h ⊢
  split at h
  case h_1 hOp =>
    split at h
    case h_1 => cases h
    case h_2 => simp [Instr.isCall, hOp] at h
  case h_2 => rfl

theorem Body.IsTraced.finished {s : Body} (hs : s.IsTraced S) {block : Block}
    (hBlock : block ∈ s.finished) : AreTraced S block.instrs := by
  obtain ⟨b, hb, rfl⟩ := Array.mem_map.mp hBlock
  obtain ⟨j, hj, rfl⟩ := Array.mem_iff_getElem.mp hb
  intro i hi
  obtain ⟨old, hOld, rfl⟩ := List.mem_map.mp hi
  have hOld := hs.code j s.blocks[j].instrs (by simp [Body.code?, hj]) old hOld
  refine ⟨location_fillPhi s.settled old ▸ hOld.1, fun hCall => ?_⟩
  have hSame := fillPhi_of_isCall hCall
  rw [hSame] at hCall ⊢
  exact hOld.2 hCall

end Blocks

end Traced

end Dump

end NilGuard
