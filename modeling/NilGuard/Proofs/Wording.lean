import NilGuard.Proofs.Mirror
/-! A body and the body renamed, loaded side by side. -/
namespace NilGuard.Dump

/-- How a function is renamed: the new names, the function as it is declared, and the names that
its body uses. -/
structure Wording where
  rename : Equiv.Perm String
  function : Function
  used : List String

def renameInstrs (ν : Naming) (is : List Instr) : List Instr :=
  is.map (Instr.relabel (Value.rename ν))

def renameComputed (ν : Naming) (c : Computed) : Computed := (c.1.rename ν, renameInstrs ν c.2)

def renameOperands (ν : Naming) (ops : List Value × List Instr) : List Value × List Instr :=
  (ops.1.map (Value.rename ν), renameInstrs ν ops.2)

def Phi.rename (σ : Equiv.Perm String) (ν : Naming) (phi : Phi) : Phi :=
  { value := phi.value.rename ν
    operands := phi.operands.map (Form.rename σ)
    form := phi.form.rename σ }

def Context.rename (σ : Equiv.Perm String) (cx : Context) : Context :=
  { cx with lets := cx.lets.rekey σ (renameStatement σ) }

namespace Wording

variable (w : Wording)

/-- All names that a form has as operands are names that the body uses. -/
def Covers (x : Form) : Prop := ∀ name ∈ operandNames x, name ∈ w.used

/-- Names that had a value before the body is loaded keep having one, and phis that wait use names
of the body. -/
def mirror : Mirror Body where
  count s := s.program.nextId
  image ν s :=
    { program := s.program.relabel (Value.rename ν)
      blocks := s.blocks.map (Block.relabel (Value.rename ν))
      names := s.names.rekey w.rename (Value.rename ν)
      built := s.built.rekey w.rename (renameInstrs ν)
      waiting := s.waiting.map (Phi.rename w.rename ν)
      settled := s.settled.map (Prod.map (Value.rename ν) (List.map (Value.rename ν))) }
  inv s :=
    (∀ name, s.names.find? name = none → (parameterNames w.function).find? name = none) ∧
      ∀ phi ∈ s.waiting, ∀ x ∈ phi.operands, w.Covers x
  knows _ _ := True

abbrev Follows {α β : Type} (x : BodyM α) (y : Naming → BodyM β) (r : Naming → α → β) : Prop :=
  w.mirror.Follows x y r

end Wording

/-! ### Values -/

section Values

variable {w : Wording}

theorem follows_refuse {α β : Type} {cx : Context} {y : Naming → BodyM β} {r : Naming → α → β}
    (problem : Problem) (form : Option Form) : w.Follows (cx.refuse problem form) y r :=
  follows_throw _

theorem follows_refuse_bind {α β γ : Type} {cx : Context} {f : γ → BodyM α} {y : Naming → BodyM β}
    {r : Naming → α → β} (problem : Problem) (form : Option Form) :
    w.Follows (cx.refuse problem form >>= f) y r := by
  rintro s a t hs ⟨⟩

/-- A fresh value has the same number in both loads, and whatever names it gets are its pair. -/
theorem follows_freshTag (name name' : String) (length : Int) :
    w.Follows (freshTag name length) (fun _ => freshTag name' length) Tag.rename := by
  rintro s _ _ hs ⟨⟩
  refine ⟨hs, [(name, name')], rfl, fun ν hGives _ => ⟨?_, trivial⟩⟩
  have hName : ν s.program.nextId name = name' := hGives 0 name name' rfl
  rw [Tag.rename, hName]
  rfl

theorem follows_freshLeaf (name name' : String) (origin : Origin) :
    w.Follows (freshLeaf name origin) (fun _ => freshLeaf name' origin) Value.rename :=
  (follows_freshTag name name' 0).bind fun _ _ => follows_pure fun _ => rfl

theorem follows_program (f : Program → Program) (g : Naming → Program → Program)
    (hCount : ∀ p, (f p).nextId = p.nextId)
    (hImage : ∀ ν p, g ν (p.relabel (Value.rename ν)) = (f p).relabel (Value.rename ν)) :
    w.Follows (modify fun body => { body with program := f body.program })
      (fun ν => modify fun body => { body with program := g ν body.program }) fun _ u => u := by
  refine follows_modify (fun _ hs => hs) (fun s => hCount s.program) (fun _ _ h => h) ?_
  intro ν s
  exact congrArg (fun p => { w.mirror.image ν s with program := p }) (hImage ν s.program)

theorem follows_globalValue (package name : String) :
    w.Follows (globalValue package name) (fun _ => globalValue package name) Value.rename := by
  have hAdd := follows_program (w := w) (·.addPackage package) (fun _ => (·.addPackage package))
    (fun _ => rfl) fun ν p => p.addPackage_relabel (Value.rename ν) package
  refine hAdd.bind fun _ _ => ?_
  apply follows_get_bind
  intro s _
  have hGlobal (ν : Naming) : ((w.mirror.image ν s).program.package? package).bind
      (·.globals.find? name) =
      ((s.program.package? package).bind (·.globals.find? name)).map (Value.rename ν) :=
    s.program.global?_relabel (Value.rename ν) package name
  simp only [hGlobal]
  cases (s.program.package? package).bind (·.globals.find? name) with
  | some v => exact follows_pure fun _ => rfl
  | none =>
      refine (follows_freshLeaf _ _ _).bind fun v _ => ?_
      have hInsert := follows_program (w := w)
        (fun p => p.modifyPackage package fun q => { q with globals := q.globals.insert name v })
        (fun ν p => p.modifyPackage package fun q =>
          { q with globals := q.globals.insert name (v.rename ν) })
        (fun _ => rfl) fun ν p => p.modifyPackage_relabel (Value.rename ν) package fun q => by
          simp only [Package.relabel, Table.insert_map]
      exact hInsert.bind fun _ _ => follows_pure fun _ => rfl

end Values

/-! ### Expressions -/

section Expressions

variable {w : Wording} {cx cx' : Context} {items : List Form} {head : String} {shape : Shape}

theorem follows_expect {form form' : Form} (hLength : form'.items.length = form.items.length)
    (head : String) (atLeast : Bool) (count : Nat) :
    w.Follows (expect cx form head atLeast count) (fun _ => expect cx' form' head atLeast count)
      fun _ u => u := by
  unfold expect
  dsimp only
  rw [hLength]
  split
  case isTrue => exact follows_refuse _ _
  case isFalse => exact follows_pure fun _ => rfl

theorem follows_check (shape : Shape) (items : List Form) (head : String) :
    w.Follows (shape.check cx (.list items) head)
      (fun _ => shape.check cx' (.list (shape.renameItems w.rename items)) head) fun _ u => u := by
  have hExpect (atLeast : Bool) (count : Nat) : w.Follows
      (expect cx (.list items) head atLeast count)
      (fun _ => expect cx' (.list (shape.renameItems w.rename items)) head atLeast count)
      fun _ u => u := by
    apply follows_expect
    exact shape.length_renameItems items
  cases shape with
  | const | simple | phi => exact follows_pure fun _ => rfl
  | arrayPtr =>
      have hLength : ((Shape.arrayPtr.renameItems w.rename items).drop 1)[1]? =
          (items.drop 1)[1]? := Shape.arg_renameItems rfl items
      simp only [Shape.check, Form.items, hLength]
      refine (hExpect false 2).bind fun _ _ => ?_
      cases ((items.drop 1)[1]?).bind Form.int? with
      | none => exact follows_refuse _ _
      | some length =>
          dsimp only
          split
          case isTrue => exact follows_refuse _ _
          case isFalse => exact follows_pure fun _ => rfl
  | global | funcRef | fieldAddr | callDynamic | closure | call | single | binop | callMethod =>
      exact hExpect _ _

theorem follows_evalAll {operand operand' : Form → Operand} {xs : List Form}
    (h : ∀ x ∈ xs, ∀ form form', w.Follows (operand x form)
      (fun _ => operand' (x.rename w.rename) form') renameComputed) (form form' : Form) :
    w.Follows (evalAll form (xs.map operand))
      (fun _ => evalAll form' ((xs.map (Form.rename w.rename)).map operand')) renameOperands := by
  induction xs with
  | nil => exact follows_pure fun _ => rfl
  | cons x xs ih =>
      refine (h x List.mem_cons_self form form').bind fun c _ => ?_
      refine (ih fun y hy => h y (List.mem_cons_of_mem x hy)).bind fun ops _ => ?_
      apply follows_pure
      intro ν
      simp [renameOperands, renameInstrs]

theorem follows_defineAs (name name' : String) (length : Int) (location : Location)
    {make : Tag → Value} {make' : Naming → Tag → Value} {values : List Value}
    (hMake : ∀ ν tag, make' ν (tag.rename ν) = (make tag).rename ν) :
    w.Follows (defineAs name length location make (values, []))
      (fun ν => defineAs name' length location (make' ν) (values.map (Value.rename ν), []))
      renameComputed := by
  refine (follows_freshTag name name' length).bind fun tag _ => ?_
  apply follows_pure
  intro ν
  simp [renameComputed, renameInstrs, hMake, Instr.relabel, Op.relabel]

theorem follows_define (form form' : Form) (head head' name name' : String) (length : Int)
    (location : Location) (kind : Kind) (values : List Value) :
    w.Follows (define cx form head name length location kind (values, []))
      (fun ν => define cx' form' head' name' length location kind (values.map (Value.rename ν), []))
      renameComputed := by
  cases kind with
  | leaf o => exact follows_defineAs name name' length location fun _ _ => rfl
  | converted c =>
      cases values with
      | nil => exact follows_refuse _ _
      | cons v vs => exact follows_defineAs name name' length location fun _ _ => rfl

theorem follows_call (name name' : String) (location : Location) (callee : Option Callee)
    (values : List Value) :
    w.Follows (call name location callee (values, []))
      (fun ν => call name' location callee (values.map (Value.rename ν), [])) renameComputed := by
  refine (follows_freshLeaf name name' .other).bind fun v _ => ?_
  apply follows_pure
  intro ν
  simp [renameComputed, renameInstrs, Instr.relabel, Op.relabel]

theorem follows_makePhi (hHead : (Form.list items).head? = some head)
    (hShape : Shape.ofHead? head = some .phi) (hCovers : ∀ x ∈ items.drop 1, w.Covers x)
    (name name' : String) (location : Location) (values : List Value) :
    w.Follows (Shape.phi.make cx (.list items) head name location values)
      (fun ν => Shape.phi.make cx' (.list (Shape.phi.renameItems w.rename items)) head name'
        location (values.map (Value.rename ν))) renameComputed := by
  refine (follows_freshLeaf name name' .other).bind fun v _ => ?_
  have hPhi (ν : Naming) : (⟨v.rename ν, (Shape.phi.renameItems w.rename items).drop 1,
      .list (Shape.phi.renameItems w.rename items)⟩ : Phi) =
      Phi.rename w.rename ν ⟨v, items.drop 1, .list items⟩ := by
    rw [Phi.rename, rename_list hHead hShape]
    exact congrArg (fun operands => Phi.mk _ operands _) (Shape.phi.operands_renameItems items)
  have hWait : w.Follows
      (modify fun body => { body with waiting := body.waiting ++ [⟨v, items.drop 1, .list items⟩] })
      (fun ν => modify fun body => { body with waiting := body.waiting ++
        [⟨v.rename ν, (Shape.phi.renameItems w.rename items).drop 1,
          .list (Shape.phi.renameItems w.rename items)⟩] }) fun _ u => u := by
    apply follows_modify
    · rintro s ⟨hBound, hWaiting⟩
      refine ⟨hBound, List.forall_mem_append.mpr ⟨hWaiting, ?_⟩⟩
      exact List.forall_mem_singleton.mpr hCovers
    · exact fun _ => rfl
    · exact fun _ _ h => h
    · intro ν s
      simp only [hPhi, Wording.mirror, List.map_append, List.map_cons, List.map_nil]
  refine hWait.bind fun _ _ => follows_pure fun ν => ?_
  rfl

theorem follows_make (hHead : (Form.list items).head? = some head)
    (hShape : Shape.ofHead? head = some shape)
    (hCovers : ∀ x ∈ shape.operands (items.drop 1), w.Covers x) (name name' : String)
    (location : Location) (values : List Value) :
    w.Follows (shape.make cx (.list items) head name location values)
      (fun ν => shape.make cx' (.list (shape.renameItems w.rename items)) head name' location
        (values.map (Value.rename ν))) renameComputed := by
  -- the arguments that are no operands are the same in both
  have hArg (i : Nat) (h : shape.isOperand (1 + i) = false) :
      ((shape.renameItems w.rename items).drop 1)[i]? = (items.drop 1)[i]? :=
    Shape.arg_renameItems h items
  have hText (i : Nat) (h : shape.isOperand (1 + i) = false) :
      Shape.argText (.list (shape.renameItems w.rename items)) i =
        Shape.argText (.list items) i := by
    rw [Shape.argText, Shape.argText, Form.items, hArg i h, Form.items]
  have hNil : w.Follows (do return (← freshNil name, []))
      (fun _ => do return (← freshNil name', [])) renameComputed :=
    (follows_freshLeaf _ _ _).bind fun _ _ => follows_pure fun _ => rfl
  cases shape with
  | const =>
      have hSame : Shape.const.renameItems w.rename items = items :=
        List.ext_getElem? fun i => by
          rw [Shape.renameItems, List.getElem?_mapIdx]
          exact Option.map_id'
      simp only [Shape.make, hSame]
      cases (Form.list items).items.drop 1 with
      | nil => exact hNil
      | cons x xs =>
          simp only
          cases x.isNil with
          | true => exact hNil
          | false => exact (follows_freshLeaf _ _ _).bind fun _ _ => follows_pure fun _ => rfl
  | global =>
      simp only [Shape.make, hText 0 rfl, hText 1 rfl]
      exact (follows_globalValue _ _).bind fun _ _ => follows_pure fun _ => rfl
  | funcRef =>
      simp only [Shape.make, hText 0 rfl, hText 1 rfl]
      exact (follows_freshLeaf _ _ _).bind fun _ _ => follows_pure fun _ => rfl
  | simple | fieldAddr | closure | single =>
      simp only [Shape.make]
      exact follows_define _ _ _ _ _ _ _ _ _ _
  | arrayPtr =>
      simp only [Shape.make, Form.items, hArg 1 rfl]
      exact follows_define _ _ _ _ _ _ _ _ _ _
  | phi => exact follows_makePhi hHead hShape hCovers name name' location values
  | binop =>
      simp only [Shape.make, hText 0 rfl, List.getElem?_map]
      exact (follows_freshLeaf _ _ _).bind fun _ _ => follows_pure fun _ => rfl
  | call =>
      simp only [Shape.make, hText 0 rfl, hText 1 rfl]
      exact follows_call _ _ _ _ _
  | callMethod =>
      simp only [Shape.make, hText 0 rfl, hText 1 rfl, hText 2 rfl]
      exact follows_call _ _ _ _ _
  | callDynamic =>
      simp only [Shape.make, ← List.map_drop]
      exact follows_call _ _ _ _ _

theorem splitPosition_eq_elim (items : List Form) : splitPosition items =
    (ownPosition? items).elim (pure (items, {})) fun last =>
      (location? last).elim (throw (.refused none .badPosition (some last))) fun l =>
        pure (items.dropLast, l) := by
  unfold splitPosition ownPosition?
  cases items.getLast? with
  | none => rfl
  | some last =>
      by_cases hOwn : 1 < items.length ∧ last.head? = some "pos"
      · simp only [Option.filter_some, if_pos hOwn, decide_eq_true hOwn, if_true, Option.elim_some]
        cases location? last with
        | none => rfl
        | some l => rfl
      · rw [Option.filter_some, if_neg (by simpa using hOwn), Option.elim_none]
        exact if_neg hOwn

theorem eq_of_returns_splitPosition {split : List Form × Location}
    (h : Returns (splitPosition items) split) :
    split = (withoutPosition items, locationOf items) := by
  obtain ⟨s, t, hRun⟩ := h
  rcases splitPosition_eq items with hSplit | ⟨last, hSplit⟩
  · rw [hSplit] at hRun
    cases hRun
    rfl
  · rw [hSplit] at hRun
    cases hRun

/-- Whether a list can be split depends on its position only. -/
theorem follows_splitPosition {items' : List Form}
    (hOwn : ownPosition? items' = ownPosition? items) :
    w.Follows (splitPosition items) (fun _ => splitPosition items')
      fun _ _ => (withoutPosition items', locationOf items) := by
  rw [splitPosition_eq_elim, splitPosition_eq_elim, hOwn, withoutPosition, locationOf, hOwn]
  cases ownPosition? items with
  | none => exact follows_pure fun _ => rfl
  | some last =>
      cases hLocation : location? last with
      | none =>
          simp only [Option.elim_some, hLocation, Option.elim_none]
          exact follows_throw _
      | some l =>
          simp only [Option.elim_some, hLocation]
          apply follows_pure
          intro ν
          simp [hLocation]

theorem evalList_eq (operand : Form → Operand) (name : String) (location : Location)
    (hHead : (Form.list items).head? = some head) (hShape : Shape.ofHead? head = some shape) :
    evalList cx name location items (items.map operand) =
      splitPosition items >>= fun _ => evalAs cx operand head shape name location items := by
  unfold evalList
  rw [hHead]
  simp only [hShape]
  rcases splitPosition_eq items with hSplit | ⟨last, hSplit⟩
  · have hArgs := argsOf_map items operand
    simp only [hSplit, pure_bind]
    rw [evalShape_eq, ← argsOf, hArgs, Shape.map_inline]
    rfl
  · rw [hSplit]
    rfl

section Operands

variable {operand operand' : Form → Operand}
  (hOperands : ∀ x ∈ items, w.Covers x → ∀ form form', w.Follows (operand x form)
    (fun _ => operand' (x.rename w.rename) form') renameComputed)
  (hCovers : w.Covers (.list items))
include hOperands hCovers

theorem follows_evalAs (hHead : (Form.list items).head? = some head)
    (hShape : Shape.ofHead? head = some shape) (name name' : String) (location : Location) :
    w.Follows (evalAs cx operand head shape name location items)
      (fun _ => evalAs cx' operand' head shape name' location (shape.renameItems w.rename items))
      renameComputed := by
  have hLocation : locationOf (shape.renameItems w.rename items) = locationOf items := by
    rw [locationOf, locationOf, ownPosition?_renameItems]
  have hPlaced : placed (shape.renameItems w.rename items) location = placed items location := by
    rw [placed, placed, hLocation]
  have hFront : (Form.list (withoutPosition items)).head? = some head := by
    rw [head?_withoutPosition, hHead]
  have hArgs : ∀ x ∈ shape.operands ((withoutPosition items).drop 1), w.Covers x :=
    fun x hx name hName => hCovers name (operandNames_of_mem hHead hShape hx hName)
  unfold evalAs
  simp only [hPlaced, withoutPosition_renameItems, Form.items, Shape.inline_renameItems]
  refine (follows_check shape _ head).bind fun _ _ => ?_
  refine (follows_evalAll (fun x hx => ?_) _ _).bind fun ops _ => ?_
  · exact hOperands x (mem_of_mem_inline hx) (hArgs x (Shape.inline_subset_operands hx))
  · refine (follows_make hFront hShape hArgs name name' _ ops.1).bind fun c _ => ?_
    apply follows_pure
    intro ν
    simp [renameComputed, renameOperands, renameInstrs]

theorem follows_evalList (name name' : String) (location : Location) :
    w.Follows (evalList cx name location items (items.map operand))
      (fun _ => evalList cx' name' location ((Form.list items).rename w.rename).items
        (((Form.list items).rename w.rename).items.map operand')) renameComputed := by
  cases hHead : (Form.list items).head? with
  | none =>
      rw [evalList, hHead]
      exact follows_throw _
  | some head =>
      cases hShape : Shape.ofHead? head with
      | none =>
          simp only [evalList, hHead, hShape]
          exact follows_refuse _ _
      | some shape =>
          have hFront := head?_rename (σ := w.rename) (.list items)
          rw [rename_list hHead hShape, hHead] at hFront
          rw [rename_list hHead hShape, Form.items, evalList_eq operand name location hHead hShape,
            evalList_eq operand' name' location hFront hShape]
          refine (follows_splitPosition (ownPosition?_renameItems shape items)).bind fun _ _ => ?_
          exact follows_evalAs hOperands hCovers hHead hShape name name' location

end Operands

section Resolver

variable {resolve resolve' : String → Form → BodyM Value}
  (hResolve : ∀ name ∈ w.used, ∀ form form', w.Follows (resolve name form)
    (fun _ => resolve' (w.rename name) form') Value.rename)
include hResolve

theorem follows_evalOperand (x : Form) (hCovers : w.Covers x) : ∀ form form',
    w.Follows (evalOperand cx resolve x form)
      (fun _ => evalOperand cx' resolve' (x.rename w.rename) form') renameComputed := by
  induction x using Form.induct with
  | atom x hAtom =>
      intro form form'
      cases x with
      | int | real | str =>
          exact (follows_freshLeaf _ _ _).bind fun _ _ => follows_pure fun _ => rfl
      | sym s =>
          have hUsed : s ∈ w.used := hCovers s (List.mem_singleton_self s)
          exact (hResolve s hUsed form form').bind fun _ _ => follows_pure fun _ => rfl
      | list items => exact absurd rfl (hAtom items)
  | list items ih =>
      intro form form'
      rw [← list_items_rename, evalOperand, evalOperand, evalOperands_eq_map, evalOperands_eq_map]
      exact follows_evalList ih hCovers "" "" {}

theorem follows_evalBound (name name' : String) (location : Location) {x : Form}
    (hCovers : w.Covers x) :
    w.Follows (evalBound cx resolve name location x)
      (fun _ => evalBound cx' resolve' name' location (x.rename w.rename)) renameComputed := by
  have hOperand : w.Follows (evalOperand cx resolve x x)
      (fun _ => evalOperand cx' resolve' (x.rename w.rename) (x.rename w.rename)) renameComputed :=
    follows_evalOperand hResolve x hCovers x _
  cases x with
  | list items =>
      rw [← list_items_rename, evalBound, evalBound, evalOperands_eq_map, evalOperands_eq_map]
      exact follows_evalList (fun x _ hx => follows_evalOperand hResolve x hx) hCovers name name'
        location
  | int | real | str | sym => exact hOperand

end Resolver

end Expressions

/-! ### Statements -/

/-- The wording fits the lets of a context: a name that the body uses is not renamed, or it has a
value, or a let; and the lets use names of the body. -/
structure Wording.Fits (w : Wording) (cx : Context) : Prop where
  names : ∀ name ∈ w.used, w.rename name = name ∨
    ((parameterNames w.function).find? name).isSome ∨ (cx.lets.find? name).isSome
  lets : ∀ name stmt, cx.lets.find? name = some stmt → stmt.head? = some "let" ∧
    3 ≤ stmt.items.length ∧ ∀ x, letExpression? stmt = some x → w.Covers x

section Statements

variable {w : Wording} {cx cx' : Context}

theorem follows_bindName (name : String) (c : Computed) : w.Follows
    (modify fun body =>
      { body with names := body.names.insert name c.1, built := body.built.insert name c.2 })
    (fun ν => modify fun body =>
      { body with
        names := body.names.insert (w.rename name) (c.1.rename ν)
        built := body.built.insert (w.rename name) (renameInstrs ν c.2) })
    fun _ u => u := by
  apply follows_modify
  · rintro s ⟨hNames, hWaiting⟩
    refine ⟨fun other hOther => hNames other ?_, hWaiting⟩
    dsimp only at hOther
    rw [Table.find?_insert] at hOther
    split at hOther
    case isTrue => cases hOther
    case isFalse => exact hOther
  · exact fun _ => rfl
  · exact fun _ _ h => h
  · intro ν s
    simp only [Wording.mirror, Table.insert_rekey w.rename.injective]

theorem follows_evalLet {resolve resolve' : String → Form → BodyM Value}
    (hResolve : ∀ name ∈ w.used, ∀ form form', w.Follows (resolve name form)
      (fun _ => resolve' (w.rename name) form') Value.rename) {name : String} {stmt : Form}
    (hLet : stmt.head? = some "let") (hLong : 3 ≤ stmt.items.length)
    (hCovers : ∀ x, letExpression? stmt = some x → w.Covers x) :
    w.Follows (evalLet cx resolve name stmt)
      (fun _ => evalLet cx' resolve' (w.rename name) (renameStatement w.rename stmt))
      Value.rename := by
  have hExpression := letExpression?_renameStatement (σ := w.rename) hLet hLong
  refine (follows_splitPosition (ownPosition?_renameStatement fun _ => hLong)).bind
    fun split hSplit => ?_
  rw [eq_of_returns_splitPosition hSplit.returns]
  cases hFound : letExpression? stmt with
  | none =>
      rw [hFound, Option.map_none, letExpression?] at hExpression
      rw [letExpression?] at hFound
      simp only [hFound, hExpression]
      exact follows_throw _
  | some x =>
      have hFits := hCovers x hFound
      rw [hFound, Option.map_some, letExpression?] at hExpression
      rw [letExpression?] at hFound
      simp only [hFound, hExpression]
      refine (follows_evalBound hResolve name (w.rename name) _ hFits).bind fun c _ => ?_
      exact (follows_bindName name c).bind fun _ _ => follows_pure fun _ => rfl

theorem follows_resolveOuter {name : String} (hCallee : cx'.callee = cx.callee)
    (form form' : Form) :
    w.Follows (resolveOuter cx name form) (fun _ => resolveOuter cx' name form') Value.rename := by
  unfold resolveOuter
  rw [hCallee]
  split
  case isTrue => exact follows_freshLeaf _ _ _
  case isFalse =>
    apply follows_get_bind
    intro s _
    have hGlobal (ν : Naming) :
        ((w.mirror.image ν s).program.package? cx.callee.package).bind (·.globals.find? name) =
          ((s.program.package? cx.callee.package).bind (·.globals.find? name)).map
            (Value.rename ν) :=
      s.program.global?_relabel (Value.rename ν) _ name
    have hConst (ν : Naming) :
        ((w.mirror.image ν s).program.package? cx.callee.package).bind (·.consts.find? name) =
          ((s.program.package? cx.callee.package).bind (·.consts.find? name)).map
            (Value.rename ν) :=
      s.program.const?_relabel (Value.rename ν) _ name
    simp only [hGlobal, hConst]
    cases (s.program.package? cx.callee.package).bind (·.globals.find? name) with
    | some v => exact follows_pure fun _ => rfl
    | none =>
        cases (s.program.package? cx.callee.package).bind (·.consts.find? name) with
        | some v => exact follows_pure fun _ => rfl
        | none => exact follows_refuse _ _

/-- The value of a name that has none so far. -/
def resolveUnbound (cx : Context) (depth : Nat) (entered : List String) (name : String)
    (form : Form) : BodyM Value :=
  match cx.lets.find? name with
  | none => resolveOuter cx name form
  | some stmt =>
    match depth with
    | 0 => cx.refuse (.dependsOnItself name) (some stmt)
    | depth + 1 =>
      if name ∈ entered then cx.refuse (.dependsOnItself name) (some stmt)
      else evalLet cx (resolve cx depth (name :: entered)) name stmt

theorem resolve_eq (depth : Nat) (entered : List String) (name : String) (form : Form) :
    resolve cx depth entered name form = get >>= fun body =>
      match body.names.find? name with
      | some v => pure v
      | none => resolveUnbound cx depth entered name form := by
  rw [resolve]
  rfl

section Below

-- what holds of the names that are met on the way
variable (hFits : w.Fits cx) {depth : Nat}
  (hBelow : ∀ below, depth = below + 1 → ∀ (entered : List String), ∀ name ∈ w.used,
    ∀ form form', w.Follows (resolve cx below entered name form)
      (fun _ => resolve (cx.rename w.rename) below (entered.map w.rename) (w.rename name) form')
      Value.rename)
include hFits hBelow

theorem follows_resolveUnbound (entered : List String) {name : String}
    (hName : (cx.lets.find? name).isNone → w.rename name = name) (form form' : Form) :
    w.Follows (resolveUnbound cx depth entered name form)
      (fun _ => resolveUnbound (cx.rename w.rename) depth (entered.map w.rename) (w.rename name)
        form') Value.rename := by
  have hLets : (cx.rename w.rename).lets.find? (w.rename name) =
      (cx.lets.find? name).map (renameStatement w.rename) :=
    Table.find?_rekey w.rename.injective cx.lets name
  unfold resolveUnbound
  rw [hLets]
  cases hLet : cx.lets.find? name with
  | none =>
      rw [hName (by rw [hLet]; rfl)]
      exact follows_resolveOuter rfl form form'
  | some stmt =>
      obtain ⟨hHead, hLong, hCovers⟩ := hFits.lets name stmt hLet
      cases depth with
      | zero => exact follows_refuse _ _
      | succ below =>
          have hEntered : w.rename name ∈ entered.map w.rename ↔ name ∈ entered :=
            List.mem_map_of_injective w.rename.injective
          simp only [Option.map_some, hEntered]
          split
          case isTrue => exact follows_refuse _ _
          case isFalse =>
            exact follows_evalLet (hBelow below rfl (name :: entered)) hHead hLong hCovers

/-- A name that the body uses stands for what its new name stands for. -/
theorem follows_resolve_of_below (entered : List String) {name : String} (hUsed : name ∈ w.used)
    (form form' : Form) :
    w.Follows (resolve cx depth entered name form)
      (fun _ => resolve (cx.rename w.rename) depth (entered.map w.rename) (w.rename name) form')
      Value.rename := by
  simp only [resolve_eq]
  apply follows_get_bind
  intro s hs
  have hNames (ν : Naming) : (w.mirror.image ν s).names.find? (w.rename name) =
      (s.names.find? name).map (Value.rename ν) :=
    Table.find?_rekey w.rename.injective s.names name
  simp only [hNames]
  cases hName : s.names.find? name with
  | some v => exact follows_pure fun _ => rfl
  | none =>
      have hOuter : (cx.lets.find? name).isNone → w.rename name = name := by
        intro hNone
        rcases hFits.names name hUsed with hSame | hBound | hLet
        · exact hSame
        · rw [hs.1 name hName] at hBound
          cases hBound
        · rw [Option.isNone_iff_eq_none.mp hNone] at hLet
          cases hLet
      exact follows_resolveUnbound hFits hBelow entered hOuter form form'

end Below

theorem follows_resolve (hFits : w.Fits cx) (depth : Nat) (entered : List String) :
    ∀ name ∈ w.used, ∀ form form', w.Follows (resolve cx depth entered name form)
      (fun _ => resolve (cx.rename w.rename) depth (entered.map w.rename) (w.rename name) form')
      Value.rename := by
  induction depth generalizing entered with
  | zero =>
      intro name hUsed
      exact follows_resolve_of_below hFits (fun _ h => absurd h (Nat.succ_ne_zero _).symm) entered
        hUsed
  | succ depth ih =>
      intro name hUsed
      refine follows_resolve_of_below hFits (fun below h entered => ?_) entered hUsed
      rw [← Nat.succ.inj h]
      exact ih entered

theorem follows_lookup (hFits : w.Fits cx) : ∀ name ∈ w.used, ∀ form form',
    w.Follows (cx.lookup name form)
      (fun _ => (cx.rename w.rename).lookup (w.rename name) form') Value.rename := by
  have hLength : (cx.rename w.rename).lets.entries.length = cx.lets.entries.length :=
    List.length_map _
  unfold Context.lookup
  rw [hLength]
  exact follows_resolve hFits cx.lets.entries.length []

theorem evalStatement_let {stmt : Form} (hLet : stmt.head? = some "let") :
    evalStatement cx stmt = evalLetStatement cx stmt := by
  cases stmt with
  | list all =>
      unfold evalStatement
      simp only [if_pos hLet]
      rfl
  | _ => cases hLet

theorem evalStatement_ending {stmt : Form} {head : String} {ending : Ending}
    (hHead : stmt.head? = some head) (hEnding : Ending.ofHead? head = some ending)
    (hTakes : ending.takes ((withoutPosition stmt.items).drop 1).length = true) :
    evalStatement cx stmt = splitPosition stmt.items >>= fun _ => evalEnding cx ending stmt := by
  cases stmt with
  | list all =>
      unfold evalStatement
      simp only [if_neg (head?_ne_let_of_ending hHead hEnding), Form.items] at hTakes ⊢
      rcases splitPosition_eq all with hSplit | ⟨last, hSplit⟩
      case inr =>
        rw [hSplit]
        rfl
      simp only [hSplit, pure_bind, evalOperands_eq_map, ← List.map_drop, hHead]
      unfold Ending.ofHead? at hEnding
      split at hEnding
      case h_1 =>
        cases hEnding
        obtain ⟨x, hArgs⟩ := List.length_eq_one_iff.mp (beq_iff_eq.mp hTakes)
        rw [evalEnding_branch cx (.list all) hArgs]
        simp only [hArgs, List.map_cons, List.map_nil]
        rfl
      case h_2 =>
        cases hEnding
        rfl
      case h_3 =>
        cases hEnding
        rfl
      case h_4 =>
        cases hEnding
        simp only [← List.map_take]
        rfl
      case h_5 =>
        cases hEnding
        obtain ⟨x, y, hArgs⟩ := List.length_eq_two.mp (beq_iff_eq.mp hTakes)
        rw [evalEnding_store cx (.list all) hArgs]
        simp only [hArgs, List.map_cons, List.map_nil]
        rfl
      case h_6 => cases hEnding
  | _ => cases hHead

theorem evalStatement_expression {stmt : Form} {head : String} {shape : Shape}
    (hHead : stmt.head? = some head) (hShape : Shape.ofHead? head = some shape) :
    evalStatement cx stmt = splitPosition stmt.items >>= fun _ => Prod.snd <$>
      evalList cx "" (locationOf stmt.items) (withoutPosition stmt.items)
        ((withoutPosition stmt.items).map (evalOperand cx cx.lookup)) := by
  cases stmt with
  | list all =>
      unfold evalStatement
      simp only [if_neg (head?_ne_let_of_shape hHead hShape), Form.items]
      rcases splitPosition_eq all with hSplit | ⟨last, hSplit⟩
      case inr =>
        rw [hSplit]
        rfl
      simp only [hSplit, pure_bind, evalOperands_eq_map, hHead]
      have hEnding := Ending.ofHead?_eq_none hShape
      unfold Ending.ofHead? at hEnding
      split at hEnding
      case h_6 => simp [hShape]
      all_goals cases hEnding
  | _ => cases hHead

theorem follows_evalLetStatement (hFits : w.Fits cx) {stmt : Form}
    (hLet : stmt.head? = some "let") (hLong : 3 ≤ stmt.items.length)
    (hCovers : ∀ x, letExpression? stmt = some x → w.Covers x) :
    w.Follows (evalLetStatement cx stmt)
      (fun _ => evalLetStatement (cx.rename w.rename) (renameStatement w.rename stmt))
      renameInstrs := by
  have hLength : (cx.rename w.rename).lets.entries.length = cx.lets.entries.length :=
    List.length_map _
  have hBuilt (ν : Naming) (s : Body) :
      (w.mirror.image ν s).built.find? (w.rename (letName stmt)) =
        (s.built.find? (letName stmt)).map (renameInstrs ν) :=
    Table.find?_rekey w.rename.injective s.built (letName stmt)
  unfold evalLetStatement
  rw [letName_renameStatement hLet hLong, hLength]
  apply follows_get_bind
  intro s _
  simp only [hBuilt]
  cases s.built.find? (letName stmt) with
  | some is => exact follows_pure fun _ => rfl
  | none =>
      have hResolve := follows_resolve hFits cx.lets.entries.length [letName stmt]
      refine (follows_evalLet hResolve hLet hLong hCovers).discard.bind fun _ _ => ?_
      apply follows_get_bind
      intro t _
      apply follows_pure
      intro ν
      rw [hBuilt]
      cases t.built.find? (letName stmt) <;> rfl

theorem follows_evalEnding (hFits : w.Fits cx) {stmt : Form} {head : String} {ending : Ending}
    (hHead : stmt.head? = some head) (hEnding : Ending.ofHead? head = some ending)
    (hCovers : ∀ x ∈ ending.operands ((withoutPosition stmt.items).drop 1), w.Covers x) :
    w.Follows (evalEnding cx ending stmt)
      (fun _ => evalEnding (cx.rename w.rename) ending (renameStatement w.rename stmt))
      renameInstrs := by
  have hLong : stmt.head? = some "let" → 3 ≤ stmt.items.length :=
    fun hLet => absurd hLet (head?_ne_let_of_ending hHead hEnding)
  have hOwn := ownPosition?_renameStatement (σ := w.rename) hLong
  have hLocation : locationOf (renameStatement w.rename stmt).items = locationOf stmt.items := by
    rw [locationOf, locationOf, hOwn]
  have hOp (ν : Naming) (vs : List Value) :
      (ending.op vs).relabel (Value.rename ν) = ending.op (vs.map (Value.rename ν)) := by
    cases ending with
    | branch | panic => cases vs <;> rfl
    | jump => rfl
    | ret => simp [Ending.op, Op.relabel]
    | store =>
        cases vs with
        | nil => rfl
        | cons _ rest => cases rest <;> rfl
  rw [items_renameStatement] at hOwn hLocation
  unfold evalEnding
  simp only [items_renameStatement, hLocation, withoutPosition_mapIdx hOwn,
    Ending.operands_renameStatement hHead hEnding]
  refine (follows_evalAll (fun x hx => ?_) _ _).bind fun ops _ => follows_pure fun ν => ?_
  · exact follows_evalOperand (follows_lookup hFits) x (hCovers x hx)
  · simp [renameOperands, renameInstrs, Instr.relabel, hOp]

theorem follows_evalStatement (hFits : w.Fits cx) {stmt : Form}
    (hLong : stmt.head? = some "let" → 3 ≤ stmt.items.length)
    (hNames : ∀ name ∈ statementNames stmt, name ∈ w.used) :
    w.Follows (evalStatement cx stmt)
      (fun _ => evalStatement (cx.rename w.rename) (renameStatement w.rename stmt))
      renameInstrs := by
  have hCovers : ∀ x ∈ partsOf stmt, w.Covers x :=
    fun x hx name hName => hNames name (statementNames_of_mem_partsOf hx hName)
  have hOwn := ownPosition?_renameStatement (σ := w.rename) hLong
  have hFront := head?_renameStatement (σ := w.rename) stmt
  rcases evalStatement_cases cx stmt with ⟨-, -, hEval⟩ | ⟨_, _, _, hEval⟩ |
    ⟨hLet, -⟩ | ⟨head, ending, hHead, hEnding, hTakes, -⟩ | ⟨head, shape, hHead, -, hShape, -⟩
  · rw [hEval]
    exact follows_throw _
  · rw [hEval]
    exact follows_throw _
  · rw [evalStatement_let hLet, evalStatement_let (hFront.trans hLet)]
    rw [partsOf_let hLet] at hCovers
    exact follows_evalLetStatement hFits hLet (hLong hLet) fun x hx =>
      hCovers x (Option.mem_toList.mpr hx)
  · have hCount : ((withoutPosition (renameStatement w.rename stmt).items).drop 1).length =
        ((withoutPosition stmt.items).drop 1).length := by
      rw [items_renameStatement] at hOwn ⊢
      rw [withoutPosition_mapIdx hOwn, List.length_drop, List.length_drop, List.length_mapIdx]
    rw [evalStatement_ending hHead hEnding hTakes,
      evalStatement_ending (hFront.trans hHead) hEnding (by rwa [hCount])]
    rw [partsOf_ending hHead hEnding] at hCovers
    exact (follows_splitPosition hOwn).bind fun _ _ =>
      follows_evalEnding hFits hHead hEnding hCovers
  · have hExpression : w.Covers (.list (withoutPosition stmt.items)) :=
      hCovers _ (by rw [partsOf_expression hHead hShape]; exact List.mem_singleton_self _)
    have hItems : withoutPosition (renameStatement w.rename stmt).items =
        ((Form.list (withoutPosition stmt.items)).rename w.rename).items := by
      cases stmt with
      | list items =>
          have hInner := (head?_withoutPosition items).trans hHead
          rw [renameStatement_expression hHead hShape, rename_list hHead hShape,
            Form.items, Form.items, rename_list hInner hShape, withoutPosition_renameItems]
          rfl
      | _ => cases hHead
    have hLocation : locationOf (renameStatement w.rename stmt).items = locationOf stmt.items := by
      rw [locationOf, locationOf, hOwn]
    rw [evalStatement_expression hHead hShape, evalStatement_expression (hFront.trans hHead) hShape,
      hItems, hLocation]
    refine (follows_splitPosition hOwn).bind fun _ _ => ?_
    refine (follows_evalList (fun x _ hx => ?_) hExpression "" "" _).map fun _ _ => rfl
    exact follows_evalOperand (follows_lookup hFits) x hx

end Statements

end NilGuard.Dump
