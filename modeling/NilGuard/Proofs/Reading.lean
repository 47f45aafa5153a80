import NilGuard.Proofs.Placement
import NilGuard.Proofs.Provenance
/-! What names are read as. While a body is loaded, a bare name is read each time that it is
evaluated as an operand. Each reading is made at some moment between the start of the load and
its end, and that moment decides its value only for a name that the function does not bind. -/
namespace NilGuard

/-- What a name stands for in a package: its variable, or else its constant. -/
def Program.member? (p : Program) (path name : String) : Option Value :=
  (p.global? path name).or (p.const? path name)

namespace Dump

/-- A name that was evaluated as an operand, what it came to, and the program at that time. -/
structure Reading where
  name : String
  value : Value
  program : Program

/-- The evaluation of a form as an operand reads a name: the form is the name, or it is a name
whose let is evaluated now and reads it, or one of its own operands reads it. The numbers and
names are those that names are resolved with, the second form is the one that messages show. -/
inductive Reads (cx : Context) : Nat → List String → Form → Form → Body → Reading → Prop where
  | name {depth : Nat} {entered : List String} {name : String} {form : Form} {s t : Body}
      {v : Value} (resolved : resolve cx depth entered name form s = .ok v t) :
      Reads cx depth entered (.sym name) form s ⟨name, v, s.program⟩
  | binding {depth : Nat} {entered : List String} {name : String} {form stmt x : Form} {s : Body}
      {r : Reading} (unbound : s.names.find? name = none)
      (isLet : cx.lets.find? name = some stmt) (hNew : name ∉ entered)
      (hExpression : letExpression? stmt = some x)
      (rest : Reads cx depth (name :: entered) x x s r) :
      Reads cx (depth + 1) entered (.sym name) form s r
  | operand {depth : Nat} {entered : List String} {items before after : List Form} {x form : Form}
      {s t : Body} {c : List Value × List Instr} {r : Reading}
      (split : operandsOf (.list items) = before ++ x :: after)
      (evaluated : evalAll (.list (withoutPosition items))
        (before.map (evalOperand cx (resolve cx depth entered))) s = .ok c t)
      (rest : Reads cx depth entered x (.list (withoutPosition items)) t r) :
      Reads cx depth entered (.list items) form s r

/-- The evaluation of operands from left to right reads a name. -/
def ReadsAmong (cx : Context) (depth : Nat) (entered : List String) (form : Form) (xs : List Form)
    (s : Body) (r : Reading) : Prop :=
  ∃ before x after c t, xs = before ++ x :: after ∧
    evalAll form (before.map (evalOperand cx (resolve cx depth entered))) s = .ok c t ∧
    Reads cx depth entered x form t r

section Extends

variable {cx : Context} {s t u : Body}

theorem Body.Extends.refl (cx : Context) (s : Body) : s.Extends cx s :=
  ⟨fun _ _ h => h, fun _ _ => rfl, .refl _⟩

theorem Body.Extends.trans (h : s.Extends cx t) (h' : t.Extends cx u) : s.Extends cx u :=
  ⟨fun name v hv => h'.names name v (h.names name v hv),
    fun name hName => (h'.outer name hName).trans (h.outer name hName),
    h.program.trans h'.program⟩

end Extends

/-- On the way from one state to another a name is resolved, and comes to what was read. -/
def Resolves (cx : Context) (s t : Body) (r : Reading) : Prop :=
  ∃ depth entered form u w, s.Extends cx u ∧ u.IsOpen cx ∧ u.program = r.program ∧
    resolve cx depth entered r.name form u = .ok r.value w ∧ w.Extends cx t

theorem Resolves.between {cx : Context} {s s' t t' : Body} {r : Reading}
    (h : Resolves cx s' t' r) (hBefore : s.Extends cx s') (hAfter : t'.Extends cx t) :
    Resolves cx s t r := by
  obtain ⟨depth, entered, form, u, w, hStart, hu, hProgram, hResolve, hEnd⟩ := h
  exact ⟨depth, entered, form, u, w, hBefore.trans hStart, hu, hProgram, hResolve,
    hEnd.trans hAfter⟩

/-- A form is evaluated between two states, as an operand or, if it is a list, under some name
and at some place. -/
def IsEvaluated (cx : Context) (depth : Nat) (entered : List String) (x form : Form) (s t : Body) :
    Prop :=
  (∃ c, evalOperand cx (resolve cx depth entered) x form s = .ok c t) ∨
  ∃ items name location c, x = .list items ∧ evalList cx name location items
    (items.map (evalOperand cx (resolve cx depth entered))) s = .ok c t

section Evaluation

variable {cx : Context} {depth : Nat} {entered : List String} {x form : Form} {name : String}
  {items : List Form} {s t u : Body} {r : Reading}

theorem evalAll_cons_of_ok {x : Operand} {xs : List Operand} {a : Computed}
    {b : List Value × List Instr} (hFirst : x form s = .ok a u)
    (hRest : evalAll form xs u = .ok b t) :
    evalAll form (x :: xs) s = .ok (a.1 :: b.1, a.2 ++ b.2) t :=
  bind_eq_ok.mpr ⟨a, u, hFirst, bind_eq_ok.mpr ⟨b, t, hRest, rfl⟩⟩

theorem evalAll_append_eq_ok {xs ys : List Operand} {c : List Value × List Instr}
    (h : evalAll form (xs ++ ys) s = .ok c t) :
    ∃ a u b, evalAll form xs s = .ok a u ∧ evalAll form ys u = .ok b t := by
  induction xs generalizing s c with
  | nil => exact ⟨_, s, c, rfl, h⟩
  | cons x xs ih =>
      obtain ⟨a, w, hFirst, h⟩ := bind_eq_ok.mp h
      obtain ⟨b, w', hRest, h⟩ := bind_eq_ok.mp h
      cases h
      obtain ⟨a', u, b', hXs, hYs⟩ := ih hRest
      exact ⟨_, u, b', evalAll_cons_of_ok hFirst hXs, hYs⟩

/-- The operands of a list are evaluated, and then its own value is made. -/
theorem evalList_eq_ok {operand : Form → Operand} {location : Location} {c : Computed}
    (h : evalList cx name location items (items.map operand) s = .ok c t) :
    ∃ head shape ops u own, (Form.list items).head? = some head ∧
      Shape.ofHead? head = some shape ∧
      evalAll (.list (withoutPosition items)) ((operandsOf (.list items)).map operand) s =
        .ok ops u ∧
      shape.make cx (.list (withoutPosition items)) head name (placed items location) ops.1 u =
        .ok own t := by
  rcases evalList_cases cx operand name location items with ⟨-, hEval⟩ | ⟨_, _, _, hEval⟩ |
    ⟨head, shape, hHead, hShape, hEval⟩
  · rw [hEval] at h
    cases h
  · rw [hEval] at h
    cases h
  · rw [hEval] at h
    obtain ⟨_, w, hCheck, h⟩ := bind_eq_ok.mp h
    obtain ⟨ops, u, hOps, h⟩ := bind_eq_ok.mp h
    obtain ⟨own, _, hMake, h⟩ := bind_eq_ok.mp h
    cases h
    rw [check_eq_ok hCheck] at hOps
    exact ⟨head, shape, ops, u, own, hHead, hShape, operandsOf_list hHead hShape ▸ hOps, hMake⟩

theorem IsEvaluated.exists_resolve (h : IsEvaluated cx depth entered (.sym name) form s t) :
    ∃ v, resolve cx depth entered name form s = .ok v t := by
  rcases h with ⟨c, hRun⟩ | ⟨_, _, _, _, hList, -⟩
  · obtain ⟨v, u, hResolve, hRun⟩ := bind_eq_ok.mp hRun
    cases hRun
    exact ⟨v, hResolve⟩
  · cases hList

theorem IsEvaluated.exists_evalList (h : IsEvaluated cx depth entered (.list items) form s t) :
    ∃ name location c, evalList cx name location items
      (items.map (evalOperand cx (resolve cx depth entered))) s = .ok c t := by
  rcases h with ⟨c, hRun⟩ | ⟨_, name, location, c, hList, hRun⟩
  · rw [evalOperand, evalOperands_eq_map] at hRun
    exact ⟨"", {}, c, hRun⟩
  · cases hList
    exact ⟨name, location, c, hRun⟩

theorem isEvaluated_of_evalBound {location : Location} {c : Computed}
    (h : evalBound cx (resolve cx depth entered) name location x s = .ok c t) :
    IsEvaluated cx depth entered x x s t := by
  cases x with
  | list items =>
      rw [evalBound, evalOperands_eq_map] at h
      exact .inr ⟨items, name, location, c, rfl, h⟩
  | int | real | sym | str => exact .inl ⟨c, h⟩

theorem moves_evalOperand (depth : Nat) (entered : List String) (x form : Form) :
    Moves cx entered (evalOperand cx (resolve cx depth entered) x form) :=
  isEvaluable_moves.evalOperand (moves_resolve depth entered) x (allows_moves x) form

theorem moves_evalOperands (depth : Nat) (entered : List String) (xs : List Form) (form : Form) :
    Moves cx entered (evalAll form (xs.map (evalOperand cx (resolve cx depth entered)))) :=
  isEvaluable_moves.evalAll fun x _ => moves_evalOperand depth entered x form

theorem moves_make (entered : List String) (shape : Shape) (head : String) (location : Location)
    (values : List Value) : Moves cx entered (shape.make cx form head name location values) := by
  apply isEvaluable_moves.make
  intro _
  exact moves_makePhi cx _ _ _ _ _

/-- An operand among others is evaluated between what comes before it and what comes after. -/
theorem isEvaluated_of_split {xs before after : List Form} {c a : List Value × List Instr}
    (hRun : evalAll form (xs.map (evalOperand cx (resolve cx depth entered))) s = .ok c t)
    (hSplit : xs = before ++ x :: after)
    (hBefore : evalAll form (before.map (evalOperand cx (resolve cx depth entered))) s = .ok a u)
    (hs : s.IsOpen cx) :
    s.Leads cx u ∧ u.IsOpen cx ∧ ∃ w, IsEvaluated cx depth entered x form u w ∧ w.Leads cx t := by
  rw [hSplit, List.map_append] at hRun
  obtain ⟨a', u', b, hFirst, hRun⟩ := evalAll_append_eq_ok hRun
  rw [hBefore] at hFirst
  cases hFirst
  obtain ⟨hLeads, hu⟩ := moves_evalOperands depth entered before form s _ u hs hBefore
  obtain ⟨c, w, hOperand, hRun⟩ := bind_eq_ok.mp hRun
  obtain ⟨_, _, hAfter, hRun⟩ := bind_eq_ok.mp hRun
  cases hRun
  obtain ⟨-, hw⟩ := moves_evalOperand depth entered x form u _ w hu hOperand
  obtain ⟨hLeads', -⟩ := moves_evalOperands depth entered after form w _ _ hw hAfter
  exact ⟨hLeads.toLeads, hu, w, .inl ⟨c, hOperand⟩, hLeads'.toLeads⟩

/-- What the expression of a let reads is resolved while the let is evaluated. -/
theorem resolves_of_evalLet {stmt : Form} {v : Value} (hLet : cx.lets.find? name = some stmt)
    (hNew : name ∉ entered) (hExpression : letExpression? stmt = some x)
    (hUnbound : s.names.find? name = none) (hs : s.IsOpen cx)
    (hRun : evalLet cx (resolve cx depth (name :: entered)) name stmt s = .ok v t)
    (hReads : ∀ u, IsEvaluated cx depth (name :: entered) x x s u → Resolves cx s u r) :
    Resolves cx s t r := by
  obtain ⟨y, instrs, u, hY, hBound, rfl⟩ := evalLet_eq_ok hRun
  rw [hExpression] at hY
  cases hY
  have hMoves : Moves cx (name :: entered) (evalBound cx
      (resolve cx depth (name :: entered)) name (locationOf stmt.items) x) :=
    isEvaluable_moves.evalBound (moves_resolve depth _) name _ (allows_moves x)
  obtain ⟨hGrows, hu⟩ := hMoves s _ u hs hBound
  have hStill := hGrows.entered name List.mem_cons_self hUnbound
  obtain ⟨hBind, -⟩ := hu.bind hLet hStill hNew v instrs
  exact (hReads u (isEvaluated_of_evalBound hBound)).between (.refl cx s) hBind.toLeads.extends

/-- What the evaluation of a form reads is resolved while it is evaluated. -/
theorem Reads.resolves (h : Reads cx depth entered x form s r) (hs : s.IsOpen cx)
    (hRun : IsEvaluated cx depth entered x form s t) : Resolves cx s t r := by
  induction h generalizing t with
  | @name depth entered name form s u v resolved =>
      obtain ⟨w, hResolve⟩ := hRun.exists_resolve
      rw [resolved] at hResolve
      cases hResolve
      exact ⟨depth, entered, form, s, u, .refl cx s, hs, rfl, resolved, .refl cx u⟩
  | @binding depth entered name form stmt x s r unbound isLet hNew hExpression rest ih =>
      obtain ⟨v, hResolve⟩ := hRun.exists_resolve
      rcases resolve_eq_ok hResolve with ⟨hName, -⟩ | ⟨-, hLet, -⟩ |
        ⟨below, stmt', hDepth, -, hLet, -, hEval⟩
      · rw [unbound] at hName
        cases hName
      · rw [isLet] at hLet
        cases hLet
      · cases hDepth
        rw [isLet] at hLet
        cases hLet
        exact resolves_of_evalLet isLet hNew hExpression unbound hs hEval fun _ => ih hs
  | @operand depth entered items before after x form s u c r split evaluated rest ih =>
      obtain ⟨name, location, c', hList⟩ := hRun.exists_evalList
      obtain ⟨head, shape, ops, w, own, -, -, hOps, hMake⟩ := evalList_eq_ok hList
      obtain ⟨hBefore, hu, w', hEvaluated, hAfter⟩ := isEvaluated_of_split hOps split evaluated hs
      obtain ⟨-, hw⟩ := moves_evalOperands depth entered _ _ s _ w hs hOps
      obtain ⟨hOwn, -⟩ := moves_make entered shape head _ ops.1 w _ t hw hMake
      exact (ih hu hEvaluated).between hBefore.extends (hAfter.trans hOwn.toLeads).extends

theorem ReadsAmong.resolves {xs : List Form} {c : List Value × List Instr}
    (h : ReadsAmong cx depth entered form xs s r) (hs : s.IsOpen cx)
    (hRun : evalAll form (xs.map (evalOperand cx (resolve cx depth entered))) s = .ok c t) :
    Resolves cx s t r := by
  obtain ⟨before, x, after, a, u, hSplit, hBefore, hReads⟩ := h
  obtain ⟨hLeads, hu, w, hEvaluated, hAfter⟩ := isEvaluated_of_split hRun hSplit hBefore hs
  exact (hReads.resolves hu hEvaluated).between hLeads.extends hAfter.extends

theorem member?_of_resolveOuter {v : Value} (hNil : name ≠ "nil")
    (h : resolveOuter cx name form s = .ok v t) :
    s.program.member? cx.callee.package name = some v := by
  rw [resolveOuter, if_neg hNil, get_bind_apply] at h
  rw [Program.member?, Program.global?, Program.const?]
  cases hGlobal : (s.program.package? cx.callee.package).bind (·.globals.find? name) with
  | some w =>
      simp only [hGlobal] at h
      cases h
      rfl
  | none =>
      cases hConst : (s.program.package? cx.callee.package).bind (·.consts.find? name) with
      | some w =>
          simp only [hGlobal, hConst] at h
          cases h
          rfl
      | none =>
          simp only [hGlobal, hConst] at h
          cases h

/-- A name that is bound in the end was read as what it is bound to. All others were read as what
they were in the package then. -/
theorem Resolves.value (h : Resolves cx s t r) :
    t.names.find? r.name = some r.value ∨ t.names.find? r.name = none ∧
      (r.name ≠ "nil" → r.program.member? cx.callee.package r.name = some r.value) := by
  obtain ⟨depth, entered, form, u, w, -, hu, hProgram, hResolve, hEnd⟩ := h
  rcases resolve_eq_ok hResolve with ⟨hName, rfl⟩ | ⟨hName, hLet, hOuter⟩ |
    ⟨below, stmt, -, -, -, -, hEval⟩
  · exact .inl (hEnd.names _ _ hName)
  · refine .inr ⟨?_, fun hNil => ?_⟩
    · rw [hEnd.outer _ hLet, (resolveOuter_eq_ok hOuter).1, hName]
    · rw [← hProgram]
      exact member?_of_resolveOuter hNil hOuter
  · obtain ⟨x, instrs, u', -, -, rfl⟩ := evalLet_eq_ok hEval
    refine .inl (hEnd.names _ _ ?_)
    rw [Table.find?_insert, if_pos rfl]

theorem Resolves.widens (h : Resolves cx s t r) :
    s.program.Widens r.program ∧ r.program.Widens t.program := by
  obtain ⟨depth, entered, form, u, w, hStart, hu, hProgram, hResolve, hEnd⟩ := h
  obtain ⟨hGrows, -⟩ := moves_resolve depth entered _ form u _ w hu hResolve
  rw [← hProgram]
  exact ⟨hStart.program, hGrows.program.trans hEnd.program⟩

end Evaluation

/-- The evaluation of a statement reads a name. A let that has been evaluated already reads
nothing more. -/
inductive ReadsStatement (cx : Context) (stmt : Form) (s : Body) (r : Reading) : Prop where
  | binding {x : Form} (isLet : stmt.head? = some "let")
      (unbuilt : s.built.find? (letName stmt) = none)
      (hExpression : letExpression? stmt = some x)
      (reads : Reads cx cx.lets.entries.length [letName stmt] x x s r)
  | operand (noLet : stmt.head? ≠ some "let")
      (reads : ReadsAmong cx cx.lets.entries.length [] stmt (partsOf stmt) s r)

/-- One of the statements of a block reads a name, after those before it are evaluated. -/
def ReadsStatements (cx : Context) (place : Nat) (stmts : List Form) (s : Body) (r : Reading) :
    Prop :=
  ∃ before stmt after t, stmts = before ++ stmt :: after ∧
    evalStatements cx place before s = .ok () t ∧ ReadsStatement cx stmt t r

/-- One of the blocks reads a name, after those before it are filled. -/
def ReadsBlocks (cx : Context) (place : Nat) (bodies : List (List Form)) (s : Body)
    (r : Reading) : Prop :=
  ∃ before stmts after t, bodies = before ++ stmts :: after ∧
    fillBlocks cx place before s = .ok () t ∧
    ReadsStatements cx (place + before.length) stmts t r

/-- An operand of one of some phis reads a name, after those before it are settled. -/
def ReadsRound (cx : Context) (phis : List Phi) (s : Body) (r : Reading) : Prop :=
  ∃ before phi after t, phis = before ++ phi :: after ∧
    before.forM (settlePhi cx) s = .ok () t ∧
    ReadsAmong cx cx.lets.entries.length [] phi.form phi.operands t r

/-- A name is read in one of the rounds in which the phis that wait are settled. -/
def ReadsPhis (cx : Context) (rounds : Nat) (s : Body) (r : Reading) : Prop :=
  ∃ round t, round < rounds ∧ settlePhis cx round s = .ok () t ∧
    ReadsRound cx t.waiting { t with waiting := [] } r

section Statements

variable {cx : Context} {s t u : Body} {r : Reading} {stmt : Form} {place : Nat}

theorem ReadsStatement.resolves {is : List Instr} (h : ReadsStatement cx stmt s r)
    (hLet : stmt.head? = some "let" → cx.lets.find? (letName stmt) = some stmt)
    (hs : s.IsOpen cx) (hRun : evalStatement cx stmt s = .ok is t) : Resolves cx s t r := by
  rcases evalStatement_cases cx stmt with ⟨-, -, hEval⟩ | ⟨_, _, _, hEval⟩ |
    ⟨hHead, hEval⟩ | ⟨head, ending, hHead, hEnding, -, hEval⟩ |
    ⟨head, shape, hHead, -, hShape, hEval⟩
  all_goals rw [hEval] at hRun
  · cases hRun
  · cases hRun
  · cases h with
    | operand noLet => exact absurd hHead noLet
    | binding _ unbuilt hExpression reads =>
        rcases evalLetStatement_eq_ok hRun with ⟨hBuilt, -⟩ | ⟨-, v, hEval, -⟩
        · rw [unbuilt] at hBuilt
          cases hBuilt
        · have hUnbound := hs.unbuilt _ stmt (hLet hHead) unbuilt
          exact resolves_of_evalLet (hLet hHead) (by simp) hExpression hUnbound hs hEval
            fun _ => reads.resolves hs
  · have hParts := partsOf_ending hHead hEnding
    cases h with
    | binding isLet => exact absurd isLet (head?_ne_let_of_ending hHead hEnding)
    | operand _ reads =>
        obtain ⟨ops, u, hOps, hRun⟩ := bind_eq_ok.mp hRun
        cases hRun
        rw [hParts] at reads
        exact reads.resolves hs hOps
  · have hParts := partsOf_expression hHead hShape
    cases h with
    | binding isLet => exact absurd isLet (head?_ne_let_of_shape hHead hShape)
    | operand _ reads =>
        obtain ⟨c, hRun, -⟩ := map_eq_ok.mp hRun
        obtain ⟨before, x, after, a, u, hSplit, hBefore, reads⟩ := reads
        rw [hParts] at hSplit
        cases before with
        | cons y before => simp at hSplit
        | nil =>
            cases hSplit
            cases hBefore
            exact reads.resolves hs (.inr ⟨_, _, _, _, rfl, hRun⟩)

theorem evalStatements_append (cx : Context) (place : Nat) (xs ys : List Form) :
    evalStatements cx place (xs ++ ys) = (do
      evalStatements cx place xs
      evalStatements cx place ys) := by
  induction xs with
  | nil => rfl
  | cons x xs ih =>
      rw [List.cons_append, evalStatements, evalStatements, ih]
      simp only [bind_assoc]

theorem fillBlocks_append (cx : Context) (place : Nat) (xs ys : List (List Form)) :
    fillBlocks cx place (xs ++ ys) = (do
      fillBlocks cx place xs
      fillBlocks cx (place + xs.length) ys) := by
  induction xs generalizing place with
  | nil => rfl
  | cons x xs ih =>
      rw [List.cons_append, fillBlocks, fillBlocks, ih, List.length_cons,
        show place + (xs.length + 1) = place + 1 + xs.length by omega]
      rw [bind_assoc]
      refine bind_congr fun _ => ?_
      rw [bind_assoc]
      refine bind_congr fun body => ?_
      cases body.blocks[place]? with
      | none => rfl
      | some b =>
          cases hBranch : endsInBranch b && b.succs.length != 2 with
          | true =>
              simp only [hBranch, if_true]
              rfl
          | false =>
              simp only [hBranch]
              rfl

theorem evalStatements_cons_eq_ok {stmts : List Form} :
    evalStatements cx place (stmt :: stmts) s = .ok () t ↔
      ∃ is u, evalStatement cx stmt s = .ok is u ∧ evalStatements cx place stmts { u with
        blocks := u.blocks.modify place fun b => { b with instrs := b.instrs ++ is } } =
          .ok () t := by
  rw [evalStatements]
  constructor
  · intro h
    obtain ⟨is, u, hStmt, h⟩ := bind_eq_ok.mp h
    obtain ⟨_, _, hModify, hRest⟩ := bind_eq_ok.mp h
    cases hModify
    exact ⟨is, u, hStmt, hRest⟩
  · rintro ⟨is, u, hStmt, hRest⟩
    exact bind_eq_ok.mpr ⟨is, u, hStmt, hRest⟩

/-- A round followed by others. Nothing waits in the state before it if there is no more to do. -/
theorem settlePhis_succ_of_ok {rounds : Nat}
    (hRound : s.waiting.forM (settlePhi cx) { s with waiting := [] } = .ok () u)
    (hRest : settlePhis cx rounds u = .ok () t) : settlePhis cx (rounds + 1) s = .ok () t := by
  rw [settlePhis, get_bind_apply]
  cases hEmpty : s.waiting.isEmpty with
  | false => exact bind_eq_ok.mpr ⟨_, _, rfl, bind_eq_ok.mpr ⟨_, u, hRound, hRest⟩⟩
  | true =>
      have hNil := List.isEmpty_iff.mp hEmpty
      obtain ⟨program, blocks, names, built, waiting, settled⟩ := s
      cases hNil
      cases hRound
      cases rounds with
      | zero => exact hRest
      | succ rounds => exact hRest

theorem settlePhis_add_eq_ok {first rest : Nat} (h : settlePhis cx (first + rest) s = .ok () t)
    (hFirst : settlePhis cx first s = .ok () u) : settlePhis cx rest u = .ok () t := by
  induction first generalizing s with
  | zero =>
      cases hFirst
      rwa [Nat.zero_add] at h
  | succ first ih =>
      rw [show first + 1 + rest = first + rest + 1 by omega] at h
      obtain ⟨w, hRound, hRest⟩ := settlePhis_succ_eq_ok h
      obtain ⟨w', hRound', hRest'⟩ := settlePhis_succ_eq_ok hFirst
      rw [hRound] at hRound'
      cases hRound'
      exact ih hRest hRest'

theorem ReadsStatements.resolves {stmts : List Form} (h : ReadsStatements cx place stmts s r)
    (hLets : ∀ stmt ∈ stmts, stmt.head? = some "let" → cx.lets.find? (letName stmt) = some stmt)
    (hs : s.IsOpen cx) (hRun : evalStatements cx place stmts s = .ok () t) :
    Resolves cx s t r := by
  obtain ⟨before, stmt, after, u, rfl, hBefore, hReads⟩ := h
  rw [evalStatements_append] at hRun
  obtain ⟨_, u', hFirst, hRun⟩ := bind_eq_ok.mp hRun
  rw [hBefore] at hFirst
  cases hFirst
  rw [List.forall_mem_append, List.forall_mem_cons] at hLets
  obtain ⟨hPast, -⟩ := evalStatements_eq_ok hLets.1 hs hBefore
  obtain ⟨is, w, hStmt, hRest⟩ := evalStatements_cons_eq_ok.mp hRun
  obtain ⟨-, hw⟩ := moves_evalStatement hLets.2.1 u is w hPast.isOpen hStmt
  have hPlaced := Body.proceeds_blocks hw
    (w.blocks.modify place fun b => { b with instrs := b.instrs ++ is })
  obtain ⟨hFuture, -⟩ := evalStatements_eq_ok hLets.2.2 hPlaced.isOpen hRest
  exact (hReads.resolves hLets.2.1 hPast.isOpen hStmt).between hPast.leads.extends
    (hPlaced.leads.trans hFuture.leads).extends

theorem fillBlocks_cons_eq_ok {stmts : List Form} {bodies : List (List Form)} :
    fillBlocks cx place (stmts :: bodies) s = .ok () t ↔
      ∃ u, evalStatements cx place stmts s = .ok () u ∧
        (∀ b, u.blocks[place]? = some b → (endsInBranch b && b.succs.length != 2) = false) ∧
        fillBlocks cx (place + 1) bodies u = .ok () t := by
  rw [fillBlocks, bind_eq_ok]
  simp only [get_bind_apply]
  constructor
  · rintro ⟨_, u, hStmts, h⟩
    refine ⟨u, hStmts, ?_⟩
    cases hBlock : u.blocks[place]? with
    | none =>
        rw [hBlock] at h
        exact ⟨fun b hb => absurd hb (by simp), h⟩
    | some b =>
        cases hBranch : endsInBranch b && b.succs.length != 2 with
        | false =>
            simp only [hBlock, hBranch] at h
            refine ⟨?_, h⟩
            rintro _ ⟨⟩
            exact hBranch
        | true =>
            simp only [hBlock, hBranch] at h
            cases h
  · rintro ⟨u, hStmts, hChecked, hRest⟩
    refine ⟨_, u, hStmts, ?_⟩
    cases hBlock : u.blocks[place]? with
    | none => exact hRest
    | some b =>
        simp only [hChecked b hBlock]
        exact hRest

theorem ReadsBlocks.resolves {bodies : List (List Form)} (h : ReadsBlocks cx place bodies s r)
    (hLets : ∀ stmts ∈ bodies, ∀ stmt ∈ stmts, stmt.head? = some "let" →
      cx.lets.find? (letName stmt) = some stmt)
    (hs : s.IsOpen cx) (hRun : fillBlocks cx place bodies s = .ok () t) : Resolves cx s t r := by
  obtain ⟨before, stmts, after, u, rfl, hBefore, hReads⟩ := h
  rw [fillBlocks_append] at hRun
  obtain ⟨_, u', hFirst, hRun⟩ := bind_eq_ok.mp hRun
  rw [hBefore] at hFirst
  cases hFirst
  rw [List.forall_mem_append, List.forall_mem_cons] at hLets
  obtain ⟨hPast, -⟩ := fillBlocks_eq_ok hLets.1 hs hBefore
  obtain ⟨w, hStmts, -, hRest⟩ := fillBlocks_cons_eq_ok.mp hRun
  obtain ⟨hHere, -⟩ := evalStatements_eq_ok hLets.2.1 hPast.isOpen hStmts
  obtain ⟨hFuture, -⟩ := fillBlocks_eq_ok hLets.2.2 hHere.isOpen hRest
  exact (hReads.resolves hLets.2.1 hPast.isOpen hStmts).between hPast.leads.extends
    hFuture.leads.extends

theorem forM_append_eq_ok {α : Type} {f : α → BodyM PUnit} {xs ys : List α}
    (h : (xs ++ ys).forM f s = .ok () t) :
    ∃ u, xs.forM f s = .ok () u ∧ ys.forM f u = .ok () t := by
  induction xs generalizing s with
  | nil => exact ⟨s, rfl, h⟩
  | cons x xs ih =>
      obtain ⟨_, w, hFirst, h⟩ := bind_eq_ok.mp h
      obtain ⟨u, hXs, hYs⟩ := ih h
      exact ⟨u, bind_eq_ok.mpr ⟨_, w, hFirst, hXs⟩, hYs⟩

/-- Settling leaves the names alone, since all lets have values, and keeps the state open. -/
theorem extends_settlePhis {rounds : Nat} (hs : s.IsOpen cx) (hBound : s.IsBound cx)
    (hRun : settlePhis cx rounds s = .ok () t) :
    s.Extends cx t ∧ t.IsOpen cx ∧ t.IsBound cx := by
  induction rounds generalizing s with
  | zero =>
      cases hRun
      exact ⟨.refl cx _, hs, hBound⟩
  | succ rounds ih =>
      obtain ⟨u, hRound, hRest⟩ := settlePhis_succ_eq_ok hRun
      have hSettles := settleRound_eq_ok hs.clear hBound hRound
      have hFirst : s.Extends cx u :=
        ⟨hSettles.leads.names, hSettles.leads.outer, hSettles.leads.program⟩
      obtain ⟨hSecond, hOpen, hEnd⟩ := ih hSettles.isOpen (hSettles.leads.isBound hBound) hRest
      exact ⟨hFirst.trans hSecond, hOpen, hEnd⟩

theorem ReadsRound.resolves {phis : List Phi} (h : ReadsRound cx phis s r) (hs : s.IsOpen cx)
    (hBound : s.IsBound cx) (hRun : phis.forM (settlePhi cx) s = .ok () t) :
    Resolves cx s t r := by
  obtain ⟨before, phi, after, u, rfl, hBefore, hReads⟩ := h
  obtain ⟨u', hFirst, hRun⟩ := forM_append_eq_ok hRun
  rw [hBefore] at hFirst
  cases hFirst
  obtain ⟨_, w, hPhi, hAfter⟩ := bind_eq_ok.mp hRun
  have hPast := settleRound_eq_ok hs hBound hBefore
  have hBoundHere := hPast.leads.isBound hBound
  have hHere := settlePhi_eq_ok hPast.isOpen hBoundHere hPhi
  have hFuture := settleRound_eq_ok hHere.isOpen (hHere.leads.isBound hBoundHere) hAfter
  obtain ⟨⟨values, is⟩, x, hAll, hPhi⟩ := bind_eq_ok.mp hPhi
  rw [evalOperands_eq_map] at hAll
  cases hPhi
  have hEnd := hFuture.leads.extends
  exact (hReads.resolves hPast.isOpen hAll).between hPast.leads.extends
    ⟨hEnd.names, hEnd.outer, hEnd.program⟩

theorem ReadsPhis.resolves {rounds : Nat} (h : ReadsPhis cx rounds s r) (hs : s.IsOpen cx)
    (hBound : s.IsBound cx) (hRun : settlePhis cx rounds s = .ok () t) : Resolves cx s t r := by
  obtain ⟨round, u, hRound, hPast, hReads⟩ := h
  obtain ⟨rest, rfl⟩ : ∃ rest, rounds = round + (rest + 1) := ⟨rounds - round - 1, by omega⟩
  obtain ⟨w, hHere, hRest⟩ := settlePhis_succ_eq_ok (settlePhis_add_eq_ok hRun hPast)
  obtain ⟨hStart, hu, hBoundHere⟩ := extends_settlePhis hs hBound hPast
  have hSettles := settleRound_eq_ok hu.clear hBoundHere hHere
  obtain ⟨hEnd, -⟩ :=
    extends_settlePhis hSettles.isOpen (hSettles.leads.isBound hBoundHere) hRest
  exact (hReads.resolves hu.clear hBoundHere hHere).between
    ⟨hStart.names, hStart.outer, hStart.program⟩ hEnd

end Statements

/-- The headers of a body are read: its blocks are sorted and made, and the lets taken down. -/
def Begins (program : Program) (fn : Function) (forms : List Form) (sorted : List (Int × Form))
    (cx : Context) (bodies : List (List Form)) (s : Body) : Prop :=
  ∃ indexed made,
    sortBlocks { callee := fn.callee } forms { program, names := parameterNames fn } =
      .ok sorted indexed ∧
    makeBlocks { callee := fn.callee } ((sorted.length : Int) - 1) 0 sorted indexed =
      .ok () made ∧
    readHeaders { callee := fn.callee } 0 sorted made = .ok (cx, bodies) s

/-- The loading of a body reads a name, when the blocks are filled or when phis are settled. -/
def ReadsBody (program : Program) (fn : Function) (forms : List Form) (r : Reading) : Prop :=
  ∃ sorted cx bodies s t, Begins program fn forms sorted cx bodies s ∧
    fillBlocks cx 0 bodies s = .ok () t ∧
    (ReadsBlocks cx 0 bodies s r ∨ ReadsPhis cx (phiDepth t.waiting + 1) t r)

section Bodies

variable {program : Program} {fn : Function} {forms : List Form} {sorted : List (Int × Form)}
  {cx : Context} {bodies : List (List Form)} {s t body : Body} {r : Reading}

theorem begins_of_loadBlocks (h : loadBlocks fn forms { program } = .ok () body) :
    ∃ sorted cx bodies s t, Begins program fn forms sorted cx bodies s ∧
      fillBlocks cx 0 bodies s = .ok () t ∧
      settlePhis cx (phiDepth t.waiting + 1) t = .ok () body := by
  obtain ⟨sorted, cx, bodies, indexed, made, s, t, hSorted, hMade, hHeaders, hFill, hSettle⟩ :=
    loadBlocks_eq_ok h
  exact ⟨sorted, cx, bodies, s, t, ⟨indexed, made, hSorted, hMade, hHeaders⟩, hFill, hSettle⟩

theorem Begins.hasHeaders (h : Begins program fn forms sorted cx bodies s) :
    HasHeaders fn forms sorted cx bodies s := by
  obtain ⟨indexed, made, hSorted, hMade, hHeaders⟩ := h
  exact hasHeaders_of_readHeaders hSorted hMade hHeaders

theorem Begins.program_eq (h : Begins program fn forms sorted cx bodies s) :
    s.program = program := by
  obtain ⟨indexed, made, hSorted, hMade, hHeaders⟩ := h
  obtain ⟨rfl, -⟩ := keeps_sortBlocks_indexed
    (I := fun s => s = { program, names := parameterNames fn }) forms _ _ _ rfl hSorted
  obtain ⟨blocks, rfl, -, -⟩ := makeBlocks_eq_ok hMade
  obtain ⟨blocks', rfl, -⟩ := isLayable_heads.readHeaders _ 0 sorted _ _ _ hHeaders
  rfl

theorem Begins.isBound (h : Begins program fn forms sorted cx bodies s)
    (hFill : fillBlocks cx 0 bodies s = .ok () t) : t.IsBound cx := by
  obtain ⟨indexed, made, hSorted, hMade, hHeaders⟩ := h
  exact (isSettling_of_fillBlocks hSorted hMade hHeaders hFill).bound

theorem Begins.unique {sorted' : List (Int × Form)} {cx' : Context} {bodies' : List (List Form)}
    {s' : Body} (h : Begins program fn forms sorted cx bodies s)
    (h' : Begins program fn forms sorted' cx' bodies' s') :
    cx' = cx ∧ bodies' = bodies ∧ s' = s := by
  obtain ⟨indexed, made, hSorted, hMade, hHeaders⟩ := h
  obtain ⟨indexed', made', hSorted', hMade', hHeaders'⟩ := h'
  rw [hSorted] at hSorted'
  cases hSorted'
  rw [hMade] at hMade'
  cases hMade'
  rw [hHeaders] at hHeaders'
  cases hHeaders'
  exact ⟨rfl, rfl, rfl⟩

/-- All names of a body are read between the time that its blocks are filled from and its end. -/
theorem ReadsBody.resolves (h : ReadsBody program fn forms r)
    (hBegins : Begins program fn forms sorted cx bodies s)
    (hFill : fillBlocks cx 0 bodies s = .ok () t)
    (hSettle : settlePhis cx (phiDepth t.waiting + 1) t = .ok () body) :
    Resolves cx s body r := by
  obtain ⟨sorted', cx', bodies', s', t', hBegins', hFill', hReads⟩ := h
  obtain ⟨rfl, rfl, rfl⟩ := hBegins.unique hBegins'
  rw [hFill] at hFill'
  cases hFill'
  have hRead := hBegins.hasHeaders
  have hBound := hBegins.isBound hFill
  obtain ⟨hFills, -⟩ := fillBlocks_eq_ok (fun _ hStmts _ => hRead.find? hStmts) hRead.isOpen hFill
  obtain ⟨hSettles, -⟩ := extends_settlePhis hFills.isOpen hBound hSettle
  rcases hReads with hReads | hReads
  · have hBlocks := hReads.resolves (fun _ hStmts _ => hRead.find? hStmts) hRead.isOpen hFill
    exact hBlocks.between (.refl _ _) hSettles
  · exact (hReads.resolves hFills.isOpen hBound hSettle).between hFills.leads.extends (.refl _ _)

end Bodies

end Dump

end NilGuard
