import NilGuard.Proofs.Reading
/-! Every name that stands in a body as an operand is read. The names of a let are read when it
is evaluated, wherever that is, and those of a phi are put off until it is settled. -/
namespace NilGuard

namespace Dump

/-- A form stands in another one where a value is needed. -/
inductive StandsIn (x : Form) : Form → Prop where
  | self : StandsIn x x
  | operand {items : List Form} {head : String} {shape : Shape} {y : Form}
      (hHead : (Form.list items).head? = some head) (hShape : Shape.ofHead? head = some shape)
      (hMem : y ∈ shape.operands ((withoutPosition items).drop 1)) (rest : StandsIn x y) :
      StandsIn x (.list items)

/-- A name is among those that are read, or it stands in an operand of a phi that waits. -/
def Body.Accounts (N : String → Prop) (s : Body) (name : String) : Prop :=
  N name ∨ ∃ phi ∈ s.waiting, ∃ x ∈ phi.operands, StandsIn (.sym name) x

/-- All names that stand in a form are accounted for. -/
def Body.AccountsIn (N : String → Prop) (s : Body) (x : Form) : Prop :=
  ∀ name, StandsIn (.sym name) x → s.Accounts N name

/-- The names that stand in the lets that are bound are accounted for. -/
def Body.IsCovered (N : String → Prop) (cx : Context) (s : Body) : Prop :=
  ∀ name stmt x, cx.lets.find? name = some stmt → letExpression? stmt = some x →
    (s.names.find? name).isSome → s.AccountsIn N x

/-- Where all that a form reads is among the names that are read, the evaluation of the form
accounts for the names that stand in it. -/
def Covers (N : String → Prop) (cx : Context) (depth : Nat) (entered : List String) (x : Form) :
    Prop :=
  ∀ form s t, s.IsOpen cx → IsEvaluated cx depth entered x form s t →
    (∀ r, Reads cx depth entered x form s r → N r.name) →
    (s.IsCovered N cx → t.IsCovered N cx) ∧ t.AccountsIn N x

section Covers

variable {N : String → Prop} {cx : Context} {depth : Nat} {entered : List String} {form : Form}
  {items : List Form} {s t u : Body} {name : String}

theorem Body.Accounts.of_leads (h : s.Accounts N name) (hLeads : s.Leads cx t) :
    t.Accounts N name := by
  obtain ⟨new, hNew, -⟩ := hLeads.waiting
  rcases h with hRead | ⟨phi, hPhi, x, hx, hStands⟩
  · exact .inl hRead
  · exact .inr ⟨phi, hNew ▸ List.mem_append_left new hPhi, x, hx, hStands⟩

theorem Body.AccountsIn.of_leads {x : Form} (h : s.AccountsIn N x) (hLeads : s.Leads cx t) :
    t.AccountsIn N x :=
  fun name hStands => (h name hStands).of_leads hLeads

theorem Body.IsCovered.of_leads (h : s.IsCovered N cx) (hLeads : s.Leads cx t)
    (hNames : t.names = s.names) : t.IsCovered N cx := by
  intro name stmt x hLet hx hBound
  rw [hNames] at hBound
  exact (h name stmt x hLet hx hBound).of_leads hLeads

theorem covers_literal {x : Form} (hList : ∀ items, x ≠ .list items)
    (hName : ∀ name, x ≠ .sym name) : Covers N cx depth entered x := by
  intro form s t hs hRun _
  have hStands : ∀ name, ¬ StandsIn (.sym name) x := by
    intro name hStands
    cases hStands with
    | self => exact hName name rfl
    | operand => exact hList _ rfl
  rcases hRun with ⟨⟨v, is⟩, hRun⟩ | ⟨items, _, _, _, rfl, -⟩
  · obtain ⟨hGrows, -⟩ := moves_evalOperand depth entered x form s _ t hs hRun
    obtain ⟨-, ⟨name, rfl, -⟩ | ⟨-, hState⟩⟩ := evalAtom_eq_ok hList hRun
    · exact absurd rfl (hName name)
    · refine ⟨fun hCovered => hCovered.of_leads hGrows.toLeads ?_,
        fun name hName => absurd hName (hStands name)⟩
      rw [hState]
  · exact absurd rfl (hList items)

theorem readsAmong_head {xs : List Form} {x : Form} {r : Reading}
    (h : Reads cx depth entered x form s r) : ReadsAmong cx depth entered form (x :: xs) s r :=
  ⟨[], x, xs, _, s, rfl, rfl, h⟩

theorem ReadsAmong.after {xs : List Form} {x : Form} {c : Computed} {r : Reading}
    (hRun : evalOperand cx (resolve cx depth entered) x form s = .ok c u)
    (h : ReadsAmong cx depth entered form xs u r) :
    ReadsAmong cx depth entered form (x :: xs) s r := by
  obtain ⟨before, y, after, a, t, rfl, hBefore, hReads⟩ := h
  exact ⟨x :: before, y, after, _, t, rfl, evalAll_cons_of_ok hRun hBefore, hReads⟩

theorem covers_evalAll {xs : List Form} {c : List Value × List Instr}
    (hAll : ∀ x ∈ xs, Covers N cx depth entered x) (hs : s.IsOpen cx)
    (hRun : evalAll form (xs.map (evalOperand cx (resolve cx depth entered))) s = .ok c t)
    (hReads : ∀ r, ReadsAmong cx depth entered form xs s r → N r.name) :
    (s.IsCovered N cx → t.IsCovered N cx) ∧ ∀ x ∈ xs, t.AccountsIn N x := by
  induction xs generalizing s c with
  | nil =>
      cases hRun
      exact ⟨id, fun x hx => absurd hx List.not_mem_nil⟩
  | cons x xs ih =>
      rw [List.forall_mem_cons] at hAll
      obtain ⟨a, u, hFirst, hRun⟩ := bind_eq_ok.mp hRun
      obtain ⟨b, w, hRest, hRun⟩ := bind_eq_ok.mp hRun
      cases hRun
      obtain ⟨-, hu⟩ := moves_evalOperand depth entered x form s _ u hs hFirst
      obtain ⟨hGrows, -⟩ := moves_evalOperands depth entered xs form u _ _ hu hRest
      obtain ⟨hHere, hNames⟩ := hAll.1 form s u hs (.inl ⟨a, hFirst⟩)
        fun r hr => hReads r (readsAmong_head hr)
      obtain ⟨hThere, hOthers⟩ := ih hAll.2 hu hRest fun r hr => hReads r (hr.after hFirst)
      exact ⟨fun hCovered => hThere (hHere hCovered),
        List.forall_mem_cons.mpr ⟨hNames.of_leads hGrows.toLeads, hOthers⟩⟩

/-- A computation on bodies binds no names. -/
def BindsNothing {α : Type} (x : BodyM α) : Prop := ∀ s a t, x s = .ok a t → t.names = s.names

theorem isEvaluable_bindsNothing : IsEvaluable fun _ => BindsNothing where
  pure a := by
    rintro s _ _ ⟨⟩
    rfl
  get := by
    rintro s _ _ ⟨⟩
    rfl
  refused _ _ _ := by
    rintro s _ _ ⟨⟩
  seq := by
    intro α β x f hx hf s b u hRun
    obtain ⟨a, t, hFirst, hRest⟩ := bind_eq_ok.mp hRun
    rw [hf a ⟨s, t, hFirst⟩ t b u hRest, hx s a t hFirst]
  tag _ _ := by
    rintro s _ _ ⟨⟩
    rfl
  global _ _ := by
    intro s v t hRun
    obtain ⟨p, rfl, -, -⟩ := globalValue_eq_ok hRun
    rfl

/-- Making the value of an expression binds no names, and puts the operands of a phi off. -/
theorem make_eq_ok {shape : Shape} {head : String} {location : Location} {values : List Value}
    {own : Computed} (h : shape.make cx form head name location values s = .ok own t) :
    t.names = s.names ∧
      (shape = .phi → ∃ phi ∈ t.waiting, phi.operands = form.items.drop 1) := by
  constructor
  · have hMake : BindsNothing (shape.make cx form head name location values) := by
      apply isEvaluable_bindsNothing.make
      rintro - s _ _ ⟨⟩
      rfl
    exact hMake s own t h
  · rintro rfl
    cases h
    exact ⟨_, List.mem_append_right _ (List.mem_singleton_self _), rfl⟩

theorem covers_list (hAll : ∀ x ∈ operandsOf (.list items), Covers N cx depth entered x) :
    Covers N cx depth entered (.list items) := by
  intro form s t hs hRun hReads
  obtain ⟨name, location, c, hList⟩ := hRun.exists_evalList
  obtain ⟨head, shape, ops, u, own, hHead, hShape, hOps, hMake⟩ := evalList_eq_ok hList
  have hAmong : ∀ r, ReadsAmong cx depth entered (.list (withoutPosition items))
      (operandsOf (.list items)) s r → N r.name := by
    rintro r ⟨before, x, after, a, w, hSplit, hBefore, hx⟩
    exact hReads r (.operand hSplit hBefore hx)
  obtain ⟨-, hu⟩ := moves_evalOperands depth entered _ _ s _ u hs hOps
  obtain ⟨hGrows, -⟩ := moves_make entered shape head _ ops.1 u _ t hu hMake
  obtain ⟨hThere, hNames⟩ := covers_evalAll hAll hs hOps hAmong
  obtain ⟨hBound, hPhi⟩ := make_eq_ok hMake
  refine ⟨fun hCovered => (hThere hCovered).of_leads hGrows.toLeads hBound,
    fun other hStands => ?_⟩
  cases hStands with
  | @operand _ head' shape' y hHead' hShape' hMem rest =>
      rw [hHead] at hHead'
      cases hHead'
      rw [hShape] at hShape'
      cases hShape'
      -- the operands of a phi are not evaluated here but wait with it
      by_cases hKind : shape = .phi
      · subst hKind
        obtain ⟨phi, hWaits, hOperands⟩ := hPhi rfl
        exact .inr ⟨phi, hWaits, y, hOperands ▸ hMem, rest⟩
      · have hInline : y ∈ operandsOf (.list items) := by
          rw [operandsOf_list hHead hShape]
          cases shape with
          | phi => exact absurd rfl hKind
          | _ => exact hMem
        exact (hNames y hInline other rest).of_leads hGrows.toLeads

/-- When a let is bound, the names that stand in it are accounted for. -/
theorem covers_evalLet {stmt x : Form} {v : Value} (hx : Covers N cx depth (name :: entered) x)
    (hLet : cx.lets.find? name = some stmt) (hExpression : letExpression? stmt = some x)
    (hs : s.IsOpen cx)
    (hRun : evalLet cx (resolve cx depth (name :: entered)) name stmt s = .ok v t)
    (hReads : ∀ r, Reads cx depth (name :: entered) x x s r → N r.name) :
    (s.IsCovered N cx → t.IsCovered N cx) ∧ t.AccountsIn N x := by
  obtain ⟨y, instrs, u, hY, hBound, rfl⟩ := evalLet_eq_ok hRun
  rw [hExpression] at hY
  cases hY
  obtain ⟨hThere, hNames⟩ := hx x s u hs (isEvaluated_of_evalBound hBound) hReads
  refine ⟨fun hCovered other stmt' y hOther hY hSome => ?_, hNames⟩
  by_cases hSame : other = name
  · subst hSame
    rw [hLet] at hOther
    cases hOther
    rw [hExpression] at hY
    cases hY
    exact hNames
  · rw [Table.find?_insert, if_neg hSame] at hSome
    exact hThere hCovered other stmt' y hOther hY hSome

theorem covers_name (hLets : ∀ below, depth = below + 1 → ∀ entered x, Covers N cx below entered x)
    (name : String) : Covers N cx depth entered (.sym name) := by
  intro form s t hs hRun hReads
  obtain ⟨v, hResolve⟩ := hRun.exists_resolve
  have hSelf : t.AccountsIn N (.sym name) := by
    intro other hStands
    cases hStands
    exact .inl (hReads _ (.name hResolve))
  refine ⟨fun hCovered => ?_, hSelf⟩
  rcases resolve_eq_ok hResolve with ⟨-, rfl⟩ | ⟨-, -, hOuter⟩ |
    ⟨below, stmt, rfl, hUnbound, hLet, hNew, hEval⟩
  · exact hCovered
  · obtain ⟨hGrows, -⟩ := moves_resolve depth entered name form s v t hs hResolve
    exact hCovered.of_leads hGrows.toLeads (resolveOuter_eq_ok hOuter).1
  · obtain ⟨x, _, _, hExpression, -, -⟩ := evalLet_eq_ok hEval
    exact (covers_evalLet (hLets below rfl _ x) hLet hExpression hs hEval fun r hr =>
      hReads r (.binding hUnbound hLet hNew hExpression hr)).1 hCovered

theorem covers_of_lets
    (hLets : ∀ below, depth = below + 1 → ∀ entered x, Covers N cx below entered x) (x : Form) :
    Covers N cx depth entered x := by
  induction x using Form.induct with
  | atom x hAtom =>
      cases x with
      | sym name => exact covers_name hLets name
      | list items => exact absurd rfl (hAtom items)
      | int | real | str => exact covers_literal hAtom (by simp)
  | list items ih => exact covers_list fun x hx => ih x (expressions_of_mem_operandsOf hx).1

theorem covers (N : String → Prop) (cx : Context) (depth : Nat) (entered : List String)
    (x : Form) : Covers N cx depth entered x := by
  induction depth generalizing entered x with
  | zero => exact covers_of_lets (fun _ h => absurd h (by omega)) x
  | succ depth ih =>
      apply covers_of_lets
      rintro below ⟨⟩
      exact ih

end Covers

section Statements

variable {N : String → Prop} {cx : Context} {s t u : Body} {stmt : Form} {place : Nat}

/-- The names that stand in a statement are accounted for when it is evaluated. -/
theorem covers_evalStatement {is : List Instr}
    (hLet : stmt.head? = some "let" → cx.lets.find? (letName stmt) = some stmt)
    (hs : s.IsOpen cx) (hRun : evalStatement cx stmt s = .ok is t)
    (hReads : ∀ r, ReadsStatement cx stmt s r → N r.name) (hCovered : s.IsCovered N cx) :
    t.IsCovered N cx ∧ ∀ x ∈ partsOf stmt, t.AccountsIn N x := by
  rcases evalStatement_cases cx stmt with ⟨-, -, hEval⟩ | ⟨_, _, _, hEval⟩ |
    ⟨hHead, hEval⟩ | ⟨head, ending, hHead, hEnding, -, hEval⟩ |
    ⟨head, shape, hHead, -, hShape, hEval⟩
  all_goals rw [hEval] at hRun
  · cases hRun
  · cases hRun
  · rw [partsOf_let hHead]
    rcases evalLetStatement_eq_ok hRun with ⟨hBuilt, rfl⟩ | ⟨hUnbuilt, v, hEval, -⟩
    · -- an earlier statement needed the let, so its names were accounted for then
      refine ⟨hCovered, fun x hx => ?_⟩
      exact hCovered _ stmt x (hLet hHead) (Option.mem_toList.mp hx) (hs.built _ is hBuilt)
    · obtain ⟨x, _, _, hExpression, -, -⟩ := evalLet_eq_ok hEval
      obtain ⟨hThere, hNames⟩ := covers_evalLet (covers N cx _ _ x) (hLet hHead) hExpression hs
        hEval fun r hr => hReads r (.binding hHead hUnbuilt hExpression hr)
      rw [hExpression, Option.toList_some, List.forall_mem_singleton]
      exact ⟨hThere hCovered, hNames⟩
  · have hNoLet := head?_ne_let_of_ending hHead hEnding
    have hParts := partsOf_ending hHead hEnding
    obtain ⟨ops, u, hOps, hRun⟩ := bind_eq_ok.mp hRun
    cases hRun
    rw [← hParts] at hOps
    obtain ⟨hThere, hNames⟩ := covers_evalAll (fun x _ => covers N cx _ _ x) hs hOps fun r hr =>
      hReads r (.operand hNoLet hr)
    exact ⟨hThere hCovered, hNames⟩
  · have hNoLet := head?_ne_let_of_shape hHead hShape
    have hParts := partsOf_expression hHead hShape
    obtain ⟨c, hRun, -⟩ := map_eq_ok.mp hRun
    obtain ⟨hThere, hNames⟩ := covers N cx cx.lets.entries.length [] _ stmt s t hs
      (.inr ⟨_, _, _, _, rfl, hRun⟩) fun r hr =>
        hReads r (.operand hNoLet (hParts ▸ readsAmong_head hr))
    rw [hParts, List.forall_mem_singleton]
    exact ⟨hThere hCovered, hNames⟩

theorem covers_evalStatements {stmts : List Form}
    (hLets : ∀ stmt ∈ stmts, stmt.head? = some "let" → cx.lets.find? (letName stmt) = some stmt)
    (hs : s.IsOpen cx) (hRun : evalStatements cx place stmts s = .ok () t)
    (hReads : ∀ r, ReadsStatements cx place stmts s r → N r.name) (hCovered : s.IsCovered N cx) :
    t.IsCovered N cx ∧ ∀ stmt ∈ stmts, ∀ x ∈ partsOf stmt, t.AccountsIn N x := by
  induction stmts generalizing s with
  | nil =>
      cases hRun
      exact ⟨hCovered, fun stmt hStmt => absurd hStmt List.not_mem_nil⟩
  | cons stmt stmts ih =>
      rw [List.forall_mem_cons] at hLets
      obtain ⟨is, u, hStmt, hRest⟩ := evalStatements_cons_eq_ok.mp hRun
      obtain ⟨-, hu⟩ := moves_evalStatement hLets.1 s is u hs hStmt
      have hPlaced := Body.proceeds_blocks hu
        (u.blocks.modify place fun b => { b with instrs := b.instrs ++ is })
      obtain ⟨hFuture, -⟩ := evalStatements_eq_ok hLets.2 hPlaced.isOpen hRest
      obtain ⟨hHere, hNames⟩ := covers_evalStatement hLets.1 hs hStmt
        (fun r hr => hReads r ⟨[], stmt, stmts, s, rfl, rfl, hr⟩) hCovered
      obtain ⟨hThere, hOthers⟩ := ih hLets.2 hPlaced.isOpen hRest
        (by
          rintro r ⟨before, other, after, w, rfl, hBefore, hr⟩
          refine hReads r ⟨stmt :: before, other, after, w, rfl, ?_, hr⟩
          exact evalStatements_cons_eq_ok.mpr ⟨is, u, hStmt, hBefore⟩)
        (hHere.of_leads hPlaced.leads rfl)
      refine ⟨hThere, List.forall_mem_cons.mpr ⟨fun x hx => ?_, hOthers⟩⟩
      exact (hNames x hx).of_leads (hPlaced.leads.trans hFuture.leads)

theorem covers_fillBlocks {bodies : List (List Form)}
    (hLets : ∀ stmts ∈ bodies, ∀ stmt ∈ stmts, stmt.head? = some "let" →
      cx.lets.find? (letName stmt) = some stmt)
    (hs : s.IsOpen cx) (hRun : fillBlocks cx place bodies s = .ok () t)
    (hReads : ∀ r, ReadsBlocks cx place bodies s r → N r.name) (hCovered : s.IsCovered N cx) :
    t.IsCovered N cx ∧
      ∀ stmts ∈ bodies, ∀ stmt ∈ stmts, ∀ x ∈ partsOf stmt, t.AccountsIn N x := by
  induction bodies generalizing s place with
  | nil =>
      cases hRun
      exact ⟨hCovered, fun stmts hStmts => absurd hStmts List.not_mem_nil⟩
  | cons stmts bodies ih =>
      rw [List.forall_mem_cons] at hLets
      obtain ⟨u, hStmts, hChecked, hRest⟩ := fillBlocks_cons_eq_ok.mp hRun
      obtain ⟨hPast, -⟩ := evalStatements_eq_ok hLets.1 hs hStmts
      obtain ⟨hFuture, -⟩ := fillBlocks_eq_ok hLets.2 hPast.isOpen hRest
      obtain ⟨hHere, hNames⟩ := covers_evalStatements hLets.1 hs hStmts
        (fun r hr => hReads r ⟨[], stmts, bodies, s, rfl, rfl, hr⟩) hCovered
      obtain ⟨hThere, hOthers⟩ := ih hLets.2 hPast.isOpen hRest
        (by
          rintro r ⟨before, other, after, w, rfl, hBefore, hr⟩
          refine hReads r ⟨stmts :: before, other, after, w, rfl, ?_, ?_⟩
          · exact fillBlocks_cons_eq_ok.mpr ⟨u, hStmts, hChecked, hBefore⟩
          · rwa [List.length_cons, Nat.add_comm before.length, ← Nat.add_assoc])
        hHere
      refine ⟨hThere, List.forall_mem_cons.mpr ⟨fun stmt hStmt x hx => ?_, hOthers⟩⟩
      exact (hNames stmt hStmt x hx).of_leads hFuture.leads

theorem covers_settleRound {phis : List Phi} (hs : s.IsOpen cx) (hBound : s.IsBound cx)
    (hRun : phis.forM (settlePhi cx) s = .ok () t)
    (hReads : ∀ r, ReadsRound cx phis s r → N r.name) :
    ∀ phi ∈ phis, ∀ x ∈ phi.operands, t.AccountsIn N x := by
  induction phis generalizing s with
  | nil => exact fun phi hPhi => absurd hPhi List.not_mem_nil
  | cons phi phis ih =>
      obtain ⟨_, u, hPhi, hRest⟩ := bind_eq_ok.mp hRun
      have hHere := settlePhi_eq_ok hs hBound hPhi
      have hBoundNext := hHere.leads.isBound hBound
      have hFuture := settleRound_eq_ok hHere.isOpen hBoundNext hRest
      have hOthers := ih hHere.isOpen hBoundNext hRest
        (by
          rintro r ⟨before, other, after, w, rfl, hBefore, hr⟩
          exact hReads r ⟨phi :: before, other, after, w, rfl,
            bind_eq_ok.mpr ⟨_, u, hPhi, hBefore⟩, hr⟩)
      refine List.forall_mem_cons.mpr ⟨fun x hx => ?_, hOthers⟩
      obtain ⟨⟨values, is⟩, w, hAll, hPhi⟩ := bind_eq_ok.mp hPhi
      rw [evalOperands_eq_map] at hAll
      cases hPhi
      obtain ⟨-, hNames⟩ := covers_evalAll (fun x _ => covers N cx _ _ x) hs hAll
        fun r hr => hReads r ⟨[], phi, phis, s, rfl, rfl, hr⟩
      have hSettled : Body.AccountsIn N
          { w with settled := w.settled ++ [(phi.value, values)] } x := hNames x hx
      exact hSettled.of_leads hFuture.leads

/-- When no phi waits any more, the names that are accounted for have been read. -/
theorem covers_settlePhis {rounds : Nat} {name : String} (hs : s.IsOpen cx)
    (hBound : s.IsBound cx) (hRun : settlePhis cx rounds s = .ok () t) (hNone : t.waiting = [])
    (hReads : ∀ r, ReadsPhis cx rounds s r → N r.name) (hName : s.Accounts N name) : N name := by
  induction rounds generalizing s with
  | zero =>
      cases hRun
      rcases hName with hRead | ⟨phi, hPhi, -⟩
      · exact hRead
      · rw [hNone] at hPhi
        exact absurd hPhi List.not_mem_nil
  | succ rounds ih =>
      obtain ⟨u, hRound, hRest⟩ := settlePhis_succ_eq_ok hRun
      have hSettles := settleRound_eq_ok hs.clear hBound hRound
      have hNames := covers_settleRound hs.clear hBound hRound
        fun r hr => hReads r ⟨0, s, by omega, rfl, hr⟩
      -- a round reads the operands of what waited, and puts off only those of phis within them
      refine ih hSettles.isOpen (hSettles.leads.isBound hBound) hRest ?_ ?_
      · rintro r ⟨round, w, hLt, hPast, hr⟩
        exact hReads r ⟨round + 1, w, by omega, settlePhis_succ_of_ok hRound hPast, hr⟩
      · rcases hName with hRead | ⟨phi, hPhi, x, hx, hStands⟩
        · exact .inl hRead
        · exact hNames phi hPhi x hx name hStands

end Statements

/-- In a body that loads, every name that stands in a statement where a value is needed is read. -/
theorem exists_readsBody {program : Program} {fn : Function} {forms : List Form} {body : Body}
    (h : loadBlocks fn forms { program } = .ok () body) {form stmt x : Form} {name : String}
    (hForm : form ∈ forms) (hStmt : stmt ∈ statementsOf form) (hx : x ∈ partsOf stmt)
    (hStands : StandsIn (.sym name) x) : ∃ r, ReadsBody program fn forms r ∧ r.name = name := by
  obtain ⟨sorted, cx, bodies, s, t, hBegins, hFill, hSettle⟩ := begins_of_loadBlocks h
  have hRead := hBegins.hasHeaders
  have hLets : ∀ stmts ∈ bodies, ∀ stmt ∈ stmts, stmt.head? = some "let" →
      cx.lets.find? (letName stmt) = some stmt := fun _ hStmts _ => hRead.find? hStmts
  obtain ⟨hFills, -⟩ := fillBlocks_eq_ok hLets hRead.isOpen hFill
  have hStart (N : String → Prop) : s.IsCovered N cx := by
    intro name stmt x hLet _ hBound
    rw [hRead.state, hRead.unbound name stmt hLet] at hBound
    cases hBound
  have hMem : statementsOf form ∈ bodies := by
    obtain ⟨entry, hEntry, rfl⟩ := List.mem_map.mp (hRead.indexed.perm.mem_iff.mpr hForm)
    rw [hRead.statements]
    exact List.mem_map_of_mem hEntry
  obtain ⟨-, hNames⟩ := covers_fillBlocks hLets hRead.isOpen hFill
    (fun r hr => ⟨r, ⟨sorted, cx, bodies, s, t, hBegins, hFill, .inl hr⟩, rfl⟩)
    (hStart fun name => ∃ r, ReadsBody program fn forms r ∧ r.name = name)
  exact covers_settlePhis hFills.isOpen (hBegins.isBound hFill) hSettle
    (waiting_eq_nil_of_loadBlocks h)
    (fun r hr => ⟨r, ⟨sorted, cx, bodies, s, t, hBegins, hFill, .inr hr⟩, rfl⟩)
    (hNames _ hMem stmt hStmt x hx name hStands)

end Dump

end NilGuard
