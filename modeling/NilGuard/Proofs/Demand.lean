import NilGuard.Proofs.Grammar
import Mathlib.Logic.Relation
import Mathlib.Data.List.Perm.Subperm
/-! Lets are evaluated on demand. While that goes on, each let being evaluated needs the one that
was entered after it, so that a let which is entered again lies on a cycle; and a let is bound
only after all that it needs, so that no bound let lies on one. -/
namespace NilGuard.Dump

/-! ### The lets that a let needs -/

/-- The expression of one let of a context names another one outside every phi. -/
def Context.Needs (cx : Context) (a b : String) : Prop :=
  ∃ stmt x, cx.lets.find? a = some stmt ∧ letExpression? stmt = some x ∧ b ∈ inlineNames x ∧
    (cx.lets.find? b).isSome

/-- The failure at a let that lies on a cycle. -/
def Context.IsCircular (cx : Context) (e : LoadError) : Prop :=
  ∃ name stmt, e = .refused (some cx.callee.text) (.dependsOnItself name) (some stmt) ∧
    cx.lets.find? name = some stmt ∧ Relation.TransGen cx.Needs name name

/-- Lets are being evaluated, the last one first, each for the sake of the one before it. So many
more can be entered as the number says. -/
structure Context.AreEntered (cx : Context) (depth : Nat) (entered : List String) : Prop where
  path : entered.IsChain fun b a => cx.Needs a b
  nodup : entered.Nodup
  lets : ∀ name ∈ entered, (cx.lets.find? name).isSome
  room : cx.lets.entries.length ≤ depth + entered.length

section Entered

variable {cx : Context} {depth : Nat} {entered : List String} {name : String}

theorem Context.areEntered_nil (cx : Context) : cx.AreEntered cx.lets.entries.length [] :=
  ⟨.nil, List.nodup_nil, by simp, Nat.le_refl _⟩

theorem Context.areEntered_singleton (hLet : (cx.lets.find? name).isSome) :
    cx.AreEntered cx.lets.entries.length [name] :=
  ⟨.singleton name, List.pairwise_singleton _ _, List.forall_mem_singleton.mpr hLet,
    Nat.le_add_right _ _⟩

/-- The last let that was entered is needed by all that were entered before. -/
theorem needs_of_isChain {last : String}
    (h : (last :: entered).IsChain fun b a => cx.Needs a b) (hName : name ∈ last :: entered) :
    Relation.ReflTransGen cx.Needs name last := by
  induction entered generalizing last with
  | nil => rw [List.mem_singleton.mp hName]
  | cons before entered ih =>
      rw [List.isChain_cons_cons] at h
      rcases List.mem_cons.mp hName with rfl | hName
      · exact .refl
      · exact (ih h.2 hName).tail h.1

namespace Context.AreEntered

/-- A let that is entered again lies on a cycle. -/
theorem transGen (h : cx.AreEntered depth entered) (hName : name ∈ entered)
    (hNeeds : ∀ last ∈ entered.head?, cx.Needs last name) :
    Relation.TransGen cx.Needs name name := by
  cases entered with
  | nil => cases hName
  | cons last entered =>
      exact Relation.TransGen.tail' (needs_of_isChain h.path hName) (hNeeds last rfl)

theorem cons (h : cx.AreEntered (depth + 1) entered) (hLet : (cx.lets.find? name).isSome)
    (hNew : name ∉ entered) (hNeeds : ∀ last ∈ entered.head?, cx.Needs last name) :
    cx.AreEntered depth (name :: entered) := by
  refine ⟨?_, List.nodup_cons.mpr ⟨hNew, h.nodup⟩, List.forall_mem_cons.mpr ⟨hLet, h.lets⟩, ?_⟩
  · cases entered with
    | nil => exact .singleton name
    | cons last entered => exact List.isChain_cons_cons.mpr ⟨hNeeds last rfl, h.path⟩
  · have hRoom := h.room
    rw [List.length_cons]
    omega

/-- When no more lets can be entered, all of them have been. -/
theorem mem (h : cx.AreEntered 0 entered) (hLet : (cx.lets.find? name).isSome) :
    name ∈ entered := by
  refine Decidable.by_contra fun hNew => ?_
  have hKeys : name :: entered ⊆ cx.lets.keys := by
    intro other hOther
    have hSome : (cx.lets.find? other).isSome := by
      rcases List.mem_cons.mp hOther with rfl | hOther
      · exact hLet
      · exact h.lets other hOther
    refine Decidable.by_contra fun hNot => ?_
    rw [Table.find?_eq_none_iff.mpr hNot] at hSome
    cases hSome
  have hLength := (List.subperm_of_subset (List.nodup_cons.mpr ⟨hNew, h.nodup⟩) hKeys).length_le
  have hRoom := h.room
  rw [List.length_cons, Table.keys, List.length_map] at hLength
  omega

end Context.AreEntered

end Entered

/-! ### Computations that fail only at a cycle -/

/-- A name has a value or a let, or the package knows it. -/
def Body.Knows (cx : Context) (s : Body) (name : String) : Prop :=
  (cx.lets.find? name).isSome ∨ (s.names.find? name).isSome ∨ name = "nil" ∨
    (s.program.global? cx.callee.package name).isSome ∨
    (s.program.const? cx.callee.package name).isSome

/-- A form is well formed and has no other names than the given ones. -/
structure IsUsable (used : List String) (x : Form) : Prop where
  isExpression : isExpression x = true
  names : operandNames x ⊆ used

/-- A statement is well formed and has no other names than the given ones. -/
structure IsUsableStatement (used : List String) (stmt : Form) : Prop where
  isStatement : isStatement stmt = true
  names : statementNames stmt ⊆ used

/-- What a context has under a name is a let that can be used. -/
def Context.IsUsable (cx : Context) (used : List String) : Prop :=
  ∀ name stmt, cx.lets.find? name = some stmt →
    stmt.head? = some "let" ∧ IsUsableStatement used stmt

/-- The names that are used are known, the bound lets lie on no cycle, the instructions that were
kept are those of lets, and the operands of waiting phis are well formed. -/
structure Body.IsReady (cx : Context) (used : List String) (s : Body) : Prop where
  known : ∀ name ∈ used, s.Knows cx name
  grounded : ∀ name, (cx.lets.find? name).isSome → (s.names.find? name).isSome →
    Acc (fun b a => cx.Needs a b) name
  built : ∀ name is, s.built.find? name = some is → (s.names.find? name).isSome ∧
    ∃ stmt, cx.lets.find? name = some stmt ∧ lastIsBranch? is = statementBranches? stmt
  waiting : ∀ phi ∈ s.waiting, ∀ x ∈ phi.operands, IsUsable used x

/-- A state is ready and has values for names that it had to get. -/
structure Body.Obtains (cx : Context) (used needs : List String) (s t : Body) : Prop where
  isReady : t.IsReady cx used
  names : ∀ name, (s.names.find? name).isSome → (t.names.find? name).isSome
  needs : ∀ name ∈ needs, (cx.lets.find? name).isSome → (t.names.find? name).isSome

/-- A run ends with a value and in a state as described, or it fails as described. -/
def EndsWith {σ α : Type} (Q : α → σ → Prop) (E : LoadError → Prop) :
    EStateM.Result LoadError σ α → Prop
  | .ok a t => Q a t
  | .error e _ => E e

/-- A computation fails only at a let that lies on a cycle. If it succeeds, the lets among some
names are bound afterwards, the blocks are as they were, and the result is as described. -/
def Supplies (cx : Context) (used needs : List String) {α : Type} (x : BodyM α) (Q : α → Prop) :
    Prop :=
  ∀ s, s.IsReady cx used →
    EndsWith (fun a t => s.Obtains cx used needs t ∧ t.blocks = s.blocks ∧ Q a) cx.IsCircular (x s)

theorem EndsWith.bind {σ α β : Type} {Q : α → σ → Prop} {R : β → σ → Prop} {E : LoadError → Prop}
    {x : EStateM LoadError σ α} {f : α → EStateM LoadError σ β} {s : σ} (hx : EndsWith Q E (x s))
    (hf : ∀ a t, x s = .ok a t → Q a t → EndsWith R E (f a t)) :
    EndsWith R E ((x >>= f) s) := by
  change EndsWith R E (EStateM.bind x f s)
  unfold EStateM.bind
  cases hRun : x s with
  | ok a t =>
      rw [hRun] at hx
      exact hf a t hRun hx
  | error e t =>
      rw [hRun] at hx
      exact hx

theorem EndsWith.imp {σ α : Type} {Q R : α → σ → Prop} {E F : LoadError → Prop}
    {r : EStateM.Result LoadError σ α} (h : EndsWith Q E r) (hQ : ∀ a t, Q a t → R a t)
    (hE : ∀ e, E e → F e) : EndsWith R F r := by
  cases r with
  | ok a t => exact hQ a t h
  | error e t => exact hE e h

theorem EndsWith.mono {σ α : Type} {Q R : α → σ → Prop} {E : LoadError → Prop}
    {r : EStateM.Result LoadError σ α} (h : EndsWith Q E r) (hQ : ∀ a t, Q a t → R a t) :
    EndsWith R E r :=
  h.imp hQ fun _ he => he

section Supplies

variable {cx : Context} {used needs needs' : List String} {α β : Type} {s t u : Body}

theorem Body.IsReady.obtains (h : s.IsReady cx used) : s.Obtains cx used [] s :=
  ⟨h, fun _ hName => hName, by simp⟩

theorem Body.Obtains.trans (h : s.Obtains cx used needs t) (h' : t.Obtains cx used needs' u) :
    s.Obtains cx used (needs ++ needs') u :=
  ⟨h'.isReady, fun name hName => h'.names name (h.names name hName), List.forall_mem_append.mpr
    ⟨fun name hName hLet => h'.names name (h.needs name hName hLet), h'.needs⟩⟩

theorem Body.Obtains.mono (h : s.Obtains cx used needs t) (hNeeds : needs' ⊆ needs) :
    s.Obtains cx used needs' t :=
  ⟨h.isReady, h.names, fun name hName => h.needs name (hNeeds hName)⟩

/-- A program that has grown leaves a state ready. -/
theorem Body.IsReady.program {p : Program} (h : s.IsReady cx used) (hp : s.program.Widens p) :
    Body.IsReady cx used { s with program := p } := by
  refine ⟨fun name hName => ?_, h.grounded, h.built, h.waiting⟩
  rcases h.known name hName with hLet | hName | hNil | hGlobal | hConst
  · exact .inl hLet
  · exact .inr (.inl hName)
  · exact .inr (.inr (.inl hNil))
  · obtain ⟨v, hv⟩ := Option.isSome_iff_exists.mp hGlobal
    exact .inr (.inr (.inr (.inl (Option.isSome_of_eq_some (hp.globals _ _ v hv)))))
  · obtain ⟨v, hv⟩ := Option.isSome_iff_exists.mp hConst
    exact .inr (.inr (.inr (.inr (Option.isSome_of_eq_some (hp.consts _ _ v hv)))))

/-- A let may be bound when all that it needs is. -/
theorem Body.IsReady.bind (h : s.IsReady cx used) {name : String} {stmt x : Form} {v : Value}
    {is : List Instr} (hLet : cx.lets.find? name = some stmt)
    (hExpression : letExpression? stmt = some x)
    (hNeeds : ∀ b ∈ inlineNames x, (cx.lets.find? b).isSome → (s.names.find? b).isSome)
    (hBranches : lastIsBranch? is = statementBranches? stmt) :
    Body.Obtains cx used [name] s
      { s with names := s.names.insert name v, built := s.built.insert name is } := by
  have hBound (other : String) (hOther : (s.names.find? other).isSome) :
      ((s.names.insert name v).find? other).isSome := by
    rw [Table.find?_insert]
    split
    case isTrue => rfl
    case isFalse => exact hOther
  have hOwn : ((s.names.insert name v).find? name).isSome := by
    rw [Table.find?_insert, if_pos rfl]
    rfl
  refine ⟨⟨fun other hOther => ?_, fun other hOther hName => ?_, fun other kept hKept => ?_,
    h.waiting⟩, hBound, fun other hOther _ => List.mem_singleton.mp hOther ▸ hOwn⟩
  · rcases h.known other hOther with hLet | hName | hRest
    · exact .inl hLet
    · exact .inr (.inl (hBound other hName))
    · exact .inr (.inr hRest)
  · by_cases hSame : other = name
    · subst hSame
      -- all that it needs is bound and lies on no cycle, so neither does the let itself
      refine Acc.intro _ fun b hb => ?_
      obtain ⟨stmt', x', hLet', hExpression', hMem, hSome⟩ := hb
      cases hLet.symm.trans hLet'
      cases hExpression.symm.trans hExpression'
      exact h.grounded b hSome (hNeeds b hMem hSome)
    · rw [Table.find?_insert, if_neg hSame] at hName
      exact h.grounded other hOther hName
  · rw [Table.find?_insert] at hKept
    split at hKept
    case isTrue hSame =>
      cases hKept
      subst hSame
      exact ⟨hOwn, stmt, hLet, hBranches⟩
    case isFalse =>
      obtain ⟨hName, hStmt⟩ := h.built other kept hKept
      exact ⟨hBound other hName, hStmt⟩

theorem supplies_pure {a : α} {Q : α → Prop} (h : Q a) : Supplies cx used [] (pure a) Q :=
  fun _ hs => ⟨hs.obtains, rfl, h⟩

theorem Supplies.bind {x : BodyM α} {f : α → BodyM β} {Q : α → Prop} {R : β → Prop}
    (hx : Supplies cx used needs x Q) (hf : ∀ a, Q a → Supplies cx used needs' (f a) R) :
    Supplies cx used (needs ++ needs') (x >>= f) R := by
  intro s hs
  refine (hx s hs).bind fun a t _ ht => ?_
  obtain ⟨ht, hBlocks, ha⟩ := ht
  exact (hf a ha t ht.isReady).mono fun b u hu =>
    ⟨ht.trans hu.1, hu.2.1.trans hBlocks, hu.2.2⟩

theorem Supplies.mono {x : BodyM α} {Q : α → Prop} (hx : Supplies cx used needs x Q)
    (hNeeds : needs' ⊆ needs) : Supplies cx used needs' x Q :=
  fun s hs => (hx s hs).mono fun _ _ ht => ⟨ht.1.mono hNeeds, ht.2⟩

theorem Supplies.forget {x : BodyM α} {Q : α → Prop} (hx : Supplies cx used needs x Q) :
    Supplies cx used [] x Q :=
  hx.mono (List.nil_subset needs)

/-- What comes after a computation may need nothing more. -/
theorem Supplies.andThen {x : BodyM α} {f : α → BodyM β} {Q : α → Prop} {R : β → Prop}
    (hx : Supplies cx used needs x Q) (hf : ∀ a, Q a → Supplies cx used [] (f a) R) :
    Supplies cx used needs (x >>= f) R :=
  (hx.bind hf).mono (List.subset_append_left needs [])

theorem Supplies.map {x : BodyM α} {Q : α → Prop} {R : β → Prop} {f : α → β}
    (hx : Supplies cx used needs x Q) (hR : ∀ a, Q a → R (f a)) :
    Supplies cx used needs (f <$> x) R := by
  rw [← bind_pure_comp]
  exact hx.andThen fun a ha => supplies_pure (hR a ha)

theorem supplies_freshTag (name : String) (length : Int) :
    Supplies cx used [] (freshTag name length) fun _ => True := by
  intro s hs
  have hReady := hs.program (widens_nextId s.program)
  exact ⟨⟨hReady, fun _ h => h, by simp⟩, rfl, trivial⟩

theorem supplies_freshLeaf (name : String) (origin : Origin) :
    Supplies cx used [] (freshLeaf name origin) fun _ => True :=
  (supplies_freshTag name 0).bind fun _ _ => supplies_pure trivial

theorem globalValue_ne_error (package name : String) (s : Body) :
    EndsWith (fun _ _ => True) (fun _ => False) (globalValue package name s) := by
  refine EndsWith.bind (Q := fun _ _ => True) trivial fun _ t _ _ => ?_
  rw [get_bind_apply]
  cases (t.program.package? package).bind (·.globals.find? name) with
  | some v => exact trivial
  | none => exact trivial

theorem supplies_globalValue (package name : String) :
    Supplies cx used [] (globalValue package name) fun _ => True := by
  intro s hs
  have hEnd := globalValue_ne_error package name s
  cases hRun : globalValue package name s with
  | ok v t =>
      obtain ⟨p, rfl, hProgram, -⟩ := globalValue_eq_ok hRun
      exact ⟨⟨hs.program hProgram, fun _ h => h, by simp⟩, rfl, trivial⟩
  | error e t =>
      rw [hRun] at hEnd
      exact hEnd.elim

end Supplies

/-! ### Expressions -/

section Expressions

variable {cx : Context} {used : List String}

theorem supplies_define (form : Form) (head name : String) (length : Int) (location : Location)
    {kind : Kind} {values : List Value} (hValues : ∀ c, kind = .converted c → values ≠ []) :
    Supplies cx used [] (define cx form head name length location kind (values, [])) fun c =>
      lastIsBranch? c.2 = some false := by
  have hDefine (make : Tag → Value) :
      Supplies cx used [] (defineAs name length location make (values, [])) fun c =>
        lastIsBranch? c.2 = some false :=
    (supplies_freshTag name length).bind fun _ _ => supplies_pure rfl
  cases kind with
  | leaf o => exact hDefine _
  | converted c =>
      cases values with
      | nil => exact absurd rfl (hValues c rfl)
      | cons v vs => exact hDefine _

theorem supplies_makePhi (form : Form) (head name : String) (location : Location)
    (values : List Value) (hOperands : ∀ x ∈ form.items.drop 1, IsUsable used x) :
    Supplies cx used [] (Shape.phi.make cx form head name location values) fun c =>
      lastIsBranch? c.2 = some false := by
  refine (supplies_freshLeaf name .other).bind fun v _ => ?_
  have hWait : Supplies cx used [] (modify fun body : Body =>
      { body with waiting := body.waiting ++ [⟨v, form.items.drop 1, form⟩] }) fun _ => True := by
    intro s hs
    refine ⟨⟨⟨hs.known, hs.grounded, hs.built, ?_⟩, fun _ h => h, by simp⟩, rfl, trivial⟩
    exact List.forall_mem_append.mpr ⟨hs.waiting, List.forall_mem_singleton.mpr hOperands⟩
  exact hWait.bind fun _ _ => supplies_pure rfl

/-- Making the value of an expression that takes its arguments refuses nothing. -/
theorem supplies_make {form : Form} {shape : Shape} (head name : String) (location : Location)
    {values : List Value} (hTakes : shape.takes (form.items.drop 1) = true)
    (hValues : values.length = (shape.inline (form.items.drop 1)).length)
    (hPhi : shape = .phi → ∀ x ∈ form.items.drop 1, IsUsable used x) :
    Supplies cx used [] (shape.make cx form head name location values) fun c =>
      lastIsBranch? c.2 = if shape.isSilent then none else some false := by
  have hLeaf (name : String) (origin : Origin) (is : Value → List Instr) (last : Option Bool)
      (hLast : ∀ v, lastIsBranch? (is v) = last) :
      Supplies cx used [] (do let v ← freshLeaf name origin; return (v, is v)) fun c =>
        lastIsBranch? c.2 = last :=
    (supplies_freshLeaf name origin).bind fun v _ => supplies_pure (hLast v)
  have hSome (h : 0 < (shape.inline (form.items.drop 1)).length) : values ≠ [] :=
    List.length_pos_iff.mp (hValues ▸ h)
  cases shape with
  | const =>
      rw [Shape.make]
      split
      case h_1 => exact hLeaf _ _ _ _ fun _ => rfl
      case h_2 =>
        split
        case isTrue => exact hLeaf _ _ _ _ fun _ => rfl
        case isFalse => exact hLeaf _ _ _ _ fun _ => rfl
  | global => exact (supplies_globalValue _ _).bind fun _ _ => supplies_pure rfl
  | funcRef | binop | call | callMethod | callDynamic => exact hLeaf _ _ _ _ fun _ => rfl
  | fieldAddr | closure | single =>
      rw [Shape.make]
      refine supplies_define _ _ _ _ _ ?_
      rintro c ⟨⟩
  | simple kind =>
      rw [Shape.make]
      refine supplies_define _ _ _ _ _ ?_
      rintro c rfl
      exact hSome (of_decide_eq_true hTakes)
  | arrayPtr =>
      rw [Shape.make]
      refine supplies_define _ _ _ _ _ fun _ _ => hSome ?_
      simp only [Shape.takes, Bool.and_eq_true, beq_iff_eq] at hTakes
      rw [Shape.inline, List.length_take, hTakes.1]
      decide
  | phi => exact supplies_makePhi form head name location values (hPhi rfl)

/-- A computation evaluates an expression. Of what comes out only the end of the instructions is
described. -/
abbrev Evaluates (cx : Context) (used : List String) (x : Form) (c : BodyM Computed) : Prop :=
  Supplies cx used (inlineNames x) c fun r => lastIsBranch? r.2 = expressionBranches? x

theorem supplies_evalAll {operand : Form → Operand} {form : Form} {xs : List Form}
    (h : ∀ x ∈ xs, Evaluates cx used x (operand x form)) :
    Supplies cx used (xs.flatMap inlineNames) (evalAll form (xs.map operand)) fun r =>
      r.1.length = xs.length ∧ (xs = [] → r.2 = []) := by
  induction xs with
  | nil => exact supplies_pure ⟨rfl, fun _ => rfl⟩
  | cons x xs ih =>
      rw [List.forall_mem_cons] at h
      rw [List.flatMap_cons]
      refine h.1.bind fun c _ => (ih h.2).andThen fun r hr => supplies_pure ⟨?_, ?_⟩
      · rw [List.length_cons, hr.1, List.length_cons]
      · rintro ⟨⟩

theorem evaluates_evalList {operand : Form → Operand} (name : String) (location : Location)
    {items : List Form} (hUsable : IsUsable used (.list items))
    (hOperands : ∀ x ∈ items, IsUsable used x → inlineNames x ⊆ inlineNames (.list items) →
      ∀ form, Evaluates cx used x (operand x form)) :
    Evaluates cx used (.list items) (evalList cx name location items (items.map operand)) := by
  obtain ⟨head, shape, hHead, hShape, hPlace, hTakes, hWell⟩ :=
    exists_shape_of_isExpression hUsable.isExpression
  have hOperand (x : Form) (hx : x ∈ shape.operands ((withoutPosition items).drop 1)) :
      IsUsable used x :=
    ⟨hWell x hx, fun name hName => hUsable.names (operandNames_of_mem hHead hShape hx hName)⟩
  have hNames := inlineNames_list hHead hShape
  rw [evalList_eq_evalAs operand location hHead hShape hPlace, evalAs,
    Shape.check_eq_pure hTakes, pure_bind]
  have hAll : Supplies cx used (inlineNames (.list items)) (evalAll (.list (withoutPosition items))
      ((shape.inline ((withoutPosition items).drop 1)).map operand)) fun r =>
        r.1.length = (shape.inline ((withoutPosition items).drop 1)).length ∧
          (shape.inline ((withoutPosition items).drop 1) = [] → r.2 = []) := by
    rw [hNames]
    refine supplies_evalAll fun x hx => ?_
    refine hOperands x (mem_of_mem_inline hx) (hOperand x (Shape.inline_subset_operands hx)) ?_ _
    rw [hNames]
    exact fun name hName => List.mem_flatMap.mpr ⟨x, hx, hName⟩
  refine hAll.andThen fun r hr => ?_
  refine (supplies_make head name _ hTakes hr.1 ?_).bind fun c hc => supplies_pure ?_
  · rintro rfl
    exact hOperand
  · rw [expressionBranches?_list hHead hShape, lastIsBranch?_append, hc]
    cases hSilent : shape.isSilent with
    | false => rfl
    | true =>
        rw [hr.2 (Shape.inline_of_isSilent hSilent _)]
        rfl

section Resolver

variable {resolve : String → Form → BodyM Value}

theorem evaluates_evalOperand (x : Form) (hUsable : IsUsable used x)
    (hResolve : ∀ name ∈ inlineNames x, ∀ form,
      Supplies cx used [name] (resolve name form) fun _ => True) :
    ∀ form, Evaluates cx used x (evalOperand cx resolve x form) := by
  induction x using Form.induct with
  | atom x hAtom =>
      intro form
      cases x with
      | int | real | str => exact (supplies_freshLeaf _ _).bind fun _ _ => supplies_pure rfl
      | sym s =>
          exact (hResolve s (List.mem_singleton_self s) form).andThen fun _ _ => supplies_pure rfl
      | list items => exact absurd rfl (hAtom items)
  | list items ih =>
      intro form
      rw [evalOperand, evalOperands_eq_map]
      refine evaluates_evalList "" {} hUsable fun x hx hUsable' hNames form => ?_
      exact ih x hx hUsable' (fun name hName => hResolve name (hNames hName)) form

theorem evaluates_evalBound (name : String) (location : Location) {x : Form}
    (hUsable : IsUsable used x) (hResolve : ∀ name ∈ inlineNames x, ∀ form,
      Supplies cx used [name] (resolve name form) fun _ => True) :
    Evaluates cx used x (evalBound cx resolve name location x) := by
  unfold evalBound
  split
  case h_1 items =>
    rw [evalOperands_eq_map]
    refine evaluates_evalList name location hUsable fun x _ hUsable' hNames form => ?_
    exact evaluates_evalOperand x hUsable' (fun name hName => hResolve name (hNames hName)) form
  case h_2 => exact evaluates_evalOperand x hUsable hResolve _

end Resolver

end Expressions

/-! ### Names and lets -/

section Lets

variable {cx : Context} {used : List String} {name : String} {stmt : Form}

theorem evalLet_eq (resolve : String → Form → BodyM Value) (hPlace : hasPlace stmt.items = true)
    {x : Form} (hExpression : letExpression? stmt = some x) :
    evalLet cx resolve name stmt = (do
      let c ← evalBound cx resolve name (locationOf stmt.items) x
      modify fun body =>
        { body with names := body.names.insert name c.1, built := body.built.insert name c.2 }
      return c.1) := by
  rw [letExpression?] at hExpression
  rw [evalLet, splitPosition_of_hasPlace hPlace, pure_bind]
  simp only [hExpression]

theorem IsUsableStatement.part (h : IsUsableStatement used stmt) {x : Form}
    (hx : x ∈ partsOf stmt) : IsUsable used x :=
  ⟨isExpression_of_mem_partsOf h.isStatement hx,
    fun _ hName => h.names (statementNames_of_mem_partsOf hx hName)⟩

/-- A let is bound once all that it needs is. -/
theorem supplies_evalLet (hUsable : cx.IsUsable used) {resolve : String → Form → BodyM Value}
    (hLet : cx.lets.find? name = some stmt)
    (hResolve : ∀ b, ((cx.lets.find? b).isSome → cx.Needs name b) → b ∈ used → ∀ form,
      Supplies cx used [b] (resolve b form) fun _ => True) :
    Supplies cx used [name] (evalLet cx resolve name stmt) fun _ => True := by
  obtain ⟨hHead, hStmt⟩ := hUsable name stmt hLet
  obtain ⟨-, x, hExpression⟩ := let_of_isStatement hStmt.isStatement hHead
  have hParts : partsOf stmt = [x] := by rw [partsOf_let hHead, hExpression, Option.toList_some]
  have hx : IsUsable used x := hStmt.part (hParts ▸ List.mem_singleton_self x)
  have hBranches : statementBranches? stmt = expressionBranches? x := by
    rw [statementBranches?, hHead, hParts]
    rfl
  rw [evalLet_eq resolve (hasPlace_of_isStatement hStmt.isStatement) hExpression]
  intro s hs
  refine (evaluates_evalBound name _ hx (fun b hb form => ?_) s hs).bind fun c t _ ht => ?_
  · exact hResolve b (fun hSome => ⟨stmt, x, hLet, hExpression, hb, hSome⟩)
      (hx.names (inlineNames_subset_operandNames x hb)) form
  · obtain ⟨ht, hBlocks, hLast⟩ := ht
    have hBound := ht.isReady.bind (v := c.1) hLet hExpression ht.needs
      (hLast.trans hBranches.symm)
    exact ⟨(ht.trans hBound).mono (List.subset_append_right _ _), hBlocks, trivial⟩

theorem supplies_resolveOuter {form : Form} {s : Body} (hs : s.IsReady cx used)
    (hUsed : name ∈ used) (hName : s.names.find? name = none)
    (hLet : cx.lets.find? name = none) :
    EndsWith (fun _ t => s.Obtains cx used [name] t ∧ t.blocks = s.blocks ∧ True) cx.IsCircular
      (resolveOuter cx name form s) := by
  have hObtains {t : Body} (h : s.Obtains cx used [] t) : s.Obtains cx used [name] t := by
    refine ⟨h.isReady, h.names, List.forall_mem_singleton.mpr fun hSome => ?_⟩
    rw [hLet] at hSome
    cases hSome
  unfold resolveOuter
  split
  case isTrue =>
    exact (supplies_freshLeaf _ _ s hs).mono fun _ _ ht => ⟨hObtains ht.1, ht.2⟩
  case isFalse hNil =>
    rw [get_bind_apply]
    have hSame := hObtains hs.obtains
    cases hGlobal : (s.program.package? cx.callee.package).bind (·.globals.find? name) with
    | some v => exact ⟨hSame, rfl, trivial⟩
    | none =>
        cases hConst : (s.program.package? cx.callee.package).bind (·.consts.find? name) with
        | some v => exact ⟨hSame, rfl, trivial⟩
        | none =>
            have hKnown := hs.known name hUsed
            rw [Body.Knows, hLet, hName, Program.global?, hGlobal, Program.const?, hConst] at hKnown
            simp [hNil] at hKnown

/-- A name that is needed gets a value, or its let lies on a cycle. -/
theorem supplies_resolve (hUsable : cx.IsUsable used) {depth : Nat} {entered : List String}
    (hEntered : cx.AreEntered depth entered) (form : Form) (hUsed : name ∈ used)
    (hNeeds : (cx.lets.find? name).isSome → ∀ last ∈ entered.head?, cx.Needs last name) :
    Supplies cx used [name] (resolve cx depth entered name form) fun _ => True := by
  -- by the number of lets that can still be entered; those that were are a path to the name
  induction depth using Nat.strongRecOn generalizing entered name form with
  | ind depth ih =>
      intro s hs
      rw [resolve, get_bind_apply]
      cases hName : s.names.find? name with
      | some v =>
          refine ⟨⟨hs, fun _ h => h, List.forall_mem_singleton.mpr fun _ => ?_⟩, rfl, trivial⟩
          rw [hName]
          rfl
      | none =>
          cases hLet : cx.lets.find? name with
          | none => exact supplies_resolveOuter hs hUsed hName hLet
          | some stmt =>
              have hSome : (cx.lets.find? name).isSome := Option.isSome_of_eq_some hLet
              have hAgain (hMem : name ∈ entered) : cx.IsCircular
                  (.refused (some cx.callee.text) (.dependsOnItself name) (some stmt)) :=
                ⟨name, stmt, rfl, hLet, hEntered.transGen hMem (hNeeds hSome)⟩
              cases depth with
              | zero => exact hAgain (hEntered.mem hSome)
              | succ depth =>
                  by_cases hMem : name ∈ entered
                  · simp only [if_pos hMem]
                    exact hAgain hMem
                  · simp only [if_neg hMem]
                    have hMore := hEntered.cons hSome hMem (hNeeds hSome)
                    refine supplies_evalLet hUsable hLet (fun b hNeeds' hUsed' form' => ?_) s hs
                    refine ih depth (Nat.lt_succ_self depth) hMore form' hUsed' fun hb => ?_
                    rintro last ⟨⟩
                    exact hNeeds' hb

theorem supplies_lookup (hUsable : cx.IsUsable used) (form : Form) (hUsed : name ∈ used) :
    Supplies cx used [name] (cx.lookup name form) fun _ => True := by
  refine supplies_resolve hUsable cx.areEntered_nil form hUsed fun _ => ?_
  rintro last ⟨⟩

theorem supplies_evalLetStatement (hUsable : cx.IsUsable used)
    (hLet : cx.lets.find? (letName stmt) = some stmt) :
    Supplies cx used [letName stmt] (evalLetStatement cx stmt) fun is =>
      lastIsBranch? is = statementBranches? stmt := by
  intro s hs
  rw [evalLetStatement, get_bind_apply]
  cases hBuilt : s.built.find? (letName stmt) with
  | some is =>
      obtain ⟨hName, stmt', hLet', hBranches⟩ := hs.built _ is hBuilt
      cases hLet.symm.trans hLet'
      exact ⟨⟨hs, fun _ h => h, List.forall_mem_singleton.mpr fun _ => hName⟩, rfl, hBranches⟩
  | none =>
      have hEntered := Context.areEntered_singleton (Option.isSome_of_eq_some hLet)
      have hEval : Supplies cx used [letName stmt] (evalLet cx
          (resolve cx cx.lets.entries.length [letName stmt]) (letName stmt) stmt) fun _ => True := by
        refine supplies_evalLet hUsable hLet fun b hNeeds hUsed form => ?_
        refine supplies_resolve hUsable hEntered form hUsed fun hb => ?_
        rintro last ⟨⟩
        exact hNeeds hb
      have hDone := hEval.map (R := fun _ => True) (f := fun _ => ()) (fun _ _ => trivial) s hs
      refine hDone.bind fun _ t hRun ht => ⟨ht.1, ht.2.1, ?_⟩
      -- the let was evaluated just now, so its instructions are kept
      obtain ⟨v, hRun, -⟩ := map_eq_ok.mp hRun
      obtain ⟨x, is, u, -, -, rfl⟩ := evalLet_eq_ok hRun
      have hKept : (u.built.insert (letName stmt) is).find? (letName stmt) = some is := by
        rw [Table.find?_insert, if_pos rfl]
      obtain ⟨-, stmt', hLet', hBranches⟩ := ht.1.isReady.built _ is hKept
      cases hLet.symm.trans hLet'
      rw [hKept]
      exact hBranches

end Lets

/-! ### Statements and phis -/

section Statements

variable {cx : Context} {used : List String} {stmt : Form}

theorem evaluates_operand (hUsable : cx.IsUsable used) {x : Form} (hx : IsUsable used x)
    (form : Form) : Evaluates cx used x (evalOperand cx cx.lookup x form) := by
  refine evaluates_evalOperand x hx (fun name hName form' => ?_) form
  exact supplies_lookup hUsable form' (hx.names (inlineNames_subset_operandNames x hName))

/-- The names that the lets among statements bind. -/
def letNames (stmts : List Form) : List String :=
  (stmts.filter fun stmt => stmt.head? = some "let").map letName

theorem letNames_append (stmts stmts' : List Form) :
    letNames (stmts ++ stmts') = letNames stmts ++ letNames stmts' := by
  rw [letNames, List.filter_append, List.map_append]
  rfl

theorem supplies_evalStatement (hUsable : cx.IsUsable used) (hStmt : IsUsableStatement used stmt)
    (hLet : stmt.head? = some "let" → cx.lets.find? (letName stmt) = some stmt) :
    Supplies cx used (letNames [stmt]) (evalStatement cx stmt) fun is =>
      lastIsBranch? is = statementBranches? stmt := by
  rcases evalStatement_of_isStatement hStmt.isStatement with ⟨hHead, hEval⟩ |
    ⟨head, ending, hHead, hEnding, hEval⟩ | ⟨head, shape, hHead, hShape, hEval⟩
  all_goals rw [hEval]
  · have hOwn : letNames [stmt] = [letName stmt] := by simp [letNames, hHead]
    rw [hOwn]
    exact supplies_evalLetStatement hUsable (hLet hHead)
  · have hNone : letNames [stmt] = [] := by
      simp [letNames, head?_ne_let_of_ending hHead hEnding]
    rw [hNone]
    have hBranches : statementBranches? stmt = some (ending == .branch) := by
      rw [statementBranches?, hHead, Option.bind_some, hEnding]
    have hAll := supplies_evalAll fun x hx =>
      evaluates_operand hUsable (hStmt.part (partsOf_ending hHead hEnding ▸ hx)) stmt
    refine hAll.forget.bind fun r hr => supplies_pure ?_
    rw [lastIsBranch?_append, hBranches, ← ending.isBranch_op]
    rfl
  · have hNone : letNames [stmt] = [] := by simp [letNames, head?_ne_let_of_shape hHead hShape]
    rw [hNone]
    have hParts := partsOf_expression hHead hShape
    have hBranches : statementBranches? stmt =
        expressionBranches? (.list (withoutPosition stmt.items)) := by
      rw [statementBranches?, hHead, Option.bind_some, Ending.ofHead?_eq_none hShape, hParts]
      rfl
    have hUse := hStmt.part (hParts ▸ List.mem_singleton_self _)
    have hList := evaluates_evalList "" (locationOf stmt.items) hUse
      fun x _ hx _ form => evaluates_operand hUsable hx form
    refine hList.forget.map fun c hc => ?_
    rw [hc, hBranches]

theorem supplies_settlePhi (hUsable : cx.IsUsable used) {phi : Phi}
    (hOperands : ∀ x ∈ phi.operands, IsUsable used x) :
    Supplies cx used [] (settlePhi cx phi) fun _ => True := by
  rw [settlePhi, evalOperands_eq_map]
  have hAll := supplies_evalAll fun x hx =>
    evaluates_operand hUsable (hOperands x hx) phi.form
  refine hAll.forget.bind fun r _ => ?_
  intro s hs
  exact ⟨⟨⟨hs.known, hs.grounded, hs.built, hs.waiting⟩, fun _ h => h, by simp⟩, rfl, trivial⟩

theorem supplies_settleAll (hUsable : cx.IsUsable used) {phis : List Phi}
    (hOperands : ∀ phi ∈ phis, ∀ x ∈ phi.operands, IsUsable used x) :
    Supplies cx used [] (phis.forM (settlePhi cx)) fun _ => True := by
  induction phis with
  | nil => exact supplies_pure trivial
  | cons phi phis ih =>
      rw [List.forall_mem_cons] at hOperands
      exact (supplies_settlePhi hUsable hOperands.1).bind fun _ _ => ih hOperands.2

theorem supplies_settlePhis (hUsable : cx.IsUsable used) (depth : Nat) :
    Supplies cx used [] (settlePhis cx depth) fun _ => True := by
  induction depth with
  | zero => exact supplies_pure trivial
  | succ depth ih =>
      intro s hs
      rw [settlePhis, get_bind_apply]
      dsimp only
      split
      case isTrue => exact ⟨hs.obtains, rfl, trivial⟩
      case isFalse =>
        have hClear : Body.Obtains cx used [] s { s with waiting := [] } :=
          ⟨⟨hs.known, hs.grounded, hs.built, by simp⟩, fun _ h => h, by simp⟩
        have hRound := (supplies_settleAll hUsable hs.waiting).bind fun _ _ => ih
        exact (hRound _ hClear.isReady).mono fun _ _ ht => ⟨hClear.trans ht.1, ht.2⟩

end Statements

end NilGuard.Dump
