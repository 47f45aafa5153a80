import NilGuard.Dump.Body
/-! What the evaluation of expressions and statements keeps: the blocks and the functions of
the program are not touched, and every instruction that comes out has all its operands. -/
namespace NilGuard

namespace Table

variable {α β : Type} {t : Table α} {key : String} {f : α → α} {a b : α}

theorem mem_values_modify (h : a ∈ (t.modify key f).values) :
    a ∈ t.values ∨ ∃ c ∈ t.values, a = f c := by
  simp only [values, modify, List.map_map, List.mem_map, Function.comp_apply] at h ⊢
  obtain ⟨e, he, rfl⟩ := h
  split
  case isTrue => exact .inr ⟨e.2, ⟨e, he, rfl⟩, rfl⟩
  case isFalse => exact .inl ⟨e, he, rfl⟩

theorem mem_values_insert (h : a ∈ (t.insert key b).values) : a ∈ t.values ∨ a = b := by
  unfold insert at h
  split at h
  case isTrue =>
    rcases mem_values_modify h with h | ⟨c, -, rfl⟩
    · exact .inl h
    · exact .inr rfl
  case isFalse => simpa [values] using h

theorem mem_values_insertIfNew (h : a ∈ (t.insertIfNew key b).values) :
    a ∈ t.values ∨ a = b := by
  unfold insertIfNew at h
  split at h
  case isTrue => exact .inl h
  case isFalse => simpa [values] using h

theorem mem_values_of_find? (h : t.find? key = some a) : a ∈ t.values := by
  obtain ⟨before, after, hEntries, -⟩ := List.lookup_eq_some_iff.mp h
  rw [values, hEntries]
  simp

theorem flatMap_values_modify {g : α → List β} (h : ∀ c, g (f c) = g c) :
    (t.modify key f).values.flatMap g = t.values.flatMap g := by
  simp only [values, modify, List.map_map, List.flatMap_map]
  congr 1
  funext e
  simp only [Function.comp_apply]
  split
  case isTrue => exact h e.2
  case isFalse => rfl

theorem flatMap_values_insertIfNew {g : α → List β} (h : g b = []) :
    (t.insertIfNew key b).values.flatMap g = t.values.flatMap g := by
  unfold insertIfNew
  split
  case isTrue => rfl
  case isFalse => simp [values, h]

end Table

namespace Program

/-- All functions of a program, also those that are only declared. -/
def allFunctions (p : Program) : List Function := p.packages.values.flatMap Package.allFunctions

theorem functions_eq (p : Program) : p.functions = p.allFunctions.filter Function.hasBody := rfl

theorem allFunctions_addPackage (p : Program) (path : String) :
    (p.addPackage path).allFunctions = p.allFunctions :=
  Table.flatMap_values_insertIfNew rfl

theorem allFunctions_modifyPackage {p : Program} {path : String} {f : Package → Package}
    (h : ∀ q, (f q).allFunctions = q.allFunctions) :
    (p.modifyPackage path f).allFunctions = p.allFunctions :=
  Table.flatMap_values_modify h

end Program

/-- An instruction has all its operands, and the value of a conversion is made from the first
of them. -/
def Op.IsFilled : Op → Prop
  | .define v operands => (∀ x ∈ operands, x.isSome) ∧
      ∀ c, v.kind = .converted c → ∃ inner, v.inner? = some inner ∧
        operands.head? = some (some inner)
  | .call _ _ args => ∀ x ∈ args, x.isSome
  | .binary _ _ left right => left.isSome ∧ right.isSome
  | .branch condition => condition.isSome
  | .ret results => ∀ x ∈ results, x.isSome
  | .jump | .panic _ | .store _ _ => True

theorem isFilled_define_of_leaf {v : Value} {operands : List (Option Value)}
    (hv : v.inner? = none) (hOperands : ∀ x ∈ operands, x.isSome) :
    (Op.define v operands).IsFilled := by
  refine ⟨hOperands, fun c hc => ?_⟩
  cases v with
  | leaf => cases hc
  | converted => cases hv

namespace Dump

section Ensures

variable {σ α β : Type} {P I : σ → Prop} {x : EStateM LoadError σ α}

/-- Started with the one, a computation that succeeds ends with the other. -/
def Ensures (P : σ → Prop) (x : EStateM LoadError σ α) (Q : α → σ → Prop) : Prop :=
  ∀ s a t, P s → x s = .ok a t → Q a t

/-- A computation that succeeds keeps an invariant and returns what is asked for. -/
def Keeps (I : σ → Prop) (x : EStateM LoadError σ α) (Q : α → Prop) : Prop :=
  Ensures I x fun a t => I t ∧ Q a

theorem Ensures.bind {Q : α → σ → Prop} {f : α → EStateM LoadError σ β} {R : β → σ → Prop}
    (hx : Ensures P x Q) (hf : ∀ a, Ensures (Q a) (f a) R) : Ensures P (x >>= f) R := by
  intro s b u hs h
  change EStateM.bind x f s = .ok b u at h
  unfold EStateM.bind at h
  cases hx' : x s with
  | ok a t =>
      rw [hx'] at h
      exact hf a t b u (hx s a t hs hx') h
  | error e t =>
      rw [hx'] at h
      cases h

theorem Ensures.mono {Q R : α → σ → Prop} (hx : Ensures P x Q) (h : ∀ a t, Q a t → R a t) :
    Ensures P x R :=
  fun s a t hs ha => h a t (hx s a t hs ha)

theorem Ensures.weaken {Q : α → σ → Prop} (hx : Ensures I x Q) (h : ∀ s, P s → I s) :
    Ensures P x Q :=
  fun s a t hs ha => hx s a t (h s hs) ha

theorem ensures_get : Ensures I (get : EStateM LoadError σ σ) fun s t => s = t ∧ I t := by
  rintro s a t hs ⟨⟩
  exact ⟨rfl, hs⟩

theorem ensures_modify {f : σ → σ} (h : ∀ s, P s → I (f s)) :
    Ensures P (modify f : EStateM LoadError σ PUnit) fun _ => I := by
  rintro s a t hs ⟨⟩
  exact h s hs

theorem keeps_pure {a : α} {Q : α → Prop} (h : Q a) :
    Keeps I (pure a : EStateM LoadError σ α) Q := by
  rintro s b t hs ⟨⟩
  exact ⟨hs, h⟩

theorem keeps_throw {Q : α → Prop} (e : LoadError) :
    Keeps I (throw e : EStateM LoadError σ α) Q := by
  rintro s a t hs ⟨⟩

theorem keeps_get : Keeps I (get : EStateM LoadError σ σ) I := by
  rintro s a t hs ⟨⟩
  exact ⟨hs, hs⟩

theorem keeps_set {s : σ} (h : I s) :
    Keeps I (set s : EStateM LoadError σ PUnit) fun _ => True := by
  rintro u a t hs ⟨⟩
  exact ⟨h, trivial⟩

theorem keeps_modify {f : σ → σ} (h : ∀ s, I s → I (f s)) :
    Keeps I (modify f : EStateM LoadError σ PUnit) fun _ => True := by
  rintro s a t hs ⟨⟩
  exact ⟨h s hs, trivial⟩

theorem Keeps.seq {Q : α → Prop} {f : α → EStateM LoadError σ β} {R : β → σ → Prop}
    (hx : Keeps I x Q) (hf : ∀ a, Q a → Ensures I (f a) R) : Ensures I (x >>= f) R :=
  Ensures.bind hx fun a s b t hs h => hf a hs.2 s b t hs.1 h

theorem Keeps.bind {Q : α → Prop} {f : α → EStateM LoadError σ β} {R : β → Prop}
    (hx : Keeps I x Q) (hf : ∀ a, Q a → Keeps I (f a) R) : Keeps I (x >>= f) R :=
  hx.seq hf

theorem Keeps.mono {Q R : α → Prop} (hx : Keeps I x Q) (h : ∀ a, Q a → R a) : Keeps I x R :=
  Ensures.mono hx fun a _ ha => ⟨ha.1, h a ha.2⟩

theorem Keeps.discard {Q : α → Prop} (hx : Keeps I x Q) : Keeps I (discard x) fun _ => True := by
  intro s a t hs h
  change EStateM.map _ x s = .ok a t at h
  unfold EStateM.map at h
  cases hx' : x s with
  | ok b u =>
      rw [hx'] at h
      cases h
      exact ⟨(hx s b _ hs hx').1, trivial⟩
  | error e u =>
      rw [hx'] at h
      cases h

theorem keeps_forM {f : α → EStateM LoadError σ PUnit} {xs : List α}
    (h : ∀ x ∈ xs, Keeps I (f x) fun _ => True) : Keeps I (xs.forM f) fun _ => True := by
  induction xs with
  | nil => exact keeps_pure trivial
  | cons x xs ih =>
      exact (h x List.mem_cons_self).bind fun _ _ => ih fun y hy => h y (List.mem_cons_of_mem x hy)

theorem keeps_mapM {f : α → EStateM LoadError σ β} {xs : List α}
    (h : ∀ x ∈ xs, Keeps I (f x) fun _ => True) : Keeps I (xs.mapM f) fun _ => True := by
  induction xs with
  | nil => exact keeps_pure trivial
  | cons x xs ih =>
      rw [List.mapM_cons]
      refine (h x List.mem_cons_self).bind fun y _ => ?_
      exact (ih fun z hz => h z (List.mem_cons_of_mem x hz)).bind fun _ _ => keeps_pure trivial

theorem keeps_foldlM {f : β → α → EStateM LoadError σ β} {xs : List α}
    (h : ∀ b, ∀ x ∈ xs, Keeps I (f b x) fun _ => True) (b : β) :
    Keeps I (xs.foldlM f b) fun _ => True := by
  induction xs generalizing b with
  | nil => exact keeps_pure trivial
  | cons x xs ih =>
      rw [List.foldlM_cons]
      exact (h b x List.mem_cons_self).bind fun c _ =>
        ih (fun d y hy => h d y (List.mem_cons_of_mem x hy)) c

end Ensures

/-- Every instruction has its operands. -/
def AreFilled (is : List Instr) : Prop := ∀ i ∈ is, i.op.IsFilled

theorem areFilled_append {is js : List Instr} (hi : AreFilled is) (hj : AreFilled js) :
    AreFilled (is ++ js) :=
  fun i h => (List.mem_append.mp h).elim (hi i) (hj i)

theorem areFilled_concat {is : List Instr} {i : Instr} (hs : AreFilled is) (hi : i.op.IsFilled) :
    AreFilled (is ++ [i]) :=
  areFilled_append hs fun _ h => List.mem_singleton.mp h ▸ hi

/-- What evaluation keeps: a property of the blocks, the functions of the program, and that
what is kept for later has its operands. Phis are no conversions. -/
structure Body.IsSound (B : Array Block → Prop) (fns : List Function) (body : Body) : Prop where
  blocks : B body.blocks
  functions : body.program.allFunctions = fns
  built : ∀ is ∈ body.built.values, AreFilled is
  waiting : ∀ phi ∈ body.waiting, phi.value.inner? = none
  settled : ∀ s ∈ body.settled, s.1.inner? = none

variable {B : Array Block → Prop} {fns : List Function} {cx : Context}

theorem keeps_refuse {I : Body → Prop} {α : Type} {Q : α → Prop} (problem : Problem)
    (form : Option Form) : Keeps I (cx.refuse problem form : BodyM α) Q :=
  keeps_throw _

theorem ensures_refuse_bind {α β : Type} {P : Body → Prop} {f : α → BodyM β} {R : β → Body → Prop}
    (problem : Problem) (form : Option Form) :
    Ensures P ((cx.refuse problem form : BodyM α) >>= f) R := by
  rintro body a _ _ ⟨⟩

theorem keeps_freshTag (name : String) (length : Int) :
    Keeps (Body.IsSound B fns) (freshTag name length) fun _ => True := by
  refine keeps_get.bind fun body hBody => ?_
  exact (keeps_set { hBody with }).bind fun _ _ => keeps_pure trivial

theorem keeps_freshLeaf (name : String) (origin : Origin) :
    Keeps (Body.IsSound B fns) (freshLeaf name origin) fun v => v.inner? = none :=
  (keeps_freshTag name 0).bind fun _ _ => keeps_pure rfl

theorem keeps_globalValue (package name : String) :
    Keeps (Body.IsSound B fns) (globalValue package name) fun _ => True := by
  unfold globalValue
  refine (keeps_modify fun body hBody => ?_).bind fun _ _ => keeps_get.bind fun body _ => ?_
  · exact { hBody with functions := (Program.allFunctions_addPackage ..).trans hBody.functions }
  split
  case h_1 => exact keeps_pure trivial
  case h_2 =>
    refine (keeps_freshLeaf _ _).bind fun v _ => (keeps_modify fun body hBody => ?_).bind fun _ _ =>
      keeps_pure trivial
    exact { hBody with
      functions := (Program.allFunctions_modifyPackage fun _ => by rfl).trans hBody.functions }

theorem keeps_splitPosition (items : List Form) :
    Keeps (Body.IsSound B fns) (splitPosition items) fun r =>
      r.1 = items ∨ r.1 = items.dropLast := by
  unfold splitPosition
  split
  case h_1 last hLast =>
    split
    case isTrue =>
      split
      case h_1 => exact keeps_pure (.inr rfl)
      case h_2 => exact keeps_throw _
    case isFalse => exact keeps_pure (.inl rfl)
  case h_2 => exact keeps_pure (.inl rfl)

/-- An operand keeps what evaluation keeps, and its instructions have their operands. -/
def IsSoundOperand (B : Array Block → Prop) (fns : List Function) (x : Operand) : Prop :=
  ∀ form, Keeps (Body.IsSound B fns) (x form) fun c => AreFilled c.2

theorem keeps_evalAll {operands : List Operand}
    (hOperands : ∀ x ∈ operands, IsSoundOperand B fns x) (form : Form) :
    Keeps (Body.IsSound B fns) (evalAll form operands) fun r =>
      r.1.length = operands.length ∧ AreFilled r.2 := by
  induction operands with
  | nil => exact keeps_pure ⟨rfl, by simp [AreFilled]⟩
  | cons x xs ih =>
      refine (hOperands x List.mem_cons_self form).bind fun c hc => ?_
      refine (ih fun y hy => hOperands y (List.mem_cons_of_mem x hy)).bind fun r hr => ?_
      exact keeps_pure ⟨congrArg (· + 1) hr.1, areFilled_append hc hr.2⟩

theorem isSome_of_mem_map_some {vs : List Value} : ∀ x ∈ vs.map some, x.isSome := by
  simp

theorem keeps_defineAs (name : String) (length : Int) (location : Location) {make : Tag → Value}
    {operands : List Value × List Instr} (hFilled : AreFilled operands.2)
    (hMake : ∀ tag c, (make tag).kind = .converted c →
      ∃ inner, (make tag).inner? = some inner ∧ operands.1.head? = some inner) :
    Keeps (Body.IsSound B fns) (defineAs name length location make operands) fun c =>
      AreFilled c.2 := by
  refine (keeps_freshTag name length).bind fun tag _ => keeps_pure ?_
  refine areFilled_concat hFilled ⟨isSome_of_mem_map_some, fun c hc => ?_⟩
  obtain ⟨inner, hInner, hHead⟩ := hMake tag c hc
  exact ⟨inner, hInner, by rw [List.head?_map, hHead]; rfl⟩

theorem keeps_define (form : Form) (head name : String) (length : Int) (location : Location)
    (kind : Kind) {operands : List Value × List Instr} (hFilled : AreFilled operands.2) :
    Keeps (Body.IsSound B fns) (define cx form head name length location kind operands) fun c =>
      AreFilled c.2 := by
  unfold define
  split
  case h_1 => exact keeps_defineAs _ _ _ hFilled (by rintro _ _ ⟨⟩)
  case h_2 c v vs hOperands =>
    exact keeps_defineAs _ _ _ hFilled fun _ _ _ => ⟨v, rfl, by rw [hOperands]; rfl⟩
  case h_3 => exact keeps_refuse _ _

theorem keeps_expect (form : Form) (head : String) (atLeast : Bool) (count : Nat) :
    Keeps (Body.IsSound B fns) (expect cx form head atLeast count) fun _ =>
      count ≤ form.items.length - 1 ∧ (atLeast = false → form.items.length - 1 = count) := by
  unfold expect
  dsimp only
  split
  case isTrue => exact keeps_refuse _ _
  case isFalse h =>
    refine keeps_pure ⟨by omega, fun hExact => ?_⟩
    simp only [hExact, Bool.false_eq_true, not_false_eq_true, true_and] at h
    omega

theorem keeps_call (name : String) (location : Location) (callee : Option Callee)
    {args : List Value × List Instr} (hFilled : AreFilled args.2) :
    Keeps (Body.IsSound B fns) (call name location callee args) fun c => AreFilled c.2 :=
  (keeps_freshLeaf name .other).bind fun _ _ =>
    keeps_pure (areFilled_concat hFilled isSome_of_mem_map_some)

theorem isSoundOperand_take {operands : List Operand}
    (hOperands : ∀ x ∈ operands, IsSoundOperand B fns x) (n : Nat) :
    ∀ x ∈ operands.take n, IsSoundOperand B fns x :=
  fun x hx => hOperands x (List.mem_of_mem_take hx)

theorem isSoundOperand_drop {operands : List Operand}
    (hOperands : ∀ x ∈ operands, IsSoundOperand B fns x) (n : Nat) :
    ∀ x ∈ operands.drop n, IsSoundOperand B fns x :=
  fun x hx => hOperands x (List.mem_of_mem_drop hx)

theorem keeps_evalShape (form : Form) (head : String) (shape : Shape) (name : String)
    (location : Location) {operands : List Operand}
    (hOperands : ∀ x ∈ operands, IsSoundOperand B fns x)
    (hLength : operands.length = form.items.length - 1) :
    Keeps (Body.IsSound B fns) (evalShape cx form head shape name location operands) fun c =>
      AreFilled c.2 := by
  have hNone : AreFilled [] := by simp [AreFilled]
  cases shape with
  | const =>
      simp only [evalShape]
      split
      case h_1 => exact (keeps_freshLeaf _ _).bind fun _ _ => keeps_pure hNone
      case h_2 =>
        split
        case isTrue => exact (keeps_freshLeaf _ _).bind fun _ _ => keeps_pure hNone
        case isFalse => exact (keeps_freshLeaf _ _).bind fun _ _ => keeps_pure hNone
  | global =>
      refine (keeps_expect form head false 2).bind fun _ _ => ?_
      exact (keeps_globalValue _ _).bind fun _ _ => keeps_pure hNone
  | funcRef =>
      refine (keeps_expect form head false 2).bind fun _ _ => ?_
      exact (keeps_freshLeaf _ _).bind fun _ _ => keeps_pure hNone
  | simple kind =>
      refine (keeps_evalAll hOperands form).bind fun r hr => ?_
      exact keeps_define _ _ _ _ _ _ hr.2
  | fieldAddr =>
      refine (keeps_expect form head true 1).bind fun _ _ => ?_
      refine (keeps_evalAll (isSoundOperand_take hOperands 1) form).bind fun r hr => ?_
      exact keeps_define _ _ _ _ _ _ hr.2
  | arrayPtr =>
      refine (keeps_expect form head false 2).bind fun _ _ => ?_
      split
      case h_1 =>
        split
        case isTrue => exact keeps_refuse _ _
        case isFalse =>
          refine (keeps_evalAll (isSoundOperand_take hOperands 1) form).bind fun r hr => ?_
          exact keeps_define _ _ _ _ _ _ hr.2
      case h_2 => exact keeps_refuse _ _
  | closure =>
      refine (keeps_expect form head true 2).bind fun _ _ => ?_
      refine (keeps_evalAll (isSoundOperand_drop hOperands 2) form).bind fun r hr => ?_
      exact keeps_define _ _ _ _ _ _ hr.2
  | single place =>
      refine (keeps_expect form head true place).bind fun _ _ => ?_
      refine (keeps_evalAll (isSoundOperand_take (isSoundOperand_drop hOperands _) 1) form).bind
        fun r hr => ?_
      exact keeps_define _ _ _ _ _ _ hr.2
  | phi =>
      refine (keeps_freshLeaf name .other).bind fun v hv => ?_
      refine (keeps_modify fun body hBody => { hBody with waiting := ?_ }).bind fun _ _ =>
        keeps_pure ?_
      · exact areFilled_concat hNone (isFilled_define_of_leaf hv (by simp))
      · intro phi hPhi
        rcases List.mem_append.mp hPhi with hPhi | hPhi
        · exact hBody.waiting phi hPhi
        · exact List.mem_singleton.mp hPhi ▸ hv
  | binop =>
      refine (keeps_expect form head false 3).bind fun _ hCount => ?_
      refine (keeps_evalAll (isSoundOperand_take (isSoundOperand_drop hOperands 1) 2) form).bind
        fun r hr => ?_
      refine (keeps_freshLeaf name .other).bind fun v _ => keeps_pure ?_
      have hTwo : r.1.length = 2 := by
        rw [hr.1, List.length_take, List.length_drop]
        omega
      exact areFilled_concat hr.2 ⟨by simp [hTwo], by simp [hTwo]⟩
  | call =>
      refine (keeps_expect form head true 2).bind fun _ _ => ?_
      exact (keeps_evalAll (isSoundOperand_drop hOperands 2) form).bind fun r hr =>
        keeps_call _ _ _ hr.2
  | callMethod =>
      refine (keeps_expect form head true 4).bind fun _ _ => ?_
      exact (keeps_evalAll (isSoundOperand_drop hOperands 3) form).bind fun r hr =>
        keeps_call _ _ _ hr.2
  | callDynamic =>
      refine (keeps_expect form head true 1).bind fun _ _ => ?_
      refine (keeps_evalAll (isSoundOperand_take hOperands 1) form).bind fun r hr => ?_
      refine (keeps_evalAll (isSoundOperand_drop hOperands 1) form).bind fun q hq => ?_
      exact keeps_call _ _ _ (areFilled_append hr.2 hq.2)

theorem keeps_evalList (name : String) (location : Location) {items : List Form}
    {operands : List Operand} (hOperands : ∀ x ∈ operands, IsSoundOperand B fns x)
    (hLength : operands.length = items.length) :
    Keeps (Body.IsSound B fns) (evalList cx name location items operands) fun c =>
      AreFilled c.2 := by
  unfold evalList
  split
  case h_1 => exact keeps_throw _
  case h_2 head _ =>
    split
    case h_1 => exact keeps_refuse _ _
    case h_2 shape _ =>
      refine (keeps_splitPosition items).bind fun r hr => ?_
      refine keeps_evalShape _ _ _ _ _
        (isSoundOperand_drop (isSoundOperand_take hOperands r.1.length) 1) ?_
      have hShorter : r.1.length ≤ items.length := by
        rcases hr with hr | hr <;> simp [hr]
      rw [List.length_drop, List.length_take, hLength, Form.items]
      omega

theorem length_evalOperands (resolve : String → Form → BodyM Value) (items : List Form) :
    (evalOperands cx resolve items).length = items.length := by
  induction items with
  | nil => rfl
  | cons x xs ih => rw [evalOperands, List.length_cons, ih, List.length_cons]

/-- Names are resolved with what evaluation keeps. -/
def IsSoundResolver (B : Array Block → Prop) (fns : List Function)
    (resolve : String → Form → BodyM Value) : Prop :=
  ∀ name form, Keeps (Body.IsSound B fns) (resolve name form) fun _ => True

mutual

theorem isSoundOperand_evalOperand {resolve : String → Form → BodyM Value}
    (hResolve : IsSoundResolver B fns resolve) :
    ∀ x : Form, IsSoundOperand B fns (evalOperand cx resolve x)
  | .int _ => fun _ => (keeps_freshLeaf _ _).bind fun _ _ => keeps_pure (by simp [AreFilled])
  | .real _ => fun _ => (keeps_freshLeaf _ _).bind fun _ _ => keeps_pure (by simp [AreFilled])
  | .str _ => fun _ => (keeps_freshLeaf _ _).bind fun _ _ => keeps_pure (by simp [AreFilled])
  | .sym s => fun form => (hResolve s form).bind fun _ _ => keeps_pure (by simp [AreFilled])
  | .list items => fun _ =>
      keeps_evalList _ _ (isSoundOperand_evalOperands hResolve items)
        (length_evalOperands resolve items)

theorem isSoundOperand_evalOperands {resolve : String → Form → BodyM Value}
    (hResolve : IsSoundResolver B fns resolve) : ∀ items : List Form,
    ∀ x ∈ evalOperands cx resolve items, IsSoundOperand B fns x
  | [], x, hx => by cases hx
  | item :: items, x, hx => by
      rcases List.mem_cons.mp hx with rfl | hx
      · exact isSoundOperand_evalOperand hResolve item
      · exact isSoundOperand_evalOperands hResolve items x hx

end

section Resolver

variable {resolve : String → Form → BodyM Value} (hResolve : IsSoundResolver B fns resolve)
include hResolve

theorem keeps_evalBound (name : String) (location : Location) (form : Form) :
    Keeps (Body.IsSound B fns) (evalBound cx resolve name location form) fun c =>
      AreFilled c.2 := by
  unfold evalBound
  split
  case h_1 items =>
    exact keeps_evalList _ _ (isSoundOperand_evalOperands hResolve items)
      (length_evalOperands resolve items)
  case h_2 => exact isSoundOperand_evalOperand hResolve form form

theorem keeps_evalLet (name : String) (stmt : Form) :
    Keeps (Body.IsSound B fns) (evalLet cx resolve name stmt) fun _ => True := by
  refine (keeps_splitPosition stmt.items).bind fun ⟨items, location⟩ _ => ?_
  dsimp only
  split
  case h_1 => exact keeps_throw _
  case h_2 expression _ =>
    refine (keeps_evalBound hResolve name location expression).bind fun c hc => ?_
    refine (keeps_modify fun body hBody => { hBody with built := fun is his => ?_ }).bind
      fun _ _ => keeps_pure trivial
    rcases Table.mem_values_insert his with his | rfl
    · exact hBody.built is his
    · exact hc

end Resolver

theorem keeps_resolveOuter (name : String) (form : Form) :
    Keeps (Body.IsSound B fns) (resolveOuter cx name form) fun _ => True := by
  unfold resolveOuter
  split
  case isTrue => exact (keeps_freshLeaf _ _).mono fun _ _ => trivial
  case isFalse =>
    refine keeps_get.bind fun body _ => ?_
    dsimp only
    split
    case h_1 => exact keeps_pure trivial
    case h_2 =>
      split
      case h_1 => exact keeps_pure trivial
      case h_2 => exact keeps_refuse _ _

theorem isSoundResolver_resolve (depth : Nat) (entered : List String) :
    IsSoundResolver B fns (resolve cx depth entered) := by
  induction depth generalizing entered with
  | zero =>
      intro name form
      rw [resolve]
      refine keeps_get.bind fun body _ => ?_
      split
      case h_1 => exact keeps_pure trivial
      case h_2 =>
        split
        case h_1 => exact keeps_resolveOuter name form
        case h_2 => exact keeps_refuse _ _
  | succ depth ih =>
      intro name form
      rw [resolve]
      refine keeps_get.bind fun body _ => ?_
      split
      case h_1 => exact keeps_pure trivial
      case h_2 =>
        split
        case h_1 => exact keeps_resolveOuter name form
        case h_2 stmt _ =>
          dsimp only
          split
          case isTrue => exact keeps_refuse _ _
          case isFalse => exact keeps_evalLet (ih (name :: entered)) name stmt

theorem keeps_evalStatement (stmt : Form) :
    Keeps (Body.IsSound B fns) (evalStatement cx stmt) AreFilled := by
  have hLookup : IsSoundResolver B fns cx.lookup := isSoundResolver_resolve _ _
  have hNone : AreFilled [] := by simp [AreFilled]
  unfold evalStatement
  split
  case h_1 => exact keeps_throw _
  case h_2 => exact keeps_throw _
  case h_3 => exact keeps_refuse _ _
  case h_4 => exact keeps_refuse _ _
  case h_5 all =>
    split
    case isTrue =>
      refine keeps_get.bind fun body hBody => ?_
      split
      case h_1 hBuilt => exact keeps_pure (hBody.built _ (Table.mem_values_of_find? hBuilt))
      case h_2 =>
        refine (keeps_evalLet (isSoundResolver_resolve _ _) _ _).discard.bind fun _ _ => ?_
        refine keeps_get.bind fun body hBody => keeps_pure ?_
        cases hFind : body.built.find? (((all[1]?).map Form.text).getD "") with
        | none => exact hNone
        | some is => exact hBody.built is (Table.mem_values_of_find? hFind)
    case isFalse =>
      refine (keeps_splitPosition all).bind fun ⟨items, location⟩ _ => ?_
      have hItems : ∀ x ∈ evalOperands cx cx.lookup items, IsSoundOperand B fns x :=
        isSoundOperand_evalOperands hLookup items
      have hOperands := isSoundOperand_drop hItems 1
      dsimp only
      split
      case h_1 =>
        split
        case h_1 condition hOne =>
          refine (hOperands condition (by simp [hOne]) _).bind fun c hc => keeps_pure ?_
          exact areFilled_concat hc rfl
        case h_2 => exact keeps_refuse _ _
      case h_2 => exact keeps_pure (areFilled_concat hNone trivial)
      case h_3 =>
        refine (keeps_evalAll hOperands _).bind fun r hr => keeps_pure ?_
        exact areFilled_concat hr.2 isSome_of_mem_map_some
      case h_4 =>
        refine (keeps_evalAll (isSoundOperand_take hOperands 1) _).bind fun r hr => keeps_pure ?_
        exact areFilled_concat hr.2 trivial
      case h_5 =>
        split
        case h_1 address value hTwo =>
          refine (hOperands address (by simp [hTwo]) _).bind fun a ha => ?_
          refine (hOperands value (by simp [hTwo]) _).bind fun c hc => keeps_pure ?_
          exact areFilled_concat (areFilled_append ha hc) trivial
        case h_2 => exact keeps_refuse _ _
      case h_6 =>
        split
        case isTrue =>
          exact (keeps_evalList _ _ hItems (length_evalOperands _ items)).bind fun c hc =>
            keeps_pure hc
        case isFalse => exact keeps_refuse _ _
      case h_7 => exact keeps_refuse _ _

end Dump

end NilGuard
