import Mathlib
import NilGuard.Proofs.Calls
import NilGuard.Proofs.Checked
import NilGuard.Proofs.Extension
import NilGuard.Proofs.Provenance
import NilGuard.Proofs.Validator
/-! Targets and the calls that they are held against. The tables of a program are keyed by what its
functions are called, so a target resolves to the callee that calls by that name have. -/
namespace NilGuard

namespace Text

variable {separator : Char}

theorem splitAt_of_not_mem {cs : List Char} (h : separator ∉ cs) : splitAt separator cs = [cs] := by
  induction cs with
  | nil => rfl
  | cons c cs ih =>
      rw [List.mem_cons, not_or] at h
      rw [splitAt, if_neg (Ne.symm h.1), ih h.2]

theorem splitAt_append {front : List Char} (h : separator ∉ front) (rest : List Char) :
    splitAt separator (front ++ separator :: rest) = front :: splitAt separator rest := by
  induction front with
  | nil => rw [List.nil_append, splitAt, if_pos rfl]
  | cons c front ih =>
      rw [List.mem_cons, not_or] at h
      rw [List.cons_append, splitAt, if_neg (Ne.symm h.1), ih h.2]

theorem length_splitAt (cs : List Char) :
    (splitAt separator cs).length = cs.count separator + 1 := by
  induction cs with
  | nil => rfl
  | cons c cs ih =>
      rw [splitAt, List.count_cons]
      by_cases hSame : c = separator
      · simp [hSame, ih]
      · cases hParts : splitAt separator cs with
        | nil => exact absurd hParts (splitAt_ne_nil separator cs)
        | cons part parts =>
            rw [hParts] at ih
            simpa [hSame] using ih

end Text

/-- The form is a call to a function by its path and name, or to a method by its path, type and
name. -/
inductive Form.IsCallTo : Form → Callee → Prop where
  | function {head path name : Form} {args : List Form} : head.word? = some "call" →
      IsCallTo (.list (head :: path :: name :: args)) ⟨path.text, name.text, none⟩
  | method {head path type name : Form} {args : List Form} : head.word? = some "call-method" →
      IsCallTo (.list (head :: path :: type :: name :: args)) ⟨path.text, name.text, some type.text⟩

namespace Dump

section Loaded

variable {x : Form} {values : List Value} {i : Instr}

/-- An instruction was made from the values of the operands of an expression that passed its
check. -/
theorem LoadedFrom.exists_make (h : LoadedFrom x values i) :
    ∃ cx items head shape name location v s s' t u, x = .list items ∧
      (Form.list items).head? = some head ∧ Shape.ofHead? head = some shape ∧
      shape.check cx (.list (withoutPosition items)) head s = .ok () s' ∧
      shape.make cx (.list (withoutPosition items)) head name location values u =
        .ok (v, [i]) t := by
  obtain ⟨cx, depth, entered, name, location, v, before, s, t, u, hRun, hOps⟩ := h
  cases x with
  | list items =>
      rw [evalBound, evalOperands_eq_map] at hRun
      rcases evalList_cases cx (evalOperand cx (resolve cx depth entered)) name location items with
        ⟨-, hEval⟩ | ⟨_, _, _, hEval⟩ | ⟨head, shape, hHead, hShape, hEval⟩
      · rw [hEval] at hRun
        cases hRun
      · rw [hEval] at hRun
        cases hRun
      · rw [hEval] at hRun
        obtain ⟨_, s', hCheck, hRest⟩ := bind_eq_ok.mp hRun
        obtain ⟨⟨values', before'⟩, u', hOps', hRest'⟩ := bind_eq_ok.mp hRest
        obtain ⟨⟨w, own⟩, t', hMake, hEnd⟩ := bind_eq_ok.mp hRest'
        rw [check_eq_ok hCheck] at hOps'
        rw [operandsOf_list hHead hShape] at hOps
        -- the operands were evaluated from the same state, so they came to the same values
        obtain ⟨hPair, -⟩ := EStateM.Result.ok.inj (hOps.symm.trans hOps')
        obtain ⟨rfl, rfl⟩ := Prod.mk.inj hPair
        obtain ⟨hPair', -⟩ := EStateM.Result.ok.inj hEnd
        obtain ⟨-, hOwn⟩ := Prod.mk.inj hPair'
        have hOwn : own = [i] := List.append_cancel_left hOwn
        subst hOwn
        exact ⟨cx, items, head, shape, name, _, w, s, s', t', u', rfl, hHead, hShape, hCheck, hMake⟩
  | int | real | str | sym =>
      obtain ⟨hNone, -⟩ := evalAtom_eq_ok (by simp) hRun
      simp at hNone

theorem expect_eq_ok {cx : Context} {form : Form} {head : String} {atLeast : Bool} {count : Nat}
    {s t : Body} (h : expect cx form head atLeast count s = .ok () t) :
    count ≤ form.items.length - 1 := by
  rw [expect] at h
  by_cases hFew : form.items.length - 1 < count ∨ (¬ atLeast ∧ form.items.length - 1 ≠ count)
  · simp only [if_pos hFew] at h
    cases h
  · omega

/-- What is left of a list without its position begins like the list. -/
theorem exists_withoutPosition_eq (front rest : List Form)
    (h : front.length ≤ (withoutPosition (front ++ rest)).length) :
    ∃ args, withoutPosition (front ++ rest) = front ++ args := by
  obtain ⟨args, hArgs⟩ := List.prefix_of_prefix_length_le (List.prefix_append front rest)
    (withoutPosition_isPrefix (front ++ rest)) h
  exact ⟨args, hArgs.symm⟩

/-- An instruction that was loaded from a call to a callee is that call, with the values of the
operands as its arguments. -/
theorem LoadedFrom.op_eq {c : Callee} (h : LoadedFrom x values i) (hCall : x.IsCallTo c) :
    ∃ v, i.op = .call v (some c) (values.map some) := by
  obtain ⟨cx, items, head, shape, own, location, v, s, s', t, u, rfl, hHead, hShape, hCheck,
    hMake⟩ := h.exists_make
  cases hCall with
  | @function first path name rest hWord =>
      rw [Form.head?, hWord] at hHead
      cases hHead
      cases hShape
      have hCount := expect_eq_ok hCheck
      rw [Form.items] at hCount
      obtain ⟨args, hArgs⟩ := exists_withoutPosition_eq [first, path, name] rest
        (show 3 ≤ (withoutPosition (first :: path :: name :: rest)).length by omega)
      change withoutPosition (first :: path :: name :: rest) = _ at hArgs
      rw [hArgs] at hMake
      cases hMake
      exact ⟨_, rfl⟩
  | @method first path type name rest hWord =>
      rw [Form.head?, hWord] at hHead
      cases hHead
      cases hShape
      have hCount := expect_eq_ok hCheck
      rw [Form.items] at hCount
      obtain ⟨args, hArgs⟩ := exists_withoutPosition_eq [first, path, type, name] rest
        (show 4 ≤ (withoutPosition (first :: path :: type :: name :: rest)).length by omega)
      change withoutPosition (first :: path :: type :: name :: rest) = _ at hArgs
      rw [hArgs] at hMake
      cases hMake
      exact ⟨_, rfl⟩

/-- Only calls by name make instructions that call by name. -/
theorem callee_of_make {cx : Context} {form : Form} {head name : String} {location : Location}
    {shape : Shape} {s t : Body} {v w : Value} {c : Callee} {args : List (Option Value)}
    (h : shape.make cx form head name location values s = .ok (v, [i]) t)
    (hOp : i.op = .call w (some c) args) :
    shape = .call ∧ c = functionOf form ∨ shape = .callMethod ∧ c = methodOf form := by
  cases shape with
  | const =>
      rw [Shape.make] at h
      cases hArgs : form.items.drop 1 with
      | nil =>
          rw [hArgs] at h
          cases h
      | cons x xs =>
          rw [hArgs] at h
          cases hNil : x.isNil with
          | true =>
              simp only [hNil] at h
              cases h
          | false =>
              simp only [hNil] at h
              cases h
  | global =>
      obtain ⟨_, u, -, h⟩ := bind_eq_ok.mp h
      cases h
  | funcRef => cases h
  | simple | fieldAddr | arrayPtr | closure | single =>
      rw [Shape.make] at h
      obtain ⟨-, -, hOwn, -⟩ := define_eq_ok h
      cases hOwn
      cases hOp
  | phi | binop | callDynamic =>
      cases h
      cases hOp
  | call =>
      cases h
      cases hOp
      exact .inl ⟨rfl, rfl⟩
  | callMethod =>
      cases h
      cases hOp
      exact .inr ⟨rfl, rfl⟩

theorem head_of_call {head : String} (h : Shape.ofHead? head = some .call) : head = "call" := by
  unfold Shape.ofHead? at h
  split at h
  case h_24 => rfl
  all_goals cases h

theorem head_of_callMethod {head : String} (h : Shape.ofHead? head = some .callMethod) :
    head = "call-method" := by
  unfold Shape.ofHead? at h
  split at h
  case h_25 => rfl
  all_goals cases h

/-- A call by name was loaded from an expression that calls by that name. -/
theorem LoadedFrom.isCallTo {v : Value} {c : Callee} {args : List (Option Value)}
    (h : LoadedFrom x values i) (hOp : i.op = .call v (some c) args) : x.IsCallTo c := by
  obtain ⟨cx, items, head, shape, name, location, w, s, s', t, u, rfl, hHead, hShape, hCheck,
    hMake⟩ := h.exists_make
  obtain ⟨rest, hRest⟩ := withoutPosition_isPrefix items
  rcases callee_of_make hMake hOp with ⟨rfl, rfl⟩ | ⟨rfl, rfl⟩
  · have hCount := expect_eq_ok hCheck
    rw [Form.items] at hCount
    rcases hItems : withoutPosition items with _ | ⟨a, _ | ⟨b, _ | ⟨d, ds⟩⟩⟩
    case cons.cons.cons =>
      rw [hItems] at hRest
      rw [← hRest] at hHead ⊢
      exact .function (head_of_call hShape ▸ hHead)
    all_goals simp [hItems] at hCount
  · have hCount := expect_eq_ok hCheck
    rw [Form.items] at hCount
    rcases hItems : withoutPosition items with _ | ⟨a, _ | ⟨b, _ | ⟨d, _ | ⟨e, es⟩⟩⟩⟩
    case cons.cons.cons.cons =>
      rw [hItems] at hRest
      rw [← hRest] at hHead ⊢
      exact .method (head_of_callMethod hShape ▸ hHead)
    all_goals simp [hItems] at hCount

end Loaded

/-- A dump writes an expression into the body of a function. -/
def Writes (text : String) (c : Callee) (x : Form) : Prop :=
  ∃ form, formOf? text = some form ∧ ∃ d ∈ declarations form, d.callee = c ∧
    ∃ block ∈ d.blocks, x ∈ blockExpressions block

end Dump

namespace Function

/-- The instructions of a function were loaded from the given sources. -/
def IsTraced (S : Dump.Sources) (fn : Function) : Prop :=
  ∀ block ∈ fn.blocks, Dump.AreTraced S block.instrs

theorem IsTraced.of_hasSameCode {S : Dump.Sources} {fn other : Function} (h : fn.IsTraced S)
    (hSame : fn.HasSameCode other) : other.IsTraced S := by
  intro block hBlock
  obtain ⟨j, hj, rfl⟩ := Array.mem_iff_getElem.mp hBlock
  have hj' : j < fn.blocks.size := hSame.size ▸ hj
  rw [← instrs_eq hj, hSame.instrs, instrs_eq hj']
  exact h _ (Array.getElem_mem hj')

end Function

namespace Program

/-- Every function is found under its own callee, and its instructions were loaded from sources
that belong to it. -/
structure IsTraced (D : Callee → Dump.Sources) (p : Program) : Prop where
  filed : ∀ c fn, p.function? c = some fn → fn.callee = c
  code : ∀ fn ∈ p.allFunctions, fn.IsTraced (D fn.callee)

variable {D : Callee → Dump.Sources} {p q : Program}

theorem IsTraced.congr (h : p.IsTraced D) (hSame : ∀ c, q.function? c = p.function? c)
    (hAll : q.allFunctions = p.allFunctions) : q.IsTraced D :=
  ⟨fun c fn hFound => h.filed c fn (hSame c ▸ hFound), fun fn hMem => h.code fn (hAll ▸ hMem)⟩

theorem IsTraced.addPackage (h : p.IsTraced D) (path : String) : (p.addPackage path).IsTraced D :=
  h.congr (p.function?_addPackage path) (p.allFunctions_addPackage path)

/-- A package may be changed where its functions stay. -/
theorem IsTraced.modifyPackage (h : p.IsTraced D) (path : String) {f : Package → Package}
    (hFunction : ∀ q c, (f q).function? c = q.function? c)
    (hAll : ∀ q, (f q).allFunctions = q.allFunctions) : (p.modifyPackage path f).IsTraced D :=
  h.congr (function?_modifyPackage_eq hFunction) (allFunctions_modifyPackage hAll)

/-- A function that is only declared may be put in. -/
theorem IsTraced.addFunction (h : p.IsTraced D) {fn : Function} (hEmpty : fn.blocks = #[]) :
    (p.modifyPackage fn.callee.package (·.addFunction fn)).IsTraced D := by
  refine ⟨fun c f hFound => ?_, fun f hMem => ?_⟩
  · rw [function?_modifyPackage] at hFound
    split at hFound
    case isTrue hPackage =>
      obtain ⟨a, ha, hFound⟩ := Option.bind_eq_some_iff.mp hFound
      rw [Package.function?_addFunction] at hFound
      split at hFound
      case isTrue hSame =>
        cases hFound
        obtain ⟨package, name, receiver⟩ := c
        obtain ⟨rfl, rfl⟩ := hSame
        cases hPackage
        rfl
      case isFalse =>
        exact h.filed c f (Option.bind_eq_some_iff.mpr ⟨a, hPackage ▸ ha, hFound⟩)
    case isFalse => exact h.filed c f hFound
  · rcases mem_allFunctions_modifyPackage hMem with hMem | ⟨a, ha, hMem⟩
    · exact h.code f hMem
    · rcases Package.mem_allFunctions_addFunction hMem with hMem | rfl
      · exact h.code f (List.mem_flatMap.mpr ⟨a, ha, hMem⟩)
      · intro block hBlock
        rw [hEmpty] at hBlock
        simp at hBlock

/-- A function may be replaced by one of the same callee. -/
theorem IsTraced.setFunction (h : p.IsTraced D) (fn : Function) (hFn : fn.IsTraced (D fn.callee)) :
    (p.modifyPackage fn.callee.package (·.modifyFunction fn.callee fun _ => fn)).IsTraced D := by
  refine ⟨fun c f hFound => ?_, fun f hMem => ?_⟩
  · rw [function?_modifyFunction] at hFound
    split at hFound
    case isTrue hSame =>
      obtain ⟨old, -, rfl⟩ := Option.map_eq_some_iff.mp hFound
      exact hSame.symm
    case isFalse => exact h.filed c f hFound
  · rcases mem_allFunctions_modifyPackage hMem with hMem | ⟨a, ha, hMem⟩
    · exact h.code f hMem
    · rcases Package.mem_allFunctions_modifyFunction hMem with hMem | ⟨old, rfl⟩
      · exact h.code f (List.mem_flatMap.mpr ⟨a, ha, hMem⟩)
      · exact hFn

end Program

namespace Dump

variable {D : Callee → Sources}

/-- Reading the items of a function gives it no blocks yet. -/
theorem keeps_readItems_empty (f : Pending) (items : List Form) :
    Keeps (fun _ => True) (readItems f items) fun g =>
      g.function.callee = f.function.callee ∧ g.function.blocks = f.function.blocks := by
  have hFresh (name : String) (origin : Origin) :
      Keeps (fun _ : Declared => True) (freshValue name origin) fun _ => True :=
    fun _ _ _ _ _ => ⟨trivial, trivial⟩
  induction items generalizing f with
  | nil => exact keeps_pure ⟨rfl, rfl⟩
  | cons item items ih =>
      rw [readItems]
      split
      case h_1 =>
        split
        case h_1 location _ => exact ih { f with function := { f.function with location } }
        case h_2 => exact keeps_throw _
      case h_2 =>
        refine (keeps_mapM fun _ _ => hFresh _ _).bind fun vs _ => ?_
        exact ih { f with function := { f.function with params := f.function.params ++ vs } }
      case h_3 =>
        refine (keeps_mapM fun _ _ => hFresh _ _).bind fun vs _ => ?_
        exact ih { f with function := { f.function with freeVars := f.function.freeVars ++ vs } }
      case h_4 => exact ih { f with blocks := f.blocks ++ [item] }
      case h_5 => exact keeps_throw _

/-- Declaring keeps the program traced, also where it breaks off. -/
abbrev TracesDeclared (D : Callee → Sources) {α : Type} (x : DeclareM α) : Prop :=
  Meets (fun s => s.program.IsTraced D) (fun _ s => s.program.IsTraced D) x

theorem tracesDeclared_declareFunction (callee : Callee) (items : List Form) :
    TracesDeclared D (declareFunction callee items) := by
  have hClosed : IsClosed fun _ => TracesDeclared D := isClosed_meets fun _ _ _ _ hs => hs
  have hRead : TracesDeclared D (readItems { function := { callee }, blocks := [] } items) :=
    hClosed.readItems (fun _ _ _ hs => hs.congr (fun _ => rfl) rfl) _ _
  refine hClosed.bind hClosed.get fun s => ?_
  split
  case h_1 => exact hClosed.refused _ _ _
  case h_2 =>
    refine hClosed.seq hRead fun f hReturns => ?_
    obtain ⟨hCallee, hEmpty⟩ := (keeps_readItems_empty _ _).of_returns hReturns
    have hAdd : TracesDeclared D (modifyPackage callee.package (·.addFunction f.function)) := by
      intro t ht
      have hAdded := ht.addFunction hEmpty
      rwa [hCallee] at hAdded
    refine hClosed.bind hAdd fun _ => ?_
    split
    case isTrue => exact fun _ ht => ht
    case isFalse => exact hClosed.pure _

theorem tracesDeclared_declareGlobal (path name : String) :
    TracesDeclared D (declareGlobal path name) := by
  have hClosed : IsClosed fun _ => TracesDeclared D := isClosed_meets fun _ _ _ _ hs => hs
  refine hClosed.bind hClosed.get fun s => ?_
  split
  case h_1 => exact hClosed.pure _
  case h_2 =>
    refine hClosed.bind (fun _ hs => hs.congr (fun _ => rfl) rfl) fun v => ?_
    exact fun _ hs => hs.modifyPackage path (fun _ _ => rfl) fun _ => rfl

theorem isDeclarable_traces : IsDeclarable fun _ => TracesDeclared D where
  toIsClosed := isClosed_meets fun _ _ _ _ hs => hs
  value _ _ _ hs := hs.congr (fun _ => rfl) rfl
  package path _ hs := hs.addPackage path
  type path name _ hs := hs.modifyPackage path (Package.function?_insertType · name)
    (Package.allFunctions_insertType · name)
  const path _ _ _ hs := hs.modifyPackage path (fun _ _ => rfl) fun _ => rfl
  global := tracesDeclared_declareGlobal
  function := tracesDeclared_declareFunction

theorem isStable_isTraced : IsStable (Program.IsTraced D) where
  value _ h := h.congr (fun _ => rfl) rfl
  package _ path h := h.addPackage path
  global _ path _ _ _ h := h.modifyPackage path (fun _ _ => rfl) fun _ => rfl

theorem isTraced_loadBody {program : Program} (h : program.IsTraced D) {fn : Function}
    {forms : List Form}
    (hD : ∀ block ∈ forms, ∀ stmt ∈ statementsOf block, (D fn.callee).Cover stmt) :
    (loadBody program fn forms).1.IsTraced D := by
  have hKept := preserves_loadBlocks isStable_isTraced fn forms { program } h
  have hTraced := traces_loadBlocks fn hD { program } ⟨by simp [Body.code?], by simp [Table.values]⟩
  unfold loadBody
  cases hRun : loadBlocks fn forms { program } with
  | ok _ body =>
      rw [hRun] at hKept hTraced
      have hFn : (body.function fn).IsTraced (D fn.callee) := fun _ => hTraced.finished
      have hSame := (body.function fn).hasSameCode_link
      have hSet := hKept.setFunction (body.function fn).link.1
        (hSame.callee ▸ hFn.of_hasSameCode hSame)
      rwa [hSame.callee] at hSet
  | error e body =>
      rw [hRun] at hKept hTraced
      have hFn : (body.function fn).IsTraced (D fn.callee) := fun _ => hTraced.finished
      exact hKept.setFunction (body.function fn) hFn

theorem isTraced_loadBodies {program : Program} (h : program.IsTraced D) {pending : List Pending}
    (hD : ∀ f ∈ pending, ∀ block ∈ f.blocks, ∀ stmt ∈ statementsOf block,
      (D f.function.callee).Cover stmt) :
    (loadBodies program pending).program.IsTraced D := by
  induction pending generalizing program with
  | nil => exact h
  | cons f rest ih =>
      rw [List.forall_mem_cons] at hD
      have hBody := isTraced_loadBody h hD.1
      rw [loadBodies]
      cases hRun : loadBody program f.function f.blocks with
      | mk program' result =>
          rw [hRun] at hBody
          cases result with
          | error e => exact hBody
          | ok fn => exact ih hBody hD.2

theorem isTraced_loadForm {program : Program} (h : program.IsTraced D) {form : Form}
    (hD : ∀ d ∈ declarations form, ∀ block ∈ d.blocks, ∀ stmt ∈ statementsOf block,
      (D d.callee).Cover stmt) :
    (loadForm program form).program.IsTraced D := by
  have hDeclared := isDeclarable_traces.declareProgram form { program } h
  unfold loadForm
  cases hRun : declareProgram form { program } with
  | error e s =>
      rw [hRun] at hDeclared
      exact hDeclared
  | ok _ s =>
      rw [hRun] at hDeclared
      refine isTraced_loadBodies hDeclared fun f hf block hBlock => ?_
      have hDeclares := declaring_declareProgram form _ _ _ (by simp) hRun
      obtain ⟨d, hd, hCallee, hBlocks⟩ := hDeclares.exists_of_mem_pending rfl hf
      rw [hCallee]
      exact hD d hd block (hBlocks ▸ hBlock)

end Dump

namespace Program

theorem IsTraced.load {D : Callee → Dump.Sources} {p : Program} (h : p.IsTraced D) {text : String}
    (hD : ∀ form, Dump.formOf? text = some form → ∀ d ∈ Dump.declarations form,
      ∀ block ∈ d.blocks, ∀ stmt ∈ Dump.statementsOf block, (D d.callee).Cover stmt) :
    (p.load text).program.IsTraced D := by
  cases hForm : Dump.formOf? text with
  | some form =>
      rw [Dump.load_of_formOf? hForm]
      exact Dump.isTraced_loadForm h (hD form hForm)
  | none =>
      unfold Program.load
      unfold Dump.formOf? at hForm
      cases hRead : Datum.read text with
      | error e => exact h
      | ok datum =>
          rw [hRead] at hForm
          simp only [hForm]
          exact h

/-- Programs that dumps are loaded into one after the other stay traced. -/
theorem isTraced_loadEach {D : Callee → Dump.Sources} {texts : List String}
    (hD : ∀ text ∈ texts, ∀ form, Dump.formOf? text = some form → ∀ d ∈ Dump.declarations form,
      ∀ block ∈ d.blocks, ∀ stmt ∈ Dump.statementsOf block, (D d.callee).Cover stmt) :
    (({} : Program).loadEach texts).IsTraced D := by
  have hEmpty : ({} : Program).IsTraced D := by
    refine ⟨fun c fn hFound => ?_, by simp [allFunctions, Table.values]⟩
    cases hFound
  generalize ({} : Program) = p at hEmpty
  induction texts generalizing p with
  | nil => exact hEmpty
  | cons text rest ih =>
      rw [List.forall_mem_cons] at hD
      exact ih hD.2 _ (hEmpty.load hD.1)

end Program

/-- What the bodies of a function are loaded from when dumps are, wherever it stands in them. -/
def Dump.sourcesOf (texts : List String) (c : Callee) : Dump.Sources where
  expression x := ∃ text ∈ texts, Writes text c x
  place _ := True
  nowhere := trivial
  own _ _ := trivial

namespace Program

/-- In every program that dumps were loaded into, functions are filed by their callees and calls
come from the dumps. -/
theorem isTraced_sourcesOf (texts : List String) :
    (({} : Program).loadEach texts).IsTraced (Dump.sourcesOf texts) := by
  refine isTraced_loadEach fun text hText form hForm d hd block hBlock stmt hStmt =>
    ⟨trivial, fun x hx y hy => ⟨text, hText, form, hForm, d, hd, rfl, block, hBlock, ?_⟩⟩
  exact List.mem_flatMap.mpr ⟨stmt, hStmt, List.mem_flatMap.mpr ⟨x, hx, hy⟩⟩

end Program

/-- A package has a type, a variable or a constant of a name. -/
def Program.HasOther (p : Program) (path name : String) : Prop :=
  ∃ q, p.package? path = some q ∧
    (q.types.contains name = true ∨ q.globals.contains name = true ∨ q.consts.contains name = true)

namespace Target

/-- What a target resolves to if its position is not negative. Its function has no dot, one dot
between a type and a method, or more dots. -/
structure ResolvesByName (t : Target) (p : Program) : Prop where
  found : '.' ∉ t.function.toList →
    (t.resolve p = .ok (.found ⟨⟨t.package, t.function, none⟩, t.position⟩) ↔
      (p.function? ⟨t.package, t.function, none⟩).isSome)
  refused : '.' ∉ t.function.toList →
    (t.resolve p = .error (.notAFunction t.package t.function) ↔
      p.function? ⟨t.package, t.function, none⟩ = none ∧ p.HasOther t.package t.function)
  absent : '.' ∉ t.function.toList → p.function? ⟨t.package, t.function, none⟩ = none →
    ¬ p.HasOther t.package t.function → ∃ r, t.resolve p = .ok r ∧ r.target? = none
  foundMethod : ∀ type method, t.function = type ++ "." ++ method → '.' ∉ type.toList →
    '.' ∉ method.toList →
    (t.resolve p = .ok (.found ⟨⟨t.package, method, some type⟩, t.position⟩) ↔
      (p.function? ⟨t.package, method, some type⟩).isSome)
  absentMethod : ∀ type method, t.function = type ++ "." ++ method → '.' ∉ type.toList →
    '.' ∉ method.toList → p.function? ⟨t.package, method, some type⟩ = none →
    ∃ r, t.resolve p = .ok r ∧ r.target? = none
  dots : 2 ≤ t.function.toList.count '.' → t.resolve p = .error (.tooManyDots t.function)

section Resolve

variable {t : Target} {p : Program} {fn : Function} {type method : String}

theorem parts_of_no_dot (hDot : '.' ∉ t.function.toList) : t.parts = [t.function] := by
  rw [parts, Text.splitAt_of_not_mem hDot, List.map_singleton, String.ofList_toList]

theorem parts_of_one_dot (hName : t.function = type ++ "." ++ method) (hType : '.' ∉ type.toList)
    (hMethod : '.' ∉ method.toList) : t.parts = [type, method] := by
  have hChars : t.function.toList = type.toList ++ '.' :: method.toList := by
    rw [hName]
    simp
  rw [parts, hChars, Text.splitAt_append hType, Text.splitAt_of_not_mem hMethod]
  simp

variable (hPosition : 0 ≤ t.position)
include hPosition

theorem resolve_of_dots (hDots : 2 ≤ t.function.toList.count '.') :
    t.resolve p = .error (.tooManyDots t.function) := by
  have hLength : 3 ≤ t.parts.length := by
    rw [parts, List.length_map, Text.length_splitAt]
    omega
  rw [resolve, if_neg (Int.not_lt.mpr hPosition)]
  rcases hParts : t.parts with _ | ⟨a, _ | ⟨b, _ | ⟨c, cs⟩⟩⟩
  case cons.cons.cons => rfl
  all_goals simp [hParts] at hLength

section Function

variable (hDot : '.' ∉ t.function.toList)
include hDot

theorem resolve_of_function (hFound : p.function? ⟨t.package, t.function, none⟩ = some fn)
    (hCallee : fn.callee = ⟨t.package, t.function, none⟩) :
    t.resolve p = .ok (.found ⟨⟨t.package, t.function, none⟩, t.position⟩) := by
  obtain ⟨q, hq, hFn⟩ := Option.bind_eq_some_iff.mp hFound
  change q.functions.find? t.function = some fn at hFn
  have hMember : q.member? t.function = some (.function fn) := by rw [Package.member?, hFn]
  have hLookup : (p.package? t.package).bind (·.member? t.function) = some (.function fn) :=
    Option.bind_eq_some_iff.mpr ⟨q, hq, hMember⟩
  rw [resolve, if_neg (Int.not_lt.mpr hPosition), parts_of_no_dot hDot]
  simp only [hLookup, hCallee]

variable (hNone : p.function? ⟨t.package, t.function, none⟩ = none)
include hNone

theorem resolve_of_other (hOther : p.HasOther t.package t.function) :
    t.resolve p = .error (.notAFunction t.package t.function) := by
  obtain ⟨q, hq, hOther⟩ := hOther
  have hAbsent : q.functions.find? t.function = none := by
    simpa [Program.function?, hq, Package.function?] using hNone
  have hMember : q.member? t.function = some .type ∨ q.member? t.function = some .variable ∨
      q.member? t.function = some .constant := by
    rw [Package.member?, hAbsent]
    by_cases hType : q.types.contains t.function = true
    · simp [hType]
    · by_cases hGlobal : q.globals.contains t.function = true
      · simp [hType, hGlobal]
      · simpa [hType, hGlobal] using hOther
  rw [resolve, if_neg (Int.not_lt.mpr hPosition), parts_of_no_dot hDot, hq, Option.bind_some]
  rcases hMember with hMember | hMember | hMember
  all_goals rw [hMember]

theorem resolve_of_nothing (hOther : ¬ p.HasOther t.package t.function) :
    t.resolve p = .ok .noFunction := by
  have hLookup : (p.package? t.package).bind (·.member? t.function) = none := by
    cases hq : p.package? t.package with
    | none => rfl
    | some q =>
        have hAbsent : q.functions.find? t.function = none := by
          simpa [Program.function?, hq, Package.function?] using hNone
        have hNot : ¬ (q.types.contains t.function = true ∨ q.globals.contains t.function = true ∨
            q.consts.contains t.function = true) := fun h => hOther ⟨q, hq, h⟩
        simp only [not_or] at hNot
        simp [Package.member?, hAbsent, hNot]
  rw [resolve, if_neg (Int.not_lt.mpr hPosition), parts_of_no_dot hDot]
  simp only [hLookup]

end Function

section Method

variable (hName : t.function = type ++ "." ++ method) (hType : '.' ∉ type.toList)
  (hMethod : '.' ∉ method.toList)
include hName hType hMethod

theorem resolve_of_method (hFound : p.function? ⟨t.package, method, some type⟩ = some fn)
    (hCallee : fn.callee = ⟨t.package, method, some type⟩) :
    t.resolve p = .ok (.found ⟨⟨t.package, method, some type⟩, t.position⟩) := by
  obtain ⟨q, hq, hFn⟩ := Option.bind_eq_some_iff.mp hFound
  obtain ⟨ms, hms, hFn⟩ := Option.bind_eq_some_iff.mp hFn
  rw [resolve, if_neg (Int.not_lt.mpr hPosition), parts_of_one_dot hName hType hMethod]
  have hLookup : (p.package? t.package).bind (·.types.find? type) = some ms :=
    Option.bind_eq_some_iff.mpr ⟨q, hq, hms⟩
  change ms.find? method = some fn at hFn
  simp only [hLookup, hFn, hCallee]

theorem resolve_of_no_method (hNone : p.function? ⟨t.package, method, some type⟩ = none) :
    ∃ r, t.resolve p = .ok r ∧ r.target? = none := by
  rw [resolve, if_neg (Int.not_lt.mpr hPosition), parts_of_one_dot hName hType hMethod]
  cases hLookup : (p.package? t.package).bind (·.types.find? type) with
  | none => exact ⟨.noType, by simp only [hLookup], rfl⟩
  | some ms =>
      obtain ⟨q, hq, hms⟩ := Option.bind_eq_some_iff.mp hLookup
      have hAbsent : ms.find? method = none := by
        simpa [Program.function?, hq, Package.function?, hms] using hNone
      exact ⟨.noMethod, by simp only [hLookup, hAbsent], rfl⟩

end Method

end Resolve

/-- Resolving goes by the names that functions are filed under. -/
theorem resolvesByName {t : Target} {p : Program} {D : Callee → Dump.Sources} (hp : p.IsTraced D)
    (hPosition : 0 ≤ t.position) : t.ResolvesByName p := by
  have hError {e : TargetError} {r : Resolution} (h : t.resolve p = .error e)
      (h' : t.resolve p = .ok r) : False := by
    rw [h] at h'
    cases h'
  refine ⟨fun hDot => ?_, fun hDot => ?_, fun hDot hNone hOther => ?_,
    fun type method hName hType hMethod => ?_, fun type method hName hType hMethod hNone => ?_,
    resolve_of_dots hPosition⟩
  · cases hFound : p.function? ⟨t.package, t.function, none⟩ with
    | some fn => simpa using resolve_of_function hPosition hDot hFound (hp.filed _ fn hFound)
    | none =>
        refine ⟨fun h => ?_, fun h => by cases h⟩
        by_cases hOther : p.HasOther t.package t.function
        · exact (hError (resolve_of_other hPosition hDot hFound hOther) h).elim
        · rw [resolve_of_nothing hPosition hDot hFound hOther] at h
          cases h
  · cases hFound : p.function? ⟨t.package, t.function, none⟩ with
    | some fn =>
        refine ⟨fun h => ?_, fun h => by cases h.1⟩
        exact (hError h (resolve_of_function hPosition hDot hFound (hp.filed _ fn hFound))).elim
    | none =>
        refine ⟨fun h => ⟨rfl, ?_⟩, fun h => resolve_of_other hPosition hDot hFound h.2⟩
        by_contra hOther
        exact hError h (resolve_of_nothing hPosition hDot hFound hOther)
  · exact ⟨.noFunction, resolve_of_nothing hPosition hDot hNone hOther, rfl⟩
  · cases hFound : p.function? ⟨t.package, method, some type⟩ with
    | some fn =>
        simpa using resolve_of_method hPosition hName hType hMethod hFound (hp.filed _ fn hFound)
    | none =>
        refine ⟨fun h => ?_, fun h => by cases h⟩
        obtain ⟨r, hr, hTarget⟩ := resolve_of_no_method hPosition hName hType hMethod hFound
        rw [hr] at h
        cases h
        cases hTarget
  · exact resolve_of_no_method hPosition hName hType hMethod hNone

end Target

/-- A validator holds a target against an instruction: it is a call, and the target is among those
of its callee. -/
def Validator.Considers (v : Validator) (t : ResolvedTarget) (i : Instr) : Prop :=
  ∃ result callee args, i.op = .call result (some callee) args ∧ t ∈ v.group callee

/-- What a validator says about a call it says by the targets that it holds against it, which it
goes through in order. -/
theorem Validator.exists_considered (v : Validator) (facts : Facts) {i : Instr} {result : Value}
    {callee : Option Callee} {args : List (Option Value)} (hOp : i.op = .call result callee args) :
    ∃ considered, (∀ t, t ∈ considered ↔ v.Considers t i) ∧
      v.validate facts callee args = judge facts args considered := by
  cases callee with
  | none => exact ⟨[], by simp [Considers, hOp], rfl⟩
  | some c =>
      refine ⟨v.group c, fun t => ?_, rfl⟩
      constructor
      · intro ht
        exact ⟨result, c, args, hOp, ht⟩
      · rintro ⟨_, _, _, hOp', ht⟩
        rw [hOp] at hOp'
        cases hOp'
        exact ht

theorem Validator.considers_ofTargets {rs : List ResolvedTarget} {r : ResolvedTarget} (hr : r ∈ rs)
    {i : Instr} : (Validator.ofTargets rs).Considers r i ↔
      ∃ result args, i.op = .call result (some r.callee) args := by
  constructor
  · rintro ⟨result, callee, args, hOp, hGroup⟩
    rw [group_ofTargets, List.mem_filter, decide_eq_true_eq] at hGroup
    exact ⟨result, args, hGroup.2 ▸ hOp⟩
  · rintro ⟨result, args, hOp⟩
    refine ⟨result, r.callee, args, hOp, ?_⟩
    rw [group_ofTargets, List.mem_filter, decide_eq_true_eq]
    exact ⟨hr, rfl⟩

/-- The receiver of a method is left out when the arguments are counted. -/
theorem ResolvedTarget.argument?_eq {r : ResolvedTarget} (hPosition : 0 ≤ r.position)
    (values : List Value) :
    Validator.argument? (values.map some) r.argIndex =
      ((values.drop (if r.callee.isMethod then 1 else 0))[r.position.toNat]?).map some := by
  unfold argIndex Validator.argument?
  cases r.callee.isMethod with
  | false =>
      simp only [Bool.false_eq_true, if_false, if_pos hPosition, List.drop_zero]
      exact List.getElem?_map
  | true =>
      have hNext : (r.position + 1).toNat = 1 + r.position.toNat := by omega
      have hNonneg : 0 ≤ r.position + 1 := by omega
      simp only [if_true, if_pos hNonneg, hNext, List.getElem?_drop]
      exact List.getElem?_map

/-- In every program that dumps were loaded into, a target resolves by the names that functions
were declared with. Once it does, the instructions that are checked for it are those that were
loaded from calls to what it names, and the argument that is checked is the one at its position
after the receiver. -/
theorem Target.resolve_matches_named_calls {texts : List String} {p : Program}
    (hReached : p = ({} : Program).loadEach texts) (t : Target) :
    (t.position < 0 → t.resolve p = .error (.negativePosition t)) ∧
    (0 ≤ t.position → t.ResolvesByName p) ∧
    ∀ r, t.resolve p = .ok (.found r) → ∀ rs, r ∈ rs →
      ∀ fn ∈ p.allFunctions, ∀ block ∈ fn.blocks, ∀ i ∈ block.instrs,
        ((Validator.ofTargets rs).Considers r i ↔
          ∃ x values, (∃ text ∈ texts, Dump.Writes text fn.callee x) ∧
            Dump.LoadedFrom x values i ∧ x.IsCallTo r.callee) ∧
        ∀ x values, Dump.LoadedFrom x values i → x.IsCallTo r.callee →
          ∃ result args, i.op = .call result (some r.callee) args ∧ args = values.map some ∧
            Validator.argument? args r.argIndex =
              ((values.drop (if r.callee.isMethod then 1 else 0))[t.position.toNat]?).map some := by
  have hTraced := Program.isTraced_sourcesOf texts
  rw [← hReached] at hTraced
  refine ⟨fun hNegative => ?_, resolvesByName hTraced, ?_⟩
  · rw [resolve, if_pos hNegative]
  · intro r hResolve rs hr fn hFn block hBlock i hi
    obtain ⟨hPosition, hNonneg⟩ := position_of_resolve hResolve
    refine ⟨?_, fun x values hLoaded hCall => ?_⟩
    · rw [Validator.considers_ofTargets hr]
      constructor
      · rintro ⟨result, args, hOp⟩
        have hIsCall : i.isCall = true := by rw [Instr.isCall, hOp]
        obtain ⟨x, values, hWritten, hLoaded⟩ := (hTraced.code fn hFn block hBlock i hi).2 hIsCall
        exact ⟨x, values, hWritten, hLoaded, hLoaded.isCallTo hOp⟩
      · rintro ⟨x, values, -, hLoaded, hCall⟩
        obtain ⟨result, hOp⟩ := hLoaded.op_eq hCall
        exact ⟨result, _, hOp⟩
    · obtain ⟨result, hOp⟩ := hLoaded.op_eq hCall
      refine ⟨result, _, hOp, rfl, ?_⟩
      rw [← hPosition]
      exact r.argument?_eq (hPosition ▸ hNonneg) values

/-- Calls a method of a type that is declared later, and breaks off after the call. -/
def earlyCallText : String :=
  "(program (package app (func run (params x) " ++
    "(block 0 (call-method lib Box put x nil) (return y)))))"

/-- Declares the method and a function, a variable and a type of the same name as the method. -/
def boxLibraryText : String :=
  "(program (package lib (func put (params x)) (global lid) " ++
    "(type Box (method put (params b x))) (type put)))"

/-- The method is found, and the call of the dump that did not load is checked for it. -/
theorem Target.resolve_matches_named_calls_earlyCall :
    ∃ p r fn block i x, p = ({} : Program).loadEach [earlyCallText, boxLibraryText] ∧
      Target.resolve p ⟨"lib", "Box.put", 0⟩ = .ok (.found r) ∧
      fn ∈ p.allFunctions ∧ block ∈ fn.blocks ∧ i ∈ block.instrs ∧
      (Validator.ofTargets [r]).Considers r i ∧
      x.IsCallTo ⟨"lib", "put", some "Box"⟩ ∧ ∃ values, Dump.LoadedFrom x values i := by
  have hResolve : (Target.resolve (({} : Program).loadEach [earlyCallText, boxLibraryText])
      ⟨"lib", "Box.put", 0⟩).toOption = some (.found ⟨⟨"lib", "put", some "Box"⟩, 0⟩) := by cbv
  have hSites : ((({} : Program).loadEach [earlyCallText, boxLibraryText]).allFunctions.flatMap
      fun fn => fn.blocks.toList.flatMap fun block => block.instrs.filterMap Instr.callSite?) =
        [⟨some ⟨"lib", "put", some "Box"⟩, 2, {}⟩] := by cbv
  have hFound : Target.resolve (({} : Program).loadEach [earlyCallText, boxLibraryText])
      ⟨"lib", "Box.put", 0⟩ = .ok (.found ⟨⟨"lib", "put", some "Box"⟩, 0⟩) := by
    revert hResolve
    cases Target.resolve _ _ with
    | error e => simp [Except.toOption]
    | ok r => simp [Except.toOption]
  obtain ⟨fn, hFn, hSites⟩ := List.mem_flatMap.mp (hSites ▸ List.mem_singleton_self _)
  obtain ⟨block, hBlock, hSites⟩ := List.mem_flatMap.mp hSites
  obtain ⟨i, hi, hSite⟩ := List.mem_filterMap.mp hSites
  have hConsiders : (Validator.ofTargets [⟨⟨"lib", "put", some "Box"⟩, 0⟩]).Considers
      ⟨⟨"lib", "put", some "Box"⟩, 0⟩ i := by
    rw [Validator.considers_ofTargets (List.mem_singleton_self _)]
    unfold Instr.callSite? at hSite
    split at hSite
    case h_1 result callee args hOp =>
      obtain ⟨hCallee, -⟩ := CallSite.mk.inj (Option.some.inj hSite)
      exact ⟨result, args, hCallee ▸ hOp⟩
    case h_2 => cases hSite
  have hMatches := (Target.resolve_matches_named_calls rfl _).2.2 _ hFound _
    (List.mem_singleton_self _) fn hFn block (Array.mem_toList_iff.mp hBlock) i hi
  obtain ⟨x, values, -, hLoaded, hCall⟩ := hMatches.1.mp hConsiders
  exact ⟨_, _, fn, block, i, x, rfl, hFound, hFn, Array.mem_toList_iff.mp hBlock, hi, hConsiders,
    hCall, values, hLoaded⟩

end NilGuard
