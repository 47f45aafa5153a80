import Mathlib
import NilGuard.Proofs.Declaration
import NilGuard.Proofs.Placement
/-! The calls of a dump. Those that stand in no operand of a phi become instructions of the block
whose form they stand in, and the others become none. -/
namespace NilGuard

/-- What a call is without its values: whom it calls, how many arguments it has, and where it
stands. -/
structure CallSite where
  callee : Option Callee
  arity : Nat
  location : Location
  deriving DecidableEq, Repr

def Instr.callSite? (i : Instr) : Option CallSite :=
  match i.op with
  | .call _ callee args => some ⟨callee, args.length, i.location⟩
  | _ => none

namespace Dump

/-- The calls of a form, those that stand in no operand of a phi apart from those that do. -/
structure Calls where
  outside : List CallSite := []
  inside : List CallSite := []
  deriving DecidableEq, Repr

/-- The calls of forms from left to right. -/
def Calls.join (below : List Calls) : Calls :=
  ⟨below.flatMap Calls.outside, below.flatMap Calls.inside⟩

/-- The call that an expression is, if it is one. -/
def Shape.callSite? (form : Form) (location : Location) : Shape → Option CallSite
  | .call => some ⟨some (functionOf form), (form.items.drop 3).length, location⟩
  | .callMethod => some ⟨some (methodOf form), (form.items.drop 4).length, location⟩
  | .callDynamic => some ⟨none, (form.items.drop 2).length, location⟩
  | _ => none

/-- The calls of an expression at a place, given those of its items. -/
def callsOf (location : Location) (items : List Form) (below : List Calls) : Calls :=
  match (Form.list items).head?.bind Shape.ofHead? with
  | none => {}
  | some shape =>
    let args := argsOf items below
    let own := shape.callSite? (.list (withoutPosition items)) (placed items location)
    { outside := (shape.inline args).flatMap Calls.outside ++ own.toList
      inside :=
        if shape = .phi then args.flatMap fun c => c.outside ++ c.inside
        else (shape.inline args).flatMap Calls.inside }

/-- The calls of an operand. -/
def calls : Form → Calls := Form.fold (fun _ => {}) (callsOf {})

/-- The calls of an expression at a place. -/
def callsAt (location : Location) : Form → Calls
  | .list items => callsOf location items (items.map calls)
  | _ => {}

/-- The calls of a statement. -/
def statementCalls (stmt : Form) : Calls :=
  if stmt.head? = some "let" then
    ((letExpression? stmt).map (callsAt (locationOf stmt.items))).getD {}
  else
    match stmt.head?.bind Ending.ofHead? with
    | some ending =>
      Calls.join ((ending.operands ((withoutPosition stmt.items).drop 1)).map calls)
    | none => callsAt (locationOf stmt.items) (.list (withoutPosition stmt.items))

/-- The calls of a block form. -/
def blockCalls (form : Form) : Calls := Calls.join ((statementsOf form).map statementCalls)

theorem calls_eq (x : Form) : calls x = callsAt {} x := by
  cases x with
  | list items => exact Form.fold_list _ _ items
  | int | real | sym | str => rfl

/-- The calls of an expression that is no phi are those of its operands and then itself. -/
theorem outside_callsOf {location : Location} {items : List Form} {head : String} {shape : Shape}
    (hHead : (Form.list items).head? = some head) (hShape : Shape.ofHead? head = some shape) :
    (callsOf location items (items.map calls)).outside =
      (shape.inline ((withoutPosition items).drop 1)).flatMap (fun x => (calls x).outside) ++
        (shape.callSite? (.list (withoutPosition items)) (placed items location)).toList := by
  rw [callsOf, hHead, Option.bind_some, hShape]
  dsimp only
  rw [argsOf_map, Shape.map_inline, List.flatMap_map]

section Expressions

variable {sc : Scope}

theorem yieldsAll_calls {xs : List Form} {values : List Value} {is : List Instr}
    (hOperands : ∀ x ∈ xs, ∀ v is, sc.Yields "" {} x v is →
      is.filterMap Instr.callSite? = (calls x).outside)
    (h : sc.YieldsAll xs values is) :
    is.filterMap Instr.callSite? = xs.flatMap (fun x => (calls x).outside) ∧
      values.length = xs.length := by
  induction xs generalizing values is with
  | nil =>
      cases h
      exact ⟨rfl, rfl⟩
  | cons x xs ih =>
      rw [List.forall_mem_cons] at hOperands
      cases h with
      | cons hFirst hRest =>
          obtain ⟨hCalls, hLength⟩ := ih hOperands.2 hRest
          refine ⟨?_, by rw [List.length_cons, hLength, List.length_cons]⟩
          rw [List.filterMap_append, hOperands.1 _ _ hFirst, hCalls, List.flatMap_cons]

/-- The own instruction of an expression is the call that it is, if it is one. -/
theorem makes_calls {form : Form} {name : String} {location : Location} {values : List Value}
    {v : Value} {own : List Instr} {shape : Shape}
    (hLength : values.length = (shape.inline (form.items.drop 1)).length)
    (h : sc.Makes form name location values v own shape) :
    own.filterMap Instr.callSite? = (shape.callSite? form location).toList := by
  cases shape with
  | const | global | funcRef =>
      rw [h.2]
      rfl
  | simple | fieldAddr | arrayPtr | closure | single | binop =>
      rw [h.2]
      rfl
  | phi =>
      obtain ⟨-, operands, rfl, -⟩ := h
      rfl
  | call | callMethod =>
      rw [h.2]
      simp only [Shape.inline, List.drop_drop] at hLength
      simp [Instr.callSite?, Shape.callSite?, hLength]
  | callDynamic =>
      rw [h.2]
      simp only [Shape.inline] at hLength
      simp [Instr.callSite?, Shape.callSite?, hLength, Nat.sub_sub]

/-- The call instructions of an expression are the calls that stand in it outside of phis. -/
theorem yields_calls (x : Form) : ∀ name location v is, sc.Yields name location x v is →
    is.filterMap Instr.callSite? = (callsAt location x).outside := by
  induction x using Form.induct with
  | atom x hAtom =>
      intro name location v is h
      cases h with
      | atom hDenotes =>
          cases x with
          | list items => exact absurd rfl (hAtom items)
          | int | real | sym | str => rfl
      | list => exact absurd rfl (hAtom _)
  | list items ih =>
      intro name location v is h
      cases h with
      | atom hDenotes => cases hDenotes
      | @list _ _ _ head shape values _ is own hHead hShape hAll hMakes =>
          have hItems : ∀ x ∈ shape.inline ((withoutPosition items).drop 1), ∀ v is,
              sc.Yields "" {} x v is → is.filterMap Instr.callSite? = (calls x).outside := by
            intro x hx v is hYields
            rw [calls_eq]
            exact ih x (mem_of_mem_inline hx) "" {} v is hYields
          obtain ⟨hCalls, hLength⟩ := yieldsAll_calls hItems hAll
          rw [List.filterMap_append, hCalls, makes_calls hLength hMakes, callsAt,
            outside_callsOf hHead hShape]

theorem performs_calls {stmt : Form} {is : List Instr} (h : sc.Performs stmt is) :
    is.filterMap Instr.callSite? = (statementCalls stmt).outside := by
  cases h with
  | binding hHead hExpression hName hYields =>
      rw [statementCalls, if_pos hHead, hExpression]
      exact yields_calls _ _ _ _ _ hYields
  | @ending head ending values is hHead hEnding hTakes hAll =>
      have hNot := head?_ne_let_of_ending hHead hEnding
      have hOwn : Instr.callSite?
          { location := locationOf stmt.items, op := ending.op values } = none := by
        unfold Ending.op
        split
        all_goals rfl
      obtain ⟨hCalls, -⟩ := yieldsAll_calls
        (fun x _ v is hYields => (calls_eq x).symm ▸ yields_calls x "" {} v is hYields) hAll
      rw [statementCalls, if_neg hNot, hHead, Option.bind_some, hEnding, List.filterMap_append,
        hCalls, List.filterMap_cons, hOwn]
      simp [Calls.join, List.flatMap_map]
  | @expression head shape v is hHead hShape hYields =>
      have hNot := head?_ne_let_of_shape hHead hShape
      rw [statementCalls, if_neg hNot, hHead, Option.bind_some, Ending.ofHead?_eq_none hShape]
      exact yields_calls _ _ _ _ _ hYields

theorem performsAll_calls {stmts : List Form} {parts : List (List Instr)}
    (h : List.Forall₂ sc.Performs stmts parts) :
    parts.flatten.filterMap Instr.callSite? =
      stmts.flatMap fun stmt => (statementCalls stmt).outside := by
  induction h with
  | nil => rfl
  | cons hFirst _ ih =>
      rw [List.flatten_cons, List.filterMap_append, performs_calls hFirst, ih, List.flatMap_cons]

/-- A block that holds what statements stand for has their calls. -/
theorem Holds.calls {forms : List Form} {fn : Function} (h : Holds sc forms fn) {form : Form}
    (hForm : form ∈ forms) {i : Nat} (hNumber : blockNumber? form = some (i : Int)) :
    (fn.instrs i).filterMap Instr.callSite? = (blockCalls form).outside := by
  obtain ⟨parts, hParts, hInstrs⟩ := h.instrs form hForm i hNumber
  rw [hInstrs, performsAll_calls hParts, blockCalls, Calls.join, List.flatMap_map]

end Expressions

end Dump

namespace Package

/-- A function that is changed is found changed, and all others as before. -/
theorem function?_modifyFunction (p : Package) (callee c : Callee) (f : Function → Function) :
    (p.modifyFunction callee f).function? c =
      if c.receiver = callee.receiver ∧ c.name = callee.name then (p.function? c).map f
      else p.function? c := by
  unfold modifyFunction
  cases hReceiver : callee.receiver with
  | none =>
      cases hOther : c.receiver with
      | none =>
          by_cases hName : c.name = callee.name
          · simp [function?, hOther, Table.find?_modify, hName]
          · simp [function?, hOther, Table.find?_modify, hName]
      | some r => simp [function?, hOther]
  | some r =>
      cases hOther : c.receiver with
      | none => simp [function?, hOther]
      | some q =>
          by_cases hSame : q = r
          · subst hSame
            cases hType : p.types.find? q with
            | none => simp [function?, hOther, Table.find?_modify, hType]
            | some ms =>
                by_cases hName : c.name = callee.name
                · simp [function?, hOther, Table.find?_modify, hType, hName]
                · simp [function?, hOther, Table.find?_modify, hType, hName]
          · simp [function?, hOther, Table.find?_modify, hSame]

end Package

namespace Program

theorem function?_modifyFunction (p : Program) (callee c : Callee) (f : Function → Function) :
    (p.modifyPackage callee.package (·.modifyFunction callee f)).function? c =
      if c = callee then (p.function? c).map f else p.function? c := by
  rw [function?_modifyPackage]
  by_cases hSame : c = callee
  · subst hSame
    rw [if_pos rfl, if_pos rfl, function?]
    cases p.package? c.package with
    | none => rfl
    | some q => simp [Package.function?_modifyFunction]
  · rw [if_neg hSame]
    by_cases hPackage : c.package = callee.package
    · rw [if_pos hPackage, function?, hPackage]
      have hNot : ¬ (c.receiver = callee.receiver ∧ c.name = callee.name) := by
        rintro ⟨hReceiver, hName⟩
        cases c
        cases callee
        simp_all
      cases p.package? callee.package with
      | none => rfl
      | some q => simp [Package.function?_modifyFunction, hNot]
    · rw [if_neg hPackage]

end Program

namespace Dump

theorem isStable_function? (find : Callee → Option Function) :
    IsStable fun p => ∀ c, p.function? c = find c where
  value _ h := h
  package p path h c := (p.function?_addPackage path c).trans (h c)
  global p path name v _ h c := by
    rw [Program.function?_modifyPackage_eq, h]
    exact fun _ _ => rfl

section Bodies

variable {program program' : Program} {fn loaded : Function} {forms : List Form}

/-- A body that loads is put in place of its function, and all other functions stay. -/
theorem function?_loadBody (h : loadBody program fn forms = (program', .ok loaded)) (c : Callee) :
    program'.function? c =
      if c = fn.callee then (program.function? c).map fun _ => loaded else program.function? c := by
  obtain ⟨body, hLoad, -, rfl⟩ := loadBody_eq_ok h
  have hKept : ∀ c, body.program.function? c = program.function? c :=
    ((preserves_loadBlocks (isStable_function? program.function?) fn forms).ensures _ _ _
      (fun _ => rfl) hLoad).2
  rw [Program.function?_modifyFunction, hKept]

/-- The bodies of different functions are all there in the end. -/
theorem loadBodies_eq_ok {pending : List Pending}
    (hNodup : (pending.map (·.function.callee)).Nodup)
    (hThere : ∀ f ∈ pending, (program.function? f.function.callee).isSome)
    (h : (loadBodies program pending).error = none) :
    (∀ c, (∀ f ∈ pending, c ≠ f.function.callee) →
      (loadBodies program pending).program.function? c = program.function? c) ∧
    ∀ f ∈ pending, ∃ before after fn, loadBody before f.function f.blocks = (after, .ok fn) ∧
      (loadBodies program pending).program.function? f.function.callee = some fn := by
  induction pending generalizing program with
  | nil => exact ⟨fun _ _ => rfl, by simp⟩
  | cons f rest ih =>
      rw [List.map_cons, List.nodup_cons] at hNodup
      rw [List.forall_mem_cons] at hThere
      rw [loadBodies] at h ⊢
      cases hLoad : loadBody program f.function f.blocks with
      | mk program' result =>
          rw [hLoad] at h
          cases result with
          | error e => cases h
          | ok fn =>
              have hFunction := function?_loadBody hLoad
              have hOthers : ∀ g ∈ rest, f.function.callee ≠ g.function.callee := by
                intro g hg hSame
                exact hNodup.1 (hSame ▸ List.mem_map_of_mem hg)
              have hThere' : ∀ g ∈ rest, (program'.function? g.function.callee).isSome := by
                intro g hg
                rw [hFunction, if_neg (hOthers g hg).symm]
                exact hThere.2 g hg
              obtain ⟨hKept, hLoaded⟩ := ih hNodup.2 hThere' h
              refine ⟨fun c hc => ?_, List.forall_mem_cons.mpr ⟨?_, hLoaded⟩⟩
              · rw [List.forall_mem_cons] at hc
                change (loadBodies program' rest).program.function? c = _
                rw [hKept c hc.2, hFunction, if_neg hc.1]
              · refine ⟨program, program', fn, hLoad, ?_⟩
                change (loadBodies program' rest).program.function? f.function.callee = _
                obtain ⟨old, hOld⟩ := Option.isSome_iff_exists.mp hThere.1
                rw [hKept _ hOthers, hFunction, if_pos rfl, hOld]
                rfl

end Bodies

/-- A declaration with blocks waits for its body. -/
theorem Declares.exists_pending {s t : Declared} {ds : List Declaration} (h : Declares s ds t)
    {d : Declaration} (hd : d ∈ ds) (hBlocks : d.blocks ≠ []) :
    ∃ f ∈ t.pending, f.function.callee = d.callee ∧ f.blocks = d.blocks := by
  obtain ⟨new, hNew, hPending⟩ := h.pending
  have hFilter : d ∈ ds.filter fun d => !d.blocks.isEmpty :=
    List.mem_filter.mpr ⟨hd, by simpa using hBlocks⟩
  obtain ⟨i, hi, rfl⟩ := List.mem_iff_getElem.mp hFilter
  have hi' := hPending.length_eq ▸ hi
  refine ⟨new[i], ?_, hPending.get hi hi'⟩
  rw [hNew]
  exact List.mem_append_right _ (List.getElem_mem hi')

theorem Declares.nodup_pending {s t : Declared} {ds : List Declaration} (h : Declares s ds t)
    (hStart : s.pending = []) : (t.pending.map (·.function.callee)).Nodup := by
  obtain ⟨new, hNew, hPending⟩ := h.pending
  have hCallees : List.Forall₂ (· = ·) ((ds.filter fun d => !d.blocks.isEmpty).map (·.callee))
      (new.map (·.function.callee)) := by
    rw [List.forall₂_map_left_iff, List.forall₂_map_right_iff]
    exact hPending.imp fun _ _ hSame => hSame.1.symm
  rw [List.forall₂_eq_eq_eq] at hCallees
  rw [hNew, hStart, List.nil_append, ← hCallees]
  exact h.nodup.sublist (List.filter_sublist.map _)

end Dump

namespace Program

variable {program : Program} {text : String}

theorem exists_form_of_load (h : (program.load text).error = none) :
    ∃ form, Dump.formOf? text = some form := by
  unfold load at h
  unfold Dump.formOf?
  cases hRead : Datum.read text with
  | error e =>
      rw [hRead] at h
      cases h
  | ok datum =>
      rw [hRead] at h
      cases hForm : datum.form? with
      | none =>
          simp only [hForm] at h
          cases h
      | some form => exact ⟨form, hForm⟩

/-- In a dump that loads, the blocks of each function have the calls of their forms that stand in
no operand of a phi, in the order of evaluation, and no others. All calls of a form are there only
if none stands in an operand of a phi. -/
theorem load_calls_outside_phis (h : (program.load text).error = none) :
    ∃ form, Dump.formOf? text = some form ∧
      ∀ d ∈ Dump.declarations form, d.blocks ≠ [] → ∃ fn,
        (program.load text).program.function? d.callee = some fn ∧
        (d.blocks.map Dump.blockNumber?).Perm
          ((List.range fn.blocks.size).map fun i : Nat => some (i : Int)) ∧
        ∀ block ∈ d.blocks, ∀ i : Nat, Dump.blockNumber? block = some (i : Int) →
          (fn.instrs i).filterMap Instr.callSite? = (Dump.blockCalls block).outside ∧
          (((fn.instrs i).filterMap Instr.callSite?).length =
            ((Dump.blockCalls block).outside ++ (Dump.blockCalls block).inside).length ↔
              (Dump.blockCalls block).inside = []) := by
  obtain ⟨form, hForm⟩ := exists_form_of_load h
  refine ⟨form, hForm, fun d hd hBlocks => ?_⟩
  rw [Dump.load_of_formOf? hForm, Dump.loadForm] at h ⊢
  cases hRun : Dump.declareProgram form { program } with
  | error e s =>
      rw [hRun] at h
      cases h
  | ok _ s =>
      rw [hRun] at h
      have hDeclares := Dump.declaring_declareProgram form _ _ _ (by simp) hRun
      have hThere : ∀ f ∈ s.pending, (s.program.function? f.function.callee).isSome := by
        intro f hf
        obtain ⟨d, hd, hCallee, -⟩ := hDeclares.exists_of_mem_pending rfl hf
        rw [hCallee]
        exact hDeclares.there d hd
      obtain ⟨f, hf, hCallee, hForms⟩ := hDeclares.exists_pending hd hBlocks
      obtain ⟨-, hLoaded⟩ := Dump.loadBodies_eq_ok (hDeclares.nodup_pending rfl) hThere h
      obtain ⟨before, after, fn, hLoad, hFunction⟩ := hLoaded f hf
      obtain ⟨body, sorted, cx, e, done, hRecounts, -, rfl⟩ := Dump.recounts_of_loadBody hLoad
      have hHolds := hRecounts.holds_link
      rw [hForms] at hHolds
      refine ⟨_, hCallee ▸ hFunction, hHolds.numbers, fun block hBlock i hNumber => ?_⟩
      have hCalls := hHolds.calls hBlock hNumber
      refine ⟨hCalls, ?_⟩
      rw [hCalls, List.length_append, ← List.length_eq_zero_iff]
      omega

/-- A call as an operand of a phi, and calls inside a call and in a later block that stands
first. -/
def nestedCallText : String :=
  "(program (package p (func f (params x) " ++
    "(block 1 (return (call p use b))) " ++
    "(block 0 (succs 1) (let a (phi (call p use nil) x)) " ++
      "(let b (call p use (call-dynamic x a) (pos f.go 7))) (jump)))))"

def nestedCallItems : List Form :=
  [.list [.sym "params", .sym "x"],
   .list [.sym "block", .int 1,
    .list [.sym "return", .list [.sym "call", .sym "p", .sym "use", .sym "b"]]],
   .list [.sym "block", .int 0, .list [.sym "succs", .int 1],
    .list [.sym "let", .sym "a", .list [.sym "phi",
      .list [.sym "call", .sym "p", .sym "use", .sym "nil"], .sym "x"]],
    .list [.sym "let", .sym "b", .list [.sym "call", .sym "p", .sym "use",
      .list [.sym "call-dynamic", .sym "x", .sym "a"],
      .list [.sym "pos", .sym "f.go", .int 7]]],
    .list [.sym "jump"]]]

/-- Of the four calls the three that stand outside of the phi are there. -/
theorem load_calls_outside_phis_nestedCallText :
    (({} : Program).load nestedCallText).error = none ∧
    ∃ fn, (({} : Program).load nestedCallText).program.function? ⟨"p", "f", none⟩ = some fn ∧
      (fn.instrs 0).filterMap Instr.callSite? =
        [⟨none, 1, {}⟩, ⟨some ⟨"p", "use", none⟩, 1, { file := "f.go", line := 7 }⟩] ∧
      (fn.instrs 1).filterMap Instr.callSite? = [⟨some ⟨"p", "use", none⟩, 1, {}⟩] := by
  have hLoads : (({} : Program).load nestedCallText).error.isNone = true := by cbv
  have hRead : Dump.formOf? nestedCallText = some (.list [.sym "program",
      .list [.sym "package", .sym "p", .list (.sym "func" :: .sym "f" :: nestedCallItems)]]) := by
    cbv
  rw [Option.isNone_iff_eq_none] at hLoads
  refine ⟨hLoads, ?_⟩
  obtain ⟨form, hForm, hCalls⟩ := load_calls_outside_phis hLoads
  rw [hRead] at hForm
  cases hForm
  obtain ⟨fn, hFunction, -, hBlocks⟩ :=
    hCalls ⟨⟨"p", "f", none⟩, nestedCallItems⟩ List.mem_cons_self (by decide)
  have hFirst := hBlocks nestedCallItems[1] List.mem_cons_self 1 rfl
  have hSecond := hBlocks nestedCallItems[2] (List.mem_cons_of_mem _ List.mem_cons_self) 0 rfl
  exact ⟨fn, hFunction, hSecond.1, hFirst.1⟩

/-- The only call stands in an operand of a phi. -/
def phiCallText : String :=
  "(program (package p (func use (params x)) " ++
    "(func f (block 0 (succs 0) (let a (phi (call p use nil))) (jump)))))"

/-- The dump loads, and no block has a call. -/
theorem load_drops_call_of_phi :
    (({} : Program).load phiCallText).error.isNone = true ∧
    ((Dump.formOf? phiCallText).map fun form => (Dump.declarations form).map fun d =>
      d.blocks.map Dump.blockCalls) =
        some [[], [⟨[], [⟨some ⟨"p", "use", none⟩, 1, {}⟩]⟩]] ∧
    ((({} : Program).load phiCallText).program.function? ⟨"p", "f", none⟩).map (fun fn =>
      (List.range fn.blocks.size).map fun i => (fn.instrs i).filterMap Instr.callSite?) =
        some [[]] := by
  refine ⟨by cbv, by cbv, by cbv⟩

end Program

end NilGuard
