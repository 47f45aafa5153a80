import NilGuard.Check.Basic
import NilGuard.Proofs.Table
/-! Programs with other values in place of theirs. When different values stand in for different
ones and each is built as the one it stands for, linking and checking cannot tell. -/
namespace NilGuard

/-- Different values have different values of the same build in their place. -/
structure IsRelabelling (g : Value → Value) : Prop where
  injective : Function.Injective g
  leaf : ∀ t o, ∃ u, g (.leaf t o) = .leaf u o
  converted : ∀ t c v, ∃ u : Tag, u.length = t.length ∧
    g (.converted t c v) = .converted u c (g v)

namespace Table

variable {α β : Type}

/-- The table with its names and its entries replaced. -/
def rekey (k : String → String) (f : α → β) (t : Table α) : Table β :=
  ⟨t.entries.map (Prod.map k f)⟩

/-- The table with its entries replaced. -/
def map (f : α → β) (t : Table α) : Table β := t.rekey id f

section Rekey

variable {k : String → String} {f : α → β} (hk : Function.Injective k)
include hk

theorem find?_rekey (t : Table α) (key : String) :
    (t.rekey k f).find? (k key) = (t.find? key).map f := by
  obtain ⟨entries⟩ := t
  induction entries with
  | nil => rfl
  | cons e entries ih =>
      rw [rekey] at ih ⊢
      rw [List.map_cons, find?_cons, find?_cons, ih, Prod.map_fst]
      by_cases hKey : key = e.1
      · simp [hKey]
      · rw [if_neg hKey, if_neg fun h => hKey (hk h)]

theorem contains_rekey (t : Table α) (key : String) :
    (t.rekey k f).contains (k key) = t.contains key := by
  rw [contains, contains, find?_rekey hk, Option.isSome_map]

theorem modify_rekey (t : Table α) (key : String) {h : α → α} {h' : β → β}
    (hCommute : ∀ a, h' (f a) = f (h a)) :
    (t.rekey k f).modify (k key) h' = (t.modify key h).rekey k f := by
  unfold modify rekey
  rw [List.map_map, List.map_map]
  refine congrArg Table.mk (List.map_congr_left fun e _ => ?_)
  by_cases hKey : e.1 = key
  · simp [hKey, hCommute]
  · have hMoved : k e.1 ≠ k key := fun h => hKey (hk h)
    simp [hKey, hMoved]

theorem insert_rekey (t : Table α) (key : String) (a : α) :
    (t.rekey k f).insert (k key) (f a) = (t.insert key a).rekey k f := by
  unfold insert
  rw [contains_rekey hk]
  split
  case isTrue => exact modify_rekey hk t key fun _ => rfl
  case isFalse => simp [rekey]

theorem insertIfNew_rekey (t : Table α) (key : String) (a : α) :
    (t.rekey k f).insertIfNew (k key) (f a) = (t.insertIfNew key a).rekey k f := by
  unfold insertIfNew
  rw [contains_rekey hk]
  split
  case isTrue => rfl
  case isFalse => simp [rekey]

end Rekey

variable (f : α → β) (t : Table α) (key : String)

theorem find?_map : (t.map f).find? key = (t.find? key).map f :=
  find?_rekey Function.injective_id t key

theorem contains_map : (t.map f).contains key = t.contains key :=
  contains_rekey Function.injective_id t key

theorem modify_map {h : α → α} {h' : β → β} (hCommute : ∀ a, h' (f a) = f (h a)) :
    (t.map f).modify key h' = (t.modify key h).map f :=
  modify_rekey Function.injective_id t key hCommute

theorem insert_map (a : α) : (t.map f).insert key (f a) = (t.insert key a).map f :=
  insert_rekey Function.injective_id t key a

theorem insertIfNew_map (a : α) : (t.map f).insertIfNew key (f a) = (t.insertIfNew key a).map f :=
  insertIfNew_rekey Function.injective_id t key a

theorem values_map : (t.map f).values = t.values.map f := by
  rw [values, values, map, rekey, List.map_map, List.map_map]
  rfl

end Table

/-! ### Programs -/

section Relabel

variable (g : Value → Value)

def Op.relabel : Op → Op
  | .define result operands => .define (g result) (operands.map (Option.map g))
  | .call result callee args => .call (g result) callee (args.map (Option.map g))
  | .binary result operator left right => .binary (g result) operator (left.map g) (right.map g)
  | .branch condition => .branch (condition.map g)
  | .jump => .jump
  | .ret results => .ret (results.map (Option.map g))
  | .panic argument => .panic (argument.map g)
  | .store address value => .store (g address) (g value)

def Instr.relabel (i : Instr) : Instr := { i with op := i.op.relabel g }

def Block.relabel (b : Block) : Block := { b with instrs := b.instrs.map (Instr.relabel g) }

def Function.relabel (fn : Function) : Function :=
  { fn with
    params := fn.params.map g
    freeVars := fn.freeVars.map g
    blocks := fn.blocks.map (Block.relabel g)
    removed := fn.removed.map (Block.relabel g) }

def Member.relabel : Member → Member
  | .function fn => .function (fn.relabel g)
  | m => m

def Package.relabel (p : Package) : Package :=
  { p with
    functions := p.functions.map (Function.relabel g)
    types := p.types.map (Table.map (Function.relabel g))
    globals := p.globals.map g
    consts := p.consts.map g }

def Program.relabel (p : Program) : Program :=
  { p with packages := p.packages.map (Package.relabel g) }

end Relabel

namespace Package

variable (g : Value → Value) (p : Package)

theorem function?_relabel (c : Callee) :
    (p.relabel g).function? c = (p.function? c).map (Function.relabel g) := by
  unfold function?
  cases c.receiver with
  | none => exact Table.find?_map _ _ _
  | some r =>
      simp only [relabel, Table.find?_map]
      cases p.types.find? r with
      | none => rfl
      | some methods => exact Table.find?_map _ _ _

theorem addFunction_relabel (fn : Function) :
    (p.relabel g).addFunction (fn.relabel g) = (p.addFunction fn).relabel g := by
  unfold addFunction
  rw [show (fn.relabel g).callee = fn.callee from rfl]
  cases fn.callee.receiver with
  | none =>
      simp only [relabel, Table.insert_map]
  | some r =>
      have hNew := Table.insertIfNew_map (Table.map (Function.relabel g)) p.types r {}
      have hModify : ((p.types.insertIfNew r {}).map (Table.map (Function.relabel g))).modify r
          (·.insert fn.callee.name (fn.relabel g)) =
          ((p.types.insertIfNew r {}).modify r (·.insert fn.callee.name fn)).map
            (Table.map (Function.relabel g)) :=
        Table.modify_map _ _ _ fun methods => Table.insert_map _ methods _ fn
      simp only [relabel, ← hModify, ← hNew]
      rfl

theorem modifyFunction_relabel (c : Callee) {h h' : Function → Function}
    (hCommute : ∀ fn, h' (fn.relabel g) = (h fn).relabel g) :
    (p.relabel g).modifyFunction c h' = (p.modifyFunction c h).relabel g := by
  unfold modifyFunction
  cases c.receiver with
  | none => simp only [relabel, Table.modify_map _ _ _ hCommute]
  | some r =>
      have hMethods :
          (p.types.map (Table.map (Function.relabel g))).modify r (·.modify c.name h') =
          (p.types.modify r (·.modify c.name h)).map (Table.map (Function.relabel g)) :=
        Table.modify_map _ _ _ fun methods => Table.modify_map _ methods _ hCommute
      simp only [relabel, hMethods]

/-- A name of a package stands for what it stood for. -/
theorem member?_relabel (name : String) :
    (p.relabel g).member? name = (p.member? name).map (Member.relabel g) := by
  simp only [member?, relabel, Table.find?_map, Table.contains_map]
  cases p.functions.find? name with
  | some fn => rfl
  | none =>
      simp only [Option.map_none, apply_ite (Option.map (Member.relabel g)), Option.map_some,
        Member.relabel]

end Package

namespace Program

variable (g : Value → Value) (p : Program) (path : String)

theorem package?_relabel :
    (p.relabel g).package? path = (p.package? path).map (Package.relabel g) :=
  Table.find?_map _ _ _

theorem addPackage_relabel : (p.relabel g).addPackage path = (p.addPackage path).relabel g := by
  have h := Table.insertIfNew_map (Package.relabel g) p.packages path { path }
  simp only [addPackage, relabel, ← h]
  rfl

theorem modifyPackage_relabel {h h' : Package → Package}
    (hCommute : ∀ q, h' (q.relabel g) = (h q).relabel g) :
    (p.relabel g).modifyPackage path h' = (p.modifyPackage path h).relabel g := by
  simp only [modifyPackage, relabel, Table.modify_map _ _ _ hCommute]

theorem replaceFunction_relabel (c : Callee) (fn : Function) :
    (p.relabel g).modifyPackage path (·.modifyFunction c fun _ => fn.relabel g) =
      (p.modifyPackage path (·.modifyFunction c fun _ => fn)).relabel g :=
  p.modifyPackage_relabel g path fun q => q.modifyFunction_relabel g c fun _ => rfl

theorem global?_relabel (name : String) :
    ((p.relabel g).package? path).bind (·.globals.find? name) =
      ((p.package? path).bind (·.globals.find? name)).map g := by
  rw [package?_relabel]
  cases p.package? path with
  | none => rfl
  | some q => exact Table.find?_map _ _ _

theorem const?_relabel (name : String) :
    ((p.relabel g).package? path).bind (·.consts.find? name) =
      ((p.package? path).bind (·.consts.find? name)).map g := by
  rw [package?_relabel]
  cases p.package? path with
  | none => rfl
  | some q => exact Table.find?_map _ _ _

theorem hasBody_relabel (fn : Function) : (fn.relabel g).hasBody = fn.hasBody := by
  simp [Function.hasBody, Function.relabel]

theorem functions_relabel : (p.relabel g).functions = p.functions.map (Function.relabel g) := by
  have hAll (q : Package) :
      (q.relabel g).allFunctions = q.allFunctions.map (Function.relabel g) := by
    simp only [Package.allFunctions, Package.relabel, Table.values_map, List.map_append,
      List.flatMap_map, List.map_flatMap]
  simp only [functions, relabel, Table.values_map, List.flatMap_map, hAll, ← List.map_flatMap,
    List.filter_map, Function.comp_def, hasBody_relabel]

/-- Targets name the same functions and methods. -/
theorem resolve_relabel (t : Target) : t.resolve (p.relabel g) = t.resolve p := by
  have hMember : ((p.relabel g).package? t.package).bind (·.member? t.function) =
      ((p.package? t.package).bind (·.member? t.function)).map (Member.relabel g) := by
    rw [package?_relabel]
    cases p.package? t.package with
    | none => rfl
    | some q => exact q.member?_relabel g t.function
  have hType (type : String) : ((p.relabel g).package? t.package).bind (·.types.find? type) =
      ((p.package? t.package).bind (·.types.find? type)).map (Table.map (Function.relabel g)) := by
    rw [package?_relabel]
    cases p.package? t.package with
    | none => rfl
    | some q => exact Table.find?_map _ _ _
  unfold Target.resolve
  split
  case isTrue => rfl
  case isFalse =>
    rcases t.parts with _ | ⟨type, _ | ⟨method, _ | ⟨_, _⟩⟩⟩
    case nil => rfl
    case cons.nil =>
      simp only [hMember]
      cases (p.package? t.package).bind (·.member? t.function) with
      | none => rfl
      | some m => cases m <;> rfl
    case cons.cons.nil =>
      simp only [hType]
      cases (p.package? t.package).bind (·.types.find? type) with
      | none => rfl
      | some methods =>
          simp only [Option.map_some, Table.find?_map]
          cases methods.find? method <;> rfl
    case cons.cons.cons => rfl

end Program

/-! ### Linking -/

namespace Function

section Link

variable (g : Value → Value) (fn : Function)

theorem size_relabel : (fn.relabel g).blocks.size = fn.blocks.size := Array.size_map

theorem block?_relabel (b : Nat) :
    (fn.relabel g).block? b = (fn.block? b).map (Block.relabel g) := by
  unfold block?
  rw [size_relabel]
  split
  case isTrue => exact Array.getElem?_map
  case isFalse => exact List.getElem?_map

theorem succs_relabel : (fn.relabel g).succs = fn.succs := by
  funext b
  rw [succs, succs, block?_relabel, Option.map_map]
  rfl

theorem preds_relabel : (fn.relabel g).preds = fn.preds := by
  funext b
  rw [preds, preds, block?_relabel, Option.map_map]
  rfl

theorem hasOneEdge_relabel : (fn.relabel g).hasOneEdge = fn.hasOneEdge := by
  funext b
  rw [hasOneEdge, hasOneEdge, preds_relabel]

theorem dominees_relabel : (fn.relabel g).dominees = fn.dominees := by
  funext b
  rw [dominees, dominees, block?_relabel, Option.map_map]
  rfl

theorem indexAt_relabel : (fn.relabel g).indexAt = fn.indexAt := by
  funext b
  rw [indexAt, indexAt, block?_relabel, Option.map_map]
  rfl

theorem instrs_relabel (b : Nat) :
    (fn.relabel g).instrs b = (fn.instrs b).map (Instr.relabel g) := by
  rw [instrs, instrs, block?_relabel]
  cases fn.block? b <;> rfl

theorem markOf_relabel : (fn.relabel g).markOf = fn.markOf := by
  funext b
  rw [markOf, markOf, size_relabel, indexAt_relabel]

theorem slot_relabel : (fn.relabel g).slot = fn.slot := by
  funext b
  rw [slot, slot, size_relabel, indexAt_relabel]

theorem enteredFrom_relabel (ahead : List Nat) (m : Marks) :
    (fn.relabel g).enteredFrom ahead m = fn.enteredFrom ahead m := by
  have hTwins : (fn.relabel g).twins = fn.twins := by
    funext b
    rw [twins, twins, size_relabel, indexAt_relabel]
  induction ahead, m using enteredFrom.induct fn with
  | case1 m => rw [enteredFrom, enteredFrom]
  | case2 b ahead m hFree ih =>
      rw [enteredFrom, enteredFrom, dif_pos hFree, slot_relabel, dif_pos hFree, succs_relabel,
        hTwins, ih]
  | case3 b ahead m hFree ih =>
      rw [enteredFrom, enteredFrom, dif_neg hFree, slot_relabel, dif_neg hFree, ih]

theorem domTree_relabel : (fn.relabel g).domTree = fn.domTree := by
  have hEntered : (fn.relabel g).entered = fn.entered := by
    rw [entered, entered, enteredFrom_relabel, size_relabel]
  have hGraph : (fn.relabel g).graph = fn.graph := by
    simp only [graph, hEntered, size_relabel, slot_relabel, succs_relabel, preds_relabel]
  have hIndex : (fn.relabel g).hasIndex = fn.hasIndex := by
    funext index
    rw [hasIndex, hasIndex, size_relabel]
  have hMissing : (fn.relabel g).missingIndex? = fn.missingIndex? := by
    simp only [missingIndex?, hEntered, succs_relabel, indexAt_relabel, hIndex]
  rw [domTree, domTree, hMissing, hGraph]

theorem mapIdx_relabel {f : Nat → Block → Block}
    (hCommute : ∀ i b, f i (b.relabel g) = (f i b).relabel g) (blocks : Array Block) :
    (blocks.map (Block.relabel g)).mapIdx f = (blocks.mapIdx f).map (Block.relabel g) := by
  apply Array.ext
  · simp
  · intro i hLeft hRight
    simp [hCommute]

theorem withPreds_relabel : (fn.relabel g).withPreds = fn.withPreds.relabel g := by
  have hEdges : (fn.relabel g).edgesInto = fn.edgesInto := by
    funext b
    rw [edgesInto, edgesInto, size_relabel, succs_relabel]
  have hRemoved (f : Nat → Block → Block)
      (hCommute : ∀ i b, f i (b.relabel g) = (f i b).relabel g) :
      (fn.removed.map (Block.relabel g)).mapIdx f =
        (fn.removed.mapIdx f).map (Block.relabel g) := by
    apply List.ext_getElem
    · simp
    · intro i hLeft hRight
      simp [hCommute]
  unfold withPreds
  simp only [hEdges, size_relabel]
  simp only [relabel]
  rw [mapIdx_relabel, hRemoved]
  all_goals exact fun _ _ => rfl

theorem withTree_relabel (t : DomTree) : (fn.relabel g).withTree t = (fn.withTree t).relabel g := by
  simp only [withTree, relabel]
  rw [mapIdx_relabel]
  exact fun _ _ => rfl

theorem clearBefore_relabel (place : Nat) :
    (fn.relabel g).clearBefore place = (fn.clearBefore place).relabel g := by
  simp only [clearBefore, relabel]
  rw [mapIdx_relabel]
  intro i b
  split <;> rfl

theorem link_relabel : (fn.relabel g).link.1 = fn.link.1.relabel g := by
  have hMisplaced : (fn.relabel g).misplaced? = fn.misplaced? := by
    rw [misplaced?, misplaced?, size_relabel, indexAt_relabel]
  unfold link
  rw [hMisplaced]
  cases fn.misplaced? with
  | some i => exact fn.clearBefore_relabel g i
  | none =>
      simp only [withPreds_relabel, domTree_relabel]
      cases fn.withPreds.domTree with
      | error e => rfl
      | ok t => exact fn.withPreds.withTree_relabel g t

end Link

end Function

/-! ### Facts and walks -/

section Facts

variable (g : Value → Value)

def Fact.relabel (f : Fact) : Fact := { f with value := g f.value }

def Facts.relabel (facts : Facts) : Facts := facts.map (Fact.relabel g)

def Binary.relabel (b : Binary) : Binary :=
  { b with result := g b.result, left := b.left.map g, right := b.right.map g }

def Comparison.relabel (c : Comparison) : Comparison :=
  { c with result := g c.result, left := g c.left, right := g c.right }

def Lesson.relabel : Lesson → Lesson
  | .nothing => .nothing
  | .fixed c x y => .fixed (c.relabel g) x y
  | .learned c other => .learned (c.relabel g) (g other)

def Visit.relabel (v : Visit) : Visit := { v with facts := v.facts.relabel g }

def Trail.relabel (t : Trail) : Trail := { t with visits := t.visits.map (Visit.relabel g) }

def Event.relabel : Event → Event
  | .learned block facts => .learned block (facts.map (Fact.relabel g))
  | e => e

def Events.relabel (e : Events) : Events := { e with events := e.events.map (Event.relabel g) }

theorem Facts.push_relabel (facts : Facts) (new : List Fact) :
    (facts.relabel g).push (new.map (Fact.relabel g)) = (facts.push new).relabel g := by
  simp [push, relabel]

theorem Event.diagnostic?_relabel (e : Event) : (e.relabel g).diagnostic? = e.diagnostic? := by
  cases e <;> rfl

theorem Events.relabel_append (a b : Events) :
    (a.append b).relabel g = (a.relabel g).append (b.relabel g) := by
  unfold append
  cases hCrash : a.crash with
  | some k => simp [relabel, hCrash]
  | none => simp [relabel, hCrash]

theorem Events.relabel_concat (es : List Events) :
    (concat es).relabel g = concat (es.map (relabel g)) := by
  induction es with
  | nil => rfl
  | cons e es ih => rw [concat, relabel_append, ih, List.map_cons, concat]

theorem Events.diagnostics_relabel (e : Events) : (e.relabel g).diagnostics = e.diagnostics := by
  rw [diagnostics, diagnostics, relabel, List.filterMap_map]
  exact List.filterMap_congr fun event _ => event.diagnostic?_relabel g

end Facts

namespace IsRelabelling

variable {g : Value → Value} (hg : IsRelabelling g)
include hg

theorem lookup (facts : Facts) (v : Value) : (facts.relabel g).lookup (g v) = facts.lookup v := by
  have hSame : (fun f : Fact => decide ((f.relabel g).value = g v)) =
      fun f => decide (f.value = v) := by
    funext f
    exact decide_eq_decide.mpr hg.injective.eq_iff
  rw [Facts.lookup, Facts.lookup, Facts.relabel, List.find?_map, Function.comp_def, hSame]
  cases facts.find? fun f => decide (f.value = v) <;> rfl

/-- What is known about a value is known about the one in its place. -/
theorem classify (facts : Facts) (v : Value) :
    (facts.relabel g).classify (g v) = facts.classify v := by
  induction v with
  | leaf t o =>
      obtain ⟨u, hLeaf⟩ := hg.leaf t o
      have hLookup := hg.lookup facts (.leaf t o)
      rw [hLeaf] at hLookup
      rw [hLeaf]
      cases o <;> simp only [Facts.classify, hLookup]
  | converted t c v ih =>
      obtain ⟨u, hLength, hConverted⟩ := hg.converted t c v
      have hLookup := hg.lookup facts (.converted t c v)
      rw [hConverted] at hLookup
      rw [hConverted]
      cases c <;> simp only [Facts.classify, hLookup, hLength, ih]

theorem chain (n : Nilness) (v : Value) :
    Fact.chain n (g v) = (Fact.chain n v).map (Fact.relabel g) := by
  induction v with
  | leaf t o =>
      obtain ⟨u, hLeaf⟩ := hg.leaf t o
      simp [Fact.chain, Fact.relabel, hLeaf]
  | converted t c v ih =>
      obtain ⟨u, -, hConverted⟩ := hg.converted t c v
      cases c <;> simp [Fact.chain, Fact.relabel, hConverted, ih]

theorem lesson (c : Comparison) (facts : Facts) :
    (c.relabel g).lesson (facts.relabel g) = (c.lesson facts).relabel g := by
  unfold Comparison.lesson
  simp only [Comparison.relabel, hg.classify]
  cases facts.classify c.left <;> cases facts.classify c.right <;> rfl

theorem judge (facts : Facts) (args : List (Option Value)) (ts : List ResolvedTarget) :
    Validator.judge (facts.relabel g) (args.map (Option.map g)) ts =
      Validator.judge facts args ts := by
  have hArgument (index : Int) : Validator.argument? (args.map (Option.map g)) index =
      (Validator.argument? args index).map (Option.map g) := by
    simp only [Validator.argument?, List.length_map, List.getElem?_map]
    split
    · rfl
    · split <;> rfl
  induction ts with
  | nil => rfl
  | cons t ts ih =>
      simp only [Validator.judge, List.length_map, ih, hArgument]
      split
      case isTrue => rfl
      case isFalse =>
        cases Validator.argument? args t.argIndex with
        | none => rfl
        | some argument =>
            cases argument with
            | none => rfl
            | some v => simp only [Option.map_some, hg.classify]

section Functions

variable (fn : Function) (settings : Settings)

theorem callEvents (facts : Facts) (i : Instr) :
    (fn.relabel g).callEvents settings (facts.relabel g) (i.relabel g) =
      (fn.callEvents settings facts i).relabel g := by
  obtain ⟨location, op⟩ := i
  cases op with
  | call result callee args =>
      cases callee with
      | none => rfl
      | some c =>
          simp only [Function.callEvents, Instr.relabel, Op.relabel, Validator.validate, hg.judge,
            List.length_map]
          cases (Validator.judge facts args (settings.validator.group c)).found with
          | error crash => simp [Events.relabel, Event.relabel]
          | ok position? =>
              cases position? with
              | none => simp [Events.relabel, Event.relabel]
              | some position =>
                  simp [Events.relabel, Event.relabel, Function.name, Function.relabel]
  | _ => rfl

theorem binaryOf? (v : Value) :
    (fn.relabel g).binaryOf? (g v) = (fn.binaryOf? v).map (Binary.relabel g) := by
  have hBinary (i : Instr) : (i.relabel g).binary? = i.binary?.map (Binary.relabel g) := by
    obtain ⟨location, op⟩ := i
    cases op <;> rfl
  have hBinaries : (fn.relabel g).binaries = fn.binaries.map (Binary.relabel g) := by
    simp only [Function.binaries, Function.relabel, Array.toList_map, List.flatMap_map,
      List.map_flatMap, Block.relabel, List.filterMap_map, List.map_filterMap]
    refine List.flatMap_congr fun b _ => List.filterMap_congr fun i _ => hBinary i
  have hSame : (fun b : Binary => decide ((b.relabel g).result = g v)) =
      fun b => decide (b.result = v) := by
    funext b
    exact decide_eq_decide.mpr hg.injective.eq_iff
  rw [Function.binaryOf?, Function.binaryOf?, hBinaries, List.filter_map, Function.comp_def, hSame,
    List.getLast?_map]

theorem comparison? (b : Nat) :
    (fn.relabel g).comparison? b = (fn.comparison? b).map (Comparison.relabel g) := by
  have hCondition : (fn.relabel g).branchCondition? b = (fn.branchCondition? b).map g := by
    rw [Function.branchCondition?, Function.branchCondition?, Function.instrs_relabel,
      List.getLast?_map]
    cases (fn.instrs b).getLast? with
    | none => rfl
    | some i =>
        obtain ⟨location, op⟩ := i
        cases op <;> rfl
  unfold Function.comparison?
  rw [hCondition, Function.succs_relabel]
  cases fn.branchCondition? b with
  | none => rfl
  | some v =>
      simp only [Option.map_some, Option.bind_eq_bind, Option.bind_some, hg.binaryOf?]
      match fn.succs b with
      | [] => rfl
      | [_] => rfl
      | _ :: _ :: _ :: _ => rfl
      | [onTrue, onFalse] =>
          cases fn.binaryOf? v with
          | none => rfl
          | some d =>
              obtain ⟨location, result, operator, left, right⟩ := d
              cases left with
              | none => rfl
              | some l =>
                  cases right with
                  | none => rfl
                  | some r =>
                      simp only [Option.map_some, Binary.relabel, Option.bind_some]
                      split
                      · rfl
                      · split <;> rfl

theorem lessonOf (v : Visit) : (fn.relabel g).lesson (v.relabel g) = (fn.lesson v).relabel g := by
  rw [Function.lesson, Function.lesson, Visit.relabel, hg.comparison?]
  cases fn.comparison? v.block with
  | none => rfl
  | some c => exact hg.lesson c v.facts

theorem factsBelow (facts : Facts) (c : Comparison) (other : Value) (d : Nat) :
    (fn.relabel g).factsBelow (facts.relabel g) (c.relabel g) (g other) d =
      (fn.factsBelow facts c other d).relabel g := by
  have hNegate (fs : List Fact) : (fs.map (Fact.relabel g)).map Fact.negate =
      (fs.map Fact.negate).map (Fact.relabel g) := by
    rw [List.map_map, List.map_map]
    rfl
  simp only [Function.factsBelow, Function.hasOneEdge_relabel, Comparison.relabel, Fact.expand,
    hg.chain, hNegate, Facts.push_relabel]
  cases fn.hasOneEdge d with
  | false => rfl
  | true =>
      rw [if_pos rfl, if_pos rfl]
      split
      · rfl
      · split <;> rfl

theorem below (v : Visit) :
    (fn.relabel g).below (v.relabel g) = (fn.below v).map (Visit.relabel g) := by
  rw [Function.below, Function.below, hg.lessonOf, Function.dominees_relabel]
  cases fn.lesson v with
  | nothing => simp [Lesson.relabel, Visit.relabel]
  | fixed c x y =>
      simp [Lesson.relabel, Visit.relabel, Comparison.deadEnd, Comparison.relabel,
        Function.hasOneEdge_relabel]
  | learned c other => simp [Lesson.relabel, Visit.relabel, hg.factsBelow]

theorem walkFrom (ahead : List Visit) (m : Marks) :
    (fn.relabel g).walkFrom (ahead.map (Visit.relabel g)) m =
      (fn.walkFrom ahead m).relabel g := by
  have hBlock (v : Visit) : (v.relabel g).block = v.block := rfl
  induction ahead, m using Function.walkFrom.induct fn with
  | case1 m => simp [Function.walkFrom, Trail.relabel]
  | case2 v ahead m hOut =>
      rw [Function.walkFrom, if_pos hOut, List.map_cons, Function.walkFrom,
        Function.size_relabel, Function.markOf_relabel, hBlock, if_pos hOut]
      rfl
  | case3 v ahead m hIn hFree ih =>
      rw [List.map_append, ← hg.below] at ih
      rw [Function.walkFrom, if_neg hIn, dif_pos hFree, List.map_cons, Function.walkFrom,
        Function.size_relabel, Function.markOf_relabel, hBlock, if_neg hIn, dif_pos hFree, ih]
      rfl
  | case4 v ahead m hIn hFree ih =>
      rw [Function.walkFrom, if_neg hIn, dif_neg hFree, List.map_cons, Function.walkFrom,
        Function.size_relabel, Function.markOf_relabel, hBlock, if_neg hIn, dif_neg hFree, ih]

theorem walk : (fn.relabel g).walk = fn.walk.relabel g := by
  rw [Function.walk, Function.walk, Program.hasBody_relabel, Function.size_relabel]
  split
  case isTrue => exact hg.walkFrom fn [⟨0, []⟩] (Marks.clear fn.blocks.size)
  case isFalse => rfl

theorem visitEvents (v : Visit) : (fn.relabel g).visitEvents settings (v.relabel g) =
    (fn.visitEvents settings v).relabel g := by
  have hLesson : (fn.relabel g).lessonEvents settings (v.relabel g) =
      (fn.lessonEvents settings v).map (Event.relabel g) := by
    rw [Function.lessonEvents, Function.lessonEvents, hg.lessonOf]
    cases fn.lesson v with
    | nothing => rfl
    | fixed c x y =>
        simp only [Lesson.relabel, Comparison.relabel, Comparison.adjective]
        split <;> rfl
    | learned c other =>
        simp [Lesson.relabel, Event.relabel, Fact.expand, hg.chain, Visit.relabel]
  rw [Function.visitEvents, Function.visitEvents, Events.relabel_append, Events.relabel_concat,
    hLesson, Visit.relabel, Function.instrs_relabel, List.map_map, List.map_map]
  simp only [Function.comp_def, hg.callEvents]
  rfl

/-- Events are the same, apart from the values that they tell facts about. -/
theorem events : (fn.relabel g).events settings = (fn.events settings).relabel g := by
  rw [Function.events, Function.events, Events.relabel_append, Events.relabel_concat, hg.walk]
  simp only [Trail.relabel, List.map_map, Function.comp_def, hg.visitEvents]
  rfl

theorem reports : (fn.relabel g).reports settings = fn.reports settings := by
  rw [Function.reports, Function.reports, hg.events, Events.diagnostics_relabel]
  rfl

end Functions

/-- A check comes to the same whatever values stand in for those of a program. -/
theorem check (p : Program) (targets : List Target) (reportConditions : Bool) :
    (p.relabel g).check targets reportConditions = p.check targets reportConditions := by
  have hResolve : Target.resolve (p.relabel g) = Target.resolve p :=
    funext fun t => p.resolve_relabel g t
  have hCheck (settings : Settings) :
      NilGuard.check settings (p.relabel g).functions = NilGuard.check settings p.functions := by
    simp only [NilGuard.check, Program.functions_relabel, List.filter_map, Function.comp_def,
      Program.hasBody_relabel, List.flatMap_map, hg.reports, List.length_map]
  simp only [Program.check, Target.resolveAll, hResolve, hCheck]

end IsRelabelling

end NilGuard
