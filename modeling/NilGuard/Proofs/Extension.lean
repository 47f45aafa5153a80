import Mathlib
import NilGuard.Proofs.Declaration
/-! Loading only adds to a program: what is there stays where it is and what it is, whether the
load succeeds or breaks off. -/
namespace NilGuard

namespace Package

/-- One package has all that the other has: its functions, types, methods and variables stand
first, in the same order under the same names, and are the same. -/
structure Extends (p q : Package) : Prop where
  path : q.path = p.path
  functions : p.functions.Extends Eq q.functions
  types : p.types.Extends (Table.Extends Eq) q.types
  globals : p.globals.Extends Eq q.globals

variable {p q : Package} {c : Callee} {fn : Function} {name : String}

theorem Extends.refl (p : Package) : p.Extends p :=
  ⟨rfl, .refl (fun _ => rfl) _, .refl (Table.Extends.refl fun _ => rfl) _, .refl (fun _ => rfl) _⟩

theorem Extends.function? (h : p.Extends q) (hFind : p.function? c = some fn) :
    q.function? c = some fn := by
  unfold Package.function? at hFind ⊢
  cases hReceiver : c.receiver with
  | none =>
      rw [hReceiver] at hFind
      obtain ⟨_, hSame, rfl⟩ := h.functions.find? hFind
      exact hSame
  | some r =>
      rw [hReceiver] at hFind
      obtain ⟨ms, hType, hMethod⟩ := Option.bind_eq_some_iff.mp hFind
      obtain ⟨ns, hSame, hMethods⟩ := h.types.find? hType
      obtain ⟨_, hFound, rfl⟩ := hMethods.find? hMethod
      exact Option.bind_eq_some_iff.mpr ⟨ns, hSame, hFound⟩

theorem find?_method_eq_none {r : String} {ms : Table Function} (hKeys : p.types.keys.Nodup)
    (hReceiver : c.receiver = some r) (hNew : p.function? c = none)
    (hMem : (r, ms) ∈ p.types.entries) : ms.find? c.name = none := by
  rw [Package.function?, hReceiver] at hNew
  simpa [Table.find?_of_mem_entries hKeys hMem] using hNew

theorem Extends.addFunction (h : p.Extends q) (hKeys : p.types.keys.Nodup)
    (hNew : p.function? fn.callee = none) : p.Extends (q.addFunction fn) := by
  unfold Package.addFunction
  split
  case h_1 hReceiver =>
    have hName : p.functions.find? fn.callee.name = none := by
      rwa [Package.function?, hReceiver] at hNew
    exact { h with functions := h.functions.insert hName }
  case h_2 r hReceiver =>
    refine { h with types := h.types.insertIfNew.modify fun ms ns hms _ hSame => ?_ }
    exact hSame.insert (find?_method_eq_none hKeys hReceiver hNew hms)

theorem Extends.modifyFunction (h : p.Extends q) (hKeys : p.types.keys.Nodup)
    (hNew : p.function? c = none) (f : Function → Function) : p.Extends (q.modifyFunction c f) := by
  unfold Package.modifyFunction
  split
  case h_1 hReceiver =>
    have hName : p.functions.find? c.name = none := by
      rwa [Package.function?, hReceiver] at hNew
    exact { h with functions := h.functions.modify_of_find?_eq_none hName }
  case h_2 r hReceiver =>
    refine { h with types := h.types.modify fun ms ns hms _ hSame => ?_ }
    exact hSame.modify_of_find?_eq_none (find?_method_eq_none hKeys hReceiver hNew hms)

theorem nodup_types_addFunction (hKeys : p.types.keys.Nodup) :
    (p.addFunction fn).types.keys.Nodup := by
  unfold addFunction
  split
  case h_1 => exact hKeys
  case h_2 =>
    rw [Table.keys_modify]
    exact Table.nodup_keys_insertIfNew hKeys

theorem nodup_types_modifyFunction (hKeys : p.types.keys.Nodup) (f : Function → Function) :
    (p.modifyFunction c f).types.keys.Nodup := by
  unfold modifyFunction
  split
  case h_1 => exact hKeys
  case h_2 => rwa [Table.keys_modify]

end Package

namespace Program

/-- One program has all that the other has. -/
def Extends (p q : Program) : Prop := p.packages.Extends Package.Extends q.packages

/-- Every package is there once, and so is every type of a package. -/
structure IsKeyed (p : Program) : Prop where
  packages : p.packages.keys.Nodup
  types : ∀ q ∈ p.packages.values, q.types.keys.Nodup

/-- What a program may become by a load. -/
structure Grows (p q : Program) : Prop where
  kept : p.Extends q
  keyed : q.IsKeyed

variable {p q r : Program} {path name : String} {c : Callee} {fn : Function} {v : Value}

theorem Extends.refl (p : Program) : p.Extends p := Table.Extends.refl Package.Extends.refl _

theorem Extends.function? (h : p.Extends q) (hFind : p.function? c = some fn) :
    q.function? c = some fn := by
  obtain ⟨a, ha, hFn⟩ := Option.bind_eq_some_iff.mp hFind
  obtain ⟨b, hb, hSame⟩ := Table.Extends.find? h ha
  exact Option.bind_eq_some_iff.mpr ⟨b, hb, hSame.function? hFn⟩

theorem Extends.global? (h : p.Extends q)
    (hFind : (p.package? path).bind (·.globals.find? name) = some v) :
    (q.package? path).bind (·.globals.find? name) = some v := by
  obtain ⟨a, ha, hv⟩ := Option.bind_eq_some_iff.mp hFind
  obtain ⟨b, hb, hSame⟩ := Table.Extends.find? h ha
  obtain ⟨_, hFound, rfl⟩ := hSame.globals.find? hv
  exact Option.bind_eq_some_iff.mpr ⟨b, hb, hFound⟩

theorem IsKeyed.modifyPackage (h : p.IsKeyed) {f : Package → Package}
    (hf : ∀ q, q.types.keys.Nodup → (f q).types.keys.Nodup) :
    (p.modifyPackage path f).IsKeyed := by
  refine ⟨?_, fun q hq => ?_⟩
  · rw [Program.modifyPackage, Table.keys_modify]
    exact h.packages
  · rcases Table.mem_values_modify hq with hq | ⟨q', hq', rfl⟩
    · exact h.types q hq
    · exact hf q' (h.types q' hq')

theorem IsKeyed.addPackage (h : p.IsKeyed) : (p.addPackage path).IsKeyed := by
  refine ⟨Table.nodup_keys_insertIfNew h.packages, fun q hq => ?_⟩
  rcases Table.mem_values_insertIfNew hq with hq | rfl
  · exact h.types q hq
  · exact List.nodup_nil

namespace Grows

theorem congr (h : p.Grows q) (hSame : r.packages = q.packages) : p.Grows r := by
  obtain ⟨kept, packages, types⟩ := h
  rw [Extends, ← hSame] at kept
  rw [← hSame] at packages types
  exact ⟨kept, packages, types⟩

theorem addPackage (h : p.Grows q) : p.Grows (q.addPackage path) :=
  ⟨Table.Extends.insertIfNew h.kept, h.keyed.addPackage⟩

/-- A package may be changed if it keeps what it had at first. -/
theorem modifyPackage (h : p.Grows q) {f : Package → Package}
    (hKept : ∀ a b, (path, a) ∈ p.packages.entries → a.Extends b → a.Extends (f b))
    (hKeys : ∀ b, b.types.keys.Nodup → (f b).types.keys.Nodup) :
    p.Grows (q.modifyPackage path f) :=
  ⟨Table.Extends.modify h.kept fun a b ha _ => hKept a b ha, h.keyed.modifyPackage hKeys⟩

theorem addType (h : p.Grows q) :
    p.Grows (q.modifyPackage path fun b => { b with types := b.types.insertIfNew name {} }) :=
  h.modifyPackage (fun _ _ _ hSame => { hSame with types := hSame.types.insertIfNew })
    fun _ => Table.nodup_keys_insertIfNew

theorem addConst (h : p.Grows q) :
    p.Grows (q.modifyPackage path fun b => { b with consts := b.consts.insert name v }) :=
  h.modifyPackage (fun _ _ _ hSame => { hSame with }) fun _ hKeys => hKeys

section Old

variable (hp : p.IsKeyed)
include hp

/-- A variable may be added that is not there. -/
theorem addGlobal (h : p.Grows q) (hNew : (q.package? path).bind (·.globals.find? name) = none) :
    p.Grows (q.modifyPackage path fun b => { b with globals := b.globals.insert name v }) := by
  refine h.modifyPackage (fun a b ha hSame => ?_) fun _ hKeys => hKeys
  obtain ⟨b', hb', hSame'⟩ := Table.Extends.find? h.kept (Table.find?_of_mem_entries hp.packages ha)
  have hName : b'.globals.find? name = none := by simpa [Program.package?, hb'] using hNew
  exact { hSame with globals := hSame.globals.insert (hSame'.globals.find?_eq_none hName) }

omit hp in
theorem function?_eq_none (h : p.Grows q) (hNew : q.function? c = none) : p.function? c = none := by
  cases hOld : p.function? c with
  | none => rfl
  | some fn =>
      rw [h.kept.function? hOld] at hNew
      cases hNew

theorem function?_eq_none_of_mem {a : Package} (hNew : p.function? c = none)
    (ha : (c.package, a) ∈ p.packages.entries) : a.function? c = none ∧ a.types.keys.Nodup := by
  refine ⟨?_, hp.types a (List.mem_map_of_mem ha)⟩
  simpa [Program.function?, Program.package?, Table.find?_of_mem_entries hp.packages ha] using hNew

/-- A function may be added that is not there. -/
theorem addFunction (h : p.Grows q) (hNew : p.function? fn.callee = none) :
    p.Grows (q.modifyPackage fn.callee.package (·.addFunction fn)) := by
  refine h.modifyPackage (fun a b ha hSame => ?_) fun _ => Package.nodup_types_addFunction
  obtain ⟨hAbsent, hKeys⟩ := function?_eq_none_of_mem hp hNew ha
  exact hSame.addFunction hKeys hAbsent

/-- A function may be changed that was not there at first. -/
theorem modifyFunction (h : p.Grows q) (hNew : p.function? c = none) (f : Function → Function) :
    p.Grows (q.modifyPackage c.package (·.modifyFunction c f)) := by
  refine h.modifyPackage (fun a b ha hSame => ?_) fun _ hKeys =>
    Package.nodup_types_modifyFunction hKeys f
  obtain ⟨hAbsent, hKeys⟩ := function?_eq_none_of_mem hp hNew ha
  exact hSame.modifyFunction hKeys hAbsent f

end Old

end Grows

end Program

namespace Dump

/-- A program that is being declared has grown, and the functions that wait for their bodies
were not there at first. -/
structure Declared.Grows (p : Program) (s : Declared) : Prop where
  program : p.Grows s.program
  pending : ∀ f ∈ s.pending, p.function? f.function.callee = none

/-- Declaring leaves a grown program behind even if it fails. -/
abbrev GrowsDeclared (p : Program) {α : Type} (x : DeclareM α) : Prop :=
  Meets (Declared.Grows p) (fun _ => Declared.Grows p) x

variable {p : Program}

section Declare

variable (hp : p.IsKeyed)
include hp

theorem growsDeclared_declareFunction (callee : Callee) (items : List Form) :
    GrowsDeclared p (declareFunction callee items) := by
  intro s hs
  rw [declareFunction, get_bind_apply]
  cases hFound : (s.program.package? callee.package).bind (·.function? callee) with
  | some fn => exact hs
  | none =>
      have hNew : p.function? callee = none := hs.program.function?_eq_none hFound
      have hItems := keeps_readItems_blocks s.program.packages s.pending
        { function := { callee }, blocks := [] } items
      -- reading the items changes no package, also where it breaks off
      have hRead : Meets (fun t => t.program.packages = s.program.packages ∧ t.pending = s.pending)
          (fun _ t => t.program.packages = s.program.packages ∧ t.pending = s.pending)
          (readItems { function := { callee }, blocks := [] } items) :=
        (isClosed_meets fun _ _ _ _ ht => ht).readItems (fun _ _ _ ht => ht) _ _
      refine (hRead s ⟨rfl, rfl⟩).bind ?_ ?_
      · rintro e t ⟨hPackages, hPending⟩
        exact ⟨hs.program.congr hPackages, hPending ▸ hs.pending⟩
      · rintro f t hRun ⟨hPackages, hPending⟩
        have hCallee : f.function.callee = callee := (hItems s f t ⟨rfl, rfl⟩ hRun).2.1
        have hAdded := (hs.program.congr hPackages).addFunction hp (hCallee.symm ▸ hNew)
        rw [hCallee] at hAdded
        have hOld : ∀ g ∈ t.pending, p.function? g.function.callee = none := hPending ▸ hs.pending
        cases hEmpty : f.blocks.isEmpty with
        | true => exact ⟨hAdded, hOld⟩
        | false =>
            refine ⟨hAdded, fun g hg => ?_⟩
            rcases List.mem_append.mp hg with hg | hg
            · exact hOld g hg
            · rw [List.mem_singleton.mp hg, hCallee]
              exact hNew

theorem isDeclarable_growsDeclared : IsDeclarable fun _ => GrowsDeclared p where
  toIsClosed := isClosed_meets fun _ _ _ _ hs => hs
  value _ _ _ hs := ⟨hs.program.congr rfl, hs.pending⟩
  package _ _ hs := ⟨hs.program.addPackage, hs.pending⟩
  type _ _ _ hs := ⟨hs.program.addType, hs.pending⟩
  const _ _ _ _ hs := ⟨hs.program.addConst, hs.pending⟩
  global path name := by
    intro s hs
    rw [declareGlobal, get_bind_apply]
    cases hNew : (s.program.package? path).bind (·.globals.find? name) with
    | some v => exact hs
    | none => exact ⟨(hs.program.addGlobal hp hNew).congr rfl, hs.pending⟩
  function := growsDeclared_declareFunction hp

end Declare

section Load

variable (hp : p.IsKeyed)
include hp

theorem isStable_grows : IsStable p.Grows where
  value _ hGrown := hGrown.congr rfl
  package _ _ hGrown := hGrown.addPackage
  global _ _ _ _ hNew hGrown := hGrown.addGlobal hp hNew

theorem grows_loadBody {program : Program} {fn : Function} (hGrown : p.Grows program)
    (hNew : p.function? fn.callee = none) (forms : List Form) :
    p.Grows (loadBody program fn forms).1 := by
  have hBody := preserves_loadBlocks (isStable_grows hp) fn forms { program } hGrown
  unfold loadBody
  cases hRun : loadBlocks fn forms { program } with
  | ok _ body =>
      rw [hRun] at hBody
      exact Program.Grows.modifyFunction hp hBody hNew _
  | error e body =>
      rw [hRun] at hBody
      exact Program.Grows.modifyFunction hp hBody hNew _

theorem grows_loadBodies {program : Program} {pending : List Pending} (hGrown : p.Grows program)
    (hNew : ∀ f ∈ pending, p.function? f.function.callee = none) :
    p.Grows (loadBodies program pending).program := by
  induction pending generalizing program with
  | nil => exact hGrown
  | cons f rest ih =>
      have hBody := grows_loadBody hp hGrown (hNew f List.mem_cons_self) f.blocks
      rw [loadBodies]
      cases hRun : loadBody program f.function f.blocks with
      | mk program' result =>
          rw [hRun] at hBody
          cases result with
          | error e => exact hBody
          | ok fn => exact ih hBody fun g hg => hNew g (List.mem_cons_of_mem f hg)

theorem grows_loadForm (form : Form) : p.Grows (loadForm p form).program := by
  have hStart : Declared.Grows p { program := p } := ⟨⟨.refl p, hp⟩, by simp⟩
  have hDeclared := (isDeclarable_growsDeclared hp).declareProgram form _ hStart
  unfold loadForm
  cases hRun : declareProgram form { program := p } with
  | ok _ s =>
      rw [hRun] at hDeclared
      exact grows_loadBodies hp hDeclared.program hDeclared.pending
  | error e s =>
      rw [hRun] at hDeclared
      exact hDeclared.program

end Load

end Dump

namespace Program

theorem Grows.load {p : Program} (hp : p.IsKeyed) (text : String) :
    p.Grows (p.load text).program := by
  unfold Program.load
  cases Datum.read text with
  | error e => exact ⟨.refl p, hp⟩
  | ok datum =>
      simp only
      cases datum.form? with
      | none => exact ⟨.refl p, hp⟩
      | some form => exact Dump.grows_loadForm hp form

/-- Adds dumps one after the other, also after one that does not load. -/
def loadEach (p : Program) (texts : List String) : Program :=
  texts.foldl (fun p text => (p.load text).program) p

theorem IsKeyed.loadEach {p : Program} (hp : p.IsKeyed) (texts : List String) :
    (p.loadEach texts).IsKeyed := by
  induction texts generalizing p with
  | nil => exact hp
  | cons text texts ih => exact ih (Grows.load hp text).keyed

/-- A load only adds to a program that dumps were loaded into. A dump that declares a function
which is there fails, and the function stays. -/
theorem load_only_extends {texts : List String} {p : Program}
    (hReached : p = ({} : Program).loadEach texts) (text : String) :
    p.Extends (p.load text).program ∧
    (∀ path name v, (p.package? path).bind (·.globals.find? name) = some v →
      ((p.load text).program.package? path).bind (·.globals.find? name) = some v) ∧
    ∀ c fn, p.function? c = some fn →
      (p.load text).program.function? c = some fn ∧
      ∀ form, Dump.formOf? text = some form → c ∈ (Dump.declarations form).map (·.callee) →
        (p.load text).error.isSome := by
  have hEmpty : IsKeyed {} := ⟨List.nodup_nil, by simp [Table.values]⟩
  have hKeyed : p.IsKeyed := hReached ▸ hEmpty.loadEach texts
  have hKept : p.Extends (p.load text).program := (Grows.load hKeyed text).kept
  refine ⟨hKept, fun _ _ _ => hKept.global?, fun c fn hFound => ⟨hKept.function? hFound, ?_⟩⟩
  intro form hForm hMem
  obtain ⟨d, hd, rfl⟩ := List.mem_map.mp hMem
  rw [Dump.load_of_formOf? hForm, Dump.loadForm]
  cases hRun : Dump.declareProgram form { program := p } with
  | error e s => rfl
  | ok _ s =>
      have hFresh := (Dump.declaring_declareProgram form _ _ _ (by simp) hRun).fresh d hd
      rw [hFound] at hFresh
      cases hFresh

/-- A type with a method that has a body. -/
def boxText : String :=
  "(program (package app (type Box (method open (params b) (block 0 (return b))))))"

/-- Declares a variable and then the method again. -/
def boxAgainText : String :=
  "(program (package app (global lid) (method Box open (block 0 (panic nil)))))"

/-- The method is there, so it is not declared again and stays as it was. -/
theorem load_only_extends_boxAgainText :
    ∃ fn : Function,
      (({} : Program).loadEach [boxText]).function? ⟨"app", "open", some "Box"⟩ = some fn ∧
      fn.blocks.size = 1 ∧
      ((({} : Program).loadEach [boxText]).load boxAgainText).program.function?
        ⟨"app", "open", some "Box"⟩ = some fn ∧
      ((({} : Program).loadEach [boxText]).load boxAgainText).error.isSome := by
  have hForm : Dump.formOf? boxAgainText = some (.list [.sym "program",
      .list [.sym "package", .sym "app", .list [.sym "global", .sym "lid"],
        .list [.sym "method", .sym "Box", .sym "open",
          .list [.sym "block", .int 0, .list [.sym "panic", .sym "nil"]]]]]) := by cbv
  have hSize : ((({} : Program).loadEach [boxText]).function? ⟨"app", "open", some "Box"⟩).map
      (·.blocks.size) = some 1 := by cbv
  obtain ⟨fn, hFound, hBlocks⟩ := Option.map_eq_some_iff.mp hSize
  obtain ⟨hKept, hFails⟩ := (load_only_extends rfl boxAgainText).2.2 _ fn hFound
  exact ⟨fn, hFound, hBlocks, hKept, hFails _ hForm (by decide)⟩

end Program

end NilGuard
