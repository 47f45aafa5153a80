import NilGuard.Dump.Load
import NilGuard.Proofs.Header
/-! The functions that a dump declares, read off its text, and what declaring makes of them:
each is new, and those with blocks wait for their bodies. -/
namespace NilGuard

/-- The function or method of a program. -/
def Program.function? (p : Program) (c : Callee) : Option Function :=
  (p.package? c.package).bind (·.function? c)

namespace Dump

/-- A function or method of a dump with its items. -/
structure Declaration where
  callee : Callee
  items : List Form

/-- The block forms of a declaration. -/
def Declaration.blocks (d : Declaration) : List Form :=
  d.items.filter fun item => item.head? = some "block"

def methodDeclarations (path type : String) (m : Form) : List Declaration :=
  match m.head?, m.items with
  | some "method", _ :: name :: items =>
    [⟨{ package := path, name := name.text, receiver := some type }, items⟩]
  | _, _ => []

def memberDeclarations (path : String) (member : Form) : List Declaration :=
  match member.head?, member.items with
  | some "type", _ :: name :: methods => methods.flatMap (methodDeclarations path name.text)
  | some "func", _ :: name :: items => [⟨{ package := path, name := name.text }, items⟩]
  | some "method", _ :: type :: name :: items =>
    [⟨{ package := path, name := name.text, receiver := some type.text }, items⟩]
  | _, _ => []

def packageDeclarations (form : Form) : List Declaration :=
  match form.head?, form.items with
  | some "package", _ :: path :: members => members.flatMap (memberDeclarations path.text)
  | _, _ => []

/-- The functions and methods that a dump declares, in the order of the text. -/
def declarations (form : Form) : List Declaration := (form.items.drop 1).flatMap packageDeclarations

end Dump

namespace Package

/-- A function that is put in is found under its name, and all others as before. -/
theorem function?_addFunction (p : Package) (fn : Function) (c : Callee) :
    (p.addFunction fn).function? c =
      if c.receiver = fn.callee.receiver ∧ c.name = fn.callee.name then some fn
      else p.function? c := by
  unfold addFunction
  cases hReceiver : fn.callee.receiver with
  | none =>
      cases hOther : c.receiver with
      | none => simp [function?, hOther, Table.find?_insert]
      | some r => simp [function?, hOther]
  | some r =>
      cases hOther : c.receiver with
      | none => simp [function?, hOther]
      | some q =>
          by_cases hSame : q = r
          · subst hSame
            cases hType : p.types.find? q with
            | none =>
                simp [function?, hOther, Table.find?_modify, Table.find?_insertIfNew, hType,
                  Table.find?_insert]
                rfl
            | some ms =>
                simp [function?, hOther, Table.find?_modify, Table.find?_insertIfNew, hType,
                  Table.find?_insert]
          · simp [function?, hOther, Table.find?_modify, Table.find?_insertIfNew, hSame]

theorem function?_insertType (p : Package) (name : String) (c : Callee) :
    { p with types := p.types.insertIfNew name {} }.function? c = p.function? c := by
  cases hReceiver : c.receiver with
  | none => simp [function?, hReceiver]
  | some r =>
      by_cases hName : r = name
      · subst hName
        cases hType : p.types.find? r with
        | none =>
            simp [function?, hReceiver, Table.find?_insertIfNew, hType]
            rfl
        | some ms => simp [function?, hReceiver, Table.find?_insertIfNew, hType]
      · simp [function?, hReceiver, Table.find?_insertIfNew, hName]

end Package

namespace Program

theorem isSome_package?_modifyPackage {p : Program} {path other : String} {f : Package → Package}
    (h : (p.package? other).isSome) : ((p.modifyPackage path f).package? other).isSome := by
  rw [package?, modifyPackage, Table.find?_modify]
  split
  case isTrue => rwa [Option.isSome_map]
  case isFalse => exact h

theorem isSome_package?_addPackage {p : Program} {path other : String}
    (h : (p.package? other).isSome) : ((p.addPackage path).package? other).isSome := by
  rw [package?, addPackage, Table.find?_insertIfNew]
  split
  case isTrue => rfl
  case isFalse => exact h

theorem function?_congr {p q : Program} (h : p.packages = q.packages) (c : Callee) :
    p.function? c = q.function? c := by
  rw [function?, function?, package?, package?, h]

theorem function?_modifyPackage (p : Program) (path : String) (f : Package → Package) (c : Callee) :
    (p.modifyPackage path f).function? c =
      if c.package = path then (p.package? path).bind fun q => (f q).function? c
      else p.function? c := by
  rw [function?, package?, modifyPackage, Table.find?_modify]
  split
  case isTrue hPath => rw [hPath, Option.bind_map, package?]; rfl
  case isFalse => rfl

theorem function?_modifyPackage_eq {p : Program} {path : String} {f : Package → Package}
    (hf : ∀ q c, (f q).function? c = q.function? c) (c : Callee) :
    (p.modifyPackage path f).function? c = p.function? c := by
  rw [function?_modifyPackage]
  split
  case isTrue hPath =>
    rw [function?, hPath]
    exact congrArg _ (funext fun q => hf q c)
  case isFalse => rfl

theorem function?_addPackage (p : Program) (path : String) (c : Callee) :
    (p.addPackage path).function? c = p.function? c := by
  rw [function?, package?, addPackage, Table.find?_insertIfNew]
  split
  case isTrue hPath =>
    rw [function?, package?, hPath]
    cases p.packages.find? path with
    | none => cases hReceiver : c.receiver <;> simp [Package.function?, hReceiver, Table.find?]
    | some q => rfl
  case isFalse => rfl

end Program

namespace Dump

/-- What declaring functions does: they are new and different from each other, they are there
afterwards with all that was there before, and those with blocks wait for them. -/
structure Declares (s : Declared) (ds : List Declaration) (t : Declared) : Prop where
  fresh : ∀ d ∈ ds, s.program.function? d.callee = none
  nodup : (ds.map (·.callee)).Nodup
  there : ∀ d ∈ ds, (t.program.function? d.callee).isSome
  kept : ∀ c fn, s.program.function? c = some fn → t.program.function? c = some fn
  packages : ∀ path, (s.program.package? path).isSome → (t.program.package? path).isSome
  pending : ∃ new, t.pending = s.pending ++ new ∧
    List.Forall₂ (fun d f => f.function.callee = d.callee ∧ f.blocks = d.blocks)
      (ds.filter fun d => !d.blocks.isEmpty) new

theorem Declares.refl_of {s t : Declared}
    (hKept : ∀ c, t.program.function? c = s.program.function? c)
    (hPackages : ∀ path, (s.program.package? path).isSome → (t.program.package? path).isSome)
    (hPending : t.pending = s.pending) : Declares s [] t :=
  ⟨by simp, by simp, by simp, fun c fn h => hKept c ▸ h, hPackages, [], by simp [hPending], .nil⟩

/-- A function that waits for its body is one of those that were declared. -/
theorem Declares.exists_of_mem_pending {s t : Declared} {ds : List Declaration} {f : Pending}
    (h : Declares s ds t) (hStart : s.pending = []) (hf : f ∈ t.pending) :
    ∃ d ∈ ds, f.function.callee = d.callee ∧ f.blocks = d.blocks := by
  obtain ⟨new, hNew, hPending⟩ := h.pending
  rw [hNew, hStart, List.nil_append] at hf
  obtain ⟨i, hi, rfl⟩ := List.mem_iff_getElem.mp hf
  have hi' := hPending.length_eq ▸ hi
  exact ⟨_, (List.mem_filter.mp (List.getElem_mem hi')).1, hPending.get hi' hi⟩

theorem Declares.trans {s t u : Declared} {ds es : List Declaration} (h : Declares s ds t)
    (h' : Declares t es u) : Declares s (ds ++ es) u := by
  obtain ⟨new, hNew, hPending⟩ := h.pending
  obtain ⟨new', hNew', hPending'⟩ := h'.pending
  have hFresh : ∀ d ∈ es, s.program.function? d.callee = none := by
    intro d hd
    cases hFunction : s.program.function? d.callee with
    | none => rfl
    | some fn => exact absurd (h.kept _ fn hFunction) (by simp [h'.fresh d hd])
  have hThere : ∀ d ∈ ds, (u.program.function? d.callee).isSome := by
    intro d hd
    obtain ⟨fn, hFn⟩ := Option.isSome_iff_exists.mp (h.there d hd)
    rw [h'.kept _ fn hFn, Option.isSome_some]
  refine ⟨List.forall_mem_append.mpr ⟨h.fresh, hFresh⟩, ?_,
    List.forall_mem_append.mpr ⟨hThere, h'.there⟩, fun c fn hc => h'.kept c fn (h.kept c fn hc),
    fun path hPath => h'.packages path (h.packages path hPath), new ++ new', ?_, ?_⟩
  · rw [List.map_append]
    refine List.nodup_append.mpr ⟨h.nodup, h'.nodup, ?_⟩
    rintro c hc _ hc' rfl
    obtain ⟨d, hd, rfl⟩ := List.mem_map.mp hc
    obtain ⟨e, he, hEq⟩ := List.mem_map.mp hc'
    have hSome := h.there d hd
    rw [← hEq, h'.fresh e he] at hSome
    cases hSome
  · rw [hNew', hNew, List.append_assoc]
  · rw [List.filter_append]
    exact List.rel_append hPending hPending'

/-- A computation that succeeds declares the functions, if the packages are there. -/
def Declaring {α : Type} (paths : List String) (x : DeclareM α) (ds : List Declaration) : Prop :=
  ∀ s a t, (∀ path ∈ paths, (s.program.package? path).isSome) → x s = .ok a t → Declares s ds t

section Declaring

variable {paths : List String} {path : String} {ds es : List Declaration}

theorem Declaring.bind {α β : Type} {x : DeclareM α} {f : α → DeclareM β}
    (hx : Declaring paths x ds) (hf : ∀ a, Declaring paths (f a) es) :
    Declaring paths (x >>= f) (ds ++ es) := by
  intro s b u hPaths hRun
  obtain ⟨a, t, hx', hRest⟩ := bind_eq_ok.mp hRun
  have hFirst := hx s a t hPaths hx'
  exact hFirst.trans
    (hf a t b u (fun path hPath => hFirst.packages path (hPaths path hPath)) hRest)

theorem declaring_pure {α : Type} (a : α) : Declaring paths (pure a : DeclareM α) [] := by
  rintro s b t - ⟨⟩
  exact .refl_of (fun _ => rfl) (fun _ h => h) rfl

theorem declaring_forM {α : Type} {f : α → DeclareM PUnit} {g : α → List Declaration} {xs : List α}
    (h : ∀ x ∈ xs, Declaring paths (f x) (g x)) : Declaring paths (xs.forM f) (xs.flatMap g) := by
  induction xs with
  | nil => exact declaring_pure _
  | cons x xs ih =>
      exact (h x List.mem_cons_self).bind fun _ => ih fun y hy => h y (List.mem_cons_of_mem x hy)

theorem declaring_refuse {α : Type} (problem : Problem) (form : Option Form) :
    Declaring paths (refuse problem form : DeclareM α) ds := by
  rintro s a t - ⟨⟩

theorem declaring_modify {f : Declared → Declared}
    (hKept : ∀ s c, (f s).program.function? c = s.program.function? c)
    (hPackages : ∀ s path, (s.program.package? path).isSome →
      ((f s).program.package? path).isSome)
    (hPending : ∀ s, (f s).pending = s.pending) :
    Declaring paths (modify f : DeclareM PUnit) [] := by
  rintro s a t - ⟨⟩
  exact .refl_of (hKept s) (hPackages s) (hPending s)

theorem declaring_freshValue (name : String) (origin : Origin) :
    Declaring paths (freshValue name origin) [] := by
  rintro s a t - ⟨⟩
  exact .refl_of (fun _ => rfl) (fun _ h => h) rfl

theorem declaring_modifyPackage {f : Package → Package}
    (hf : ∀ q c, (f q).function? c = q.function? c) :
    Declaring paths (modifyPackage path f) [] :=
  declaring_modify (fun _ => Program.function?_modifyPackage_eq hf)
    (fun _ _ => Program.isSome_package?_modifyPackage) fun _ => rfl

theorem declaring_get : Declaring paths (get : DeclareM Declared) [] := by
  rintro s a t - ⟨⟩
  exact .refl_of (fun _ => rfl) (fun _ h => h) rfl

theorem declaring_declareGlobal (name : String) :
    Declaring paths (declareGlobal path name) [] := by
  refine declaring_get.bind fun s => ?_
  split
  case h_1 => exact declaring_pure _
  case h_2 =>
    refine (declaring_freshValue _ _).bind fun v => ?_
    exact declaring_modifyPackage fun _ _ => rfl

theorem declaring_declareConst (name : String) (literal : Option Form) :
    Declaring paths (declareConst path name literal) [] :=
  (declaring_freshValue _ _).bind fun _ => declaring_modifyPackage fun _ _ => rfl

/-- Reading the items of a function collects its blocks and declares nothing. -/
theorem keeps_readItems_blocks (packages : Table Package) (pending : List Pending) (f : Pending)
    (items : List Form) :
    Keeps (fun s => s.program.packages = packages ∧ s.pending = pending) (readItems f items)
      fun g => g.function.callee = f.function.callee ∧
        g.blocks = f.blocks ++ items.filter fun item => item.head? = some "block" := by
  have hFresh (name : String) (origin : Origin) :
      Keeps (fun s : Declared => s.program.packages = packages ∧ s.pending = pending)
        (freshValue name origin) fun _ => True := by
    refine keeps_get.bind fun s hs => (keeps_set ?_).bind fun _ _ => keeps_pure trivial
    exact hs
  induction items generalizing f with
  | nil => exact keeps_pure ⟨rfl, (List.append_nil _).symm⟩
  | cons item items ih =>
      rw [readItems]
      split
      case h_1 hHead =>
        split
        case h_1 location _ =>
          simpa [hHead] using ih { f with function := { f.function with location } }
        case h_2 => exact keeps_throw _
      case h_2 hHead =>
        refine (keeps_mapM fun _ _ => hFresh _ _).bind fun vs _ => ?_
        simpa [hHead] using
          ih { f with function := { f.function with params := f.function.params ++ vs } }
      case h_3 hHead =>
        refine (keeps_mapM fun _ _ => hFresh _ _).bind fun vs _ => ?_
        simpa [hHead] using
          ih { f with function := { f.function with freeVars := f.function.freeVars ++ vs } }
      case h_4 hHead => simpa [hHead] using ih { f with blocks := f.blocks ++ [item] }
      case h_5 => exact keeps_throw _

theorem declares_addFunction {s : Declared} {p : Program} {f : Pending} {d : Declaration}
    (hPackages : p.packages = s.program.packages) (hCallee : f.function.callee = d.callee)
    (hBlocks : f.blocks = d.blocks) (hNew : s.program.function? d.callee = none)
    (hPath : (s.program.package? d.callee.package).isSome) :
    Declares s [d]
      { program := p.modifyPackage d.callee.package (·.addFunction f.function)
        pending := if f.blocks.isEmpty then s.pending else s.pending ++ [f] } := by
  obtain ⟨q, hq⟩ := Option.isSome_iff_exists.mp hPath
  have hFind : p.package? d.callee.package = some q := by rw [Program.package?, hPackages]; exact hq
  refine ⟨by simpa using hNew, by simp, ?_, fun c fn hc => ?_, fun path h => ?_, ?_⟩
  · rw [List.forall_mem_singleton, Program.function?_modifyPackage, if_pos rfl, hFind,
      Option.bind_some, Package.function?_addFunction, hCallee, if_pos ⟨rfl, rfl⟩]
    rfl
  · have hOther : c ≠ d.callee := by
      rintro rfl
      rw [hNew] at hc
      cases hc
    rw [Program.function?_modifyPackage]
    split
    case isTrue hPackage =>
      rw [Program.function?, hPackage, hq, Option.bind_some] at hc
      rw [hFind, Option.bind_some, Package.function?_addFunction, hCallee, if_neg, hc]
      rintro ⟨hReceiver, hName⟩
      exact hOther (by cases c; cases hd : d.callee; simp_all)
    case isFalse => rwa [Program.function?_congr hPackages]
  · exact Program.isSome_package?_modifyPackage (by rwa [Program.package?, hPackages])
  · rw [hBlocks]
    cases hEmpty : d.blocks.isEmpty with
    | true => exact ⟨[], by simp, by simp [hEmpty]⟩
    | false => exact ⟨[f], by simp, by simp [hEmpty, hCallee, hBlocks]⟩

theorem declaring_declareFunction (callee : Callee) (items : List Form) :
    Declaring [callee.package] (declareFunction callee items) [⟨callee, items⟩] := by
  intro s a t hPaths hRun
  have hPath := hPaths _ (List.mem_singleton.mpr rfl)
  suffices h : Ensures (fun u => u = s) (declareFunction callee items) fun _ t =>
      Declares s [⟨callee, items⟩] t from h s a t rfl hRun
  refine ensures_get.bind fun body => ?_
  rintro _ a t ⟨rfl, rfl⟩ hRun
  cases hNew : (body.program.package? callee.package).bind (·.function? callee) with
  | some fn =>
    rw [hNew] at hRun
    cases hRun
  | none =>
    rw [hNew] at hRun
    have hItems := keeps_readItems_blocks body.program.packages body.pending
      { function := { callee }, blocks := [] } items
    refine hItems.seq (R := fun _ t => Declares body [⟨callee, items⟩] t) (fun f hf => ?_)
      _ _ _ ⟨rfl, rfl⟩ hRun
    rintro u _ t ⟨hPackages, hPending⟩ hAdd
    have hDeclares := declares_addFunction (d := ⟨callee, items⟩) hPackages hf.1 hf.2 hNew hPath
    cases hEmpty : f.blocks.isEmpty with
    | true =>
        rw [hEmpty, ← hPending] at hDeclares
        rw [hEmpty] at hAdd
        cases hAdd
        exact hDeclares
    | false =>
        rw [hEmpty, ← hPending] at hDeclares
        rw [hEmpty] at hAdd
        cases hAdd
        exact hDeclares

theorem declaring_declareMethods (type : String) (methods : List Form) :
    Declaring [path] (declareMethods path type methods)
      (methods.flatMap (methodDeclarations path type)) := by
  induction methods with
  | nil => exact declaring_pure _
  | cons m methods ih =>
      rw [declareMethods, List.flatMap_cons]
      split
      case h_1 _ name items hHead hItems =>
        rw [methodDeclarations, hHead, hItems]
        exact (declaring_declareFunction ⟨path, name.text, some type⟩ items).bind fun _ => ih
      case h_2 => exact (declaring_refuse _ _).bind fun _ => ih

theorem declaring_declareMember (member : Form) :
    Declaring [path] (declareMember path member) (memberDeclarations path member) := by
  unfold declareMember
  split
  case h_1 hHead hItems =>
    rw [memberDeclarations, hHead]
    exact declaring_declareGlobal _
  case h_2 hHead hItems =>
    rw [memberDeclarations, hHead]
    exact declaring_declareConst _ _
  case h_3 hHead hItems =>
    rw [memberDeclarations, hHead]
    exact declaring_declareConst _ _
  case h_4 hHead hItems =>
    rw [memberDeclarations, hHead, hItems]
    exact (declaring_modifyPackage (Package.function?_insertType · _ ·)).bind fun _ =>
      declaring_declareMethods _ _
  case h_5 _ name items hHead hItems =>
    rw [memberDeclarations, hHead, hItems]
    exact declaring_declareFunction ⟨path, name.text, none⟩ items
  case h_6 _ type name items hHead hItems =>
    rw [memberDeclarations, hHead, hItems]
    exact declaring_declareFunction ⟨path, name.text, some type.text⟩ items
  case h_7 => exact declaring_refuse _ _

theorem declaring_declarePackage (form : Form) :
    Declaring [] (declarePackage form) (packageDeclarations form) := by
  unfold declarePackage
  split
  case h_1 first path members hHead hItems =>
    rw [packageDeclarations, hHead, hItems]
    have hMembers : Declaring [path.text] (members.forM (declareMember path.text))
        (members.flatMap (memberDeclarations path.text)) :=
      declaring_forM fun member _ => declaring_declareMember member
    intro s a t _ hRun
    have hAdded : Declares s [] { s with program := s.program.addPackage path.text } :=
      .refl_of (s.program.function?_addPackage path.text)
        (fun _ => Program.isSome_package?_addPackage) rfl
    refine hAdded.trans (hMembers _ _ _ (fun p hp => ?_) hRun)
    rw [List.mem_singleton.mp hp, Program.package?, Program.addPackage, Table.find?_insertIfNew,
      if_pos rfl]
    rfl
  case h_2 => exact declaring_refuse _ _

/-- A dump that is declared with success declares the functions of its text. -/
theorem declaring_declareProgram (form : Form) :
    Declaring [] (declareProgram form) (declarations form) := by
  unfold declareProgram
  split
  case isTrue => exact declaring_forM fun package _ => declaring_declarePackage package
  case isFalse => exact declaring_refuse _ _

end Declaring

/-- A property of computations that the single steps of declaring have as well. -/
structure IsDeclarable (C : ∀ α : Type, DeclareM α → Prop) : Prop extends IsClosed C where
  value : ∀ name origin, C Value (freshValue name origin)
  package : ∀ path : String,
    C PUnit (modify fun s => { s with program := s.program.addPackage path })
  type : ∀ path name, C Unit (modifyPackage path fun p =>
    { p with types := p.types.insertIfNew name {} })
  const : ∀ path name v, C Unit (modifyPackage path fun p =>
    { p with consts := p.consts.insert name v })
  global : ∀ path name, C Unit (declareGlobal path name)
  function : ∀ callee items, C Unit (declareFunction callee items)

theorem IsClosed.readItems {C : ∀ α : Type, DeclareM α → Prop} (h : IsClosed C)
    (hValue : ∀ name origin, C Value (freshValue name origin)) (f : Pending) (items : List Form) :
    C Pending (readItems f items) := by
  induction items generalizing f with
  | nil => exact h.pure _
  | cons item items ih =>
      rw [Dump.readItems]
      split
      case h_1 =>
        split
        case h_1 => exact ih _
        case h_2 => exact h.refused _ _ _
      case h_2 => exact h.bind (h.mapM fun _ _ => hValue _ _) fun _ => ih _
      case h_3 => exact h.bind (h.mapM fun _ _ => hValue _ _) fun _ => ih _
      case h_4 => exact ih _
      case h_5 => exact h.refused _ _ _

namespace IsDeclarable

variable {C : ∀ α : Type, DeclareM α → Prop} (h : IsDeclarable C)
include h

theorem declareMethods (path type : String) (methods : List Form) :
    C Unit (declareMethods path type methods) := by
  induction methods with
  | nil => exact h.pure _
  | cons m methods ih =>
      rw [Dump.declareMethods]
      split
      case h_1 => exact h.bind (h.function _ _) fun _ => ih
      case h_2 => exact h.bind (h.refused _ _ _) fun _ => ih

theorem declareMember (path : String) (member : Form) : C Unit (declareMember path member) := by
  unfold Dump.declareMember
  split
  case h_1 => exact h.global _ _
  case h_2 => exact h.bind (h.value _ _) fun v => h.const _ _ v
  case h_3 => exact h.bind (h.value _ _) fun v => h.const _ _ v
  case h_4 => exact h.bind (h.type _ _) fun _ => h.declareMethods _ _ _
  case h_5 => exact h.function _ _
  case h_6 => exact h.function _ _
  case h_7 => exact h.refused _ _ _

theorem declarePackage (form : Form) : C Unit (declarePackage form) := by
  unfold Dump.declarePackage
  split
  case h_1 => exact h.bind (h.package _) fun _ => h.forM fun member _ => h.declareMember _ member
  case h_2 => exact h.refused _ _ _

theorem declareProgram (form : Form) : C Unit (declareProgram form) := by
  unfold Dump.declareProgram
  split
  case isTrue => exact h.forM fun package _ => h.declarePackage package
  case isFalse => exact h.refused _ _ _

end IsDeclarable

/-- The form of a text, if it is one. -/
def formOf? (text : String) : Option Form :=
  match Datum.read text with
  | .ok datum => datum.form?
  | .error _ => none

theorem load_of_formOf? {text : String} {form : Form} (h : formOf? text = some form)
    (p : Program) : p.load text = loadForm p form := by
  unfold formOf? at h
  unfold Program.load
  cases hRead : Datum.read text with
  | ok datum =>
      rw [hRead] at h
      change datum.form? = some form at h
      simp only [h]
  | error e =>
      rw [hRead] at h
      cases h

end Dump

end NilGuard
