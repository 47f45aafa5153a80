import NilGuard.Proofs.Calls
import NilGuard.Proofs.RenamedBody
/-! Local names do not matter. A dump and the dump renamed are loaded side by side: first the
functions are declared, then their bodies are loaded, and the programs that come out differ in the
names of values only. -/
namespace NilGuard

theorem Function.automaticNames_link (fn : Function) :
    fn.link.1.automaticNames = fn.automaticNames := by
  unfold link
  split
  case h_1 => rfl
  case h_2 =>
    dsimp only
    split <;> rfl

namespace Dump

/-! ### Declaring -/

def Pending.rename (π : Callee → Equiv.Perm String) (ν : Naming) (f : Pending) : Pending :=
  { function := f.function.relabel (Value.rename ν)
    blocks := f.blocks.map (renameBlock (π f.function.callee)) }

/-- A function that waits for its body was declared so. -/
structure Pending.Reads (f : Pending) (d : Declaration) : Prop where
  callee : f.function.callee = d.callee
  blocks : f.blocks = d.blocks
  params : f.function.params.map (·.tag.name) = d.namesOf "params"
  freeVars : f.function.freeVars.map (·.tag.name) = d.namesOf "free-vars"

/-- The functions that wait are among those given, and what is known of them is that their
parameters and free variables have their new names. -/
def declaredMirror (π : Callee → Equiv.Perm String) (ds : List Declaration) : Mirror Declared where
  count s := s.program.nextId
  image ν s :=
    { program := s.program.relabel (Value.rename ν)
      pending := s.pending.map (Pending.rename π ν) }
  inv s := ∀ f ∈ s.pending, ∃ d ∈ ds, f.Reads d
  knows ν s := ∀ f ∈ s.pending, ∀ v ∈ f.function.params ++ f.function.freeVars,
    ν v.tag.id v.tag.name = π f.function.callee v.tag.name

/-- How a dump is renamed when the new names of each function are given. -/
def renameBy (π : Callee → Equiv.Perm String) (d : Declaration) : String → String := π d.callee

section Declaring

variable {π : Callee → Equiv.Perm String} {ds : List Declaration} {path : String}

theorem follows_freshValue (name name' : String) (origin : Origin) :
    (declaredMirror π ds).Follows (freshValue name origin) (fun _ => freshValue name' origin)
      Value.rename := by
  rintro s _ _ hs ⟨⟩
  refine ⟨hs, [(name, name')], rfl, fun ν hGives hKnown => ⟨?_, hKnown⟩⟩
  have hName : ν s.program.nextId name = name' := hGives 0 name name' rfl
  rw [Value.rename, Tag.rename, hName]
  rfl

theorem follows_modifyPackage (f : Package → Package) (g : Naming → Package → Package)
    (h : ∀ ν q, g ν (q.relabel (Value.rename ν)) = (f q).relabel (Value.rename ν)) :
    (declaredMirror π ds).Follows (modifyPackage path f) (fun ν => modifyPackage path (g ν))
      fun _ u => u := by
  refine follows_modify (fun _ hs => hs) (fun _ => rfl) (fun _ _ h => h) fun ν s => ?_
  have hProgram := s.program.modifyPackage_relabel (Value.rename ν) path (h ν)
  exact congrArg (fun p => { (declaredMirror π ds).image ν s with program := p }) hProgram

theorem follows_declareGlobal (name : String) :
    (declaredMirror π ds).Follows (declareGlobal path name) (fun _ => declareGlobal path name)
      fun _ u => u := by
  apply follows_get_bind
  intro s _
  have hGlobal (ν : Naming) : (((declaredMirror π ds).image ν s).program.package? path).bind
      (·.globals.find? name) =
      ((s.program.package? path).bind (·.globals.find? name)).map (Value.rename ν) :=
    s.program.global?_relabel (Value.rename ν) path name
  simp only [hGlobal]
  cases (s.program.package? path).bind (·.globals.find? name) with
  | some v => exact follows_pure fun _ => rfl
  | none =>
      refine (follows_freshValue _ _ _).bind fun v _ => ?_
      exact follows_modifyPackage _ _ fun ν q => by simp only [Package.relabel, Table.insert_map]

theorem follows_declareConst (name : String) (literal : Option Form) :
    (declaredMirror π ds).Follows (declareConst path name literal)
      (fun _ => declareConst path name literal) fun _ u => u := by
  refine (follows_freshValue _ _ _).bind fun v _ => ?_
  exact follows_modifyPackage _ _ fun ν q => by simp only [Package.relabel, Table.insert_map]

theorem drop_renameItem {σ : String → String} {item : Form}
    (hHead : item.head? = some "params" ∨ item.head? = some "free-vars") :
    (renameItem σ item).items.drop 1 = (item.items.drop 1).map (Form.renameBinder σ) := by
  rw [renameItem_binders hHead]
  exact drop_take_append 1 item.items (Form.renameBinder σ)

theorem follows_readItems (f : Pending) (items : List Form) :
    (declaredMirror π ds).Follows (readItems f items)
      (fun ν => readItems (f.rename π ν) (items.map (renameItem (π f.function.callee))))
      (Pending.rename π) := by
  induction items generalizing f with
  | nil => exact follows_pure fun _ => rfl
  | cons item items ih =>
      have hValues (origin : Origin) (hHead : item.head? = some "params" ∨
          item.head? = some "free-vars") : (declaredMirror π ds).Follows
          ((item.items.drop 1).mapM fun x => freshValue x.text origin)
          (fun _ => ((renameItem (π f.function.callee) item).items.drop 1).mapM fun x =>
            freshValue x.text origin) fun ν => List.map (Value.rename ν) := by
        rw [drop_renameItem hHead]
        exact follows_mapM fun x _ => follows_freshValue _ _ _
      rw [readItems]
      split
      case h_1 hHead =>
        have hSame : renameItem (π f.function.callee) item = item := by rw [renameItem, hHead]; rfl
        simp only [List.map_cons, readItems, hSame, hHead]
        cases location? item with
        | none => exact follows_throw _
        | some location => exact ih { f with function := { f.function with location } }
      case h_2 hHead =>
        simp only [List.map_cons, readItems, head?_renameItem, hHead]
        refine (hValues .other (.inl hHead)).bind fun vs _ => ?_
        have hParams (ν : Naming) : ({ f.rename π ν with function := { (f.rename π ν).function with
            params := (f.rename π ν).function.params ++ vs.map (Value.rename ν) } } : Pending) =
            Pending.rename π ν
              { f with function := { f.function with params := f.function.params ++ vs } } := by
          simp only [Pending.rename, Function.relabel, List.map_append]
        simp only [hParams]
        exact ih _
      case h_3 hHead =>
        simp only [List.map_cons, readItems, head?_renameItem, hHead]
        refine (hValues .freeVar (.inr hHead)).bind fun vs _ => ?_
        have hFreeVars (ν : Naming) : ({ f.rename π ν with
            function := { (f.rename π ν).function with
              freeVars :=
                (f.rename π ν).function.freeVars ++ vs.map (Value.rename ν) } } : Pending) =
            Pending.rename π ν
              { f with function := { f.function with freeVars := f.function.freeVars ++ vs } } := by
          simp only [Pending.rename, Function.relabel, List.map_append]
        simp only [hFreeVars]
        exact ih _
      case h_4 hHead =>
        simp only [List.map_cons, readItems, renameItem_block hHead, head?_renameBlock, hHead]
        have hBlocks (ν : Naming) : ({ f.rename π ν with
            blocks :=
              (f.rename π ν).blocks ++ [renameBlock (π f.function.callee) item] } : Pending) =
            Pending.rename π ν { f with blocks := f.blocks ++ [item] } := by
          simp only [Pending.rename, List.map_append, List.map_cons, List.map_nil]
        simp only [hBlocks]
        exact ih _
      case h_5 => exact follows_throw _

theorem follows_readDeclaration (d : Declaration) :
    (declaredMirror π ds).Follows
      (readItems { function := { callee := d.callee }, blocks := [] } d.items)
      (fun _ => readItems { function := { callee := d.callee }, blocks := [] }
        (d.renamed (renameBy π)))
      (Pending.rename π) := by
  have hStart (ν : Naming) :
      Pending.rename π ν { function := { callee := d.callee }, blocks := [] } =
        { function := { callee := d.callee }, blocks := [] } := by
    simp [Pending.rename, Function.relabel]
  have hItems : (declaredMirror π ds).Follows _ _ _ :=
    follows_readItems { function := { callee := d.callee }, blocks := [] } d.items
  simp only [hStart] at hItems
  exact hItems

theorem keeps_freshValues_names (origin : Origin) (xs : List Form) :
    Keeps (fun _ => True) (xs.mapM fun x => freshValue x.text origin) fun vs =>
      vs.map (·.tag.name) = xs.map Form.text := by
  have hFresh (name : String) :
      Keeps (fun _ => True) (freshValue name origin) fun v => v.tag.name = name := by
    rintro s _ _ _ ⟨⟩
    exact ⟨trivial, rfl⟩
  induction xs with
  | nil => exact keeps_pure rfl
  | cons x xs ih =>
      rw [List.mapM_cons]
      refine (hFresh x.text).bind fun v hv => ih.bind fun vs hvs => keeps_pure ?_
      rw [List.map_cons, List.map_cons, hv, hvs]

/-- Parameters and free variables get the names of the items. -/
theorem keeps_readItems_names (callee : Callee) (f : Pending) (items : List Form) :
    Keeps (fun _ => True) (readItems f items) fun g =>
      g.function.params.map (·.tag.name) =
        f.function.params.map (·.tag.name) ++ (Declaration.mk callee items).namesOf "params" ∧
      g.function.freeVars.map (·.tag.name) =
        f.function.freeVars.map (·.tag.name) ++
          (Declaration.mk callee items).namesOf "free-vars" := by
  induction items generalizing f with
  | nil => exact keeps_pure ⟨(List.append_nil _).symm, (List.append_nil _).symm⟩
  | cons item items ih =>
      rw [readItems]
      split
      case h_1 hHead =>
        split
        case h_1 location _ =>
          simpa [Declaration.namesOf, hHead] using
            ih { f with function := { f.function with location } }
        case h_2 => exact keeps_throw _
      case h_2 hHead =>
        refine (keeps_freshValues_names _ _).bind fun vs hvs => ?_
        simpa [Declaration.namesOf, hHead, hvs] using
          ih { f with function := { f.function with params := f.function.params ++ vs } }
      case h_3 hHead =>
        refine (keeps_freshValues_names _ _).bind fun vs hvs => ?_
        simpa [Declaration.namesOf, hHead, hvs] using
          ih { f with function := { f.function with freeVars := f.function.freeVars ++ vs } }
      case h_4 hHead =>
        simpa [Declaration.namesOf, hHead] using ih { f with blocks := f.blocks ++ [item] }
      case h_5 => exact keeps_throw _

theorem namesOf_rename (τ : Declaration → String → String) (d : Declaration) {kind : String}
    (hKind : kind = "params" ∨ kind = "free-vars") :
    (d.rename τ).namesOf kind = (d.namesOf kind).map (τ d) := by
  simp only [Declaration.namesOf, Declaration.rename, Declaration.renamed, List.filter_map,
    Function.comp_def, head?_renameItem, List.flatMap_map, List.map_flatMap]
  refine List.flatMap_congr fun item hItem => ?_
  have hHead : item.head? = some kind := of_decide_eq_true (List.mem_filter.mp hItem).2
  have hBinders : item.head? = some "params" ∨ item.head? = some "free-vars" := by
    rcases hKind with rfl | rfl
    · exact .inl hHead
    · exact .inr hHead
  rw [drop_renameItem hBinders, List.map_map, List.map_map]
  refine List.map_congr_left fun x _ => ?_
  exact text_renameBinder x

/-- Adds a function that was read to a package. -/
def Declared.add (s : Declared) (path : String) (f : Pending) : Declared :=
  { program := s.program.modifyPackage path (·.addFunction f.function)
    pending := if f.blocks.isEmpty then s.pending else s.pending ++ [f] }

theorem add_eq (path : String) (f : Pending) : (do
    modifyPackage path (·.addFunction f.function)
    if !f.blocks.isEmpty then
      modify fun s => { s with pending := s.pending ++ [f] } : DeclareM Unit) =
      modify (·.add path f) := by
  funext s
  cases hEmpty : f.blocks.isEmpty with
  | true =>
      simp only [Declared.add, hEmpty]
      rfl
  | false =>
      simp only [Declared.add, hEmpty]
      rfl

theorem image_add (ν : Naming) (s : Declared) (path : String) (f : Pending) :
    ((declaredMirror π ds).image ν s).add path (f.rename π ν) =
      (declaredMirror π ds).image ν (s.add path f) := by
  have hProgram : (s.program.relabel (Value.rename ν)).modifyPackage path
      (·.addFunction (f.function.relabel (Value.rename ν))) =
      (s.program.modifyPackage path (·.addFunction f.function)).relabel (Value.rename ν) :=
    s.program.modifyPackage_relabel (Value.rename ν) path fun q =>
      q.addFunction_relabel (Value.rename ν) f.function
  simp only [declaredMirror, Declared.add, Pending.rename, List.isEmpty_map, hProgram]
  split
  case isTrue => rfl
  case isFalse => rw [List.map_append]; rfl

theorem Declared.forall_pending_add {P : Pending → Prop} {s : Declared} {path : String}
    {f : Pending} (hs : ∀ g ∈ s.pending, P g) (hf : P f) : ∀ g ∈ (s.add path f).pending, P g := by
  unfold Declared.add
  dsimp only
  split
  case isTrue => exact hs
  case isFalse => exact List.forall_mem_append.mpr ⟨hs, List.forall_mem_singleton.mpr hf⟩

/-- What has been read has the new names when it is what the second load reads. -/
theorem names_of_reads {f : Pending} {d : Declaration} (hReads : f.Reads d) {ν : Naming}
    (hRenamed : (f.rename π ν).Reads (d.rename (renameBy π))) :
    ∀ v ∈ f.function.params ++ f.function.freeVars,
      ν v.tag.id v.tag.name = π f.function.callee v.tag.name := by
  have hNames (vs : List Value) {kind : String} (hKind : kind = "params" ∨ kind = "free-vars")
      (hNames : vs.map (·.tag.name) = d.namesOf kind)
      (hNames' : (vs.map (Value.rename ν)).map (·.tag.name) =
        (d.rename (renameBy π)).namesOf kind) :
      ∀ v ∈ vs, ν v.tag.id v.tag.name = π d.callee v.tag.name := by
    rw [namesOf_rename _ _ hKind, ← hNames, List.map_map, List.map_map] at hNames'
    intro v hv
    have hSame := List.map_inj_left.mp hNames' v hv
    simp only [Function.comp_apply, Value.tag_rename] at hSame
    exact hSame
  rw [hReads.callee]
  refine List.forall_mem_append.mpr ⟨?_, ?_⟩
  · exact hNames _ (.inl rfl) hReads.params hRenamed.params
  · exact hNames _ (.inr rfl) hReads.freeVars hRenamed.freeVars

theorem reads_of_readItems {d : Declaration} {f : Pending} {s t : Declared}
    (h : readItems { function := { callee := d.callee }, blocks := [] } d.items s = .ok f t) :
    f.Reads d := by
  obtain ⟨-, hCallee, hBlocks⟩ := keeps_readItems_blocks s.program.packages s.pending _ d.items
    s f t ⟨rfl, rfl⟩ h
  obtain ⟨-, hParams, hFreeVars⟩ := keeps_readItems_names d.callee _ d.items s f t trivial h
  exact ⟨hCallee, hBlocks, hParams, hFreeVars⟩

theorem follows_declareFunction {d : Declaration} (hd : d ∈ ds) :
    (declaredMirror π ds).Follows (declareFunction d.callee d.items)
      (fun _ => declareFunction d.callee (d.renamed (renameBy π))) fun _ u => u := by
  unfold declareFunction
  apply follows_get_bind
  intro s _
  have hFunction (ν : Naming) : (((declaredMirror π ds).image ν s).program.package?
      d.callee.package).bind (·.function? d.callee) =
      ((s.program.package? d.callee.package).bind (·.function? d.callee)).map
        (Function.relabel (Value.rename ν)) := by
    rw [declaredMirror, Program.package?_relabel]
    cases s.program.package? d.callee.package with
    | none => rfl
    | some q => exact q.function?_relabel (Value.rename ν) d.callee
  simp only [hFunction, add_eq]
  cases (s.program.package? d.callee.package).bind (·.function? d.callee) with
  | some fn => exact follows_throw _
  | none =>
      intro s a t hs hRun
      obtain ⟨f, u, hItems, hRest⟩ := bind_eq_ok.mp hRun
      cases hRest
      have hReads := reads_of_readItems hItems
      obtain ⟨hu, names, hCount, hImage⟩ := follows_readDeclaration d s f u hs hItems
      refine ⟨Declared.forall_pending_add hu ⟨d, hd, hReads⟩, names, hCount,
        fun ν hGives hKnown => ?_⟩
      obtain ⟨hRenamed, hKnown'⟩ := hImage ν hGives hKnown
      have hReads' : (f.rename π ν).Reads (d.rename (renameBy π)) := reads_of_readItems hRenamed
      refine ⟨bind_eq_ok.mpr ⟨_, _, hRenamed, ?_⟩, ?_⟩
      · exact congrArg (EStateM.Result.ok PUnit.unit) (image_add ν u d.callee.package f)
      · exact Declared.forall_pending_add hKnown' (names_of_reads hReads hReads')

theorem follows_declareMethods (type : String) {methods : List Form}
    (hMethods : ∀ m ∈ methods, ∀ d ∈ methodDeclarations path type m, d ∈ ds) :
    (declaredMirror π ds).Follows (declareMethods path type methods)
      (fun _ => declareMethods path type (methods.map (renameMethod (renameBy π) path type)))
      fun _ u => u := by
  induction methods with
  | nil => exact follows_pure fun _ => rfl
  | cons m methods ih =>
      rw [List.forall_mem_cons] at hMethods
      have hRest := ih hMethods.2
      have hFirst := hMethods.1
      rw [List.map_cons, declareMethods, declareMethods]
      split
      case h_1 word name items hHead hItems =>
        rw [methodDeclarations, hHead, hItems] at hFirst
        rw [renameMethod, hHead, hItems]
        simp only [head?_of_items hItems, hHead, Form.items]
        exact (follows_declareFunction (hFirst _ (List.mem_singleton_self _))).bind fun _ _ => hRest
      case h_2 =>
        rintro s a t hs ⟨⟩

theorem follows_declareMember {member : Form}
    (hMember : ∀ d ∈ memberDeclarations path member, d ∈ ds) :
    (declaredMirror π ds).Follows (declareMember path member)
      (fun _ => declareMember path (renameMember (renameBy π) path member)) fun _ u => u := by
  have hSame (hHead : member.head? = some "global" ∨ member.head? = some "const") :
      renameMember (renameBy π) path member = member := by
    rcases hHead with hHead | hHead
    · simp [renameMember, hHead]
    · simp [renameMember, hHead]
  unfold declareMember
  split
  case h_1 name hHead hItems =>
    simp only [hSame (.inl hHead), hHead, hItems]
    exact follows_declareGlobal name.text
  case h_2 name hHead hItems =>
    simp only [hSame (.inr hHead), hHead, hItems]
    exact follows_declareConst name.text none
  case h_3 name literal hHead hItems =>
    simp only [hSame (.inr hHead), hHead, hItems]
    exact follows_declareConst name.text (some literal)
  case h_4 word name methods hHead hItems =>
    rw [memberDeclarations, hHead, hItems] at hMember
    rw [renameMember, hHead, hItems]
    simp only [head?_of_items hItems, hHead, Form.items]
    have hType : (declaredMirror π ds).Follows
        (modifyPackage path fun p => { p with types := p.types.insertIfNew name.text {} })
        (fun _ => modifyPackage path fun p => { p with types := p.types.insertIfNew name.text {} })
        fun _ u => u := by
      refine follows_modifyPackage _ _ fun ν q => ?_
      have hTypes := Table.insertIfNew_map (Table.map (Function.relabel (Value.rename ν))) q.types
        name.text {}
      simp only [Package.relabel, ← hTypes]
      rfl
    refine hType.bind fun _ _ => follows_declareMethods name.text fun m hm d hd => ?_
    exact hMember d (List.mem_flatMap.mpr ⟨m, hm, hd⟩)
  case h_5 word name items hHead hItems =>
    rw [memberDeclarations, hHead, hItems] at hMember
    rw [renameMember, hHead, hItems]
    simp only [head?_of_items hItems, hHead, Form.items]
    exact follows_declareFunction (hMember _ (List.mem_singleton_self _))
  case h_6 word type name items hHead hItems =>
    rw [memberDeclarations, hHead, hItems] at hMember
    rw [renameMember, hHead, hItems]
    simp only [head?_of_items hItems, hHead, Form.items]
    exact follows_declareFunction (hMember _ (List.mem_singleton_self _))
  case h_7 => exact follows_throw _

theorem follows_declarePackage {form : Form}
    (hForm : ∀ d ∈ packageDeclarations form, d ∈ ds) :
    (declaredMirror π ds).Follows (declarePackage form)
      (fun _ => declarePackage (renamePackage (renameBy π) form)) fun _ u => u := by
  unfold declarePackage
  split
  case h_1 word path members hHead hItems =>
    rw [packageDeclarations, hHead, hItems] at hForm
    rw [renamePackage, hHead, hItems]
    simp only [head?_of_items hItems, hHead, Form.items]
    have hAdd : (declaredMirror π ds).Follows
        (modify fun s => { s with program := s.program.addPackage path.text })
        (fun _ => modify fun s => { s with program := s.program.addPackage path.text })
        fun _ u => u := by
      refine follows_modify (fun _ hs => hs) (fun _ => rfl) (fun _ _ h => h) fun ν s => ?_
      simp only [declaredMirror, Program.addPackage_relabel]
    refine hAdd.bind fun _ _ => follows_forM fun member hMember => ?_
    exact follows_declareMember fun d hd => hForm d (List.mem_flatMap.mpr ⟨member, hMember, hd⟩)
  case h_2 => exact follows_throw _

theorem follows_declareProgram {form : Form} (hForm : ∀ d ∈ declarations form, d ∈ ds) :
    (declaredMirror π ds).Follows (declareProgram form)
      (fun _ => declareProgram (renameEach (renameBy π) form)) fun _ u => u := by
  have hHead : (renameEach (renameBy π) form).head? = form.head? :=
    head?_take_append form 0 (List.map (renamePackage (renameBy π))) rfl
  unfold declareProgram
  rw [hHead, drop_renameEach]
  split
  case isTrue =>
    refine follows_forM fun package hPackage => ?_
    exact follows_declarePackage fun d hd => hForm d (List.mem_flatMap.mpr ⟨package, hPackage, hd⟩)
  case isFalse => exact follows_throw _

end Declaring

/-! ### Parameters -/

/-- The wording of a function that waits for its body. -/
def Pending.wording (π : Callee → Equiv.Perm String) (f : Pending) : Wording where
  rename := π f.function.callee
  function := f.function
  used := (f.blocks.flatMap statementsOf).flatMap statementNames

/-- A permutation stands for the new names of a function: it renames what the function binds and
nothing else that it uses, nor an automatic name. -/
structure Declaration.Adopts (d : Declaration) (automatic : List String) (σ : String → String)
    (ρ : Equiv.Perm String) : Prop where
  admits : d.Admits automatic σ
  same : ∀ x, x ∈ d.boundNames ∨ x ∈ d.usedNames → ρ x = d.bound σ x
  kept : ∀ x ∈ automatic, ρ x = x

theorem Pending.Reads.mem_parameterNames {f : Pending} {d : Declaration} (h : f.Reads d)
    {name : String} : name ∈ d.parameterNames ↔
      ∃ v ∈ f.function.params ++ f.function.freeVars, v.tag.name = name := by
  rw [Declaration.parameterNames, ← h.params, ← h.freeVars, ← List.map_append, List.mem_map]

section Adopted

variable {π : Callee → Equiv.Perm String} {f : Pending} {d : Declaration} {σ : String → String}
  (h : d.Adopts f.function.automaticNames σ (π d.callee))
include h

/-- The name of a parameter that has one is renamed, and one that has none gets none. -/
theorem rename_parameterName {name : String} (hName : name ∈ d.parameterNames) :
    π d.callee name = "" ↔ name = "" := by
  have hBound : name ∈ d.boundNames := List.mem_append_left _ hName
  rw [h.same name (.inl hBound), Declaration.bound, if_pos hBound]
  exact h.admits.empty name hName

variable (hReads : f.Reads d)
include hReads

theorem names_wording {ν : Naming} (hKnown : ∀ v ∈ f.function.params ++ f.function.freeVars,
    ν v.tag.id v.tag.name = π f.function.callee v.tag.name) : (f.wording π).Names ν := by
  intro v hv
  have hEmpty := rename_parameterName h (hReads.mem_parameterNames.mpr ⟨v, hv, rfl⟩)
  change (v.rename ν).name = π f.function.callee v.name
  rw [hReads.callee] at hKnown ⊢
  rw [Value.name, Value.tag_rename, Tag.rename, hKnown v hv]
  dsimp only
  simp only [hEmpty]
  split
  case isTrue hName =>
    have hAutomatic : v.name ∈ f.function.automaticNames :=
      List.mem_map_of_mem (List.mem_filter.mpr ⟨hv, decide_eq_true hName⟩)
    rw [h.kept v.name hAutomatic, Value.name, if_pos hName]
  case isFalse hName => rw [Value.name, if_neg hName]

theorem suits_wording : (f.wording π).Suits f.blocks := by
  have hRename : (f.wording π).rename = π d.callee := by rw [Pending.wording, hReads.callee]
  have hUsed : (f.wording π).used = d.usedNames := by
    rw [Pending.wording, hReads.blocks]
    rfl
  refine ⟨fun block hBlock stmt hStmt name hName => ?_, fun name hName => ?_⟩
  · rw [hUsed]
    exact Declaration.mem_usedNames.mpr ⟨block, hReads.blocks ▸ hBlock, stmt, hStmt, hName⟩
  · rw [hUsed] at hName
    by_cases hBound : name ∈ d.boundNames
    · rcases List.mem_append.mp hBound with hParameter | hLet
      · by_cases hEmpty : name = ""
        · rw [hRename, hEmpty]
          exact .inl ((rename_parameterName h (hEmpty ▸ hParameter)).mpr rfl)
        · obtain ⟨v, hv, hTag⟩ := hReads.mem_parameterNames.mp hParameter
          have hValue : v.name = name := by rw [Value.name, hTag, if_neg hEmpty]
          refine .inr (.inl ?_)
          change ((parameterNames f.function).find? name).isSome
          rw [find?_parameterNames, List.getLast?_isSome]
          exact List.ne_nil_of_mem (List.mem_filter.mpr ⟨hv, decide_eq_true hValue⟩)
      · obtain ⟨block, hBlock, stmt, hStmt, hLet⟩ := Declaration.mem_letNames.mp hLet
        exact .inr (.inr ⟨block, hReads.blocks ▸ hBlock, stmt, hStmt, hLet⟩)
    · refine .inl ?_
      rw [hRename, h.same name (.inr hName), Declaration.bound, if_neg hBound]

end Adopted

/-! ### Loading -/

section Loading

variable {π : Callee → Equiv.Perm String} {p : Program}

theorem exists_loadBodies_rename {pending : List Pending}
    (hSuits : ∀ f ∈ pending, (f.wording π).Suits f.blocks)
    (h : (loadBodies p pending).error = none) :
    ∃ names, ∀ ν : Naming, (∀ f ∈ pending, (f.wording π).Names ν) → ν.Gives p.nextId names →
      (loadBodies (p.relabel (Value.rename ν)) (pending.map (Pending.rename π ν))).error = none ∧
      (loadBodies (p.relabel (Value.rename ν)) (pending.map (Pending.rename π ν))).program =
        (loadBodies p pending).program.relabel (Value.rename ν) := by
  induction pending generalizing p with
  | nil => exact ⟨[], fun _ _ _ => ⟨rfl, rfl⟩⟩
  | cons f pending ih =>
      rw [List.forall_mem_cons] at hSuits
      rw [loadBodies] at h
      cases hLoad : loadBody p f.function f.blocks with
      | mk p' result =>
          rw [hLoad] at h
          cases result with
          | error e => cases h
          | ok fn =>
              obtain ⟨names, hCount, hFirst⟩ := exists_loadBody_rename hSuits.1 hLoad
              obtain ⟨rest, hRest⟩ := ih hSuits.2 h
              refine ⟨names ++ rest, fun ν hKnown hGives => ?_⟩
              rw [List.forall_mem_cons] at hKnown
              obtain ⟨hNames, hRestNames⟩ := Naming.gives_append hGives
              rw [← hCount] at hRestNames
              have hRenamed : loadBody (p.relabel (Value.rename ν)) (f.rename π ν).function
                  (f.rename π ν).blocks = _ := hFirst ν hKnown.1 hNames
              rw [List.map_cons, loadBodies, loadBodies, hRenamed, hLoad]
              exact hRest ν hKnown.2 hRestNames

/-- The functions that wait for their bodies have the same parameters and free variables once they
are loaded. -/
theorem automaticNames_of_mem_pending {form : Form} {s : Declared}
    (hDeclare : declareProgram form { program := p } = .ok () s)
    (h : (loadBodies s.program s.pending).error = none) {f : Pending} (hf : f ∈ s.pending) :
    (loadBodies s.program s.pending).program.automaticNames f.function.callee =
      f.function.automaticNames := by
  have hDeclares := declaring_declareProgram form _ _ _ (by simp) hDeclare
  have hThere : ∀ g ∈ s.pending, (s.program.function? g.function.callee).isSome := by
    intro g hg
    obtain ⟨d, hd, hCallee, -⟩ := hDeclares.exists_of_mem_pending rfl hg
    rw [hCallee]
    exact hDeclares.there d hd
  obtain ⟨-, hLoaded⟩ := loadBodies_eq_ok (hDeclares.nodup_pending rfl) hThere h
  obtain ⟨before, after, fn, hLoad, hFunction⟩ := hLoaded f hf
  obtain ⟨body, -, rfl, rfl⟩ := loadBody_eq_ok hLoad
  rw [Program.automaticNames, hFunction, Option.map_some, Option.getD_some,
    Function.automaticNames_link]
  rfl

/-- When a dump is loaded, so is the dump renamed, and with the same outcome but for the names. -/
theorem exists_loadForm_rename {form : Form} {σ : Callee → String → String}
    (hAdopts : ∀ d ∈ declarations form,
      d.Adopts ((loadForm p form).program.automaticNames d.callee) (σ d.callee) (π d.callee))
    (h : (loadForm p form).error = none) :
    ∃ names, ∀ ν : Naming, ν.Gives p.nextId names →
      (loadForm (p.relabel (Value.rename ν)) (renameEach (renameBy π) form)).error = none ∧
      (loadForm (p.relabel (Value.rename ν)) (renameEach (renameBy π) form)).program =
        (loadForm p form).program.relabel (Value.rename ν) := by
  unfold loadForm at h hAdopts ⊢
  cases hDeclare : declareProgram form { program := p } with
  | error e s =>
      rw [hDeclare] at h
      cases h
  | ok u s =>
      rw [hDeclare] at h hAdopts
      obtain ⟨hReads, names, hCount, hImage⟩ := follows_declareProgram (π := π) (fun _ hd => hd)
        { program := p } u s (fun _ hf => absurd hf List.not_mem_nil) hDeclare
      have hAdopted : ∀ f ∈ s.pending, ∃ d, f.Reads d ∧
          d.Adopts f.function.automaticNames (σ d.callee) (π d.callee) := by
        intro f hf
        obtain ⟨d, hd, hRead⟩ := hReads f hf
        refine ⟨d, hRead, ?_⟩
        rw [← automaticNames_of_mem_pending hDeclare h hf, hRead.callee]
        exact hAdopts d hd
      have hSuits : ∀ f ∈ s.pending, (f.wording π).Suits f.blocks := by
        intro f hf
        obtain ⟨d, hRead, hAdopt⟩ := hAdopted f hf
        exact suits_wording hAdopt hRead
      obtain ⟨rest, hRest⟩ := exists_loadBodies_rename hSuits h
      refine ⟨names ++ rest, fun ν hGives => ?_⟩
      obtain ⟨hNames, hRestNames⟩ := Naming.gives_append hGives
      have hCount' : s.program.nextId = p.nextId + names.length := hCount
      rw [← hCount'] at hRestNames
      obtain ⟨hRenamed, hKnown⟩ := hImage ν hNames fun _ hf => absurd hf List.not_mem_nil
      have hRenamed' : declareProgram (renameEach (renameBy π) form)
          { program := p.relabel (Value.rename ν) } = _ := hRenamed
      rw [hRenamed']
      refine hRest ν (fun f hf => ?_) hRestNames
      obtain ⟨d, hRead, hAdopt⟩ := hAdopted f hf
      exact names_wording hAdopt hRead (hKnown f hf)

end Loading

/-! ### Renamings -/

/-- What is injective on finitely many names is a permutation there. -/
theorem exists_perm_eq {names : List String} {ρ : String → String}
    (h : ∀ x ∈ names, ∀ y ∈ names, ρ x = ρ y → x = y) :
    ∃ π : Equiv.Perm String, ∀ x ∈ names, π x = ρ x := by
  induction names with
  | nil => exact ⟨.refl _, fun _ hx => absurd hx List.not_mem_nil⟩
  | cons x names ih =>
      obtain ⟨π, hπ⟩ := ih fun y hy z hz =>
        h y (List.mem_cons_of_mem x hy) z (List.mem_cons_of_mem x hz)
      refine ⟨π.trans (Equiv.swap (π x) (ρ x)), fun y hy => ?_⟩
      rw [Equiv.trans_apply]
      by_cases hSame : y = x
      · rw [hSame, Equiv.swap_apply_left]
      · have hMem : y ∈ names := (List.mem_cons.mp hy).resolve_left hSame
        rw [Equiv.swap_apply_of_ne_of_ne (fun hEq => hSame (π.injective hEq)), hπ y hMem]
        intro hEq
        rw [hπ y hMem] at hEq
        exact hSame (h y hy x List.mem_cons_self hEq)

namespace Declaration

variable {d : Declaration} {automatic : List String} {σ : String → String}

theorem Admits.bound_eq (h : d.Admits automatic σ) {x : String} (hx : x ∈ automatic) :
    d.bound σ x = x := by
  rw [bound, h.keeps x hx, ite_self]

/-- What a function binds is renamed apart from all that it uses and from the automatic names. -/
theorem Admits.injective_bound (h : d.Admits automatic σ) :
    ∀ x ∈ d.boundNames ++ automatic ++ d.usedNames, ∀ y ∈ d.boundNames ++ automatic ++ d.usedNames,
      d.bound σ x = d.bound σ y → x = y := by
  -- automatic names are renamed to themselves, so they may be counted among the bound ones
  have hBound {x : String} (hx : x ∈ d.boundNames ++ automatic) : d.bound σ x = σ x := by
    rcases List.mem_append.mp hx with hx | hx
    · exact if_pos hx
    · rw [h.bound_eq hx, h.keeps x hx]
  have hFree {x : String} (hx : x ∉ d.boundNames ++ automatic) : d.bound σ x = x :=
    if_neg fun hMem => hx (List.mem_append_left _ hMem)
  have hApart {x y : String} (hx : x ∈ d.boundNames ++ automatic) (hy : y ∈ d.usedNames)
      (hy' : y ∉ d.boundNames ++ automatic) : σ x ≠ y := by
    rcases List.mem_append.mp hx with hx | hx
    · exact h.fresh x hx y hy fun hMem => hy' (List.mem_append_left _ hMem)
    · rintro rfl
      rw [h.keeps x hx] at hy'
      exact hy' (List.mem_append_right _ hx)
  intro x hx y hy hEq
  by_cases hx' : x ∈ d.boundNames ++ automatic
  · by_cases hy' : y ∈ d.boundNames ++ automatic
    · rw [hBound hx', hBound hy'] at hEq
      exact h.injective x hx' y hy' hEq
    · rw [hBound hx', hFree hy'] at hEq
      exact absurd hEq (hApart hx' ((List.mem_append.mp hy).resolve_left hy') hy')
  · by_cases hy' : y ∈ d.boundNames ++ automatic
    · rw [hFree hx', hBound hy'] at hEq
      exact absurd hEq.symm (hApart hy' ((List.mem_append.mp hx).resolve_left hx') hx')
    · rwa [hFree hx', hFree hy'] at hEq

end Declaration

/-- Functions of different names are renamed each by a permutation of its own. -/
theorem exists_perms {ds : List Declaration} (hNodup : (ds.map (·.callee)).Nodup)
    {automatic : Callee → List String} {σ : Callee → String → String}
    (hAdmits : ∀ d ∈ ds, d.Admits (automatic d.callee) (σ d.callee)) :
    ∃ π : Callee → Equiv.Perm String, ∀ d ∈ ds,
      d.Adopts (automatic d.callee) (σ d.callee) (π d.callee) := by
  have hEach (c : Callee) : ∃ π : Equiv.Perm String, ∀ d ∈ ds, d.callee = c →
      ∀ x ∈ d.boundNames ++ automatic c ++ d.usedNames, π x = d.bound (σ c) x := by
    by_cases hFound : ∃ d ∈ ds, d.callee = c
    · obtain ⟨d, hd, rfl⟩ := hFound
      obtain ⟨π, hπ⟩ := exists_perm_eq (hAdmits d hd).injective_bound
      refine ⟨π, fun e he hSame => ?_⟩
      rw [List.inj_on_of_nodup_map hNodup he hd hSame]
      exact hπ
    · exact ⟨.refl _, fun d hd hSame => absurd ⟨d, hd, hSame⟩ hFound⟩
  choose π hπ using hEach
  refine ⟨π, fun d hd => ⟨hAdmits d hd, fun x hx => ?_, fun x hx => ?_⟩⟩
  · refine hπ d.callee d hd rfl x ?_
    rcases hx with hx | hx
    · exact List.mem_append_left _ (List.mem_append_left _ hx)
    · exact List.mem_append_right _ hx
  · rw [hπ d.callee d hd rfl x (List.mem_append_left _ (List.mem_append_right _ hx))]
    exact (hAdmits d hd).bound_eq hx

end Dump

namespace Program

variable {text text' : String} {form : Form}

/-- A slice of a parameter is passed on where the parameter is nil. Its let stands further down, and
the operand of the constant is a literal, not a name. The free variable has no name of its own and
is returned by its automatic one. -/
def guardText : String :=
  "(program (package p (func use (params x)) (func f (params a b) (free-vars \"\") " ++
    "(block 0 (succs 1 2) (if (binop == a nil))) (block 1 (succs 2) (call p use c)) " ++
    "(block 2 (let c (slice a)) (return (const a) v3)))))"

/-- The same with the names of the parameters exchanged, and other names for the rest. -/
def exchangedText : String :=
  "(program (package p (func use (params y)) (func f (params b a) (free-vars \"\") " ++
    "(block 0 (succs 1 2) (if (binop == b nil))) (block 1 (succs 2) (call p use x)) " ++
    "(block 2 (let x (slice b)) (return (const a) v3)))))"

def exchange : String → String
  | "a" => "b"
  | "b" => "a"
  | "c" => "x"
  | "x" => "y"
  | x => x

/-- The two forms, with a name for each that they bind. -/
def guardForm (x a b c : String) : Form :=
  .list [.sym "program", .list [.sym "package", .sym "p",
    .list [.sym "func", .sym "use", .list [.sym "params", .sym x]],
    .list [.sym "func", .sym "f", .list [.sym "params", .sym a, .sym b],
      .list [.sym "free-vars", .str ""],
      .list [.sym "block", .int 0, .list [.sym "succs", .int 1, .int 2],
        .list [.sym "if", .list [.sym "binop", .sym "==", .sym a, .sym "nil"]]],
      .list [.sym "block", .int 1, .list [.sym "succs", .int 2],
        .list [.sym "call", .sym "p", .sym "use", .sym c]],
      .list [.sym "block", .int 2, .list [.sym "let", .sym c, .list [.sym "slice", .sym a]],
        .list [.sym "return", .list [.sym "const", .sym "a"], .sym "v3"]]]]]

/-- A parameter and a let, by what they are called. -/
def calledForm (parameter name : String) : Form :=
  .list [.sym "program", .list [.sym "package", .sym "p",
    .list [.sym "func", .sym "f", .list [.sym "params", .str parameter],
      .list [.sym "block", .int 0,
        .list [.sym "let", .str name, .list [.sym "const", .sym "nil"]]]]]]

def unnamedText : String :=
  "(program (package p (func f (params \"\") (block 0 (let \"\" (const nil))))))"

def namedText : String :=
  "(program (package p (func f (params \"x\") (block 0 (let \"x\" (const nil))))))"

def halfNamedText : String :=
  "(program (package p (func f (params \"\") (block 0 (let \"y\" (const nil))))))"

def automaticText : String :=
  "(program (package p (func f (params \"\") (block 0 (let \"v0\" (const nil))))))"

def mistakableText : String :=
  "(program (package p (func f (params \"x\") (block 0 (let \"v0\" (const nil))))))"

/-- A dump loads, but not under other names, although what it binds is renamed one to one and it
uses no names. -/
structure IsSpoiled (text text' parameter name parameter' name' : String)
    (σ : Equiv.Perm String) : Prop where
  read : Dump.formOf? text = some (calledForm parameter name)
  loads : (({} : Program).load text).error = none
  unused : ∀ d ∈ Dump.declarations (calledForm parameter name), d.usedNames = []
  renamed : Dump.renameBound (fun _ => σ) (calledForm parameter name) =
    calledForm parameter' name'
  read' : Dump.formOf? text' = some (calledForm parameter' name')
  refused : (({} : Program).load text').error =
    some (.refused (some "p.f") (.assignedTwice name')
      (some (.list [.sym "let", .str name', .list [.sym "const", .sym "nil"]])))

theorem isSpoiled_of_loadForm {text text' parameter name parameter' name' : String}
    {σ : Equiv.Perm String} (hForm : Dump.formOf? text = some (calledForm parameter name))
    (hForm' : Dump.formOf? text' = some (calledForm parameter' name'))
    (hRename : Dump.renameBound (fun _ => σ) (calledForm parameter name) =
      calledForm parameter' name')
    (hLoads : (Dump.loadForm {} (calledForm parameter name)).error.isNone = true)
    (hFails : (Dump.loadForm {} (calledForm parameter' name')).error =
      some (.refused (some "p.f") (.assignedTwice name')
        (some (.list [.sym "let", .str name', .list [.sym "const", .sym "nil"]])))) :
    IsSpoiled text text' parameter name parameter' name' σ := by
  rw [← Dump.load_of_formOf? hForm] at hLoads
  rw [← Dump.load_of_formOf? hForm'] at hFails
  refine ⟨hForm, Option.isNone_iff_eq_none.mp hLoads, fun d hd => ?_, hRename, hForm', hFails⟩
  rw [List.mem_singleton.mp hd]
  rfl

end Program

end NilGuard
