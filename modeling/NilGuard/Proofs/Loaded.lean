import NilGuard.Dump.Load
import NilGuard.Proofs.Layout
/-! Programs that dumps were loaded into. Declaring and loading keep every function of a
program sound. -/
namespace NilGuard

namespace Package

theorem mem_allFunctions_iff {p : Package} {fn : Function} :
    fn ∈ p.allFunctions ↔ fn ∈ p.functions.values ∨ ∃ ms ∈ p.types.values, fn ∈ ms.values := by
  simp [allFunctions]

theorem allFunctions_insertType (p : Package) (name : String) :
    { p with types := p.types.insertIfNew name {} }.allFunctions = p.allFunctions := by
  rw [allFunctions, Table.flatMap_values_insertIfNew rfl]
  rfl

theorem mem_allFunctions_modifyFunction {p : Package} {c : Callee} {f : Function → Function}
    {fn : Function} (h : fn ∈ (p.modifyFunction c f).allFunctions) :
    fn ∈ p.allFunctions ∨ ∃ g, fn = f g := by
  unfold modifyFunction at h
  split at h <;> rw [mem_allFunctions_iff] at h ⊢
  case h_1 =>
    rcases h with h | h
    · rcases Table.mem_values_modify h with h | ⟨g, -, h⟩
      · exact .inl (.inl h)
      · exact .inr ⟨g, h⟩
    · exact .inl (.inr h)
  case h_2 =>
    rcases h with h | ⟨ms, hms, h⟩
    · exact .inl (.inl h)
    · rcases Table.mem_values_modify hms with hms | ⟨ns, hns, rfl⟩
      · exact .inl (.inr ⟨ms, hms, h⟩)
      · rcases Table.mem_values_modify h with h | ⟨g, -, h⟩
        · exact .inl (.inr ⟨ns, hns, h⟩)
        · exact .inr ⟨g, h⟩

theorem mem_allFunctions_addFunction {p : Package} {g fn : Function}
    (h : fn ∈ (p.addFunction g).allFunctions) : fn ∈ p.allFunctions ∨ fn = g := by
  unfold addFunction at h
  split at h <;> rw [mem_allFunctions_iff] at h ⊢
  case h_1 =>
    rcases h with h | h
    · exact (Table.mem_values_insert h).imp_left .inl
    · exact .inl (.inr h)
  case h_2 =>
    rcases h with h | ⟨ms, hms, h⟩
    · exact .inl (.inl h)
    · rcases Table.mem_values_modify hms with hms | ⟨ns, hns, rfl⟩
      · rcases Table.mem_values_insertIfNew hms with hms | rfl
        · exact .inl (.inr ⟨ms, hms, h⟩)
        · cases h
      · rcases Table.mem_values_insert h with h | h
        · rcases Table.mem_values_insertIfNew hns with hns | rfl
          · exact .inl (.inr ⟨ns, hns, h⟩)
          · cases h
        · exact .inr h

end Package

namespace Program

theorem mem_allFunctions_modifyPackage {p : Program} {path : String} {f : Package → Package}
    {fn : Function} (h : fn ∈ (p.modifyPackage path f).allFunctions) :
    fn ∈ p.allFunctions ∨ ∃ q ∈ p.packages.values, fn ∈ (f q).allFunctions := by
  obtain ⟨q, hq, h⟩ := List.mem_flatMap.mp h
  rcases Table.mem_values_modify hq with hq | ⟨r, hr, rfl⟩
  · exact .inl (List.mem_flatMap.mpr ⟨q, hq, h⟩)
  · exact .inr ⟨r, hr, h⟩

/-- Every function is sound. -/
def IsSound (p : Program) : Prop := ∀ fn ∈ p.allFunctions, fn.IsSound

theorem isSound_empty : IsSound {} := by simp [IsSound, allFunctions, Table.values]

theorem IsSound.modifyPackage {p : Program} (hSound : p.IsSound) (path : String)
    {f : Package → Package}
    (h : ∀ q fn, fn ∈ (f q).allFunctions → fn ∈ q.allFunctions ∨ fn.IsSound) :
    (p.modifyPackage path f).IsSound := by
  intro fn hfn
  rcases mem_allFunctions_modifyPackage hfn with hfn | ⟨q, hq, hfn⟩
  · exact hSound fn hfn
  · rcases h q fn hfn with hfn | hfn
    · exact hSound fn (List.mem_flatMap.mpr ⟨q, hq, hfn⟩)
    · exact hfn

end Program

namespace Dump

theorem isSound_loadBody {program program' : Program} {fn linked : Function} {forms : List Form}
    (hSound : program.IsSound) (h : loadBody program fn forms = (program', .ok linked)) :
    program'.IsSound := by
  unfold loadBody at h
  split at h
  case h_1 body hRun =>
    have hStart : Body.IsSound (IsLaidOut 0 0) program.allFunctions { program } :=
      ⟨⟨rfl, by simp, by simp⟩, rfl, by simp [Table.values], by simp, by simp⟩
    have hBody := ensures_loadBlocks fn forms _ _ _ hStart hRun
    obtain ⟨rfl, -⟩ := Prod.mk.inj h
    have hKept : body.program.IsSound := fun g hg => hSound g (hBody.functions ▸ hg)
    refine hKept.modifyPackage _ fun q g hg => ?_
    refine (Package.mem_allFunctions_modifyFunction hg).imp_right ?_
    rintro ⟨-, rfl⟩
    have hFinished := isLaidOut_finished hBody.blocks hBody.settled
    rw [← hFinished.size] at hFinished
    exact Function.isSound_link hFinished
  case h_2 => cases (Prod.mk.inj h).2

section Declarations

/-- Declared functions have no blocks, so they are sound. -/
def Declared.IsSound (s : Declared) : Prop := s.program.IsSound

theorem keeps_refuseDeclaration {α : Type} {Q : α → Prop} (problem : Problem)
    (form : Option Form) : Keeps Declared.IsSound (refuse problem form : DeclareM α) Q :=
  keeps_throw _

theorem keeps_freshValue (name : String) (origin : Origin) :
    Keeps Declared.IsSound (freshValue name origin) fun _ => True := by
  refine keeps_get.bind fun s hs => (keeps_set ?_).bind fun _ _ => keeps_pure trivial
  exact hs

theorem keeps_modifyPackage (path : String) {f : Package → Package}
    (h : ∀ q fn, fn ∈ (f q).allFunctions → fn ∈ q.allFunctions ∨ fn.IsSound) :
    Keeps Declared.IsSound (modifyPackage path f) fun _ => True :=
  keeps_modify fun _ hs => Program.IsSound.modifyPackage hs path h

theorem keeps_declareGlobal (path name : String) :
    Keeps Declared.IsSound (declareGlobal path name) fun _ => True := by
  refine keeps_get.bind fun s hs => ?_
  split
  case h_1 => exact keeps_pure trivial
  case h_2 =>
    refine (keeps_freshValue _ _).bind fun v _ => ?_
    exact keeps_modifyPackage path fun q fn hfn => .inl hfn

theorem keeps_declareConst (path name : String) (literal : Option Form) :
    Keeps Declared.IsSound (declareConst path name literal) fun _ => True := by
  refine (keeps_freshValue _ _).bind fun v _ => ?_
  exact keeps_modifyPackage path fun q fn hfn => .inl hfn

theorem keeps_readItems {f : Pending} (hf : f.function.blocks = #[] ∧ f.function.removed = [])
    (items : List Form) : Keeps Declared.IsSound (readItems f items) fun g =>
      g.function.blocks = #[] ∧ g.function.removed = [] := by
  induction items generalizing f with
  | nil => exact keeps_pure hf
  | cons item items ih =>
      rw [readItems]
      split
      case h_1 =>
        split
        case h_1 => exact ih hf
        case h_2 => exact keeps_refuseDeclaration _ _
      case h_2 =>
        exact (keeps_mapM fun _ _ => keeps_freshValue _ _).bind fun _ _ => ih hf
      case h_3 =>
        exact (keeps_mapM fun _ _ => keeps_freshValue _ _).bind fun _ _ => ih hf
      case h_4 => exact ih hf
      case h_5 => exact keeps_throw _

theorem keeps_declareFunction (callee : Callee) (items : List Form) :
    Keeps Declared.IsSound (declareFunction callee items) fun _ => True := by
  refine keeps_get.bind fun s hs => ?_
  split
  case h_1 => exact keeps_refuseDeclaration _ _
  case h_2 =>
    refine (keeps_readItems ⟨rfl, rfl⟩ items).bind fun f hf => ?_
    refine (keeps_modifyPackage _ fun q fn hfn => ?_).bind fun _ _ => ?_
    · refine (Package.mem_allFunctions_addFunction hfn).imp_right ?_
      rintro rfl
      exact Function.isSound_of_empty hf.1 hf.2
    · split
      case isTrue => exact keeps_modify fun _ hs => hs
      case isFalse => exact keeps_pure trivial

theorem keeps_declareMethods (path type : String) (methods : List Form) :
    Keeps Declared.IsSound (declareMethods path type methods) fun _ => True := by
  induction methods with
  | nil => exact keeps_pure trivial
  | cons m methods ih =>
      rw [declareMethods]
      split
      case h_1 => exact (keeps_declareFunction _ _).bind fun _ _ => ih
      case h_2 => exact (keeps_refuseDeclaration _ _).bind fun _ (_ : True) => ih

theorem keeps_declareMember (path : String) (member : Form) :
    Keeps Declared.IsSound (declareMember path member) fun _ => True := by
  unfold declareMember
  split
  case h_1 => exact keeps_declareGlobal _ _
  case h_2 => exact keeps_declareConst _ _ _
  case h_3 => exact keeps_declareConst _ _ _
  case h_4 =>
    refine (keeps_modifyPackage _ fun q fn hfn => .inl ?_).bind fun _ _ =>
      keeps_declareMethods _ _ _
    exact Package.allFunctions_insertType q _ ▸ hfn
  case h_5 => exact keeps_declareFunction _ _
  case h_6 => exact keeps_declareFunction _ _
  case h_7 => exact keeps_refuseDeclaration _ _

theorem keeps_declarePackage (form : Form) :
    Keeps Declared.IsSound (declarePackage form) fun _ => True := by
  unfold declarePackage
  split
  case h_1 =>
    refine (keeps_modify fun s hs => ?_).bind fun _ _ =>
      keeps_forM fun member _ => keeps_declareMember _ member
    intro fn hfn
    exact hs fn (Program.allFunctions_addPackage s.program _ ▸ hfn)
  case h_2 => exact keeps_refuseDeclaration _ _

theorem keeps_declareProgram (form : Form) :
    Keeps Declared.IsSound (declareProgram form) fun _ => True := by
  unfold declareProgram
  split
  case isTrue => exact keeps_forM fun package _ => keeps_declarePackage package
  case isFalse => exact keeps_refuseDeclaration _ _

end Declarations

theorem isSound_loadBodies {program : Program} {pending : List Pending}
    (hSound : program.IsSound) (h : (loadBodies program pending).error = none) :
    (loadBodies program pending).program.IsSound := by
  induction pending generalizing program with
  | nil => exact hSound
  | cons f rest ih =>
      rw [loadBodies] at h ⊢
      cases hLoad : loadBody program f.function f.blocks with
      | mk program' result =>
          cases result with
          | error e =>
              rw [hLoad] at h
              cases h
          | ok fn =>
              rw [hLoad] at h
              exact ih (isSound_loadBody hSound hLoad) h

theorem isSound_loadForm {program : Program} {form : Form} (hSound : program.IsSound)
    (h : (loadForm program form).error = none) : (loadForm program form).program.IsSound := by
  unfold loadForm at h ⊢
  cases hDeclare : declareProgram form { program } with
  | error e s =>
      rw [hDeclare] at h
      cases h
  | ok _ s =>
      rw [hDeclare] at h
      have hStart : Declared.IsSound { program } := hSound
      exact isSound_loadBodies (keeps_declareProgram form _ _ _ hStart hDeclare).1 h

end Dump

namespace Program

theorem IsSound.load {p : Program} (hSound : p.IsSound) {text : String}
    (h : (p.load text).error = none) : (p.load text).program.IsSound := by
  unfold Program.load at h ⊢
  cases hRead : Datum.read text with
  | error e =>
      rw [hRead] at h
      cases h
  | ok datum =>
      simp only [hRead] at h ⊢
      cases hForm : datum.form? with
      | none =>
          rw [hForm] at h
          cases h
      | some form =>
          rw [hForm] at h
          exact Dump.isSound_loadForm hSound h

/-- Adds dumps to a program one after the other, as long as they load. -/
def loadAll? (p : Program) : List String → Option Program
  | [] => some p
  | text :: texts =>
    match (p.load text).error with
    | none => (p.load text).program.loadAll? texts
    | some _ => none

theorem IsSound.loadAll? {p q : Program} (hSound : p.IsSound) {texts : List String}
    (h : p.loadAll? texts = some q) : q.IsSound := by
  induction texts generalizing p with
  | nil =>
      cases h
      exact hSound
  | cons text texts ih =>
      rw [Program.loadAll?] at h
      split at h
      case h_1 hNone => exact ih (hSound.load hNone) h
      case h_2 => cases h

end Program

end NilGuard
