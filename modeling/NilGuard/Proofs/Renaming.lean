import NilGuard.Proofs.Declaration
/-! Dumps in which the names of a function are renamed: where it binds them, as parameters, free
variables and lets, and where they are operands. Words that stand for something else are left
alone, wherever they stand. -/
namespace NilGuard

/-- The names that parameters and free variables without a name of their own go by. -/
def Function.automaticNames (fn : Function) : List String :=
  ((fn.params ++ fn.freeVars).filter (·.tag.name = "")).map Value.name

def Program.automaticNames (p : Program) (c : Callee) : List String :=
  ((p.function? c).map Function.automaticNames).getD []

namespace Dump

/-- Whether an item of an expression is an operand, by its place. The word at the front has place
zero. -/
def Shape.isOperand : Shape → Nat → Bool
  | .const, _ | .global, _ | .funcRef, _ => false
  | .simple _, i | .phi, i | .callDynamic, i => 0 < i
  | .fieldAddr, i | .arrayPtr, i => i == 1
  | .closure, i | .call, i => 2 < i
  | .single place, i => i == place - 1 + 1
  | .binop, i => i == 2 || i == 3
  | .callMethod, i => 3 < i

def Ending.isOperand : Ending → Nat → Bool
  | .jump, _ => false
  | .panic, i => i == 1
  | .branch, i | .ret, i | .store, i => 0 < i

/-- An expression with its operands renamed. -/
def renameIn (items below : List Form) : Form :=
  match (Form.list items).head?.bind Shape.ofHead? with
  | none => .list items
  | some shape => .list ((items.zip below).mapIdx fun i x => if shape.isOperand i then x.2 else x.1)

/-- The names among the operands of an expression. -/
def operandNamesIn (items : List Form) (below : List (List String)) : List String :=
  match (Form.list items).head?.bind Shape.ofHead? with
  | none => []
  | some shape => (below.mapIdx fun i names => if shape.isOperand i then names else []).flatten

/-- The names that stand in a form where values are needed. -/
def operandNames : Form → List String :=
  Form.fold (fun x => match x with | .sym s => [s] | _ => []) operandNamesIn

end Dump

namespace Form

/-- A form that stands where a value is needed, with its names renamed. -/
def rename (σ : String → String) : Form → Form :=
  fold (fun x => match x with | .sym s => .sym (σ s) | x => x) Dump.renameIn

/-- A form that binds its text as a name, with another name. -/
def renameBinder (σ : String → String) : Form → Form
  | .sym s => .sym (σ s)
  | .str s => .str (σ s)
  | x => if σ x.text = x.text then x else .str (σ x.text)

end Form

namespace Dump

/-- The items of an expression with the operands renamed. -/
def Shape.renameItems (shape : Shape) (σ : String → String) (items : List Form) : List Form :=
  items.mapIdx fun i x => if shape.isOperand i then x.rename σ else x

/-- What an item of a statement is there for. -/
inductive Role where
  | binder
  | operand
  | other
  deriving DecidableEq

/-- Whether an item of a statement that binds no name is an operand, by its place. -/
def isOperandOf (head : String) (i : Nat) : Bool :=
  match Ending.ofHead? head with
  | some ending => ending.isOperand i
  | none => (Shape.ofHead? head).any (·.isOperand i)

/-- What the item at a place of a statement is there for. -/
def role (stmt : Form) (i : Nat) : Role :=
  match stmt.head? with
  | none => .other
  | some "let" => if i = 1 then .binder else if i = 2 then .operand else .other
  | some head => if isOperandOf head i then .operand else .other

/-- The names that stand in a statement where values are needed. -/
def statementNames (stmt : Form) : List String :=
  (stmt.items.mapIdx fun i x => if role stmt i = .operand then operandNames x else []).flatten

/-- An item of a statement, renamed as its role asks for. -/
def renameAs (σ : String → String) (x : Form) : Role → Form
  | .binder => x.renameBinder σ
  | .operand => x.rename σ
  | .other => x

def renameStatement (σ : String → String) : Form → Form
  | .list items => .list (items.mapIdx fun i x => renameAs σ x (role (.list items) i))
  | x => x

/-- A block with its statements renamed. The items of comments and successors have no roles. -/
def renameBlock (σ : String → String) (block : Form) : Form :=
  .list (block.items.take 2 ++ (block.items.drop 2).map (renameStatement σ))

def renameItem (σ : String → String) (item : Form) : Form :=
  match item.head? with
  | some "params" | some "free-vars" =>
    .list (item.items.take 1 ++ (item.items.drop 1).map (Form.renameBinder σ))
  | some "block" => renameBlock σ item
  | _ => item

namespace Declaration

/-- The names of the items of a kind: parameters or free variables. -/
def namesOf (d : Declaration) (kind : String) : List String :=
  (d.items.filter fun item => item.head? = some kind).flatMap fun item =>
    (item.items.drop 1).map Form.text

/-- The names of the parameters and free variables. -/
def parameterNames (d : Declaration) : List String := d.namesOf "params" ++ d.namesOf "free-vars"

def statements (d : Declaration) : List Form := d.blocks.flatMap statementsOf

def letNames (d : Declaration) : List String :=
  (d.statements.filter fun stmt => stmt.head? = some "let").map letName

/-- The names that a function binds. -/
def boundNames (d : Declaration) : List String := d.parameterNames ++ d.letNames

/-- The names that the body of a function has as operands. -/
def usedNames (d : Declaration) : List String := d.statements.flatMap statementNames

/-- The names that a function binds can be renamed: different ones get different names, which are
not among the other names that its body uses. A parameter or free variable with the empty name has
no name of its own. It goes by an automatic name, which cannot be written where it is bound. So the
automatic names are kept and no other name becomes one of them, and parameters and free variables
without a name are those without one before. -/
structure Admits (d : Declaration) (automatic : List String) (σ : String → String) : Prop where
  injective : ∀ x ∈ d.boundNames ++ automatic, ∀ y ∈ d.boundNames ++ automatic, σ x = σ y → x = y
  fresh : ∀ x ∈ d.boundNames, ∀ y ∈ d.usedNames, y ∉ d.boundNames → σ x ≠ y
  keeps : ∀ x ∈ automatic, σ x = x
  empty : ∀ x ∈ d.parameterNames, σ x = "" ↔ x = ""

instance (d : Declaration) (automatic : List String) (σ : String → String) :
    Decidable (d.Admits automatic σ) :=
  decidable_of_iff (_ ∧ _ ∧ _ ∧ _) ⟨fun h => ⟨h.1, h.2.1, h.2.2.1, h.2.2.2⟩,
    fun h => ⟨h.injective, h.fresh, h.keeps, h.empty⟩⟩

/-- Renames what a function binds and nothing else. -/
def bound (d : Declaration) (σ : String → String) (x : String) : String :=
  if x ∈ d.boundNames then σ x else x

end Declaration

section Dumps

variable (τ : Declaration → String → String)

/-- The items of a declaration, renamed as it asks for. -/
def Declaration.renamed (d : Declaration) : List Form := d.items.map (renameItem (τ d))

/-- A declaration with its names renamed as it asks for. -/
def Declaration.rename (d : Declaration) : Declaration := { d with items := d.renamed τ }

def renameMethod (path type : String) (m : Form) : Form :=
  match m.head?, m.items with
  | some "method", word :: name :: items =>
    .list (word :: name ::
      (Declaration.mk { package := path, name := name.text, receiver := some type } items).renamed τ)
  | _, _ => m

def renameMember (path : String) (member : Form) : Form :=
  match member.head?, member.items with
  | some "type", word :: name :: methods =>
    .list (word :: name :: methods.map (renameMethod τ path name.text))
  | some "func", word :: name :: items =>
    .list (word :: name :: (Declaration.mk { package := path, name := name.text } items).renamed τ)
  | some "method", word :: type :: name :: items =>
    .list (word :: type :: name :: (Declaration.mk
      { package := path, name := name.text, receiver := some type.text } items).renamed τ)
  | _, _ => member

def renamePackage (form : Form) : Form :=
  match form.head?, form.items with
  | some "package", word :: path :: members =>
    .list (word :: path :: members.map (renameMember τ path.text))
  | _, _ => form

/-- A dump with each of its functions renamed in its own way. -/
def renameEach (form : Form) : Form :=
  .list (form.items.take 1 ++ (form.items.drop 1).map (renamePackage τ))

end Dumps

/-- A dump in which the names that a function binds are renamed, for each function as given. -/
def renameBound (σ : Callee → String → String) : Form → Form :=
  renameEach fun d => d.bound (σ d.callee)

/-! ### Expressions -/

section Expressions

variable {σ : String → String} {items : List Form} {head : String} {shape : Shape}

theorem zip_map_mapIdx {α β γ : Type} (f : α → β) (h : Nat → α × β → γ) (xs : List α) :
    (xs.zip (xs.map f)).mapIdx h = xs.mapIdx fun i x => h i (x, f x) := by
  apply List.ext_getElem
  · simp
  · intro i hLeft hRight
    simp

theorem rename_list (hHead : (Form.list items).head? = some head)
    (hShape : Shape.ofHead? head = some shape) :
    (Form.list items).rename σ = .list (shape.renameItems σ items) := by
  rw [Form.rename, Form.fold_list, renameIn, hHead, Option.bind_some, hShape]
  simp only [zip_map_mapIdx]
  rfl

theorem list_items_rename (items : List Form) :
    Form.list ((Form.list items).rename σ).items = (Form.list items).rename σ := by
  rw [Form.rename, Form.fold_list, renameIn]
  split <;> rfl

theorem mem_operandNames_list (hHead : (Form.list items).head? = some head)
    (hShape : Shape.ofHead? head = some shape) {name : String} :
    name ∈ operandNames (.list items) ↔
      ∃ i x, items[i]? = some x ∧ shape.isOperand i = true ∧ name ∈ operandNames x := by
  rw [operandNames, Form.fold_list, operandNamesIn, hHead, Option.bind_some, hShape]
  simp only [List.mem_flatten, List.mem_mapIdx]
  constructor
  · rintro ⟨names, ⟨i, hi, rfl⟩, hName⟩
    split at hName
    case isTrue hOperand =>
      rw [List.length_map] at hi
      rw [List.getElem_map] at hName
      exact ⟨i, items[i], List.getElem?_eq_getElem hi, hOperand, hName⟩
    case isFalse => cases hName
  · rintro ⟨i, x, hi, hOperand, hName⟩
    obtain ⟨hLt, rfl⟩ := List.getElem?_eq_some_iff.mp hi
    refine ⟨_, ⟨i, by simpa using hLt, rfl⟩, ?_⟩
    rw [if_pos hOperand, List.getElem_map]
    exact hName

theorem Shape.isOperand_zero (shape : Shape) : shape.isOperand 0 = false := by
  cases shape <;> simp [Shape.isOperand]

theorem head?_mapIdx {f : Nat → Form → Form} (h : ∀ x, (f 0 x).word? = x.word?) :
    (Form.list (items.mapIdx f)).head? = (Form.list items).head? := by
  cases items with
  | nil => rfl
  | cons x xs =>
      rw [List.mapIdx_cons]
      exact h x

/-- Renaming does not touch the word at the front. -/
theorem head?_rename (x : Form) : (x.rename σ).head? = x.head? := by
  cases x with
  | list items =>
      cases hHead : (Form.list items).head? with
      | none =>
          have hSame : (Form.list items).rename σ = .list items := by
            rw [Form.rename, Form.fold_list, renameIn, hHead]
            rfl
          rw [hSame, hHead]
      | some head =>
          cases hShape : Shape.ofHead? head with
          | none =>
              have hSame : (Form.list items).rename σ = .list items := by
                rw [Form.rename, Form.fold_list, renameIn, hHead, Option.bind_some, hShape]
              rw [hSame, hHead]
          | some shape =>
              rw [rename_list hHead hShape, Shape.renameItems, head?_mapIdx, hHead]
              simp [Shape.isOperand_zero]
  | _ => rfl

theorem drop_mapIdx {f : Nat → Form → Form} {g : Form → Form} {k : Nat}
    (h : ∀ i, k ≤ i → f i = g) : (items.mapIdx f).drop k = (items.drop k).map g := by
  apply List.ext_getElem?
  intro j
  rw [List.getElem?_drop, List.getElem?_mapIdx, h _ (Nat.le_add_right k j), List.getElem?_map,
    List.getElem?_drop]

theorem take_drop_mapIdx {f : Nat → Form → Form} {g : Form → Form} {k n : Nat}
    (h : ∀ i, k ≤ i → i < k + n → f i = g) :
    ((items.mapIdx f).drop k).take n = ((items.drop k).take n).map g := by
  apply List.ext_getElem?
  intro j
  rw [List.getElem?_take, List.getElem?_map, List.getElem?_take]
  split
  case isTrue hLt =>
    rw [List.getElem?_drop, List.getElem?_mapIdx, List.getElem?_drop,
      h _ (Nat.le_add_right k j) (Nat.add_lt_add_left hLt k)]
  case isFalse => rfl

/-- The operands of a renamed expression are its operands renamed. -/
theorem Shape.operands_renameItems (shape : Shape) (items : List Form) :
    shape.operands ((shape.renameItems σ items).drop 1) =
      (shape.operands (items.drop 1)).map (Form.rename σ) := by
  cases shape with
  | const | global | funcRef => rfl
  | simple | callDynamic | phi =>
      refine drop_mapIdx fun i hi => funext fun x => if_pos ?_
      exact decide_eq_true hi
  | fieldAddr | arrayPtr =>
      refine take_drop_mapIdx fun i hi hLt => funext fun x => if_pos ?_
      exact beq_iff_eq.mpr (by omega)
  | closure | call =>
      simp only [Shape.operands, Shape.inline, List.drop_drop]
      refine drop_mapIdx fun i hi => funext fun x => if_pos ?_
      exact decide_eq_true hi
  | single place =>
      simp only [Shape.operands, Shape.inline, List.drop_drop]
      refine take_drop_mapIdx fun i hi hLt => funext fun x => if_pos ?_
      exact beq_iff_eq.mpr (by omega)
  | binop =>
      simp only [Shape.operands, Shape.inline, List.drop_drop]
      refine take_drop_mapIdx fun i hi hLt => funext fun x => if_pos ?_
      simp only [Shape.isOperand, Bool.or_eq_true, beq_iff_eq]
      omega
  | callMethod =>
      simp only [Shape.operands, Shape.inline, List.drop_drop]
      refine drop_mapIdx fun i hi => funext fun x => if_pos ?_
      exact decide_eq_true hi

theorem Shape.inline_renameItems (shape : Shape) (items : List Form) :
    shape.inline ((shape.renameItems σ items).drop 1) =
      (shape.inline (items.drop 1)).map (Form.rename σ) := by
  have hOperands := shape.operands_renameItems (σ := σ) items
  cases shape with
  | phi => rfl
  | _ => exact hOperands

theorem exists_of_mem_drop {x : Form} {k : Nat} (hx : x ∈ items.drop k) :
    ∃ j, items[k + j]? = some x := by
  obtain ⟨j, hj⟩ := List.mem_iff_getElem?.mp hx
  exact ⟨j, by rwa [List.getElem?_drop] at hj⟩

theorem exists_of_mem_take_drop {x : Form} {k n : Nat} (hx : x ∈ (items.drop k).take n) :
    ∃ j < n, items[k + j]? = some x := by
  obtain ⟨j, hj⟩ := List.mem_iff_getElem?.mp hx
  rw [List.getElem?_take, List.getElem?_drop] at hj
  split at hj
  case isTrue hLt => exact ⟨j, hLt, hj⟩
  case isFalse => cases hj

/-- Operands stand at the places of operands. -/
theorem Shape.isOperand_of_mem {shape : Shape} {x : Form}
    (hx : x ∈ shape.operands (items.drop 1)) :
    ∃ i, items[i]? = some x ∧ shape.isOperand i = true := by
  cases shape with
  | const | global | funcRef => cases hx
  | simple | callDynamic | phi =>
      obtain ⟨j, hj⟩ := exists_of_mem_drop hx
      exact ⟨_, hj, decide_eq_true (by omega)⟩
  | fieldAddr | arrayPtr =>
      obtain ⟨j, hLt, hj⟩ := exists_of_mem_take_drop hx
      exact ⟨_, hj, beq_iff_eq.mpr (by omega)⟩
  | closure | call =>
      simp only [Shape.operands, Shape.inline, List.drop_drop] at hx
      obtain ⟨j, hj⟩ := exists_of_mem_drop hx
      exact ⟨_, hj, decide_eq_true (by omega)⟩
  | single place =>
      simp only [Shape.operands, Shape.inline, List.drop_drop] at hx
      obtain ⟨j, hLt, hj⟩ := exists_of_mem_take_drop hx
      exact ⟨_, hj, beq_iff_eq.mpr (by omega)⟩
  | binop =>
      simp only [Shape.operands, Shape.inline, List.drop_drop] at hx
      obtain ⟨j, hLt, hj⟩ := exists_of_mem_take_drop hx
      refine ⟨_, hj, ?_⟩
      simp only [Shape.isOperand, Bool.or_eq_true, beq_iff_eq]
      omega
  | callMethod =>
      simp only [Shape.operands, Shape.inline, List.drop_drop] at hx
      obtain ⟨j, hj⟩ := exists_of_mem_drop hx
      exact ⟨_, hj, decide_eq_true (by omega)⟩

theorem ownPosition?_mapIdx {f : Nat → Form → Form}
    (h : ∀ x, (f (items.length - 1) x).head? = x.head? ∧
      (x.head? = some "pos" → f (items.length - 1) x = x)) :
    ownPosition? (items.mapIdx f) = ownPosition? items := by
  rw [ownPosition?, ownPosition?, List.getLast?_mapIdx, List.length_mapIdx]
  cases items.getLast? with
  | none => rfl
  | some x =>
      obtain ⟨hHead, hSame⟩ := h x
      simp only [Option.map_some, Option.filter_some, hHead]
      split
      case isTrue hPosition => rw [hSame (of_decide_eq_true hPosition).2]
      case isFalse => rfl

theorem withoutPosition_mapIdx {f : Nat → Form → Form}
    (h : ownPosition? (items.mapIdx f) = ownPosition? items) :
    withoutPosition (items.mapIdx f) = (withoutPosition items).mapIdx f := by
  rw [withoutPosition, withoutPosition, h]
  split
  case isTrue =>
    apply List.ext_getElem
    · simp
    · intro i hLeft hRight
      simp
  case isFalse => rfl

theorem head?_withoutPosition (items : List Form) :
    (Form.list (withoutPosition items)).head? = (Form.list items).head? := by
  unfold withoutPosition
  split
  case isTrue hOwn =>
    match items with
    | [] => rfl
    | [x] => simp [ownPosition?] at hOwn
    | x :: y :: rest => rfl
  case isFalse => rfl

theorem getElem?_of_withoutPosition {i : Nat} {x : Form}
    (h : (withoutPosition items)[i]? = some x) : items[i]? = some x := by
  obtain ⟨hLt, -⟩ := List.getElem?_eq_some_iff.mp h
  obtain ⟨rest, hItems⟩ := withoutPosition_isPrefix items
  rwa [← List.getElem?_append_left hLt, hItems] at h

theorem renamed_pos {x : Form} (hHead : x.head? = some "pos") : x.rename σ = x := by
  cases x with
  | list items =>
      rw [Form.rename, Form.fold_list, renameIn, hHead]
      rfl
  | _ => cases hHead

/-- Renaming does not touch positions. -/
theorem ownPosition?_renameItems (shape : Shape) (items : List Form) :
    ownPosition? (shape.renameItems σ items) = ownPosition? items := by
  apply ownPosition?_mapIdx
  intro x
  split
  case isTrue => exact ⟨head?_rename x, renamed_pos⟩
  case isFalse => exact ⟨rfl, fun _ => rfl⟩

theorem withoutPosition_renameItems (shape : Shape) (items : List Form) :
    withoutPosition (shape.renameItems σ items) = shape.renameItems σ (withoutPosition items) :=
  withoutPosition_mapIdx (ownPosition?_renameItems shape items)

theorem Shape.length_renameItems (shape : Shape) (items : List Form) :
    (shape.renameItems σ items).length = items.length :=
  List.length_mapIdx

/-- What is no operand is left alone. -/
theorem Shape.arg_renameItems {i : Nat} (h : shape.isOperand (1 + i) = false) (items : List Form) :
    ((shape.renameItems σ items).drop 1)[i]? = (items.drop 1)[i]? := by
  rw [List.getElem?_drop, List.getElem?_drop, renameItems, List.getElem?_mapIdx, h]
  exact Option.map_id'

theorem depthAll_mapIdx {f : Nat → Form → Form} (xs : List Form)
    (h : ∀ x ∈ xs, ∀ i, (f i x).depth = x.depth) :
    Form.depthAll (xs.mapIdx f) = Form.depthAll xs := by
  induction xs generalizing f with
  | nil => rfl
  | cons x xs ih =>
      rw [List.mapIdx_cons, Form.depthAll, Form.depthAll, h x List.mem_cons_self,
        ih fun y hy i => h y (List.mem_cons_of_mem x hy) (i + 1)]

theorem depth_rename (x : Form) : (x.rename σ).depth = x.depth := by
  induction x using Form.induct with
  | atom x hAtom =>
      cases x with
      | list items => exact absurd rfl (hAtom items)
      | _ => rfl
  | list items ih =>
      cases hHead : (Form.list items).head?.bind Shape.ofHead? with
      | none => rw [Form.rename, Form.fold_list, renameIn, hHead]
      | some shape =>
          obtain ⟨head, hHead, hShape⟩ := Option.bind_eq_some_iff.mp hHead
          rw [rename_list hHead hShape, Form.depth, Form.depth, Shape.renameItems, depthAll_mapIdx]
          intro x hx i
          split
          case isTrue => exact ih x hx
          case isFalse => rfl

/-- Only the names that a form has as operands matter for its renaming. -/
theorem rename_congr {f g : String → String} (x : Form)
    (h : ∀ name ∈ operandNames x, f name = g name) : x.rename f = x.rename g := by
  induction x using Form.induct with
  | atom x hAtom =>
      cases x with
      | list items => exact absurd rfl (hAtom items)
      | sym s => exact congrArg Form.sym (h s (List.mem_singleton_self s))
      | _ => rfl
  | list items ih =>
      cases hHead : (Form.list items).head?.bind Shape.ofHead? with
      | none => simp only [Form.rename, Form.fold_list, renameIn, hHead]
      | some shape =>
          obtain ⟨head, hHead, hShape⟩ := Option.bind_eq_some_iff.mp hHead
          rw [rename_list hHead hShape, rename_list hHead hShape]
          refine congrArg Form.list (List.ext_getElem? fun i => ?_)
          rw [Shape.renameItems, Shape.renameItems, List.getElem?_mapIdx, List.getElem?_mapIdx]
          cases hItem : items[i]? with
          | none => rfl
          | some x =>
              simp only [Option.map_some]
              split
              case isTrue hOperand =>
                refine congrArg some (ih x (List.mem_of_getElem? hItem) fun name hName => ?_)
                exact h name ((mem_operandNames_list hHead hShape).mpr
                  ⟨i, x, hItem, hOperand, hName⟩)
              case isFalse => rfl

/-- The names of an operand are among those of its expression. -/
theorem operandNames_of_mem (hHead : (Form.list items).head? = some head)
    (hShape : Shape.ofHead? head = some shape) {x : Form}
    (hx : x ∈ shape.operands ((withoutPosition items).drop 1)) {name : String}
    (hName : name ∈ operandNames x) : name ∈ operandNames (.list items) := by
  obtain ⟨i, hItem, hOperand⟩ := Shape.isOperand_of_mem hx
  exact (mem_operandNames_list hHead hShape).mpr
    ⟨i, x, getElem?_of_withoutPosition hItem, hOperand, hName⟩

end Expressions

/-! ### Statements -/

section Statements

variable {σ : String → String} {stmt : Form} {head : String}

theorem text_renameBinder (x : Form) : (x.renameBinder σ).text = σ x.text := by
  have hOther (y : Form) : (if σ y.text = y.text then y else .str (σ y.text)).text = σ y.text := by
    split
    case isTrue hSame => exact hSame.symm
    case isFalse => rfl
  cases x with
  | sym s => rfl
  | str s => rfl
  | _ => exact hOther _

theorem word?_renameBinder {x : Form} {name : String} (h : x.word? = some name) :
    (x.renameBinder σ).word? = some (σ name) := by
  cases x with
  | sym s | str s =>
      cases h
      rfl
  | _ => cases h

theorem renameBinder_congr {f g : String → String} {x : Form} (h : f x.text = g x.text) :
    x.renameBinder f = x.renameBinder g := by
  cases x with
  | sym s => exact congrArg Form.sym h
  | str s => exact congrArg Form.str h
  | _ => simp only [Form.renameBinder, h]

theorem role_let (hLet : stmt.head? = some "let") (i : Nat) :
    role stmt i = if i = 1 then .binder else if i = 2 then .operand else .other := by
  rw [role, hLet]
  rfl

theorem role_of_ne_let (hHead : stmt.head? = some head) (hLet : head ≠ "let") (i : Nat) :
    role stmt i = if isOperandOf head i then .operand else .other := by
  unfold role
  split
  case h_1 hNone => rw [hHead] at hNone; cases hNone
  case h_2 hSome => rw [hHead] at hSome; exact absurd (Option.some.inj hSome) hLet
  case h_3 other _ hSome => rw [hHead] at hSome; rw [Option.some.inj hSome]

theorem role_ending {ending : Ending} (hHead : stmt.head? = some head)
    (hEnding : Ending.ofHead? head = some ending) (i : Nat) :
    role stmt i = if ending.isOperand i then .operand else .other := by
  rw [role_of_ne_let hHead, isOperandOf, hEnding]
  rintro rfl
  cases hEnding

theorem role_expression {shape : Shape} (hHead : stmt.head? = some head)
    (hShape : Shape.ofHead? head = some shape) (i : Nat) :
    role stmt i = if shape.isOperand i then .operand else .other := by
  rw [role_of_ne_let hHead, isOperandOf, Ending.ofHead?_eq_none hShape, hShape]
  · rfl
  · rintro rfl
    cases hShape

theorem role_zero (stmt : Form) : role stmt 0 = .other := by
  unfold role
  split
  case h_1 => rfl
  case h_2 => rfl
  case h_3 head _ _ =>
    refine if_neg ?_
    rw [isOperandOf]
    cases Ending.ofHead? head with
    | some ending => cases ending <;> exact Bool.false_ne_true
    | none =>
        cases Shape.ofHead? head with
        | none => exact Bool.false_ne_true
        | some shape => simp [Shape.isOperand_zero]

theorem eq_let_of_role_eq_binder {i : Nat} (h : role stmt i = .binder) :
    stmt.head? = some "let" ∧ i = 1 := by
  unfold role at h
  split at h
  case h_1 => cases h
  case h_2 hLet =>
    split at h
    case isTrue hOne => exact ⟨hLet, hOne⟩
    case isFalse => split at h <;> cases h
  case h_3 => split at h <;> cases h

theorem items_renameStatement (σ : String → String) (stmt : Form) :
    (renameStatement σ stmt).items = stmt.items.mapIdx fun i x => renameAs σ x (role stmt i) := by
  cases stmt with
  | list items => rfl
  | _ => rfl

theorem head?_renameStatement (stmt : Form) : (renameStatement σ stmt).head? = stmt.head? := by
  cases stmt with
  | list items => exact head?_mapIdx fun x => by rw [role_zero, renameAs]
  | _ => rfl

theorem word?_renameStatement (stmt : Form) : (renameStatement σ stmt).word? = stmt.word? := by
  cases stmt <;> rfl

/-- A statement that is an expression is renamed as one. -/
theorem renameStatement_expression {shape : Shape} (hHead : stmt.head? = some head)
    (hShape : Shape.ofHead? head = some shape) : renameStatement σ stmt = stmt.rename σ := by
  cases stmt with
  | list items =>
      rw [rename_list hHead hShape, renameStatement]
      refine congrArg Form.list (List.ext_getElem? fun i => ?_)
      rw [Shape.renameItems, List.getElem?_mapIdx, List.getElem?_mapIdx,
        role_expression hHead hShape]
      cases shape.isOperand i <;> rfl
  | _ => cases hHead

/-- The binder of a let does not stand last, since its expression follows. -/
theorem ownPosition?_renameStatement
    (hLong : stmt.head? = some "let" → 3 ≤ stmt.items.length) :
    ownPosition? (renameStatement σ stmt).items = ownPosition? stmt.items := by
  rw [items_renameStatement]
  apply ownPosition?_mapIdx
  intro x
  cases hRole : role stmt (stmt.items.length - 1) with
  | operand => exact ⟨head?_rename x, renamed_pos⟩
  | other => exact ⟨rfl, fun _ => rfl⟩
  | binder =>
      obtain ⟨hLet, hLast⟩ := eq_let_of_role_eq_binder hRole
      have := hLong hLet
      omega

section Let

variable (hLet : stmt.head? = some "let") (hLong : 3 ≤ stmt.items.length)
include hLet hLong

theorem letName_renameStatement : letName (renameStatement σ stmt) = σ (letName stmt) := by
  have hLt : 1 < stmt.items.length := by omega
  simp only [letName, items_renameStatement, List.getElem?_mapIdx, role_let hLet,
    List.getElem?_eq_getElem hLt, Option.map_some, Option.getD_some, if_true, renameAs,
    text_renameBinder]

theorem letExpression?_renameStatement :
    letExpression? (renameStatement σ stmt) = (letExpression? stmt).map (Form.rename σ) := by
  have hPosition := ownPosition?_renameStatement (σ := σ) fun _ => hLong
  rw [items_renameStatement] at hPosition
  rw [letExpression?, letExpression?, items_renameStatement, withoutPosition_mapIdx hPosition,
    List.getElem?_mapIdx, role_let hLet]
  rfl

end Let

/-- The operands of a renamed statement are its operands renamed. -/
theorem Ending.operands_renameStatement {ending : Ending} (hHead : stmt.head? = some head)
    (hEnding : Ending.ofHead? head = some ending) (items : List Form) :
    ending.operands ((items.mapIdx fun i x => renameAs σ x (role stmt i)).drop 1) =
      (ending.operands (items.drop 1)).map (Form.rename σ) := by
  have hRename (i : Nat) (hOperand : ending.isOperand i = true) :
      (fun x => renameAs σ x (role stmt i)) = Form.rename σ := by
    funext x
    rw [role_ending hHead hEnding, if_pos hOperand, renameAs]
  cases ending with
  | jump => rfl
  | panic => exact take_drop_mapIdx fun i hi hLt => hRename i (beq_iff_eq.mpr (by omega))
  | branch | ret | store => exact drop_mapIdx fun i hi => hRename i (decide_eq_true hi)

theorem mem_statementNames {name : String} : name ∈ statementNames stmt ↔
    ∃ i x, stmt.items[i]? = some x ∧ role stmt i = .operand ∧ name ∈ operandNames x := by
  simp only [statementNames, List.mem_flatten, List.mem_mapIdx]
  constructor
  · rintro ⟨names, ⟨i, hi, rfl⟩, hName⟩
    split at hName
    case isTrue hRole => exact ⟨i, _, List.getElem?_eq_getElem hi, hRole, hName⟩
    case isFalse => cases hName
  · rintro ⟨i, x, hi, hRole, hName⟩
    obtain ⟨hLt, rfl⟩ := List.getElem?_eq_some_iff.mp hi
    exact ⟨_, ⟨i, hLt, rfl⟩, by rwa [if_pos hRole]⟩

theorem Ending.isOperand_of_mem {ending : Ending} {items : List Form} {x : Form}
    (hx : x ∈ ending.operands (items.drop 1)) :
    ∃ i, items[i]? = some x ∧ ending.isOperand i = true := by
  cases ending with
  | jump => cases hx
  | panic =>
      obtain ⟨j, hLt, hj⟩ := exists_of_mem_take_drop hx
      exact ⟨_, hj, beq_iff_eq.mpr (by omega)⟩
  | branch | ret | store =>
      obtain ⟨j, hj⟩ := exists_of_mem_drop hx
      exact ⟨_, hj, decide_eq_true (by omega)⟩

/-- The names of the parts of a statement are its names. -/
theorem statementNames_of_mem_partsOf {x : Form} (hx : x ∈ partsOf stmt) {name : String}
    (hName : name ∈ operandNames x) : name ∈ statementNames stmt := by
  rw [mem_statementNames]
  cases hHead : stmt.head? with
  | none =>
      rw [partsOf, hHead] at hx
      cases hx
  | some head =>
      by_cases hLet : head = "let"
      · rw [hLet] at hHead
        rw [partsOf_let hHead, Option.mem_toList] at hx
        exact ⟨2, x, getElem?_of_withoutPosition hx, by rw [role_let hHead]; rfl, hName⟩
      · simp only [partsOf, hHead, if_neg hLet] at hx
        cases hEnding : Ending.ofHead? head with
        | some ending =>
            rw [hEnding] at hx
            obtain ⟨i, hItem, hOperand⟩ := Ending.isOperand_of_mem hx
            refine ⟨i, x, getElem?_of_withoutPosition hItem, ?_, hName⟩
            rw [role_ending hHead hEnding, if_pos hOperand]
        | none =>
            rw [hEnding] at hx
            rw [List.mem_singleton.mp hx] at hName
            have hFront : (Form.list (withoutPosition stmt.items)).head? = some head := by
              cases stmt with
              | list items => rw [← hHead]; exact head?_withoutPosition items
              | _ => cases hHead
            cases hShape : Shape.ofHead? head with
            | none =>
                rw [operandNames, Form.fold_list, operandNamesIn, hFront, Option.bind_some,
                  hShape] at hName
                cases hName
            | some shape =>
                obtain ⟨i, y, hItem, hOperand, hName⟩ :=
                  (mem_operandNames_list hFront hShape).mp hName
                refine ⟨i, y, getElem?_of_withoutPosition hItem, ?_, hName⟩
                rw [role_expression hHead hShape, if_pos hOperand]

theorem renameStatement_congr {f g : String → String}
    (hNames : ∀ name ∈ statementNames stmt, f name = g name)
    (hLet : stmt.head? = some "let" → f (letName stmt) = g (letName stmt)) :
    renameStatement f stmt = renameStatement g stmt := by
  cases stmt with
  | list items =>
      refine congrArg Form.list (List.ext_getElem? fun i => ?_)
      rw [List.getElem?_mapIdx, List.getElem?_mapIdx]
      cases hItem : items[i]? with
      | none => rfl
      | some x =>
          refine congrArg some ?_
          dsimp only
          cases hRole : role (.list items) i with
          | other => rfl
          | operand =>
              exact rename_congr x fun name hName =>
                hNames name (mem_statementNames.mpr ⟨i, x, hItem, hRole, hName⟩)
          | binder =>
              obtain ⟨hHead, rfl⟩ := eq_let_of_role_eq_binder hRole
              have hSame := hLet hHead
              rw [letName, Form.items, hItem] at hSame
              exact renameBinder_congr hSame
  | _ => rfl

/-- Comments and successors are left alone. -/
theorem renameStatement_of_not_statement (h : stmt.word?.isSome ∨ stmt.head? = some "succs") :
    renameStatement σ stmt = stmt := by
  cases stmt with
  | list items =>
      have hHead : (Form.list items).head? = some "succs" := h.resolve_left Bool.false_ne_true
      have hRole (i : Nat) : role (.list items) i = .other := by
        rw [role_of_ne_let hHead (by decide)]
        rfl
      refine congrArg Form.list (List.ext_getElem? fun i => ?_)
      rw [List.getElem?_mapIdx, hRole]
      exact Option.map_id'
  | _ => rfl

end Statements

/-! ### Functions and dumps -/

section Functions

variable {σ : String → String} {block item : Form}

theorem head?_take_append (x : Form) (n : Nat) (f : List Form → List Form) (h : f [] = []) :
    (Form.list (x.items.take (n + 1) ++ f (x.items.drop (n + 1)))).head? = x.head? := by
  cases x with
  | list items =>
      cases items with
      | nil => simp [Form.items, Form.head?, h]
      | cons y ys => rfl
  | _ => simp [Form.items, Form.head?, h]

theorem drop_take_append (n : Nat) (xs : List Form) (f : Form → Form) :
    (xs.take n ++ (xs.drop n).map f).drop n = (xs.drop n).map f := by
  induction n generalizing xs with
  | zero => rfl
  | succ n ih =>
      cases xs with
      | nil => rfl
      | cons x xs => exact ih xs

theorem head?_renameBlock (block : Form) : (renameBlock σ block).head? = block.head? :=
  head?_take_append block 1 (List.map (renameStatement σ)) rfl

theorem items_renameBlock (block : Form) : (renameBlock σ block).items =
    block.items.take 2 ++ (block.items.drop 2).map (renameStatement σ) :=
  rfl

theorem drop_renameBlock (block : Form) :
    (renameBlock σ block).items.drop 2 = (block.items.drop 2).map (renameStatement σ) :=
  drop_take_append 2 block.items (renameStatement σ)

theorem blockNumber?_renameBlock (block : Form) :
    blockNumber? (renameBlock σ block) = blockNumber? block := by
  rw [blockNumber?, blockNumber?, items_renameBlock]
  match block.items with
  | [] | [_] | _ :: _ :: _ => rfl

theorem head?_renameItem (item : Form) : (renameItem σ item).head? = item.head? := by
  unfold renameItem
  split
  · exact head?_take_append item 0 (List.map (Form.renameBinder σ)) rfl
  · exact head?_take_append item 0 (List.map (Form.renameBinder σ)) rfl
  · exact head?_renameBlock item
  · rfl

theorem renameItem_block (hHead : item.head? = some "block") :
    renameItem σ item = renameBlock σ item := by
  rw [renameItem, hHead]
  rfl

theorem renameItem_binders (hHead : item.head? = some "params" ∨ item.head? = some "free-vars") :
    renameItem σ item =
      .list (item.items.take 1 ++ (item.items.drop 1).map (Form.renameBinder σ)) := by
  rcases hHead with hHead | hHead
  · rw [renameItem, hHead]
    rfl
  · rw [renameItem, hHead]
    rfl

theorem renameBlock_congr {f g : String → String}
    (hNames : ∀ stmt ∈ statementsOf block, ∀ name ∈ statementNames stmt, f name = g name)
    (hLets : ∀ stmt ∈ statementsOf block, stmt.head? = some "let" →
      f (letName stmt) = g (letName stmt)) : renameBlock f block = renameBlock g block := by
  refine congrArg (fun rest => Form.list (block.items.take 2 ++ rest)) ?_
  refine List.map_congr_left fun stmt hStmt => ?_
  by_cases hStatement : stmt.word?.isNone && stmt.head? != some "succs"
  · have hMem : stmt ∈ statementsOf block := List.mem_filter.mpr ⟨hStmt, hStatement⟩
    exact renameStatement_congr (hNames stmt hMem) (hLets stmt hMem)
  · have hOther : stmt.word?.isSome ∨ stmt.head? = some "succs" := by
      rw [Bool.and_eq_true, not_and_or] at hStatement
      simpa [Option.isSome_iff_ne_none] using hStatement
    rw [renameStatement_of_not_statement hOther, renameStatement_of_not_statement hOther]

namespace Declaration

variable {d : Declaration}

theorem mem_namesOf {kind name : String} : name ∈ d.namesOf kind ↔
    ∃ item ∈ d.items, item.head? = some kind ∧ ∃ x ∈ item.items.drop 1, x.text = name := by
  simp only [namesOf, List.mem_flatMap, List.mem_filter, List.mem_map, decide_eq_true_eq]
  constructor
  · rintro ⟨item, ⟨hItem, hHead⟩, hName⟩
    exact ⟨item, hItem, hHead, hName⟩
  · rintro ⟨item, hItem, hHead, hName⟩
    exact ⟨item, ⟨hItem, hHead⟩, hName⟩

theorem mem_usedNames {name : String} : name ∈ d.usedNames ↔
    ∃ block ∈ d.blocks, ∃ stmt ∈ statementsOf block, name ∈ statementNames stmt := by
  simp only [usedNames, statements, List.mem_flatMap]
  constructor
  · rintro ⟨stmt, ⟨block, hBlock, hStmt⟩, hName⟩
    exact ⟨block, hBlock, stmt, hStmt, hName⟩
  · rintro ⟨block, hBlock, stmt, hStmt, hName⟩
    exact ⟨stmt, ⟨block, hBlock, hStmt⟩, hName⟩

theorem mem_letNames {name : String} : name ∈ d.letNames ↔
    ∃ block ∈ d.blocks, ∃ stmt ∈ statementsOf block,
      stmt.head? = some "let" ∧ letName stmt = name := by
  simp only [letNames, statements, List.mem_map, List.mem_filter, List.mem_flatMap,
    decide_eq_true_eq]
  constructor
  · rintro ⟨stmt, ⟨⟨block, hBlock, hStmt⟩, hLet⟩, hName⟩
    exact ⟨block, hBlock, stmt, hStmt, hLet, hName⟩
  · rintro ⟨block, hBlock, stmt, hStmt, hLet, hName⟩
    exact ⟨stmt, ⟨⟨block, hBlock, hStmt⟩, hLet⟩, hName⟩

/-- Only the names that a function binds or uses matter for its renaming. -/
theorem renameItem_congr {f g : String → String}
    (h : ∀ name, name ∈ d.boundNames ∨ name ∈ d.usedNames → f name = g name)
    (hItem : item ∈ d.items) : renameItem f item = renameItem g item := by
  have hBinders (kind : String) (hKind : d.namesOf kind ⊆ d.parameterNames)
      (hHead : item.head? = some kind) : ∀ x ∈ item.items.drop 1,
      x.renameBinder f = x.renameBinder g := by
    intro x hx
    have hName : x.text ∈ d.namesOf kind := mem_namesOf.mpr ⟨item, hItem, hHead, x, hx, rfl⟩
    exact renameBinder_congr (h _ (.inl (List.mem_append_left _ (hKind hName))))
  unfold renameItem
  split
  case h_1 hHead =>
    rw [List.map_congr_left (hBinders "params" (List.subset_append_left _ _) hHead)]
  case h_2 hHead =>
    rw [List.map_congr_left (hBinders "free-vars" (List.subset_append_right _ _) hHead)]
  case h_3 hHead =>
    have hBlock : item ∈ d.blocks := List.mem_filter.mpr ⟨hItem, decide_eq_true hHead⟩
    refine renameBlock_congr (fun stmt hStmt name hName => ?_) fun stmt hStmt hLet => ?_
    · exact h name (.inr (mem_usedNames.mpr ⟨item, hBlock, stmt, hStmt, hName⟩))
    · have hName := mem_letNames.mpr ⟨item, hBlock, stmt, hStmt, hLet, rfl⟩
      exact h _ (.inl (List.mem_append_right _ hName))
  case h_4 => rfl

end Declaration

/-- The head of a list is read off its first item. -/
theorem head?_of_items {x word : Form} {items : List Form} (h : x.items = word :: items)
    (rest : List Form) : (Form.list (word :: rest)).head? = x.head? := by
  cases x with
  | list ys =>
      obtain rfl : ys = word :: items := h
      rfl
  | _ => cases h

/-! The functions that a renamed dump declares are those of the dump, renamed. -/

section Declarations

variable (τ : Declaration → String → String)

theorem drop_renameEach (form : Form) :
    (renameEach τ form).items.drop 1 = (form.items.drop 1).map (renamePackage τ) :=
  drop_take_append 1 form.items (renamePackage τ)

end Declarations

section Congruence

variable {τ τ' : Declaration → String → String}

theorem renameMethod_congr {path type : String} {m : Form}
    (h : ∀ d ∈ methodDeclarations path type m, d.renamed τ = d.renamed τ') :
    renameMethod τ path type m = renameMethod τ' path type m := by
  unfold renameMethod
  split
  case h_1 hHead hItems =>
    rw [methodDeclarations, hHead, hItems] at h
    rw [h _ (List.mem_singleton_self _)]
  case h_2 => rfl

theorem renameMember_congr {path : String} {member : Form}
    (h : ∀ d ∈ memberDeclarations path member, d.renamed τ = d.renamed τ') :
    renameMember τ path member = renameMember τ' path member := by
  unfold renameMember
  split
  case h_1 word name methods hHead hItems =>
    rw [memberDeclarations, hHead, hItems] at h
    rw [List.map_congr_left fun m hm => renameMethod_congr fun d hd =>
      h d (List.mem_flatMap.mpr ⟨m, hm, hd⟩)]
  case h_2 hHead hItems =>
    rw [memberDeclarations, hHead, hItems] at h
    rw [h _ (List.mem_singleton_self _)]
  case h_3 hHead hItems =>
    rw [memberDeclarations, hHead, hItems] at h
    rw [h _ (List.mem_singleton_self _)]
  case h_4 => rfl

theorem renamePackage_congr {form : Form}
    (h : ∀ d ∈ packageDeclarations form, d.renamed τ = d.renamed τ') :
    renamePackage τ form = renamePackage τ' form := by
  unfold renamePackage
  split
  case h_1 word path members hHead hItems =>
    rw [packageDeclarations, hHead, hItems] at h
    rw [List.map_congr_left fun member hMember => renameMember_congr fun d hd =>
      h d (List.mem_flatMap.mpr ⟨member, hMember, hd⟩)]
  case h_2 => rfl

/-- Two ways of renaming come to the same when they do so for each function. -/
theorem renameEach_congr {form : Form}
    (h : ∀ d ∈ declarations form, d.renamed τ = d.renamed τ') :
    renameEach τ form = renameEach τ' form := by
  rw [renameEach, renameEach, List.map_congr_left fun package hPackage =>
    renamePackage_congr fun d hd => h d (List.mem_flatMap.mpr ⟨package, hPackage, hd⟩)]

end Congruence

end Functions

end Dump

end NilGuard
