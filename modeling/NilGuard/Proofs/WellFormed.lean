import Mathlib
import NilGuard.Proofs.Demand
import NilGuard.Proofs.Placement
/-! Well-formed bodies. Their headers are read without a failure: the blocks come out in the order
of their numbers, each with the successors that its form lists, and the lets under their names. -/
namespace NilGuard.Dump

/-- The successors that an item of a block form lists. -/
def successorItems (item : Form) : List Form :=
  if item.word?.isNone && item.head? == some "succs" then item.items.drop 1 else []

/-- The successors that a block form lists. -/
def successorsOf (blockForm : Form) : List Form := (blockForm.items.drop 2).flatMap successorItems

/-- The lets of block forms. -/
def letsOf (forms : List Form) : List Form :=
  (forms.flatMap statementsOf).filter fun stmt => stmt.head? = some "let"

/-- Whether the last instruction of statements is a branch, if they have any. -/
def bodyBranches? (stmts : List Form) : Option Bool := (stmts.filterMap statementBranches?).getLast?

/-- A body is well formed: the blocks are numbered from zero on, successors are among them, a block
that ends in a branch has two, the statements are well formed, no name is bound twice, and every
name that is used is a parameter, a free variable, a let, nil, or declared in the package. -/
structure IsWellFormedBody (program : Program) (fn : Function) (forms : List Form) : Prop where
  numbers : (forms.map blockNumber?).Perm
    ((List.range forms.length).map fun i : Nat => some (i : Int))
  successors : ∀ form ∈ forms, ∀ item ∈ successorsOf form,
    ∃ i < forms.length, item.int? = some (i : Int)
  branches : ∀ form ∈ forms, bodyBranches? (statementsOf form) = some true →
    (successorsOf form).length = 2
  statements : ∀ form ∈ forms, ∀ stmt ∈ statementsOf form, isStatement stmt = true
  distinct : ((fn.params ++ fn.freeVars).map Value.name ++ (letsOf forms).map letName).Nodup
  known : ∀ form ∈ forms, ∀ stmt ∈ statementsOf form, ∀ name ∈ statementNames stmt,
    ((parameterNames fn).find? name).isSome ∨ name ∈ (letsOf forms).map letName ∨ name = "nil" ∨
      (program.global? fn.callee.package name).isSome ∨
      (program.const? fn.callee.package name).isSome

section Blocks

variable {cx : Context} {s t : Body}

/-- A computation does not fail, and its result is as described. -/
abbrev Succeeds {α : Type} (Q : α → Body → Prop) (r : EStateM.Result LoadError Body α) : Prop :=
  EndsWith Q (fun _ => False) r

theorem Succeeds.exists_ok {α : Type} {Q : α → Body → Prop}
    {r : EStateM.Result LoadError Body α} (h : Succeeds Q r) : ∃ a t, r = .ok a t ∧ Q a t := by
  cases r with
  | ok a t => exact ⟨a, t, rfl, h⟩
  | error e t => exact h.elim

/-! ### The order of blocks -/

theorem succeeds_sortBlocks (cx : Context) {forms : List Form}
    (h : ∀ form ∈ forms, (blockNumber? form).isSome) (s : Body) :
    Succeeds (fun sorted t => t = s ∧ sorted.Pairwise fun a b => a.1 ≤ b.1)
      (sortBlocks cx forms s) := by
  have hIndexed : Succeeds (fun _ t => t = s)
      ((forms.mapM fun form => return (← blockIndex cx form, form)) s) := by
    induction forms with
    | nil => exact rfl
    | cons form forms ih =>
        rw [List.forall_mem_cons] at h
        obtain ⟨i, hi⟩ := Option.isSome_iff_exists.mp h.1
        have hIndex : blockIndex cx form = pure i := by
          rw [blockNumber?] at hi
          rw [blockIndex, hi]
        rw [List.mapM_cons, hIndex, pure_bind, pure_bind]
        refine (ih h.2).bind fun indexed t _ ht => ?_
        exact ht
  refine hIndexed.bind fun indexed t _ ht => ⟨ht, ?_⟩
  have hTrans (a b c : Int × Form) (hab : decide (a.1 ≤ b.1) = true)
      (hbc : decide (b.1 ≤ c.1) = true) : decide (a.1 ≤ c.1) = true :=
    decide_eq_true (Int.le_trans (of_decide_eq_true hab) (of_decide_eq_true hbc))
  have hTotal (a b : Int × Form) : (decide (a.1 ≤ b.1) || decide (b.1 ≤ a.1)) = true := by
    simpa using Int.le_total a.1 b.1
  exact (List.pairwise_mergeSort hTrans hTotal indexed).imp of_decide_eq_true

/-- Forms that are numbered from zero on stand at the places of their numbers when they are
sorted. -/
theorem places_of_sorted {forms : List Form} {sorted : List (Int × Form)}
    (hIndexed : AreIndexed forms sorted) (hSorted : sorted.Pairwise fun a b => a.1 ≤ b.1)
    (hNumbers : (forms.map blockNumber?).Perm
      ((List.range forms.length).map fun i : Nat => some (i : Int))) :
    sorted.map Prod.fst = (List.range' 0 sorted.length).map Nat.cast := by
  have hLength : sorted.length = forms.length := by
    rw [← hIndexed.perm.length_eq, List.length_map]
  have hSome : (sorted.map Prod.fst).map some = (sorted.map Prod.snd).map blockNumber? := by
    rw [List.map_map, List.map_map]
    exact List.map_congr_left fun e he => (hIndexed.number e he).symm
  have hPerm : ((sorted.map Prod.fst).map some).Perm
      (((List.range' 0 sorted.length).map Nat.cast).map (some : Int → Option Int)) := by
    rw [hSome, hLength, ← List.range_eq_range']
    refine (hIndexed.perm.map blockNumber?).trans (hNumbers.trans (.of_eq ?_))
    rw [List.map_map]
    rfl
  have hFirst : (sorted.map Prod.fst).Perm ((List.range' 0 sorted.length).map Nat.cast) := by
    have hFilter := hPerm.filterMap id
    simpa using hFilter
  have hRange : ((List.range' 0 sorted.length).map Nat.cast).Pairwise fun a b : Int => a ≤ b :=
    List.pairwise_map.mpr ((List.pairwise_le_range' 1).imp Int.ofNat_le.mpr)
  exact List.Perm.eq_of_pairwise (fun _ _ _ _ => Int.le_antisymm) (List.pairwise_map.mpr hSorted)
    hRange hFirst

theorem succeeds_makeBlocks (cx : Context) (last : Int) {place : Nat} {sorted : List (Int × Form)}
    (h : sorted.map Prod.fst = (List.range' place sorted.length).map Nat.cast) (s : Body) :
    Succeeds (fun _ _ => True) (makeBlocks cx last place sorted s) := by
  induction sorted generalizing s place with
  | nil => exact trivial
  | cons e sorted ih =>
      obtain ⟨index, form⟩ := e
      rw [List.map_cons, List.length_cons, List.range'_succ, List.map_cons, List.cons.injEq] at h
      rw [makeBlocks, if_neg (not_not.mpr h.1)]
      exact EndsWith.bind (Q := fun _ _ => True) trivial fun _ t _ _ => ih h.2 t

/-! ### Headers -/

/-- The names stay, and so many successors were added to each block. -/
structure Body.Links (added : Nat → Nat) (s t : Body) : Prop where
  names : t.names = s.names
  size : t.blocks.size = s.blocks.size
  counts : ∀ j, (t.blocks[j]?).map (·.succs.length) =
    (s.blocks[j]?).map fun b => b.succs.length + added j

theorem Body.Links.refl (s : Body) : s.Links (fun _ => 0) s := ⟨rfl, rfl, fun _ => rfl⟩

theorem Body.Links.trans {u : Body} {added added' : Nat → Nat} (h : s.Links added t)
    (h' : t.Links added' u) : s.Links (fun j => added j + added' j) u := by
  refine ⟨h'.names.trans h.names, h'.size.trans h.size, fun j => ?_⟩
  have hCounts := congrArg (Option.map (· + added' j)) (h.counts j)
  rw [Option.map_map, Option.map_map] at hCounts
  rw [h'.counts]
  simp only [Function.comp_def] at hCounts
  rw [hCounts]
  simp only [Nat.add_assoc]

theorem Body.Links.congr {added added' : Nat → Nat} (h : s.Links added t)
    (hSame : ∀ j, added j = added' j) : s.Links added' t :=
  funext hSame ▸ h

theorem links_modifyBlock (s : Body) (i n : Nat) (f : Block → Block)
    (hf : ∀ b, (f b).succs.length = b.succs.length + n) :
    s.Links (fun j => if j = i then n else 0) { s with blocks := s.blocks.modify i f } := by
  refine ⟨rfl, Array.size_modify, fun j => ?_⟩
  change ((s.blocks.modify i f)[j]?).map _ = _
  rw [Array.getElem?_modify]
  by_cases hPlace : i = j
  · subst hPlace
    rw [if_pos rfl, Option.map_map]
    simp [Function.comp_def, hf]
  · rw [if_neg hPlace]
    simp [Ne.symm hPlace]

theorem succeeds_addSuccessors (i : Nat) (blockForm : Form) {items : List Form}
    (h : ∀ item ∈ items, ∃ k < s.blocks.size, item.int? = some (k : Int)) :
    Succeeds (fun _ t => s.Links (fun j => if j = i then items.length else 0) t)
      (addSuccessors cx i blockForm items s) := by
  induction items generalizing s with
  | nil => exact (Body.Links.refl s).congr fun j => by simp
  | cons item items ih =>
      rw [List.forall_mem_cons] at h
      obtain ⟨⟨k, hk, hInt⟩, hRest⟩ := h
      have hRange : (0 : Int) ≤ k ∧ (k : Int) < s.blocks.size := by omega
      rw [addSuccessors, get_bind_apply]
      simp only [hInt, if_pos hRange]
      have hOne := links_modifyBlock s i 1
        (fun b => { b with succs := b.succs ++ [(k : Int).toNat] }) fun b => by simp
      refine EndsWith.bind (Q := fun _ t => s.Links _ t) hOne fun _ t _ ht => ?_
      rw [← ht.size] at hRest
      refine (ih hRest).mono fun _ u hu => (ht.trans hu).congr fun j => ?_
      rw [List.length_cons]
      split <;> omega

/-- The header of a block is read, and its successors are added. -/
theorem succeeds_readHeader (i : Nat) (blockForm : Form) {items : List Form}
    (h : ∀ item ∈ items.flatMap successorItems, ∃ k < s.blocks.size, item.int? = some (k : Int)) :
    Succeeds (fun _ t =>
        s.Links (fun j => if j = i then (items.flatMap successorItems).length else 0) t)
      (readHeader cx i blockForm items s) := by
  induction items generalizing s with
  | nil => exact (Body.Links.refl s).congr fun j => by simp
  | cons item items ih =>
      rw [List.flatMap_cons] at h ⊢
      rw [List.forall_mem_append] at h
      rw [readHeader]
      cases hWord : item.word? with
      | some comment =>
          have hNone : successorItems item = [] := by simp [successorItems, hWord]
          have hComment := links_modifyBlock s i 0 (fun b => { b with comment }) fun b => rfl
          refine EndsWith.bind (Q := fun _ t => s.Links _ t) hComment fun _ t _ ht => ?_
          rw [← ht.size] at h
          refine (ih h.2).mono fun _ u hu => (ht.trans hu).congr fun j => ?_
          rw [hNone, List.nil_append]
          split <;> omega
      | none =>
          by_cases hHead : item.head? = some "succs"
          · have hItems : successorItems item = item.items.drop 1 := by
              simp [successorItems, hWord, hHead]
            rw [hItems] at h ⊢
            simp only [if_pos hHead]
            refine (succeeds_addSuccessors i blockForm h.1).bind fun _ t _ ht => ?_
            have hRest := h.2
            rw [← ht.size] at hRest
            refine (ih hRest).mono fun _ u hu => (ht.trans hu).congr fun j => ?_
            rw [List.length_append]
            split <;> omega
          · have hNone : successorItems item = [] := by simp [successorItems, hHead]
            simp only [if_neg hHead, hNone, List.nil_append]
            exact (ih h.2).bind fun _ t _ ht => ht

/-- A well-formed let is taken down if its name is new. -/
theorem succeeds_declareLet {stmt : Form} (hStmt : isStatement stmt = true)
    (hLet : stmt.head? = some "let") (hNew : s.names.find? (letName stmt) = none)
    (hOther : letName stmt ∉ cx.lets.keys) :
    Succeeds (fun cx' t => t = s ∧ cx'.lets.keys = cx.lets.keys ++ [letName stmt])
      (declareLet cx stmt s) := by
  obtain ⟨⟨first, nameForm, third, rest, hItems, hWord⟩, -⟩ := let_of_isStatement hStmt hLet
  have hFree : (s.names.contains (letName stmt) || cx.lets.contains (letName stmt)) = false := by
    rw [Table.contains, Table.contains, hNew, Table.find?_eq_none_iff.mpr hOther]
    rfl
  have hRun : declareLet cx stmt s =
      .ok { cx with lets := cx.lets.insert (letName stmt) stmt } s := by
    unfold declareLet
    simp only [hItems, hWord]
    rw [get_bind_apply, hFree]
    rfl
  rw [hRun]
  refine ⟨rfl, ?_⟩
  rw [Table.keys, Table.entries_insert_of_find?_eq_none (Table.find?_eq_none_iff.mpr hOther),
    List.map_append]
  rfl

theorem succeeds_declareLets {stmts : List Form}
    (hStmts : ∀ stmt ∈ stmts, isStatement stmt = true ∧ stmt.head? = some "let" ∧
      s.names.find? (letName stmt) = none)
    (hDistinct : (cx.lets.keys ++ stmts.map letName).Nodup) :
    Succeeds (fun cx' t => t = s ∧ cx'.lets.keys = cx.lets.keys ++ stmts.map letName)
      (stmts.foldlM declareLet cx s) := by
  induction stmts generalizing cx with
  | nil => exact ⟨rfl, (List.append_nil _).symm⟩
  | cons stmt stmts ih =>
      rw [List.forall_mem_cons] at hStmts
      obtain ⟨⟨hStmt, hLet, hNew⟩, hRest⟩ := hStmts
      have hSplit : cx.lets.keys ++ (stmt :: stmts).map letName =
          cx.lets.keys ++ [letName stmt] ++ stmts.map letName := by simp
      rw [hSplit] at hDistinct ⊢
      have hOther : letName stmt ∉ cx.lets.keys := by
        intro hMem
        have hPair := (List.nodup_append.mp hDistinct.of_append_left).2.2
        exact hPair _ hMem _ (List.mem_singleton_self _) rfl
      rw [List.foldlM_cons]
      refine (succeeds_declareLet hStmt hLet hNew hOther).bind fun cx' t _ ht => ?_
      obtain ⟨rfl, hKeys⟩ := ht
      rw [← hKeys] at hDistinct ⊢
      exact ih hRest hDistinct

/-- How many successors are added to a block when forms are read for the blocks from a place on. -/
def addedFrom (place : Nat) (forms : List Form) (j : Nat) : Nat :=
  if j < place then 0 else ((forms[j - place]?).map fun form => (successorsOf form).length).getD 0

theorem addedFrom_cons (place : Nat) (form : Form) (forms : List Form) (j : Nat) :
    addedFrom place (form :: forms) j =
      (if j = place then (successorsOf form).length else 0) + addedFrom (place + 1) forms j := by
  unfold addedFrom
  rcases Nat.lt_trichotomy j place with hLt | rfl | hGt
  · rw [if_pos hLt, if_neg (Nat.ne_of_lt hLt), if_pos (Nat.lt_succ_of_lt hLt)]
  · rw [if_neg (Nat.lt_irrefl j), if_pos rfl, if_pos (Nat.lt_succ_self j), Nat.sub_self]
    rfl
  · have hPlace : j - place = (j - (place + 1)) + 1 := by omega
    rw [if_neg (Nat.not_lt_of_gt hGt), if_neg (Nat.ne_of_gt hGt), if_neg (by omega), hPlace,
      List.getElem?_cons_succ, Nat.zero_add]

theorem succeeds_readHeaders (place : Nat) {sorted : List (Int × Form)}
    (hSuccessors : ∀ e ∈ sorted, ∀ item ∈ successorsOf e.2,
      ∃ k < s.blocks.size, item.int? = some (k : Int))
    (hLets : ∀ stmt ∈ letsOf (sorted.map Prod.snd), isStatement stmt = true ∧
      stmt.head? = some "let" ∧ s.names.find? (letName stmt) = none)
    (hDistinct : (cx.lets.keys ++ (letsOf (sorted.map Prod.snd)).map letName).Nodup) :
    Succeeds (fun _ t => s.Links (addedFrom place (sorted.map Prod.snd)) t)
      (readHeaders cx place sorted s) := by
  induction sorted generalizing cx place s with
  | nil => exact (Body.Links.refl s).congr fun j => by simp [addedFrom]
  | cons e sorted ih =>
      obtain ⟨index, form⟩ := e
      have hFirst : letsOf (((index, form) :: sorted).map Prod.snd) =
          (statementsOf form).filter (fun stmt => stmt.head? = some "let") ++
            letsOf (sorted.map Prod.snd) := by
        rw [letsOf, List.map_cons, List.flatMap_cons, List.filter_append]
        rfl
      rw [hFirst] at hLets hDistinct
      rw [List.forall_mem_cons] at hSuccessors
      rw [List.forall_mem_append] at hLets
      rw [List.map_append, ← List.append_assoc] at hDistinct
      rw [readHeaders]
      refine (succeeds_readHeader place form hSuccessors.1).bind fun stmts t hRun ht => ?_
      have hStmts := (keeps_readHeader_statements place form _ s _ t rfl hRun).2
      have hOwn := hLets.1
      have hRest := hLets.2
      rw [← ht.names] at hOwn hRest
      rw [hStmts]
      refine (succeeds_declareLets hOwn hDistinct.of_append_left).bind fun cx' u _ hu => ?_
      obtain ⟨rfl, hKeys⟩ := hu
      have hAfter := hSuccessors.2
      rw [← ht.size] at hAfter
      rw [← hKeys] at hDistinct
      refine (ih (place + 1) hAfter hRest hDistinct).bind fun r w _ hw => ?_
      exact (ht.trans hw).congr fun j => (addedFrom_cons place form _ j).symm

end Blocks

section WellFormed

variable {program : Program} {fn : Function} {forms : List Form}

theorem mem_letsOf {stmt : Form} : stmt ∈ letsOf forms ↔
    ∃ form ∈ forms, stmt ∈ statementsOf form ∧ stmt.head? = some "let" := by
  simp only [letsOf, List.mem_filter, List.mem_flatMap, decide_eq_true_eq]
  constructor
  · rintro ⟨⟨form, hForm, hStmt⟩, hLet⟩
    exact ⟨form, hForm, hStmt, hLet⟩
  · rintro ⟨form, hForm, hStmt, hLet⟩
    exact ⟨⟨form, hForm, hStmt⟩, hLet⟩

theorem letsOf_perm {forms' : List Form} (h : forms.Perm forms') :
    (letsOf forms).Perm (letsOf forms') :=
  (h.flatMap_right statementsOf).filter _

namespace IsWellFormedBody

variable (h : IsWellFormedBody program fn forms)
include h

/-- The name of a let is not one of a parameter. -/
theorem find?_letName {stmt : Form} (hStmt : stmt ∈ letsOf forms) :
    (parameterNames fn).find? (letName stmt) = none := by
  have hNone : (fn.params ++ fn.freeVars).filter (·.name = letName stmt) = [] := by
    rw [List.filter_eq_nil_iff]
    intro v hv hName
    have hMem := List.mem_map_of_mem (f := Value.name) hv
    exact (List.nodup_append.mp h.distinct).2.2 _ hMem _ (List.mem_map_of_mem hStmt)
      (of_decide_eq_true hName)
  rw [find?_parameterNames, hNone]
  rfl

/-- The headers of a well-formed body are read, and each block has the successors that its form
lists. -/
theorem exists_headers :
    ∃ sorted cx bodies indexed made read,
      sortBlocks { callee := fn.callee } forms { program, names := parameterNames fn } =
        .ok sorted indexed ∧
      makeBlocks { callee := fn.callee } ((sorted.length : Int) - 1) 0 sorted indexed =
        .ok () made ∧
      readHeaders { callee := fn.callee } 0 sorted made = .ok (cx, bodies) read ∧
      read.program = program ∧
      ∀ (k : Nat) (e : Int × Form) (b : Block), sorted[k]? = some e → read.blocks[k]? = some b →
        b.succs.length = (successorsOf e.2).length := by
  have hNumbered (form : Form) (hForm : form ∈ forms) : (blockNumber? form).isSome := by
    have hMem := h.numbers.mem_iff.mp (List.mem_map_of_mem hForm)
    obtain ⟨i, -, hi⟩ := List.mem_map.mp hMem
    rw [← hi]
    rfl
  obtain ⟨sorted, indexed, hSorted, rfl, hOrder⟩ := (succeeds_sortBlocks { callee := fn.callee }
    hNumbered { program, names := parameterNames fn }).exists_ok
  have hIndexed := (keeps_sortBlocks_indexed forms).of_returns ⟨_, _, hSorted⟩
  have hPlaces := places_of_sorted hIndexed hOrder h.numbers
  obtain ⟨_, made, hMade, -⟩ := (succeeds_makeBlocks { callee := fn.callee }
    ((sorted.length : Int) - 1) hPlaces { program, names := parameterNames fn }).exists_ok
  obtain ⟨blocks, rfl, hBlocks, -⟩ := makeBlocks_eq_ok hMade
  have hSize : blocks.size = forms.length := by
    rw [← Array.length_toList, hBlocks, ← hIndexed.perm.length_eq]
    simp
  have hSuccessors : ∀ e ∈ sorted, ∀ item ∈ successorsOf e.2,
      ∃ k < blocks.size, item.int? = some (k : Int) := by
    intro e he
    rw [hSize]
    exact h.successors e.2 (hIndexed.perm.mem_iff.mp (List.mem_map_of_mem he))
  have hLets := letsOf_perm hIndexed.perm
  have hStmts : ∀ stmt ∈ letsOf (sorted.map Prod.snd), isStatement stmt = true ∧
      stmt.head? = some "let" ∧ (parameterNames fn).find? (letName stmt) = none := by
    intro stmt hStmt
    replace hStmt := hLets.mem_iff.mp hStmt
    obtain ⟨form, hForm, hMem, hLet⟩ := mem_letsOf.mp hStmt
    exact ⟨h.statements form hForm stmt hMem, hLet, h.find?_letName hStmt⟩
  have hDistinct : ((letsOf (sorted.map Prod.snd)).map letName).Nodup :=
    (hLets.map letName).nodup_iff.mpr h.distinct.of_append_right
  have hHeaders : Succeeds _ (readHeaders { callee := fn.callee } 0 sorted
      { program, blocks, names := parameterNames fn }) :=
    succeeds_readHeaders 0 hSuccessors hStmts hDistinct
  obtain ⟨⟨cx, bodies⟩, read, hRead, hLinks⟩ := hHeaders.exists_ok
  obtain ⟨_, hState, -⟩ := isLayable_heads.readHeaders _ 0 sorted _ _ _ hRead
  refine ⟨sorted, cx, bodies, _, _, read, hSorted, hMade, hRead, by rw [hState], ?_⟩
  intro k e b hEntry hBlock
  have hCount := hLinks.counts k
  have hMadeBlock : blocks[k]? = some { index := e.1 } := by
    rw [← Array.getElem?_toList, hBlocks]
    simp [hEntry]
  have hAdded : addedFrom 0 (sorted.map Prod.snd) k = (successorsOf e.2).length := by
    simp [addedFrom, hEntry]
  rw [hBlock, hMadeBlock, Option.map_some, Option.map_some, hAdded] at hCount
  simpa using hCount

end IsWellFormedBody

end WellFormed

end NilGuard.Dump
