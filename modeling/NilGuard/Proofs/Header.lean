import NilGuard.Proofs.Closure
import NilGuard.Proofs.Table
/-! What the headers of a body give: the block forms in the order of their indices, the
statements of each block, and the lets by name. -/
namespace NilGuard

namespace Dump

/-- The index that a block form gives, if it gives one. -/
def blockNumber? (form : Form) : Option Int := (form.items[1]?).bind Form.int?

/-- The block forms of a body are put in some order, each with its index. -/
structure AreIndexed (forms : List Form) (sorted : List (Int × Form)) : Prop where
  perm : (sorted.map (·.2)).Perm forms
  number : ∀ e ∈ sorted, blockNumber? e.2 = some e.1

/-- A context takes down lets, each under its own name, which is new. -/
structure DeclaresLets (names : Table Value) (cx cx' : Context) (lets : List Form) : Prop where
  callee : cx'.callee = cx.callee
  entries : cx'.lets.entries = cx.lets.entries ++ lets.map fun stmt => (letName stmt, stmt)
  nodup : cx.lets.keys.Nodup → cx'.lets.keys.Nodup
  unbound : ∀ stmt ∈ lets, names.find? (letName stmt) = none
  long : ∀ stmt ∈ lets, 3 ≤ stmt.items.length

variable {cx cx' cx'' : Context} {names : Table Value} {lets lets' : List Form}

theorem keeps_indexBlocks {I : Body → Prop} (forms : List Form) :
    Keeps I (forms.mapM fun form => return (← blockIndex cx form, form)) fun indexed =>
      indexed.map (·.2) = forms ∧ ∀ e ∈ indexed, blockNumber? e.2 = some e.1 := by
  induction forms with
  | nil => exact keeps_pure ⟨rfl, by simp⟩
  | cons form forms ih =>
      have hIndex : Keeps I (blockIndex cx form) fun i => blockNumber? form = some i := by
        unfold blockIndex
        split
        case h_1 i hNumber => exact keeps_pure hNumber
        case h_2 => exact keeps_refuse _ _
      have hEntry : Keeps I (do return (← blockIndex cx form, form)) fun e =>
          e.2 = form ∧ blockNumber? e.2 = some e.1 :=
        hIndex.bind fun i hi => keeps_pure ⟨rfl, hi⟩
      rw [List.mapM_cons]
      refine hEntry.bind fun e he => ih.bind fun indexed hRest => keeps_pure ?_
      refine ⟨?_, List.forall_mem_cons.mpr ⟨he.2, hRest.2⟩⟩
      rw [List.map_cons, he.1, hRest.1]

theorem keeps_sortBlocks_indexed {I : Body → Prop} (forms : List Form) :
    Keeps I (sortBlocks cx forms) (AreIndexed forms) := by
  refine (keeps_indexBlocks forms).bind fun indexed hIndexed => keeps_pure ?_
  have hPerm := List.mergeSort_perm indexed fun a b => a.1 ≤ b.1
  exact ⟨hIndexed.1 ▸ hPerm.map _, fun e he => hIndexed.2 e (hPerm.mem_iff.mp he)⟩

theorem DeclaresLets.refl (names : Table Value) (cx : Context) : DeclaresLets names cx cx [] :=
  ⟨rfl, (List.append_nil _).symm, id, by simp, by simp⟩

theorem DeclaresLets.trans (h : DeclaresLets names cx cx' lets)
    (h' : DeclaresLets names cx' cx'' lets') : DeclaresLets names cx cx'' (lets ++ lets') := by
  refine ⟨h'.callee.trans h.callee, ?_, fun hNodup => h'.nodup (h.nodup hNodup), ?_, ?_⟩
  · rw [h'.entries, h.entries, List.map_append, List.append_assoc]
  · exact List.forall_mem_append.mpr ⟨h.unbound, h'.unbound⟩
  · exact List.forall_mem_append.mpr ⟨h.long, h'.long⟩

theorem keeps_declareLet_declares (stmt : Form) :
    Keeps (fun s => s.names = names) (declareLet cx stmt) fun cx' =>
      DeclaresLets names cx cx' [stmt] := by
  unfold declareLet
  split
  case h_1 first nameForm third rest hItems =>
    split
    case h_1 name hWord =>
      refine keeps_get.bind fun body hBody => ?_
      split
      case isTrue => exact keeps_refuse _ _
      case isFalse hNew =>
        have hName : letName stmt = name := by
          rw [letName, hItems]
          cases nameForm with
          | sym s | str s => exact Option.some.inj hWord
          | int | real | list => cases hWord
        simp only [Table.contains, Bool.or_eq_true, not_or, Bool.not_eq_true,
          Option.isSome_eq_false_iff, Option.isNone_iff_eq_none] at hNew
        refine keeps_pure ⟨rfl, ?_, Table.nodup_keys_insert, ?_, ?_⟩
        · rw [Table.entries_insert_of_find?_eq_none hNew.2, List.map_singleton, hName]
        · rw [List.forall_mem_singleton, hName, ← hBody]
          exact hNew.1
        · rw [List.forall_mem_singleton, hItems]
          simp
    case h_2 => exact keeps_refuse _ _
  case h_2 => exact keeps_refuse _ _

theorem keeps_declareLets (stmts : List Form) :
    Keeps (fun s => s.names = names) (stmts.foldlM declareLet cx) fun cx' =>
      DeclaresLets names cx cx' stmts := by
  induction stmts generalizing cx with
  | nil => exact keeps_pure (.refl names cx)
  | cons stmt stmts ih =>
      rw [List.foldlM_cons]
      refine (keeps_declareLet_declares stmt).bind fun cx' hFirst => ?_
      exact ih.mono fun cx'' hRest => hFirst.trans hRest

theorem keeps_modifyBlock_names (i : Nat) (f : Block → Block) :
    Keeps (fun s => s.names = names) (modifyBlock i f) fun _ => True :=
  keeps_modify fun _ hBody => hBody

theorem keeps_addSuccessors_names (i : Nat) (blockForm : Form) (items : List Form) :
    Keeps (fun s => s.names = names) (addSuccessors cx i blockForm items) fun _ => True := by
  induction items with
  | nil => exact keeps_pure trivial
  | cons item items ih =>
      rw [addSuccessors]
      refine keeps_get.bind fun body _ => ?_
      dsimp only
      split
      case h_1 s _ =>
        split
        case isTrue => exact (keeps_modifyBlock_names _ _).bind fun _ _ => ih
        case isFalse => exact ensures_refuse_bind _ _
      case h_2 => exact ensures_refuse_bind _ _

theorem keeps_readHeader_statements (i : Nat) (blockForm : Form) (items : List Form) :
    Keeps (fun s => s.names = names) (readHeader cx i blockForm items) fun stmts =>
      stmts = items.filter fun item => item.word?.isNone && item.head? != some "succs" := by
  induction items with
  | nil => exact keeps_pure rfl
  | cons item items ih =>
      rw [readHeader]
      split
      case h_1 comment hWord =>
        refine (keeps_modifyBlock_names _ _).bind fun _ _ => ih.mono fun stmts hStmts => ?_
        simpa [hWord] using hStmts
      case h_2 hWord =>
        split
        case isTrue hSuccs =>
          refine (keeps_addSuccessors_names _ _ _).bind fun _ _ => ih.mono fun stmts hStmts => ?_
          simpa [hSuccs] using hStmts
        case isFalse hSuccs =>
          refine ih.bind fun stmts hStmts => keeps_pure ?_
          simp [hWord, hSuccs, hStmts]

theorem keeps_readHeaders_statements (place : Nat) (sorted : List (Int × Form)) :
    Keeps (fun s => s.names = names) (readHeaders cx place sorted) fun r =>
      r.2 = sorted.map (fun e => statementsOf e.2) ∧
        DeclaresLets names cx r.1 (r.2.flatten.filter fun stmt => stmt.head? = some "let") := by
  induction sorted generalizing cx place with
  | nil => exact keeps_pure ⟨rfl, .refl names cx⟩
  | cons e sorted ih =>
      obtain ⟨index, form⟩ := e
      rw [readHeaders]
      refine (keeps_readHeader_statements _ _ _).bind fun stmts hStmts => ?_
      refine (keeps_declareLets _).bind fun cx' hFirst => ?_
      refine (ih (place + 1)).bind fun r hRest => keeps_pure ⟨?_, ?_⟩
      · rw [List.map_cons, hRest.1, hStmts]
        rfl
      · rw [List.flatten_cons, List.filter_append]
        exact hFirst.trans hRest.2

theorem Keeps.of_returns {σ α : Type} {x : EStateM LoadError σ α} {Q : α → Prop} {a : α}
    (h : Keeps (fun _ => True) x Q) (ha : Returns x a) : Q a := by
  obtain ⟨s, t, hRun⟩ := ha
  exact (h s a t trivial hRun).2

/-- What the headers of block forms come to: the statements of each block, and a context with
their lets. -/
structure AreRead (forms : List Form) (cx : Context) (bodies : List (List Form)) : Prop where
  statements : ∀ stmts ∈ bodies, ∃ form ∈ forms, stmts = statementsOf form
  entries : cx.lets.entries =
    (bodies.flatten.filter fun stmt => stmt.head? = some "let").map fun stmt => (letName stmt, stmt)
  nodup : cx.lets.keys.Nodup
  long : ∀ stmts ∈ bodies, ∀ stmt ∈ stmts, stmt.head? = some "let" → 3 ≤ stmt.items.length

theorem areRead_of_returns {forms : List Form} {sorted : List (Int × Form)}
    {bodies : List (List Form)} (hEmpty : cx.lets.entries = [])
    (hSorted : Returns (sortBlocks cx forms) sorted)
    (hHeaders : Returns (readHeaders cx 0 sorted) (cx', bodies)) : AreRead forms cx' bodies := by
  have hIndexed := (keeps_sortBlocks_indexed forms).of_returns hSorted
  obtain ⟨s, t, hRun⟩ := hHeaders
  obtain ⟨hBodies, hDeclared⟩ := (keeps_readHeaders_statements 0 sorted s _ t rfl hRun).2
  dsimp only at hBodies hDeclared
  refine ⟨fun stmts hStmts => ?_, ?_, hDeclared.nodup ?_, fun stmts hMem stmt hStmt hLet => ?_⟩
  · rw [hBodies] at hStmts
    obtain ⟨e, he, rfl⟩ := List.mem_map.mp hStmts
    exact ⟨e.2, hIndexed.perm.mem_iff.mp (List.mem_map_of_mem he), rfl⟩
  · rw [hDeclared.entries, hEmpty, List.nil_append]
  · rw [Table.keys, hEmpty]
    exact List.nodup_nil
  · refine hDeclared.long stmt (List.mem_filter.mpr ⟨?_, decide_eq_true hLet⟩)
    exact List.mem_flatten.mpr ⟨stmts, hMem, hStmt⟩

namespace AreRead

variable {forms : List Form} {bodies : List (List Form)} (h : AreRead forms cx bodies)
include h

/-- A let of the context is a statement of a block. -/
theorem of_find? {name : String} {stmt : Form} (hFind : cx.lets.find? name = some stmt) :
    letName stmt = name ∧ stmt.head? = some "let" ∧ ∃ stmts ∈ bodies, stmt ∈ stmts := by
  have hEntry := Table.mem_entries_of_find? hFind
  rw [h.entries] at hEntry
  obtain ⟨other, hOther, hEq⟩ := List.mem_map.mp hEntry
  cases hEq
  obtain ⟨hMem, hLet⟩ := List.mem_filter.mp hOther
  exact ⟨rfl, of_decide_eq_true hLet, List.mem_flatten.mp hMem⟩

end AreRead

/-- A property of computations on bodies that changes of the headers of blocks have as well. -/
structure IsLayable (C : ∀ α : Type, BodyM α → Prop) : Prop extends IsClosed C where
  header : ∀ i f, (∀ b : Block, (f b).instrs = b.instrs) → C Unit (modifyBlock i f)

namespace IsLayable

variable {C : ∀ α : Type, BodyM α → Prop} (h : IsLayable C)
include h

theorem sortBlocks (forms : List Form) : C (List (Int × Form)) (sortBlocks cx forms) := by
  refine h.bind (h.mapM fun form _ => ?_) fun _ => h.pure _
  refine h.bind ?_ fun _ => h.pure _
  unfold blockIndex
  split
  case h_1 => exact h.pure _
  case h_2 => exact h.refused _ _ _

theorem addSuccessors (i : Nat) (blockForm : Form) (items : List Form) :
    C Unit (addSuccessors cx i blockForm items) := by
  induction items with
  | nil => exact h.pure _
  | cons item items ih =>
      rw [Dump.addSuccessors]
      refine h.bind h.get fun body => ?_
      dsimp only
      split
      case h_1 s _ =>
        split
        case isTrue => exact h.bind (h.header _ _ fun _ => rfl) fun _ => ih
        case isFalse => exact h.bind (h.refused _ _ _) fun _ => ih
      case h_2 => exact h.bind (h.refused _ _ _) fun _ => ih

theorem readHeader (i : Nat) (blockForm : Form) (items : List Form) :
    C (List Form) (readHeader cx i blockForm items) := by
  induction items with
  | nil => exact h.pure _
  | cons item items ih =>
      rw [Dump.readHeader]
      split
      case h_1 => exact h.bind (h.header _ _ fun _ => rfl) fun _ => ih
      case h_2 =>
        split
        case isTrue => exact h.bind (h.addSuccessors _ _ _) fun _ => ih
        case isFalse => exact h.bind ih fun _ => h.pure _

theorem declareLet (cx : Context) (stmt : Form) : C Context (declareLet cx stmt) := by
  unfold Dump.declareLet
  split
  case h_1 =>
    split
    case h_1 =>
      refine h.bind h.get fun body => ?_
      split
      case isTrue => exact h.refused _ _ _
      case isFalse => exact h.pure _
    case h_2 => exact h.refused _ _ _
  case h_2 => exact h.refused _ _ _

theorem readHeaders (cx : Context) (place : Nat) (sorted : List (Int × Form)) :
    C (Context × List (List Form)) (readHeaders cx place sorted) := by
  induction sorted generalizing cx place with
  | nil => exact h.pure _
  | cons e sorted ih =>
      rw [Dump.readHeaders]
      refine h.bind (h.readHeader _ _ _) fun stmts => ?_
      refine h.bind (h.foldlM (fun cx stmt _ => h.declareLet cx stmt) cx) fun cx' => ?_
      exact h.bind (ih cx' (place + 1)) fun _ => h.pure _

end IsLayable

/-- A property of computations on bodies that changes of the blocks and of the settled phis have
as well. -/
structure IsLoadable (C : ∀ α : Type, BodyM α → Prop) : Prop extends IsEvaluable C where
  change : ∀ f : Body → Body, (∀ body, (f body).program = body.program) →
    (∀ body, (f body).names = body.names) → (∀ body, (f body).built = body.built) →
    (∀ body, (f body).waiting = body.waiting) → C PUnit (modify f)

namespace IsLoadable

variable {C : ∀ α : Type, BodyM α → Prop} (h : IsLoadable C)
include h

theorem modifyBlock (i : Nat) (f : Block → Block) : C Unit (modifyBlock i f) :=
  h.change _ (fun _ => rfl) (fun _ => rfl) (fun _ => rfl) fun _ => rfl

theorem isLayable : IsLayable C := { h.toIsClosed with header := fun i f _ => h.modifyBlock i f }

theorem makeBlocks (last : Int) (place : Nat) (sorted : List (Int × Form)) :
    C Unit (makeBlocks cx last place sorted) := by
  induction sorted generalizing place with
  | nil => exact h.pure _
  | cons e sorted ih =>
      obtain ⟨index, form⟩ := e
      rw [Dump.makeBlocks]
      have hRest : C Unit (do
          modify fun body => { body with blocks := body.blocks.push { index } }
          Dump.makeBlocks cx last (place + 1) sorted) :=
        h.bind (h.change _ (fun _ => rfl) (fun _ => rfl) (fun _ => rfl) fun _ => rfl) fun _ =>
          ih (place + 1)
      split
      case isTrue => exact h.bind (h.refused _ _ _) fun _ => hRest
      case isFalse => exact hRest

section Statements

variable (hLets : AllowsLets C cx)
include hLets

theorem evalStatements (i : Nat) {stmts : List Form}
    (hLong : ∀ stmt ∈ stmts, stmt.head? = some "let" → 3 ≤ stmt.items.length)
    (hStmts : ∀ stmt ∈ stmts, AllowsStatement C stmt) : C Unit (evalStatements cx i stmts) := by
  induction stmts with
  | nil => exact h.pure _
  | cons stmt stmts ih =>
      rw [Dump.evalStatements]
      rw [List.forall_mem_cons] at hLong hStmts
      refine h.bind (h.evalStatement hLets hLong.1 hStmts.1) fun instrs => ?_
      exact h.bind (h.modifyBlock _ _) fun _ => ih hLong.2 hStmts.2

theorem fillBlocks (i : Nat) {bodies : List (List Form)}
    (hLong : ∀ stmts ∈ bodies, ∀ stmt ∈ stmts, stmt.head? = some "let" → 3 ≤ stmt.items.length)
    (hStmts : ∀ stmts ∈ bodies, ∀ stmt ∈ stmts, AllowsStatement C stmt) :
    C Unit (fillBlocks cx i bodies) := by
  induction bodies generalizing i with
  | nil => exact h.pure _
  | cons stmts bodies ih =>
      rw [List.forall_mem_cons] at hLong hStmts
      have hRest := ih (i + 1) hLong.2 hStmts.2
      rw [Dump.fillBlocks]
      refine h.bind (h.evalStatements hLets i hLong.1 hStmts.1) fun _ => ?_
      refine h.bind h.get fun body => ?_
      dsimp only
      split
      case h_1 =>
        split
        case isTrue => exact h.bind (h.refused _ _ _) fun _ => hRest
        case isFalse => exact hRest
      case h_2 => exact hRest

end Statements

/-- Loading the blocks of a function has the property if it holds of the naming of parameters,
of what the statements come down to, and of settling the phis at the end. -/
theorem loadBlocks (fn : Function) {forms : List Form}
    (hNames : ∀ names, C PUnit (modify fun body => { body with names }))
    (hStmts : ∀ form ∈ forms, ∀ stmt ∈ statementsOf form, AllowsStatement C stmt)
    (hSettle : ∀ cx : Context, AllowsLets C cx → ∀ depth, C Unit (settlePhis cx depth)) :
    C Unit (loadBlocks fn forms) := by
  unfold Dump.loadBlocks
  dsimp only
  refine h.bind (hNames _) fun _ => ?_
  refine h.seq (h.isLayable.sortBlocks forms) fun sorted hSorted => ?_
  refine h.bind (h.makeBlocks _ 0 sorted) fun _ => ?_
  refine h.seq (h.isLayable.readHeaders _ 0 sorted) fun ⟨cx, bodies⟩ hHeaders => ?_
  have hRead := areRead_of_returns rfl hSorted hHeaders
  have hAll : ∀ stmts ∈ bodies, ∀ stmt ∈ stmts, AllowsStatement C stmt := by
    intro stmts hMem stmt hStmt
    obtain ⟨form, hForm, rfl⟩ := hRead.statements stmts hMem
    exact hStmts form hForm stmt hStmt
  have hLets : AllowsLets C cx := by
    intro name stmt hFind
    obtain ⟨rfl, hLet, stmts, hMem, hStmt⟩ := hRead.of_find? hFind
    exact ⟨hRead.long stmts hMem stmt hStmt hLet, (hAll stmts hMem stmt hStmt).binding hLet⟩
  refine h.bind (h.fillBlocks hLets 0 hRead.long hAll) fun _ => ?_
  exact h.bind h.get fun body => hSettle cx hLets _

end IsLoadable

/-- A property of programs that new values, packages and variables leave alone. -/
structure IsStable (P : Program → Prop) : Prop where
  value : ∀ p, P p → P { p with nextId := p.nextId + 1 }
  package : ∀ p path, P p → P (p.addPackage path)
  global : ∀ p path name v, (p.package? path).bind (·.globals.find? name) = none → P p →
    P (p.modifyPackage path fun a => { a with globals := a.globals.insert name v })

/-- The program has a property, also where a computation breaks off. -/
abbrev Preserves (P : Program → Prop) {α : Type} (x : BodyM α) : Prop :=
  Meets (fun s => P s.program) (fun _ s => P s.program) x

section Programs

variable {P : Program → Prop}

theorem allows_preserves (hP : IsStable P) (x : Form) : Allows (fun _ => Preserves P) x where
  headless _ _ _ hs := hs
  phi _ _ _ _ _ _ _ _ _ hs := hP.value _ hs

theorem allowsStatement_preserves (hP : IsStable P) (stmt : Form) :
    AllowsStatement (fun _ => Preserves P) stmt where
  number _ _ _ _ hs := hs
  binding _ := ⟨fun x _ => allows_preserves hP x, fun _ _ _ _ hs => hs, fun _ _ _ hs => hs⟩
  parts x _ := allows_preserves hP x

theorem isLoadable_preserves (hP : IsStable P) : IsLoadable fun _ => Preserves P where
  toIsClosed := isClosed_meets fun _ _ _ _ hs => hs
  tag _ _ s hs := hP.value s.program hs
  change f hProgram _ _ _ s hs := by
    change P (f s).program
    rw [hProgram]
    exact hs
  global package name := by
    intro s hs
    have hAdded : P (s.program.addPackage package) := hP.package _ _ hs
    refine EndsIn.bind (J := fun t : Body => P t.program) (F := fun _ t => P t.program) hAdded
      (fun _ _ h => h) fun _ t _ ht => ?_
    rw [get_bind_apply]
    cases hNew : (t.program.package? package).bind (·.globals.find? name) with
    | some v => exact ht
    | none =>
        exact hP.global { t.program with nextId := t.program.nextId + 1 } package name
          (.leaf { id := t.program.nextId, name := package ++ "." ++ name } .global) hNew
          (hP.value _ ht)

theorem preserves_settlePhis (hP : IsStable P) {cx : Context}
    (hLets : AllowsLets (fun _ => Preserves P) cx) (depth : Nat) :
    Preserves P (settlePhis cx depth) := by
  have h := isLoadable_preserves hP
  have hPhi (phi : Phi) : Preserves P (settlePhi cx phi) :=
    h.settlePhi (h.resolve hLets _ _) (fun x _ => allows_preserves hP x) fun _ _ hs => hs
  induction depth with
  | zero => exact h.pure _
  | succ depth ih =>
      rw [settlePhis]
      refine h.bind h.get fun body => ?_
      dsimp only
      split
      case isTrue => exact h.pure _
      case isFalse =>
        refine h.bind (fun _ hs => hs) fun _ => ?_
        exact h.bind (h.forM fun phi _ => hPhi phi) fun _ => ih

/-- Loading the blocks of a function changes the program by values, packages and variables. -/
theorem preserves_loadBlocks (hP : IsStable P) (fn : Function) (forms : List Form) :
    Preserves P (loadBlocks fn forms) :=
  (isLoadable_preserves hP).loadBlocks fn (fun _ _ hs => hs)
    (fun _ _ stmt _ => allowsStatement_preserves hP stmt) fun _ => preserves_settlePhis hP

end Programs

theorem find?_foldl_insert (vs : List Value) (t : Table Value) (key : String) :
    (vs.foldl (fun t v => t.insert v.name v) t).find? key =
      ((vs.filter (·.name = key)).getLast?).or (t.find? key) := by
  induction vs generalizing t with
  | nil => rfl
  | cons v vs ih =>
      rw [List.foldl_cons, ih, Table.find?_insert]
      by_cases hKey : v.name = key
      · rw [if_pos hKey.symm, List.filter_cons, if_pos (decide_eq_true hKey), List.getLast?_cons]
        cases (vs.filter (·.name = key)).getLast? <;> rfl
      · rw [if_neg fun h => hKey h.symm, List.filter_cons, if_neg (by simpa using hKey)]

/-- Of parameters and free variables of one name the last has it. -/
theorem find?_parameterNames (fn : Function) (key : String) :
    (parameterNames fn).find? key =
      ((fn.params ++ fn.freeVars).filter (·.name = key)).getLast? := by
  rw [parameterNames, find?_foldl_insert]
  exact Option.or_none

/-- The stages of loading the blocks of a function with success. -/
theorem loadBlocks_eq_ok {fn : Function} {forms : List Form} {s body : Body}
    (h : loadBlocks fn forms s = .ok () body) :
    ∃ sorted cx bodies indexed made read filled,
      sortBlocks { callee := fn.callee } forms { s with names := parameterNames fn } =
        .ok sorted indexed ∧
      makeBlocks { callee := fn.callee } ((sorted.length : Int) - 1) 0 sorted indexed =
        .ok () made ∧
      readHeaders { callee := fn.callee } 0 sorted made = .ok (cx, bodies) read ∧
      fillBlocks cx 0 bodies read = .ok () filled ∧
      settlePhis cx (phiDepth filled.waiting + 1) filled = .ok () body := by
  unfold loadBlocks at h
  dsimp only at h
  obtain ⟨_, _, hNames, h⟩ := bind_eq_ok.mp h
  cases hNames
  obtain ⟨sorted, indexed, hSorted, h⟩ := bind_eq_ok.mp h
  obtain ⟨_, made, hBlocks, h⟩ := bind_eq_ok.mp h
  obtain ⟨⟨cx, bodies⟩, read, hHeaders, h⟩ := bind_eq_ok.mp h
  obtain ⟨_, filled, hFill, h⟩ := bind_eq_ok.mp h
  exact ⟨sorted, cx, bodies, indexed, made, read, filled, hSorted, hBlocks, hHeaders, hFill, h⟩

end Dump

end NilGuard
