import Mathlib
import NilGuard.Proofs.WellFormed
/-! Circular lets. A well-formed body loads unless some let depends on itself, and then the failure
names a let that does. -/
namespace NilGuard.Dump

/-! ### Filling the blocks -/

section Filling

variable {cx : Context} {used : List String} {s t : Body}

/-- A statement can be used, and is taken down if it is a let. -/
structure Context.Accepts (cx : Context) (used : List String) (stmt : Form) : Prop
    extends IsUsableStatement used stmt where
  lets : stmt.head? = some "let" → cx.lets.find? (letName stmt) = some stmt

/-- The instructions of statements stand at the end of a block, which ends in a branch if they
do. -/
def Body.Fills (i : Nat) (stmts : List Form) (s t : Body) : Prop :=
  ∃ is, lastIsBranch? is = bodyBranches? stmts ∧ ∀ j, t.blocks[j]? =
    (s.blocks[j]?).map fun b => if j = i then { b with instrs := b.instrs ++ is } else b

theorem bodyBranches?_cons (stmt : Form) (stmts : List Form) :
    bodyBranches? (stmt :: stmts) = (bodyBranches? stmts).or (statementBranches? stmt) := by
  unfold bodyBranches?
  cases hStmt : statementBranches? stmt with
  | none => rw [List.filterMap_cons_none hStmt, Option.or_none]
  | some last =>
      rw [List.filterMap_cons_some hStmt, List.getLast?_cons]
      cases (stmts.filterMap statementBranches?).getLast? <;> rfl

theorem endsInBranch_iff (b : Block) :
    endsInBranch b = true ↔ lastIsBranch? b.instrs = some true := by
  unfold endsInBranch lastIsBranch?
  cases hLast : b.instrs.getLast? with
  | none => simp
  | some i =>
      obtain ⟨location, op⟩ := i
      cases op <;> simp [Instr.isBranch]

theorem endsWith_evalStatements (hUsable : cx.IsUsable used) (i : Nat) {stmts : List Form}
    (hStmts : ∀ stmt ∈ stmts, cx.Accepts used stmt) (hs : s.IsReady cx used) :
    EndsWith (fun _ t => s.Obtains cx used (letNames stmts) t ∧ s.Fills i stmts t) cx.IsCircular
      (evalStatements cx i stmts s) := by
  induction stmts generalizing s with
  | nil => exact ⟨hs.obtains, [], rfl, fun j => by simp⟩
  | cons stmt stmts ih =>
      rw [List.forall_mem_cons] at hStmts
      obtain ⟨hFirst, hStmts⟩ := hStmts
      rw [evalStatements]
      refine (supplies_evalStatement hUsable hFirst.toIsUsableStatement hFirst.lets s hs).bind
        fun is t _ ht => ?_
      obtain ⟨ht, hSame, hBranches⟩ := ht
      let next : Body :=
        { t with blocks := t.blocks.modify i fun b => { b with instrs := b.instrs ++ is } }
      have hReady := ht.isReady
      have hNext : s.Obtains cx used (letNames [stmt]) next :=
        ⟨⟨hReady.known, hReady.grounded, hReady.built, hReady.waiting⟩, ht.names, ht.needs⟩
      refine EndsWith.bind (Q := fun _ u => u = next) rfl fun _ u _ hu => ?_
      subst hu
      refine (ih hStmts hNext.isReady).mono fun _ u hu => ⟨?_, ?_⟩
      · rw [← List.singleton_append, letNames_append]
        exact hNext.trans hu.1
      obtain ⟨js, hLast, hBlocks⟩ := hu.2
      refine ⟨is ++ js, ?_, fun j => ?_⟩
      · rw [lastIsBranch?_append, hLast, hBranches, bodyBranches?_cons]
      · rw [hBlocks, Array.getElem?_modify, hSame]
        by_cases hPlace : i = j
        · subst hPlace
          simp [Function.comp_def]
        · simp [hPlace, Ne.symm hPlace]

/-- Empty blocks are filled. Those that end in a branch have two successors. -/
theorem endsWith_fillBlocks (hUsable : cx.IsUsable used) (place : Nat) {bodies : List (List Form)}
    (hStmts : ∀ stmts ∈ bodies, ∀ stmt ∈ stmts, cx.Accepts used stmt)
    (hBlocks : ∀ (k : Nat) (stmts : List Form) (b : Block), bodies[k]? = some stmts →
      s.blocks[place + k]? = some b →
        b.instrs = [] ∧ (bodyBranches? stmts = some true → b.succs.length = 2))
    (hs : s.IsReady cx used) :
    EndsWith (fun _ t => s.Obtains cx used (letNames bodies.flatten) t) cx.IsCircular
      (fillBlocks cx place bodies s) := by
  induction bodies generalizing s place with
  | nil => exact hs.obtains
  | cons stmts bodies ih =>
      rw [List.forall_mem_cons] at hStmts
      rw [fillBlocks]
      refine (endsWith_evalStatements hUsable place hStmts.1 hs).bind fun _ t _ ht => ?_
      obtain ⟨ht, is, hLast, hFilled⟩ := ht
      have hUntouched (k : Nat) : t.blocks[place + 1 + k]? = s.blocks[place + (k + 1)]? := by
        have hPlace : place + 1 + k = place + (k + 1) := by omega
        rw [hFilled, hPlace]
        simp
      have hRest : EndsWith (fun _ u => s.Obtains cx used (letNames (stmts :: bodies).flatten) u)
          cx.IsCircular (fillBlocks cx (place + 1) bodies t) := by
        rw [List.flatten_cons, letNames_append]
        refine (ih (place + 1) hStmts.2 (fun k body b hBody hBlock => ?_) ht.isReady).mono
          fun _ u hu => ht.trans hu
        rw [hUntouched] at hBlock
        exact hBlocks (k + 1) body b hBody hBlock
      rw [get_bind_apply]
      cases hBlock : t.blocks[place]? with
      | none => exact hRest
      | some b =>
          have hCount : (endsInBranch b && b.succs.length != 2) = false := by
            rw [hFilled] at hBlock
            obtain ⟨b', hb', rfl⟩ := Option.map_eq_some_iff.mp hBlock
            obtain ⟨hEmpty, hTwo⟩ := hBlocks 0 stmts b' rfl hb'
            rw [if_pos rfl, hEmpty, List.nil_append]
            cases hBranch : endsInBranch { b' with instrs := is } with
            | false => rfl
            | true =>
                have hTrue := (endsInBranch_iff _).mp hBranch
                simp [hTwo (hLast ▸ hTrue)]
          simp only [hCount]
          exact hRest

end Filling

/-! ### Loading -/

/-- The names that the expression of a let has outside every phi. -/
def neededNames (stmt : Form) : List String := (letExpression? stmt).toList.flatMap inlineNames

/-- The expression of one let of block forms names another one outside every phi. -/
def Needs (forms : List Form) (a b : String) : Prop :=
  ∃ stmt ∈ letsOf forms, letName stmt = a ∧ b ∈ neededNames stmt ∧ b ∈ (letsOf forms).map letName

instance (forms : List Form) (a b : String) : Decidable (Needs forms a b) :=
  inferInstanceAs (Decidable (∃ stmt ∈ letsOf forms, letName stmt = a ∧ b ∈ neededNames stmt ∧
    b ∈ (letsOf forms).map letName))

section Loading

variable {program : Program} {fn : Function} {forms : List Form} {sorted : List (Int × Form)}
  {cx : Context} {bodies : List (List Form)} {s t : Body}

theorem HasHeaders.find?_iff (h : HasHeaders fn forms sorted cx bodies s) {name : String}
    {stmt : Form} :
    cx.lets.find? name = some stmt ↔ stmt ∈ letsOf forms ∧ letName stmt = name := by
  rw [mem_letsOf]
  constructor
  · intro hFind
    obtain ⟨hName, hLet, stmts, hStmts, hStmt⟩ := h.areRead.of_find? hFind
    obtain ⟨form, hForm, rfl⟩ := h.areRead.statements stmts hStmts
    exact ⟨⟨form, hForm, hStmt, hLet⟩, hName⟩
  · rintro ⟨⟨form, hForm, hStmt, hLet⟩, rfl⟩
    have hMem : statementsOf form ∈ bodies := by
      obtain ⟨e, he, rfl⟩ := List.mem_map.mp (h.indexed.perm.mem_iff.mpr hForm)
      rw [h.statements]
      exact List.mem_map_of_mem he
    exact h.find? hMem hStmt hLet

theorem HasHeaders.isSome_iff (h : HasHeaders fn forms sorted cx bodies s) {name : String} :
    (cx.lets.find? name).isSome ↔ name ∈ (letsOf forms).map letName := by
  simp only [Option.isSome_iff_exists, h.find?_iff, List.mem_map]

theorem HasHeaders.needs_eq (h : HasHeaders fn forms sorted cx bodies s) :
    cx.Needs = Needs forms := by
  funext a b
  simp only [Context.Needs, Needs, neededNames, h.isSome_iff, h.find?_iff, List.mem_flatMap,
    Option.mem_toList]
  apply propext
  constructor
  · rintro ⟨stmt, x, ⟨hStmt, hName⟩, hx, hb, hLet⟩
    exact ⟨stmt, hStmt, hName, ⟨x, hx, hb⟩, hLet⟩
  · rintro ⟨stmt, hStmt, hName, ⟨x, hx, hb⟩, hLet⟩
    exact ⟨stmt, x, ⟨hStmt, hName⟩, hx, hb, hLet⟩

/-- What can be reached by needs in finitely many steps needs nothing in a circle. -/
theorem not_transGen_of_acc {α : Type} {r : α → α → Prop} {a : α} (h : Acc (fun b a => r a b) a) :
    ¬ Relation.TransGen r a a := by
  induction h with
  | intro a _ ih =>
      intro hCycle
      obtain ⟨b, hab, hba⟩ := Relation.TransGen.head'_iff.mp hCycle
      exact ih b hab (Relation.TransGen.tail' hba hab)

theorem bind_of_eq_ok {σ α β : Type} {x : EStateM LoadError σ α}
    {f : α → EStateM LoadError σ β} {s t : σ} {a : α} (h : x s = .ok a t) :
    (x >>= f) s = f a t := by
  change EStateM.bind x f s = _
  rw [EStateM.bind, h]

/-- The names that the statements of a body use. -/
def namesOf (forms : List Form) : List String :=
  (forms.flatMap statementsOf).flatMap statementNames

theorem statementNames_subset_namesOf {form stmt : Form} (hForm : form ∈ forms)
    (hStmt : stmt ∈ statementsOf form) : statementNames stmt ⊆ namesOf forms := fun _ hName =>
  List.mem_flatMap.mpr ⟨stmt, List.mem_flatMap.mpr ⟨form, hForm, hStmt⟩, hName⟩

namespace IsWellFormedBody

variable (h : IsWellFormedBody program fn forms)
include h

theorem isUsableStatement {form stmt : Form} (hForm : form ∈ forms)
    (hStmt : stmt ∈ statementsOf form) : IsUsableStatement (namesOf forms) stmt :=
  ⟨h.statements form hForm stmt hStmt, statementNames_subset_namesOf hForm hStmt⟩

theorem isUsable (hRead : HasHeaders fn forms sorted cx bodies s) :
    cx.IsUsable (namesOf forms) := by
  intro name stmt hFind
  obtain ⟨form, hForm, hStmt, hLet⟩ := mem_letsOf.mp (hRead.find?_iff.mp hFind).1
  exact ⟨hLet, h.isUsableStatement hForm hStmt⟩

theorem accepts (hRead : HasHeaders fn forms sorted cx bodies s) :
    ∀ stmts ∈ bodies, ∀ stmt ∈ stmts, cx.Accepts (namesOf forms) stmt := by
  intro stmts hStmts stmt hStmt
  obtain ⟨form, hForm, rfl⟩ := hRead.areRead.statements stmts hStmts
  exact ⟨h.isUsableStatement hForm hStmt, hRead.find? hStmts hStmt⟩

theorem isReady (hRead : HasHeaders fn forms sorted cx bodies s) (hProgram : s.program = program) :
    s.IsReady cx (namesOf forms) := by
  have hState := hRead.state
  refine ⟨fun name hName => ?_, fun name hLet hBound => ?_, fun name is hBuilt => ?_, ?_⟩
  · obtain ⟨stmt, hStmt, hName⟩ := List.mem_flatMap.mp hName
    obtain ⟨form, hForm, hStmt⟩ := List.mem_flatMap.mp hStmt
    rw [Body.Knows, hRead.isSome_iff, hRead.callee, hProgram, hState]
    rcases h.known form hForm stmt hStmt name hName with hParameter | hLet | hRest
    · exact .inr (.inl hParameter)
    · exact .inl hLet
    · exact .inr (.inr hRest)
  · obtain ⟨stmt, hFind⟩ := Option.isSome_iff_exists.mp hLet
    rw [hState, hRead.unbound name stmt hFind] at hBound
    cases hBound
  · rw [hState] at hBuilt
    cases hBuilt
  · rw [hState]
    simp

/-- The blocks of a well-formed body are filled and its phis are settled, or a let lies on a
cycle. -/
theorem endsWith_loadBlocks : ∃ sorted cx bodies read, HasHeaders fn forms sorted cx bodies read ∧
    EndsWith (fun _ t => read.Obtains cx (namesOf forms) (letNames bodies.flatten) t) cx.IsCircular
      (loadBlocks fn forms { program }) := by
  obtain ⟨sorted, cx, bodies, indexed, made, read, hSorted, hMade, hHeaders, hProgram, hCounts⟩ :=
    h.exists_headers
  have hRead := hasHeaders_of_readHeaders hSorted hMade hHeaders
  have hUsable := h.isUsable hRead
  have hBlocks (k : Nat) (stmts : List Form) (b : Block) (hBody : bodies[k]? = some stmts)
      (hBlock : read.blocks[0 + k]? = some b) :
      b.instrs = [] ∧ (bodyBranches? stmts = some true → b.succs.length = 2) := by
    rw [Nat.zero_add] at hBlock
    rw [hRead.statements, List.getElem?_map, Option.map_eq_some_iff] at hBody
    obtain ⟨e, hEntry, rfl⟩ := hBody
    constructor
    · have hMem : b ∈ read.blocks.toList := by
        rw [Array.mem_toList_iff]
        exact Array.mem_of_getElem? hBlock
      exact List.eq_of_mem_replicate (hRead.empty ▸ List.mem_map_of_mem (f := Block.instrs) hMem)
    · intro hBranch
      rw [hCounts k e b hEntry hBlock]
      exact h.branches e.2 (hRead.indexed.perm.mem_iff.mp
        (List.mem_map_of_mem (List.mem_of_getElem? hEntry))) hBranch
  refine ⟨sorted, cx, bodies, read, hRead, ?_⟩
  have hLoad : loadBlocks fn forms { program } = (do
      fillBlocks cx 0 bodies
      settlePhis cx (phiDepth (← get).waiting + 1)) read := by
    exact (bind_of_eq_ok hSorted).trans ((bind_of_eq_ok hMade).trans (bind_of_eq_ok hHeaders))
  rw [hLoad]
  refine (endsWith_fillBlocks hUsable 0 (h.accepts hRead) hBlocks (h.isReady hRead hProgram)).bind
    fun _ filled _ hFilled => ?_
  rw [get_bind_apply]
  refine (supplies_settlePhis hUsable _ filled hFilled.isReady).mono fun _ t ht => ?_
  simpa using hFilled.trans ht.1

/-- If the blocks of a well-formed body are loaded, no let depends on itself, and if they are not,
the failure is at a let that does. -/
theorem loadBlocks_circular :
    EndsWith (fun _ _ => ∀ name, ¬ Relation.TransGen (Needs forms) name name)
      (fun e => ∃ name stmt, e = .refused (some fn.callee.text) (.dependsOnItself name) (some stmt) ∧
        stmt ∈ letsOf forms ∧ letName stmt = name ∧ Relation.TransGen (Needs forms) name name)
      (loadBlocks fn forms { program }) := by
  obtain ⟨sorted, cx, bodies, read, hRead, hEnd⟩ := h.endsWith_loadBlocks
  rw [← hRead.needs_eq, ← hRead.callee]
  refine hEnd.imp (fun _ t ht name hCycle => ?_) ?_
  · obtain ⟨b, ⟨stmt, _, hFind, -⟩, -⟩ := Relation.TransGen.head'_iff.mp hCycle
    obtain ⟨rfl, hLet, stmts, hStmts, hStmt⟩ := hRead.areRead.of_find? hFind
    have hSome := Option.isSome_of_eq_some hFind
    have hMem : letName stmt ∈ letNames bodies.flatten := List.mem_map_of_mem (List.mem_filter.mpr
      ⟨List.mem_flatten.mpr ⟨stmts, hStmts, hStmt⟩, decide_eq_true hLet⟩)
    have hBound := ht.needs _ hMem hSome
    exact not_transGen_of_acc (ht.isReady.grounded _ hSome hBound) hCycle
  · rintro e ⟨name, stmt, rfl, hFind, hCycle⟩
    obtain ⟨hStmt, hName⟩ := hRead.find?_iff.mp hFind
    exact ⟨name, stmt, rfl, hStmt, hName, hCycle⟩

end IsWellFormedBody

/-- In a function whose blocks hold what block forms stand for, the name of a let has the value of
its expression. -/
theorem Holds.yields {sc : Scope} (h : Holds sc forms fn) {stmt : Form}
    (hStmt : stmt ∈ letsOf forms) :
    ∃ x v is, letExpression? stmt = some x ∧ sc.names.find? (letName stmt) = some v ∧
      sc.Yields (letName stmt) (locationOf stmt.items) x v is := by
  obtain ⟨form, hForm, hMem, hLet⟩ := mem_letsOf.mp hStmt
  have hNumber := h.numbers.mem_iff.mp (List.mem_map_of_mem hForm)
  obtain ⟨i, -, hi⟩ := List.mem_map.mp hNumber
  obtain ⟨parts, hParts, -⟩ := h.instrs form hForm i hi.symm
  obtain ⟨is, hPerforms⟩ : ∃ is, sc.Performs stmt is := by
    obtain ⟨k, hk, rfl⟩ := List.mem_iff_getElem.mp hMem
    have hLength : k < parts.length := hParts.length_eq ▸ hk
    exact ⟨parts[k], hParts.get hk hLength⟩
  cases hPerforms with
  | binding _ hx hv hYields => exact ⟨_, _, is, hx, hv, hYields⟩
  | ending hHead hEnding => exact absurd hLet (head?_ne_let_of_ending hHead hEnding)
  | expression hHead hShape => exact absurd hLet (head?_ne_let_of_shape hHead hShape)

/-- Names that no let binds keep the values of parameters. -/
theorem Recounts.find?_outer {body : Body} {e : End} {done : List Work}
    (h : Recounts fn forms body sorted cx e done) {name : String}
    (hName : name ∉ (letsOf forms).map letName) :
    e.filled.names.find? name = (parameterNames fn).find? name := by
  obtain ⟨read, hRead, hLeads, -⟩ := h.headers
  have hOuter : cx.lets.find? name = none :=
    Option.not_isSome_iff_eq_none.mp fun hSome => hName (hRead.isSome_iff.mp hSome)
  rw [hLeads.outer name hOuter, hRead.state]

theorem loadBody_eq_error {e : LoadError} {body : Body}
    (h : loadBlocks fn forms { program } = .error e body) :
    (loadBody program fn forms).2 = .error e := by
  rw [loadBody, h]

theorem exists_loadBody_eq_ok {body : Body} (h : loadBlocks fn forms { program } = .ok () body) :
    ∃ program' loaded, loadBody program fn forms = (program', .ok loaded) := by
  rw [loadBody, h]
  exact ⟨_, _, rfl⟩

/-- A well-formed body fails to load exactly if lets depend on each other in a circle outside
phis, and the failure then is at a let on such a circle. Otherwise each name of a let stands for
the value of its expression, in whatever order the blocks and statements are given. -/
theorem loadBody_fails_iff_circular (h : IsWellFormedBody program fn forms) :
    ((∃ name stmt e, (loadBody program fn forms).2 = .error e ∧
        e = .refused (some fn.callee.text) (.dependsOnItself name) (some stmt) ∧
        e.message? "" = some (fn.callee.text ++ ": " ++ (name ++ " depends on itself") ++
          (" (in " ++ stmt.shown ++ ")")) ∧
        stmt ∈ letsOf forms ∧ letName stmt = name ∧ Relation.TransGen (Needs forms) name name) ↔
      ∃ name, Relation.TransGen (Needs forms) name name) ∧
    ((∀ name, ¬ Relation.TransGen (Needs forms) name name) →
      ∃ program' loaded names, loadBody program fn forms = (program', .ok loaded) ∧
        (∀ name ∉ (letsOf forms).map letName,
          names.find? name = (parameterNames fn).find? name) ∧
        (∀ stmt ∈ letsOf forms, ∃ x v is, letExpression? stmt = some x ∧
          names.find? (letName stmt) = some v ∧
          Scope.Yields ⟨names, program', fn.callee.package⟩ (letName stmt) (locationOf stmt.items)
            x v is) ∧
        Holds ⟨names, program', fn.callee.package⟩ forms loaded) := by
  have hEnd := h.loadBlocks_circular
  cases hRun : loadBlocks fn forms { program } with
  | error e body =>
      rw [hRun] at hEnd
      obtain ⟨name, stmt, rfl, hStmt, hName, hCycle⟩ := hEnd
      refine ⟨⟨fun _ => ⟨name, hCycle⟩, fun _ => ?_⟩, fun hNone => absurd hCycle (hNone name)⟩
      exact ⟨name, stmt, _, loadBody_eq_error hRun, rfl, rfl, hStmt, hName, hCycle⟩
  | ok _ body =>
      rw [hRun] at hEnd
      obtain ⟨program', loaded, hLoad⟩ := exists_loadBody_eq_ok hRun
      have hNone : ¬ ∃ name, Relation.TransGen (Needs forms) name name := by
        rintro ⟨name, hCycle⟩
        exact hEnd name hCycle
      refine ⟨⟨?_, fun hCycle => absurd hCycle hNone⟩, fun _ => ?_⟩
      · rintro ⟨name, _, _, _, _, _, _, _, hCycle⟩
        exact ⟨name, hCycle⟩
      · obtain ⟨_, sorted, cx, final, done, hRecounts, rfl, rfl⟩ := recounts_of_loadBody hLoad
        obtain ⟨read, hRead, -, -⟩ := hRecounts.headers
        have hHolds := hRecounts.holds_link
        rw [End.scope, hRead.callee] at hHolds
        exact ⟨_, _, final.filled.names, hLoad, fun name => hRecounts.find?_outer,
          fun stmt => hHolds.yields, hHolds⟩

/-- A loop of phis, two lets that need the same one, and two that need each other unless the given
expression of one of them prevents it. The blocks and the lets stand in the reverse order. -/
def knotForms (expression : Form) : List Form :=
  [.list [.sym "block", .int 1,
    .list [.sym "let", .sym "w", .list [.sym "call", .str "p", .sym "f", .sym "x", .sym "y"]],
    .list [.sym "let", .sym "x", .list [.sym "slice", .sym "y"]],
    .list [.sym "return", .sym "w"]],
   .list [.sym "block", .int 0, .list [.sym "succs", .int 1, .int 1],
    .list [.sym "let", .sym "i", .list [.sym "phi", .sym "i", .sym "c"]],
    .list [.sym "let", .sym "y", .list [.sym "slice", .sym "z"]],
    .list [.sym "let", .sym "z", expression],
    .list [.sym "if", .sym "c"]]]

def knotFunction : Function where
  callee := ⟨"p", "knot", none⟩
  params := [.leaf { id := 0, name := "c" } .other]

/-- The knot is tied by a conversion. -/
def tied : Form := .list [.sym "change-interface", .sym "y"]

/-- A phi leaves it loose. -/
def loose : Form := .list [.sym "phi", .sym "y", .sym "c"]

theorem isWellFormedBody_tied : IsWellFormedBody { nextId := 1 } knotFunction (knotForms tied) :=
  ⟨by decide, by decide, by decide, by decide, by decide, by decide⟩

theorem isWellFormedBody_loose : IsWellFormedBody { nextId := 1 } knotFunction (knotForms loose) :=
  ⟨by decide, by decide, by decide, by decide, by decide, by decide⟩

theorem transGen_tied : Relation.TransGen (Needs (knotForms tied)) "y" "y" :=
  .tail (b := "z") (.single (by decide)) (by decide)

/-- The order in which the lets of the loose knot are evaluated. -/
def looseRank (name : String) : Nat := ["z", "y", "x", "w"].idxOf name

theorem looseRank_lt_of_needs {a b : String} (h : Needs (knotForms loose) a b) :
    looseRank b < looseRank a := by
  have hAll : ∀ stmt ∈ letsOf (knotForms loose), ∀ b ∈ neededNames stmt,
      looseRank b < looseRank (letName stmt) := by decide
  obtain ⟨stmt, hStmt, rfl, hb, -⟩ := h
  exact hAll stmt hStmt b hb

theorem not_transGen_loose (name : String) :
    ¬ Relation.TransGen (Needs (knotForms loose)) name name := by
  have hAcc : WellFounded fun b a => looseRank b < looseRank a := (measure looseRank).wf
  exact not_transGen_of_acc (Subrelation.accessible looseRank_lt_of_needs (hAcc.apply name))

theorem loadBody_fails_iff_circular_knot :
    IsWellFormedBody { nextId := 1 } knotFunction (knotForms tied) ∧
    (∃ name stmt, (loadBody { nextId := 1 } knotFunction (knotForms tied)).2 =
      .error (.refused (some "p.knot") (.dependsOnItself name) (some stmt))) ∧
    IsWellFormedBody { nextId := 1 } knotFunction (knotForms loose) ∧
    ∃ program loaded, loadBody { nextId := 1 } knotFunction (knotForms loose) =
      (program, .ok loaded) := by
  refine ⟨isWellFormedBody_tied, ?_, isWellFormedBody_loose, ?_⟩
  · obtain ⟨name, stmt, _, hError, rfl, -⟩ :=
      (loadBody_fails_iff_circular isWellFormedBody_tied).1.mpr ⟨"y", transGen_tied⟩
    exact ⟨name, stmt, hError⟩
  · obtain ⟨program, loaded, _, hLoad, -⟩ :=
      (loadBody_fails_iff_circular isWellFormedBody_loose).2 not_transGen_loose
    exact ⟨program, loaded, hLoad⟩

end Loading

end NilGuard.Dump
