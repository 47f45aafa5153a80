import Mathlib
import NilGuard.Proofs.Copy
import NilGuard.Proofs.Filling
/-! The instructions of a loaded body. Each block holds those of the statements of its form in
the order of the text, whichever lets were evaluated before their turn. -/
namespace NilGuard

namespace Dump

section Headers

variable {cx : Context} {s t : Body}

/-- A computation changes nothing but the headers of blocks if it succeeds. -/
def Heads {α : Type} (x : BodyM α) : Prop :=
  ∀ s a t, x s = .ok a t → ∃ blocks : Array Block, t = { s with blocks } ∧
    blocks.map Block.instrs = s.blocks.map Block.instrs

theorem isLayable_heads : IsLayable fun _ => Heads where
  pure a := by
    rintro s _ _ ⟨⟩
    exact ⟨s.blocks, rfl, rfl⟩
  get := by
    rintro s _ _ ⟨⟩
    exact ⟨s.blocks, rfl, rfl⟩
  refused _ _ _ := by
    rintro s _ _ ⟨⟩
  seq := by
    intro α β x f hx hf s b u hRun
    obtain ⟨a, t, hFirst, hRest⟩ := bind_eq_ok.mp hRun
    obtain ⟨blocks, rfl, hInstrs⟩ := hx s a t hFirst
    obtain ⟨blocks', rfl, hInstrs'⟩ := hf a ⟨s, _, hFirst⟩ _ b u hRest
    exact ⟨blocks', rfl, hInstrs'.trans hInstrs⟩
  header i f hf := by
    rintro s _ _ ⟨⟩
    refine ⟨s.blocks.modify i f, rfl, Array.ext_getElem? fun j => ?_⟩
    rw [Array.getElem?_map, Array.getElem?_map, Array.getElem?_modify]
    by_cases hPlace : i = j
    · cases s.blocks[j]? <;> simp [hPlace, hf]
    · simp [hPlace]

/-- The blocks are made empty, with indices that count from a place on. -/
theorem makeBlocks_eq_ok {last : Int} {place : Nat} {sorted : List (Int × Form)}
    (hRun : makeBlocks cx last place sorted s = .ok () t) :
    ∃ blocks : Array Block, t = { s with blocks } ∧
      blocks.toList = s.blocks.toList ++ sorted.map (fun e => { index := e.1 }) ∧
      sorted.map Prod.fst = (List.range' place sorted.length).map Nat.cast := by
  induction sorted generalizing s place with
  | nil =>
      cases hRun
      exact ⟨_, rfl, by simp, rfl⟩
  | cons e sorted ih =>
      obtain ⟨index, form⟩ := e
      rw [makeBlocks] at hRun
      by_cases hIndex : index ≠ place
      · rw [if_pos hIndex] at hRun
        cases hRun
      · rw [if_neg hIndex] at hRun
        obtain ⟨_, u, hPush, hRest⟩ := bind_eq_ok.mp hRun
        cases hPush
        obtain ⟨blocks, rfl, hBlocks, hPlaces⟩ := ih hRest
        refine ⟨blocks, rfl, ?_, ?_⟩
        · rw [hBlocks, Array.toList_push, List.append_assoc]
          rfl
        · rw [List.map_cons, hPlaces, List.length_cons, List.range'_succ, List.map_cons,
            not_not.mp hIndex]

/-- What the headers of a body come to: the block forms in the order of their indices, the
statements of each, a context with the lets, and a state with empty blocks. -/
structure HasHeaders (fn : Function) (forms : List Form) (sorted : List (Int × Form)) (cx : Context)
    (bodies : List (List Form)) (s : Body) : Prop where
  indexed : AreIndexed forms sorted
  places : sorted.map Prod.fst = (List.range sorted.length).map Nat.cast
  statements : bodies = sorted.map fun e => statementsOf e.2
  callee : cx.callee = fn.callee
  areRead : AreRead forms cx bodies
  unbound : ∀ name stmt, cx.lets.find? name = some stmt → (parameterNames fn).find? name = none
  state : s = { program := s.program, blocks := s.blocks, names := parameterNames fn }
  empty : s.blocks.toList.map Block.instrs = List.replicate sorted.length []

theorem hasHeaders_of_readHeaders {fn : Function} {forms : List Form} {program : Program}
    {last : Int} {sorted : List (Int × Form)} {bodies : List (List Form)}
    {indexed made read : Body}
    (hSorted : sortBlocks { callee := fn.callee } forms { program, names := parameterNames fn } =
      .ok sorted indexed)
    (hBlocks : makeBlocks { callee := fn.callee } last 0 sorted indexed = .ok () made)
    (hHeaders : readHeaders { callee := fn.callee } 0 sorted made = .ok (cx, bodies) read) :
    HasHeaders fn forms sorted cx bodies read := by
  obtain ⟨rfl, hIndexed⟩ := keeps_sortBlocks_indexed
    (I := fun s => s = { program, names := parameterNames fn }) forms _ _ _ rfl hSorted
  obtain ⟨blocks, rfl, hMade, hPlaces⟩ := makeBlocks_eq_ok hBlocks
  obtain ⟨hBodies, hLets⟩ := (keeps_readHeaders_statements 0 sorted _ _ _ rfl hHeaders).2
  obtain ⟨blocks', rfl, hInstrs⟩ := isLayable_heads.readHeaders _ 0 sorted _ _ _ hHeaders
  have hRead := areRead_of_returns rfl ⟨_, _, hSorted⟩ ⟨_, _, hHeaders⟩
  refine ⟨hIndexed, ?_, hBodies, hLets.callee, hRead, fun name stmt hLet => ?_, rfl, ?_⟩
  · rw [hPlaces, List.range_eq_range']
  · obtain ⟨rfl, hHead, stmts, hMem, hStmt⟩ := hRead.of_find? hLet
    refine hLets.unbound stmt (List.mem_filter.mpr ⟨?_, decide_eq_true hHead⟩)
    exact List.mem_flatten.mpr ⟨stmts, hMem, hStmt⟩
  · rw [← Array.toList_map, hInstrs, Array.toList_map, hMade]
    simp [Function.comp_def]

section Start

variable {fn : Function} {forms : List Form} {sorted : List (Int × Form)}
  {bodies : List (List Form)} (h : HasHeaders fn forms sorted cx bodies s)
include h

theorem HasHeaders.find? {stmts : List Form} (hStmts : stmts ∈ bodies) {stmt : Form}
    (hStmt : stmt ∈ stmts) (hLet : stmt.head? = some "let") :
    cx.lets.find? (letName stmt) = some stmt := by
  refine Table.find?_of_mem_entries h.areRead.nodup ?_
  rw [h.areRead.entries]
  refine List.mem_map.mpr ⟨stmt, List.mem_filter.mpr ⟨?_, decide_eq_true hLet⟩, rfl⟩
  exact List.mem_flatten.mpr ⟨stmts, hStmts, hStmt⟩

theorem HasHeaders.length : bodies.length = sorted.length := by
  rw [h.statements, List.length_map]

theorem HasHeaders.isOpen : s.IsOpen cx := by
  rw [h.state]
  refine ⟨fun name stmt hLet _ => ?_, fun name is hBuilt => ?_, by simp, List.Pairwise.nil⟩
  · exact h.unbound name stmt hLet
  · cases hBuilt

theorem HasHeaders.answers (e : End) : s.Answers cx e := by
  rw [h.state]
  intro name stmt is _ hBuilt
  cases hBuilt

theorem HasHeaders.areFresh : s.AreFresh [] := by
  rw [h.state]
  exact ⟨List.nodup_nil, by simp [Body.keptIds]⟩

theorem HasHeaders.code? (i : Nat) : s.code? i = if i < sorted.length then some [] else none := by
  have hCode : s.code? i = (s.blocks.toList.map Block.instrs)[i]? := by
    rw [Body.code?, List.getElem?_map, Array.getElem?_toList]
  rw [hCode, h.empty, List.getElem?_replicate]

end Start

end Headers

section Distinct

variable {cx : Context} {e : End} {s t : Body}

theorem result?_fillPhi (settled : List (Value × List Value)) (i : Instr) :
    (fillPhi settled i).result? = i.result? := by
  unfold fillPhi
  split
  case h_1 v _ hOp =>
    split
    case h_1 => rw [Instr.result?, Instr.result?, hOp]
    case h_2 => rfl
  case h_2 => rfl

theorem resultIds_fill (is : List Instr) : resultIds (e.fill is) = resultIds is := by
  rw [resultIds, End.fill, List.filterMap_map]
  simp only [Function.comp_def, result?_fillPhi]
  rfl

theorem subperm_flatMap {α β : Type} {xs ys : List α} (h : xs.Subperm ys) (f : α → List β) :
    (xs.flatMap f).Subperm (ys.flatMap f) := by
  obtain ⟨zs, hPerm, hSub⟩ := h
  exact ⟨zs.flatMap f, hPerm.flatMap_right f, hSub.flatMap f⟩

/-- The instructions of statements define distinct values if their lets have distinct names. -/
theorem Performed.nodup {done : Work} (h : Performed cx e done s t) (hs : s.AreFresh [])
    (hLets : (((done.map Prod.fst).filter fun stmt => stmt.head? = some "let").map letName).Nodup) :
    (done.flatMap fun p => resultIds p.2).Nodup := by
  let lets := done.filter fun p => p.1.head? = some "let"
  let entries := lets.map fun p => (letName p.1, p.2)
  have hNames : entries.map Prod.fst =
      ((done.map Prod.fst).filter fun stmt => stmt.head? = some "let").map letName := by
    rw [List.filter_map, List.map_map, List.map_map]
    rfl
  have hNodup : entries.Nodup := .of_map Prod.fst (hNames ▸ hLets)
  -- the lets were kept, each under its own name
  have hSubset : entries ⊆ t.built.entries := by
    intro entry hEntry
    obtain ⟨p, hp, rfl⟩ := List.mem_map.mp hEntry
    obtain ⟨hp, hLet⟩ := List.mem_filter.mp hp
    exact Table.mem_entries_of_find? (h.kept p hp (of_decide_eq_true hLet))
  have hKept : (lets.flatMap fun p => resultIds p.2).Subperm t.keptIds := by
    have hFlat := subperm_flatMap (List.subperm_of_subset hNodup hSubset) fun entry =>
      resultIds entry.2
    rwa [List.flatMap_map] at hFlat
  have hLoose : (done.filter fun p => !decide (p.1.head? = some "let")).flatMap
      (fun p => resultIds p.2) = resultIds done.loose := by
    rw [Work.loose, resultIds, List.filterMap_flatMap]
    simp only [decide_not, ne_eq]
    rfl
  have hFresh := (h.adds [] hs).nodup
  rw [List.nil_append, ← hLoose] at hFresh
  have hPerm := (List.filter_append_perm (fun p : Form × List Instr => p.1.head? = some "let")
    done).flatMap_right fun p => resultIds p.2
  rw [← hPerm.nodup_iff, List.flatMap_append, List.perm_append_comm.nodup_iff]
  obtain ⟨kept, hKeptPerm, hKeptSub⟩ := hKept
  have hAll := hFresh.sublist (hKeptSub.append_left _)
  rwa [(hKeptPerm.append_left _).nodup_iff] at hAll

end Distinct

/-- A function with the blocks that its body has come to, not linked yet. -/
def Body.function (body : Body) (fn : Function) : Function := { fn with blocks := body.finished }

section Loaded

variable {program program' : Program} {fn loaded : Function} {forms : List Form}

theorem loadBody_eq_ok (h : loadBody program fn forms = (program', .ok loaded)) :
    ∃ body, loadBlocks fn forms { program } = .ok () body ∧
      loaded = (body.function fn).link.1 ∧
      program' = body.program.modifyPackage fn.callee.package
        (·.modifyFunction fn.callee fun _ => loaded) := by
  unfold loadBody at h
  cases hRun : loadBlocks fn forms { program } with
  | error e body =>
      rw [hRun] at h
      cases h
  | ok _ body =>
      rw [hRun] at h
      cases h
      exact ⟨body, rfl, rfl, rfl⟩

theorem widens_modifyFunction (p : Program) (path : String) (callee : Callee)
    (f : Function → Function) :
    p.Widens (p.modifyPackage path (·.modifyFunction callee f)) := by
  have hKept (a : Package) : (a.modifyFunction callee f).globals = a.globals ∧
      (a.modifyFunction callee f).consts = a.consts := by
    unfold Package.modifyFunction
    split
    all_goals exact ⟨rfl, rfl⟩
  refine Program.widens_modifyPackage (fun a name v _ hv => ?_) fun a => (hKept a).2
  rw [(hKept a).1]
  exact hv

theorem instrs_finished (fn : Function) (body : Body) {i : Nat} (hi : i < body.blocks.size) :
    (body.function fn).instrs i =
      ((body.code? i).getD []).map (fillPhi body.settled) := by
  have hBlocks : (body.function fn).blocks = body.finished := rfl
  have hSize : i < (body.function fn).blocks.size := by
    rw [hBlocks, Body.finished, Array.size_map]
    exact hi
  rw [Function.instrs, Function.block?_of_lt hSize, hBlocks, Body.finished, Array.getElem?_map,
    Body.code?, Array.getElem?_eq_getElem hi]
  rfl

/-- The loading of a body, told by its end and by the instructions that its statements came to. -/
structure Recounts (fn : Function) (forms : List Form) (body : Body) (sorted : List (Int × Form))
    (cx : Context) (e : End) (done : List Work) : Prop where
  headers : ∃ read, HasHeaders fn forms sorted cx (done.map (·.map Prod.fst)) read ∧
    read.Leads cx e.filled ∧ Performed cx e done.flatten read e.filled
  settled : e.settled = body.settled
  code : ∀ i, body.code? i = (done[i]?).map fun w => w.flatMap Prod.snd

theorem recounts_of_settlePhis {depth : Nat} {sorted : List (Int × Form)} {cx : Context}
    {bodies : List (List Form)} {read filled body : Body}
    (hRead : HasHeaders fn forms sorted cx bodies read)
    (hFill : fillBlocks cx 0 bodies read = .ok () filled) (hBound : filled.IsBound cx)
    (hSettle : settlePhis cx (depth + 1) filled = .ok () body)
    (hProgram : body.program.Widens program') :
    ∃ done, Recounts fn forms body sorted cx ⟨filled, program', body.settled⟩ done := by
  obtain ⟨hProceeds, hPerformed⟩ := fillBlocks_eq_ok (fun _ hStmts _ => hRead.find? hStmts)
    hRead.isOpen hFill
  have hNone : filled.settled = [] := by
    rw [hProceeds.settled, hRead.state]
  obtain ⟨hEnd, hSame⟩ :=
    isSettled_of_settlePhis hProceeds.isOpen hBound hNone hSettle hProgram
  obtain ⟨done, rfl, hDone, hCode⟩ := hPerformed _ hEnd (hRead.answers _) (.refl cx filled)
  refine ⟨done, ⟨read, hRead, hProceeds.leads, hDone⟩, rfl, fun i => ?_⟩
  have hLength := hRead.length
  rw [List.length_map] at hLength
  have hFilled : body.code? i = filled.code? i := by rw [Body.code?, hSame, Body.code?]
  rw [hFilled, hCode, hRead.code?, ← hLength]
  by_cases hi : i < done.length
  · have hWork : done[i]? = some done[i] := List.getElem?_eq_getElem hi
    have hLayout := Work.layout_add hWork 0
    rw [Nat.zero_add] at hLayout
    rw [if_pos hi, hWork, Option.map_some, Option.map_some, List.nil_append, hLayout]
  · rw [if_neg hi, List.getElem?_eq_none (Nat.not_lt.mp hi)]
    rfl

theorem recounts_of_loadBlocks {body : Body} (h : loadBlocks fn forms { program } = .ok () body)
    (hProgram : body.program.Widens program') :
    ∃ sorted cx e done, Recounts fn forms body sorted cx e done ∧ e.program = program' := by
  obtain ⟨sorted, cx, bodies, indexed, made, read, filled, hSorted, hBlocks, hHeaders, hFill,
    hSettle⟩ := loadBlocks_eq_ok h
  have hRead := hasHeaders_of_readHeaders hSorted hBlocks hHeaders
  have hBound := (isSettling_of_fillBlocks hSorted hBlocks hHeaders hFill).bound
  obtain ⟨done, hRecounts⟩ := recounts_of_settlePhis hRead hFill hBound hSettle hProgram
  exact ⟨sorted, cx, _, done, hRecounts, rfl⟩

/-- The blocks of a function hold what the statements of block forms stand for. There is one form
for each block, whatever the order of the forms, and the block has the instructions of its
statements in the order of the text. No value is defined at two places. -/
structure Holds (sc : Scope) (forms : List Form) (fn : Function) : Prop where
  numbers : (forms.map blockNumber?).Perm
    ((List.range fn.blocks.size).map fun i : Nat => some (i : Int))
  instrs : ∀ form ∈ forms, ∀ i : Nat, blockNumber? form = some (i : Int) →
    ∃ parts, List.Forall₂ sc.Performs (statementsOf form) parts ∧ fn.instrs i = parts.flatten
  distinct : ((List.range fn.blocks.size).flatMap fun i => resultIds (fn.instrs i)).Nodup

theorem Holds.of_hasSameCode {sc : Scope} {other : Function} (h : Holds sc forms fn)
    (hSame : fn.HasSameCode other) : Holds sc forms other := by
  refine ⟨?_, ?_, ?_⟩
  · rw [hSame.size]
    exact h.numbers
  · rw [hSame.instrs]
    exact h.instrs
  · rw [hSame.size, hSame.instrs]
    exact h.distinct

section Recounts

variable {body : Body} {sorted : List (Int × Form)} {cx : Context} {e : End} {done : List Work}
  (h : Recounts fn forms body sorted cx e done)
include h

theorem Recounts.size : body.blocks.size = done.length := by
  have hSame (i : Nat) : i < body.blocks.size ↔ i < done.length := by
    have hCode := congrArg Option.isSome (h.code i)
    rw [Body.code?, Option.isSome_map, Option.isSome_map] at hCode
    have hBlocks : (body.blocks[i]?.isSome = true) = (i < body.blocks.size) := isSome_getElem? _ _
    have hDone : (done[i]?.isSome = true) = (i < done.length) := isSome_getElem? _ _
    rw [← hBlocks, ← hDone, hCode]
  have hFirst := hSame done.length
  have hSecond := hSame body.blocks.size
  omega

theorem Recounts.instrs {i : Nat} {w : Work} (hw : done[i]? = some w) :
    (body.function fn).instrs i = e.fill (w.flatMap Prod.snd) := by
  have hi : i < body.blocks.size := by
    rw [h.size]
    exact (List.getElem?_eq_some_iff.mp hw).1
  rw [instrs_finished fn body hi, h.code, hw, ← h.settled]
  rfl

/-- The form with a number is the one whose statements were performed for that block. -/
theorem Recounts.exists_work {form : Form} (hForm : form ∈ forms) {i : Nat}
    (hNumber : blockNumber? form = some (i : Int)) :
    ∃ w, done[i]? = some w ∧ w.map Prod.fst = statementsOf form := by
  obtain ⟨read, hRead, -, -⟩ := h.headers
  obtain ⟨entry, hEntry, rfl⟩ := List.mem_map.mp (hRead.indexed.perm.mem_iff.mpr hForm)
  have hIndex : entry.1 = i :=
    Option.some.inj ((hRead.indexed.number entry hEntry).symm.trans hNumber)
  obtain ⟨k, hk⟩ := List.mem_iff_getElem?.mp hEntry
  have hPlace : k = i := by
    have hPlaces := congrArg (·[k]?) hRead.places
    have hLt := (List.getElem?_eq_some_iff.mp hk).1
    simp only [List.getElem?_map, hk, List.getElem?_range hLt, Option.map_some, hIndex] at hPlaces
    exact_mod_cast (Option.some.inj hPlaces).symm
  have hStmts := congrArg (·[i]?) hRead.statements
  rw [hPlace] at hk
  simp only [List.getElem?_map, hk, Option.map_some] at hStmts
  exact Option.map_eq_some_iff.mp hStmts

theorem Recounts.distinct :
    ((List.range done.length).flatMap fun i =>
      resultIds ((body.function fn).instrs i)).Nodup := by
  obtain ⟨read, hRead, -, hDone⟩ := h.headers
  have hInstrs : (List.range done.length).map (body.function fn).instrs =
      done.map fun w => e.fill (w.flatMap Prod.snd) := by
    refine List.ext_getElem? fun i => ?_
    rw [List.getElem?_map, List.getElem?_map]
    by_cases hi : i < done.length
    · rw [List.getElem?_range hi, List.getElem?_eq_getElem hi, Option.map_some, Option.map_some,
        h.instrs (List.getElem?_eq_getElem hi)]
    · simp [hi]
  have hIds : ((List.range done.length).flatMap fun i =>
      resultIds ((body.function fn).instrs i)) =
        done.flatten.flatMap fun p => resultIds p.2 := by
    rw [← List.flatMap_map (body.function fn).instrs, hInstrs, List.flatMap_map,
      List.flatten_eq_flatMap, List.flatMap_assoc]
    refine List.flatMap_congr fun w _ => ?_
    rw [resultIds_fill, resultIds, List.filterMap_flatMap]
    rfl
  rw [hIds]
  refine hDone.nodup hRead.areFresh ?_
  have hStmts : done.flatten.map Prod.fst = (done.map (·.map Prod.fst)).flatten := by
    rw [List.map_flatten]
  have hKeys := hRead.areRead.nodup
  rw [Table.keys, hRead.areRead.entries, List.map_map] at hKeys
  rw [hStmts]
  exact hKeys

theorem Recounts.holds : Holds (e.scope cx) forms (body.function fn) := by
  obtain ⟨read, hRead, -, hDone⟩ := h.headers
  have hSize : (body.function fn).blocks.size = done.length := by
    rw [← h.size]
    exact Array.size_map
  refine ⟨?_, fun form hForm i hNumber => ?_, ?_⟩
  · have hNumbers : (sorted.map Prod.snd).map blockNumber? = (sorted.map Prod.fst).map some := by
      rw [List.map_map, List.map_map]
      exact List.map_congr_left fun entry hEntry => hRead.indexed.number entry hEntry
    have hLength := hRead.length
    rw [List.length_map] at hLength
    have hPerm := (hRead.indexed.perm.map blockNumber?).symm
    rwa [hNumbers, hRead.places, List.map_map, ← hLength, ← hSize] at hPerm
  · obtain ⟨w, hw, hStmts⟩ := h.exists_work hForm hNumber
    refine ⟨w.map fun p => e.fill p.2, ?_, ?_⟩
    · rw [← hStmts, List.forall₂_map_left_iff, List.forall₂_map_right_iff, List.forall₂_same]
      exact fun p hp => hDone.performs p
        (List.mem_flatten.mpr ⟨w, List.mem_of_getElem? hw, hp⟩)
    · rw [h.instrs hw, End.fill, List.map_flatMap, List.flatMap_def]
      rfl
  · rw [hSize]
    exact h.distinct

theorem Recounts.holds_link : Holds (e.scope cx) forms (body.function fn).link.1 :=
  h.holds.of_hasSameCode (body.function fn).hasSameCode_link

end Recounts

theorem recounts_of_loadBody (h : loadBody program fn forms = (program', .ok loaded)) :
    ∃ body sorted cx e done, Recounts fn forms body sorted cx e done ∧ e.program = program' ∧
      loaded = (body.function fn).link.1 := by
  obtain ⟨body, hLoad, hLoaded, hProgram⟩ := loadBody_eq_ok h
  have hWidens : body.program.Widens program' := hProgram ▸ widens_modifyFunction _ _ _ _
  obtain ⟨sorted, cx, e, done, hRecounts, hEnd⟩ := recounts_of_loadBlocks hLoad hWidens
  exact ⟨body, sorted, cx, e, done, hRecounts, hEnd, hLoaded⟩

/-- In a body that loads, each block holds what the statements of its form stand for, where the
names are those of the parameters and of the lets. -/
theorem loadBody_holds_statements (h : loadBody program fn forms = (program', .ok loaded)) :
    ∃ names : Table Value,
      (∀ name, (∀ form ∈ forms, ∀ stmt ∈ statementsOf form, stmt.head? = some "let" →
        letName stmt ≠ name) → names.find? name = (parameterNames fn).find? name) ∧
      Holds ⟨names, program', fn.callee.package⟩ forms loaded := by
  obtain ⟨body, sorted, cx, e, done, hRecounts, rfl, rfl⟩ := recounts_of_loadBody h
  obtain ⟨read, hRead, hLeads, -⟩ := hRecounts.headers
  refine ⟨e.filled.names, fun name hName => ?_, ?_⟩
  · have hOuter : cx.lets.find? name = none := by
      cases hLet : cx.lets.find? name with
      | none => rfl
      | some stmt =>
          obtain ⟨hSame, hHead, stmts, hMem, hStmt⟩ := hRead.areRead.of_find? hLet
          obtain ⟨form, hForm, rfl⟩ := hRead.areRead.statements stmts hMem
          exact absurd hSame (hName form hForm stmt hStmt hHead)
    rw [hLeads.outer name hOuter, hRead.state]
  · have hHolds := hRecounts.holds_link
    rwa [End.scope, hRead.callee] at hHolds

/-- The blocks stand in the reverse order, and the first statement of the first block needs a let
of the second, which needs a later let of the first. -/
def forwardForms : List Form :=
  [.list [.sym "block", .int 1,
    .list [.sym "let", .sym "b", .list [.sym "call", .str "p", .sym "f", .sym "a"]],
    .list [.sym "return", .sym "b"]],
   .list [.sym "block", .int 0, .list [.sym "succs", .int 1],
    .list [.sym "store", .sym "x", .list [.sym "call", .str "p", .sym "g", .sym "b"]],
    .list [.sym "let", .sym "a", .list [.sym "alloc"]],
    .list [.sym "jump"]]]

def forwardFunction : Function where
  callee := ⟨"p", "forward", none⟩
  params := [.leaf { id := 0, name := "x" } .other]

theorem loadBody_holds_statements_forwardForms :
    ∃ program loaded,
      loadBody { nextId := 1 } forwardFunction forwardForms = (program, .ok loaded) ∧
      (loaded.instrs 0).length = 4 ∧ (loaded.instrs 1).length = 2 ∧
      ∃ names : Table Value,
        names.find? "x" = some (.leaf { id := 0, name := "x" } .other) ∧
        Holds ⟨names, program, "p"⟩ forwardForms loaded := by
  have hLoads : (loadBody { nextId := 1 } forwardFunction forwardForms).2.toOption.map
      (fun loaded => ((loaded.instrs 0).length, (loaded.instrs 1).length)) = some (4, 2) := by cbv
  cases hRun : loadBody { nextId := 1 } forwardFunction forwardForms with
  | mk program result =>
      rw [hRun] at hLoads
      cases result with
      | error e => cases hLoads
      | ok loaded =>
          obtain ⟨hFirst, hSecond⟩ := Prod.mk.inj (Option.some.inj hLoads)
          obtain ⟨names, hOuter, hHolds⟩ := loadBody_holds_statements hRun
          exact ⟨program, loaded, rfl, hFirst, hSecond, names, hOuter "x" (by decide), hHolds⟩

end Loaded

end Dump

end NilGuard
