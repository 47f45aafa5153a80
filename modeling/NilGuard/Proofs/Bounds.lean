import Mathlib.Data.List.Perm.Subperm
import NilGuard.Proofs.Header
/-! The two bounds in the loading of a body are never reached. A let is entered only once on the
way to a name, so names are resolved in fewer steps than there are lets. A phi inside an operand
of a phi is less deep, so the rounds of settling end before their number runs out. -/
namespace NilGuard.Dump

section Resolution

/-- Resolves a name, with what happens where the recursion is cut off left open. -/
def resolveOr (cx : Context) (stuck : String → Form → BodyM Value) :
    Nat → List String → String → Form → BodyM Value
  | 0, _, name, form => stuck name form
  | depth + 1, entered, name, form => do
    match (← get).names.find? name with
    | some v => return v
    | none =>
      match cx.lets.find? name with
      | none => resolveOuter cx name form
      | some stmt =>
        if name ∈ entered then cx.refuse (.dependsOnItself name) (some stmt)
        else evalLet cx (resolveOr cx stuck depth (name :: entered)) name stmt

theorem length_keys {α : Type} (t : Table α) : t.keys.length = t.entries.length :=
  List.length_map _

/-- A recursion that is cut off deeper than the number of lets is never cut off. -/
theorem resolveOr_eq {cx : Context} (stuck : String → Form → BodyM Value) {depth bound : Nat}
    {entered : List String} (hNodup : entered.Nodup) (hLets : entered ⊆ cx.lets.keys)
    (hDepth : cx.lets.entries.length < depth + entered.length)
    (hBound : cx.lets.entries.length ≤ bound + entered.length) :
    resolveOr cx stuck depth entered = resolve cx bound entered := by
  induction depth generalizing entered bound with
  | zero =>
      have hLength := (List.subperm_of_subset hNodup hLets).length_le
      rw [length_keys] at hLength
      omega
  | succ depth ih =>
      funext name form
      rw [resolveOr, resolve]
      refine bind_congr fun body => ?_
      cases body.names.find? name with
      | some v => rfl
      | none =>
          cases hLet : cx.lets.find? name with
          | none => rfl
          | some stmt =>
              by_cases hEntered : name ∈ entered
              · cases bound with
                | zero => simp [hEntered]
                | succ bound => simp [hEntered]
              · -- the let is one more that was entered, so the bound is not used up
                have hNodup' : (name :: entered).Nodup := List.nodup_cons.mpr ⟨hEntered, hNodup⟩
                have hLets' : name :: entered ⊆ cx.lets.keys :=
                  List.cons_subset.mpr ⟨Table.mem_keys_of_mem_entries
                    (Table.mem_entries_of_find? hLet), hLets⟩
                have hLength := (List.subperm_of_subset hNodup' hLets').length_le
                rw [length_keys, List.length_cons] at hLength
                obtain ⟨bound, rfl⟩ : ∃ b, bound = b + 1 := ⟨bound - 1, by omega⟩
                have hRest : resolveOr cx stuck depth (name :: entered) =
                    resolve cx bound (name :: entered) := by
                  refine ih hNodup' hLets' ?_ ?_
                  · rw [List.length_cons]
                    omega
                  · rw [List.length_cons]
                    omega
                simp only [if_neg hEntered, hRest]

end Resolution

section Rounds

/-- The lets among the statements that were reached are bound, and so are all that were
evaluated. A phi that waits is deeper than its operands. -/
structure Body.IsFilled (done : List Form) (s : Body) : Prop where
  bound : ∀ stmt ∈ done, stmt.head? = some "let" → (s.names.find? (letName stmt)).isSome
  built : ∀ name, (s.built.find? name).isSome → (s.names.find? name).isSome
  waiting : ∀ phi ∈ s.waiting, Form.depthAll phi.operands < phi.form.depth

abbrev Fills (done : List Form) {α : Type} (x : BodyM α) : Prop :=
  Meets (Body.IsFilled done) (fun _ _ => True) x

theorem depthAll_drop_lt (items : List Form) (n : Nat) :
    Form.depthAll (items.drop n) < (Form.list items).depth :=
  Nat.lt_succ_of_le (depthAll_le_of_subset (List.drop_subset n items))

variable {cx : Context} {done : List Form}

theorem isLoadable_fills : IsLoadable fun _ => Fills done := by
  have hClosed : IsClosed fun _ => Fills done := isClosed_meets fun _ _ _ _ _ => trivial
  have hTag (name : String) (length : Int) : Fills done (freshTag name length) :=
    fun _ hs => ⟨hs.bound, hs.built, hs.waiting⟩
  refine { hClosed with tag := hTag, global := ?_, change := ?_ }
  · exact hClosed.globalValue hTag fun _ _ hs => ⟨hs.bound, hs.built, hs.waiting⟩
  · intro f _ hNames hBuilt hWaiting s hs
    refine ⟨?_, ?_, ?_⟩
    · rw [hNames]
      exact hs.bound
    · rw [hNames, hBuilt]
      exact hs.built
    · rw [hWaiting]
      exact hs.waiting

theorem allows_fills (x : Form) : Allows (fun _ => Fills done) x where
  headless _ _ _ _ := trivial
  phi _ items _ _ _ _ _ _ s hs := by
    refine ⟨hs.bound, hs.built, fun phi hPhi => ?_⟩
    rcases List.mem_append.mp hPhi with hPhi | hPhi
    · exact hs.waiting phi hPhi
    · rw [List.mem_singleton.mp hPhi]
      exact depthAll_drop_lt items 1

theorem isSome_find?_insert {α : Type} {t : Table α} {key name : String} {a : α}
    (h : (t.find? name).isSome) : ((t.insert key a).find? name).isSome := by
  rw [Table.find?_insert]
  split
  case isTrue => rfl
  case isFalse => exact h

theorem allowsLet_fills (name : String) (stmt : Form) :
    AllowsLet (fun _ => Fills done) name stmt where
  expression x _ := allows_fills x
  missing _ _ _ _ _ := trivial
  binding value instrs s hs := by
    refine ⟨fun stmt hStmt hLet => isSome_find?_insert (hs.bound stmt hStmt hLet), ?_, hs.waiting⟩
    intro other hOther
    rw [Table.find?_insert] at hOther ⊢
    split
    case isTrue => rfl
    case isFalse hNe =>
      rw [if_neg hNe] at hOther
      exact hs.built other hOther

theorem allowsStatement_fills (stmt : Form) : AllowsStatement (fun _ => Fills done) stmt where
  number _ _ _ _ _ := trivial
  binding _ := allowsLet_fills _ stmt
  parts x _ := allows_fills x

/-- The name of a let is bound when its statement has been reached. -/
theorem ensures_evalLetStatement_bound (stmt : Form) :
    Ensures (Body.IsFilled done) (evalLetStatement cx stmt) fun _ t =>
      (t.names.find? (letName stmt)).isSome := by
  intro s is t hs hRun
  rcases evalLetStatement_eq_ok hRun with ⟨hBuilt, rfl⟩ | ⟨-, v, hLet, -⟩
  · exact hs.built _ (by rw [hBuilt]; rfl)
  · obtain ⟨x, instrs, u, -, -, rfl⟩ := evalLet_eq_ok hLet
    rw [Table.find?_insert, if_pos rfl]
    rfl

theorem ensures_evalStatement_filled (hLets : AllowsLets (fun _ => Fills done) cx) {stmt : Form}
    (hLong : stmt.head? = some "let" → 3 ≤ stmt.items.length) :
    Ensures (Body.IsFilled done) (evalStatement cx stmt) fun _ t =>
      Body.IsFilled (done ++ [stmt]) t := by
  intro s is t hs hRun
  have hEval := isLoadable_fills.evalStatement hLets hLong (allowsStatement_fills stmt)
  have ht : Body.IsFilled done t := (hEval.ensures s is t hs hRun).2
  refine ⟨fun other hOther hLet => ?_, ht.built, ht.waiting⟩
  rcases List.mem_append.mp hOther with hOther | hOther
  · exact ht.bound other hOther hLet
  · rw [List.mem_singleton.mp hOther] at hLet ⊢
    cases stmt with
    | list all =>
        have hRun' : evalLetStatement cx (.list all) s = .ok is t := by
          rw [← hRun, evalStatement, if_pos hLet]
          rfl
        exact ensures_evalLetStatement_bound (.list all) s is t hs hRun'
    | int | real | sym | str => cases hLet

section Statements

variable (hLets : ∀ done, AllowsLets (fun _ => Fills done) cx)
include hLets

theorem ensures_evalStatements_filled (i : Nat) {stmts : List Form}
    (hLong : ∀ stmt ∈ stmts, stmt.head? = some "let" → 3 ≤ stmt.items.length) :
    Ensures (Body.IsFilled done) (evalStatements cx i stmts) fun _ t =>
      Body.IsFilled (done ++ stmts) t := by
  induction stmts generalizing done with
  | nil =>
      rintro s _ t hs ⟨⟩
      rwa [List.append_nil]
  | cons stmt stmts ih =>
      rw [List.forall_mem_cons] at hLong
      rw [evalStatements]
      refine (ensures_evalStatement_filled (hLets done) hLong.1).bind fun instrs => ?_
      refine (isLoadable_fills.modifyBlock i _).ensures.bind fun _ => ?_
      have hRest : Ensures (Body.IsFilled (done ++ [stmt])) (evalStatements cx i stmts) fun _ t =>
          Body.IsFilled (done ++ [stmt] ++ stmts) t := ih hLong.2
      rw [List.append_assoc] at hRest
      exact hRest.weaken fun _ h => h.2

theorem ensures_fillBlocks_filled (i : Nat) {bodies : List (List Form)}
    (hLong : ∀ stmts ∈ bodies, ∀ stmt ∈ stmts, stmt.head? = some "let" →
      3 ≤ stmt.items.length) :
    Ensures (Body.IsFilled done) (fillBlocks cx i bodies) fun _ t =>
      Body.IsFilled (done ++ bodies.flatten) t := by
  induction bodies generalizing done i with
  | nil =>
      rintro s _ t hs ⟨⟩
      rwa [List.flatten_nil, List.append_nil]
  | cons stmts bodies ih =>
      rw [List.forall_mem_cons] at hLong
      have hRest : Ensures (Body.IsFilled (done ++ stmts)) (fillBlocks cx (i + 1) bodies) fun _ t =>
          Body.IsFilled (done ++ stmts ++ bodies.flatten) t := ih (i + 1) hLong.2
      rw [List.append_assoc, ← List.flatten_cons] at hRest
      rw [fillBlocks]
      refine (ensures_evalStatements_filled hLets i hLong.1).bind fun _ => ?_
      refine ensures_get.bind fun body => ?_
      have hNext := hRest.weaken fun t (ht : body = t ∧ Body.IsFilled (done ++ stmts) t) => ht.2
      dsimp only
      split
      case h_1 =>
        split
        case isTrue => exact ensures_refuse_bind _ _
        case isFalse => exact hNext
      case h_2 => exact hNext

end Statements

/-- All lets are bound, and the phis that wait are not deeper than a number. -/
structure Body.IsSettling (cx : Context) (depth : Nat) (s : Body) : Prop where
  bound : ∀ name stmt, cx.lets.find? name = some stmt → (s.names.find? name).isSome
  waiting : ∀ phi ∈ s.waiting, Form.depthAll phi.operands < phi.form.depth ∧ phi.form.depth ≤ depth

abbrev Settles (cx : Context) (depth : Nat) {α : Type} (x : BodyM α) : Prop :=
  Meets (Body.IsSettling cx depth) (fun _ _ => True) x

variable {depth : Nat}

theorem isEvaluable_settles : IsEvaluable fun _ => Settles cx depth := by
  have hClosed : IsClosed fun _ => Settles cx depth := isClosed_meets fun _ _ _ _ _ => trivial
  have hTag (name : String) (length : Int) : Settles cx depth (freshTag name length) :=
    fun _ hs => ⟨hs.bound, hs.waiting⟩
  exact { hClosed with
    tag := hTag
    global := hClosed.globalValue hTag fun _ _ hs => ⟨hs.bound, hs.waiting⟩ }

theorem allows_settles {x : Form} (hDepth : x.depth ≤ depth) :
    Allows (fun _ => Settles cx depth) x where
  headless _ _ _ _ := trivial
  phi _ items _ _ _ _ hItems _ s hs := by
    refine ⟨hs.bound, fun phi hPhi => ?_⟩
    rcases List.mem_append.mp hPhi with hPhi | hPhi
    · exact hs.waiting phi hPhi
    · rw [List.mem_singleton.mp hPhi]
      exact ⟨depthAll_drop_lt items 1, Nat.le_trans hItems hDepth⟩

/-- No let is evaluated any more. -/
theorem settles_lookup (name : String) (form : Form) : Settles cx depth (cx.lookup name form) := by
  intro s hs
  rw [Context.lookup, resolve, get_bind_apply]
  cases hName : s.names.find? name with
  | some v => exact hs
  | none =>
      cases hLet : cx.lets.find? name with
      | none => exact isEvaluable_settles.resolveOuter name form s hs
      | some stmt =>
          have hBound := hs.bound name stmt hLet
          rw [hName] at hBound
          cases hBound

theorem settles_settlePhi {phi : Phi} (hDepth : Form.depthAll phi.operands ≤ depth) :
    Settles cx depth (settlePhi cx phi) := by
  refine isEvaluable_settles.settlePhi settles_lookup (fun x hx => allows_settles ?_) fun _ s hs =>
    ⟨hs.bound, hs.waiting⟩
  exact Nat.le_trans (Form.depth_le_of_mem hx) hDepth

theorem ensures_settlePhis (depth : Nat) :
    Ensures (Body.IsSettling cx depth) (settlePhis cx (depth + 1)) fun _ t => t.waiting = [] := by
  induction depth with
  | zero =>
      intro s _ t hs hRun
      rw [settlePhis, get_bind_apply] at hRun
      have hEmpty : s.waiting = [] := by
        refine List.eq_nil_iff_forall_not_mem.mpr fun phi hPhi => ?_
        have hPhi := hs.waiting phi hPhi
        omega
      rw [hEmpty] at hRun
      cases hRun
      exact hEmpty
  | succ depth ih =>
      intro s _ t hs hRun
      rw [settlePhis, get_bind_apply] at hRun
      cases hEmpty : s.waiting.isEmpty with
      | true =>
          rw [hEmpty] at hRun
          cases hRun
          exact List.isEmpty_iff.mp hEmpty
      | false =>
          rw [hEmpty] at hRun
          have hPhis : Settles cx depth (s.waiting.forM (settlePhi cx)) := by
            refine isEvaluable_settles.forM fun phi hPhi => settles_settlePhi ?_
            have hPhi := hs.waiting phi hPhi
            omega
          obtain ⟨_, u, hClear, hRun⟩ := bind_eq_ok.mp hRun
          cases hClear
          obtain ⟨_, w, hRound, hRest⟩ := bind_eq_ok.mp hRun
          have hCleared : Body.IsSettling cx depth { s with waiting := [] } := ⟨hs.bound, by simp⟩
          exact ih w _ t (hPhis.ensures _ _ w hCleared hRound).2 hRest

end Rounds

theorem depth_le_phiDepth {phis : List Phi} {phi : Phi} (h : phi ∈ phis) :
    phi.form.depth ≤ phiDepth phis := by
  have hMax (depths : List Nat) : ∀ start, start ≤ depths.foldl max start ∧
      ∀ n ∈ depths, n ≤ depths.foldl max start := by
    induction depths with
    | nil => simp
    | cons d depths ih =>
        intro start
        obtain ⟨hStart, hRest⟩ := ih (max start d)
        exact ⟨by rw [List.foldl_cons]; omega,
          List.forall_mem_cons.mpr ⟨by rw [List.foldl_cons]; omega, hRest⟩⟩
  exact (hMax _ 0).2 _ (List.mem_map_of_mem h)

/-- When the blocks are filled all lets are bound, and the phis that wait are as deep as their
number of rounds. -/
theorem isSettling_of_fillBlocks {fn : Function} {forms : List Form} {program : Program}
    {last : Int} {sorted : List (Int × Form)} {cx : Context} {bodies : List (List Form)}
    {indexed made read filled : Body}
    (hSorted : sortBlocks { callee := fn.callee } forms { program, names := parameterNames fn } =
      .ok sorted indexed)
    (hBlocks : makeBlocks { callee := fn.callee } last 0 sorted indexed = .ok () made)
    (hHeaders : readHeaders { callee := fn.callee } 0 sorted made = .ok (cx, bodies) read)
    (hFill : fillBlocks cx 0 bodies read = .ok () filled) :
    Body.IsSettling cx (phiDepth filled.waiting) filled := by
  have hRead : AreRead forms cx bodies := areRead_of_returns rfl ⟨_, _, hSorted⟩ ⟨_, _, hHeaders⟩
  have hLets : ∀ done, AllowsLets (fun _ => Fills done) cx := by
    intro done name stmt hFind
    obtain ⟨-, hLet, stmts, hMem, hStmt⟩ := hRead.of_find? hFind
    exact ⟨hRead.long stmts hMem stmt hStmt hLet, allowsLet_fills name stmt⟩
  have hStart : Body.IsFilled [] { program, names := parameterNames fn } :=
    ⟨by simp, by simp [Table.find?], by simp⟩
  have hLayable : IsLayable fun _ => Fills [] := isLoadable_fills.isLayable
  have hIndexed := ((hLayable.sortBlocks forms).ensures _ _ _ hStart hSorted).2
  have hMade := ((isLoadable_fills.makeBlocks _ 0 sorted).ensures _ _ _ hIndexed hBlocks).2
  have hHeaded := ((hLayable.readHeaders _ 0 sorted).ensures _ _ _ hMade hHeaders).2
  have hFilled := ensures_fillBlocks_filled hLets 0 hRead.long _ _ _ hHeaded hFill
  refine ⟨fun name stmt hFind => ?_, fun phi hPhi => ?_⟩
  · obtain ⟨rfl, hLet, stmts, hMem, hStmt⟩ := hRead.of_find? hFind
    exact hFilled.bound stmt (List.mem_flatten.mpr ⟨stmts, hMem, hStmt⟩) hLet
  · exact ⟨hFilled.waiting phi hPhi, depth_le_phiDepth hPhi⟩

/-- A body whose blocks are loaded has no phi left that waits. -/
theorem waiting_eq_nil_of_loadBlocks {fn : Function} {forms : List Form} {program : Program}
    {body : Body} (h : loadBlocks fn forms { program } = .ok () body) : body.waiting = [] := by
  obtain ⟨sorted, cx, bodies, indexed, made, read, filled, hSorted, hBlocks, hHeaders, hFill,
    hSettle⟩ := loadBlocks_eq_ok h
  exact ensures_settlePhis (phiDepth filled.waiting) filled _ _
    (isSettling_of_fillBlocks hSorted hBlocks hHeaders hFill) hSettle

end NilGuard.Dump
