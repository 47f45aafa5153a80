import NilGuard.Proofs.Answers
import NilGuard.Proofs.Bounds
/-! Filling the blocks puts the instructions of each statement into its block, and settling the
phis afterwards gives them the values of their operands. -/
namespace NilGuard.Dump

/-- The instructions of a block. -/
def Body.code? (s : Body) (i : Nat) : Option (List Instr) := (s.blocks[i]?).map Block.instrs

/-- The instructions that a block gets when the blocks from a place on are filled. -/
def Work.layout : Nat → List Work → Nat → List Instr
  | _, [], _ => []
  | place, done :: rest, i =>
    (if i = place then done.flatMap Prod.snd else []) ++ layout (place + 1) rest i

theorem Work.layout_of_lt {place i : Nat} (h : i < place) (rest : List Work) :
    Work.layout place rest i = [] := by
  induction rest generalizing place with
  | nil => rfl
  | cons done rest ih =>
      rw [layout, if_neg (Nat.ne_of_lt h), List.nil_append]
      exact ih (Nat.lt_succ_of_lt h)

theorem Work.layout_add {all : List Work} {done : Work} {i : Nat} (h : all[i]? = some done)
    (place : Nat) : Work.layout place all (place + i) = done.flatMap Prod.snd := by
  induction all generalizing place i with
  | nil => cases h
  | cons first rest ih =>
      cases i with
      | zero =>
          cases h
          rw [layout, Nat.add_zero, if_pos rfl, layout_of_lt (Nat.lt_succ_self place),
            List.append_nil]
      | succ i =>
          rw [layout, if_neg (by omega), List.nil_append, ← ih h (place + 1)]
          congr 1
          omega

section Filling

variable {cx : Context} {s t : Body} {place : Nat}

theorem code?_modifyBlock (s : Body) (i j : Nat) (is : List Instr) :
    Body.code? { s with
      blocks := s.blocks.modify i fun b => { b with instrs := b.instrs ++ is } } j =
        (s.code? j).map fun js => js ++ if j = i then is else [] := by
  simp only [Body.code?, Array.getElem?_modify]
  by_cases h : i = j
  · subst h
    cases s.blocks[i]? <;> simp
  · have h' : ¬ j = i := fun hj => h hj.symm
    cases s.blocks[j]? <;> simp [h, h']

/-- What the filling of blocks does to a state. -/
structure Body.Proceeds (cx : Context) (s t : Body) : Prop where
  leads : s.Leads cx t
  isOpen : t.IsOpen cx
  settled : t.settled = s.settled

theorem Body.Proceeds.refl (hs : s.IsOpen cx) : s.Proceeds cx s :=
  ⟨.refl cx s, hs, rfl⟩

theorem Body.Proceeds.trans {u : Body} (h : s.Proceeds cx t) (h' : t.Proceeds cx u) :
    s.Proceeds cx u :=
  ⟨h.leads.trans h'.leads, h'.isOpen, h'.settled.trans h.settled⟩

theorem Body.proceeds_blocks (hs : s.IsOpen cx) (blocks : Array Block) :
    s.Proceeds cx { s with blocks } :=
  ⟨⟨fun _ _ h => h, fun _ _ h => h, fun _ _ => rfl, .refl _, [], by simp, by simp⟩,
    ⟨hs.unbuilt, hs.built, hs.waiting, hs.ordered⟩, rfl⟩

theorem performed_blocks {e : End} (hs : s.Answers cx e) (blocks : Array Block) :
    Performed cx e [] s { s with blocks } :=
  ⟨hs, by simp, by simp, Body.adds_of_built_eq rfl (Nat.le_refl _)⟩

/-- The statements of a block are performed one after the other. -/
theorem evalStatements_eq_ok {stmts : List Form}
    (hLets : ∀ stmt ∈ stmts, stmt.head? = some "let" → cx.lets.find? (letName stmt) = some stmt)
    (hs : s.IsOpen cx) (hRun : evalStatements cx place stmts s = .ok () t) :
    s.Proceeds cx t ∧ ∀ e : End, e.IsSettled cx → s.Answers cx e → t.Leads cx e.filled →
      ∃ done : Work, done.map Prod.fst = stmts ∧ Performed cx e done s t ∧
        ∀ i, t.code? i =
          (s.code? i).map (· ++ if i = place then done.flatMap Prod.snd else []) := by
  induction stmts generalizing s with
  | nil =>
      cases hRun
      refine ⟨.refl hs, fun e _ hAnswers _ => ⟨[], rfl, .refl hAnswers, fun i => ?_⟩⟩
      simp
  | cons stmt stmts ih =>
      rw [List.forall_mem_cons] at hLets
      rw [evalStatements] at hRun
      obtain ⟨is, u, hStmt, hRun⟩ := bind_eq_ok.mp hRun
      obtain ⟨_, w, hModify, hRest⟩ := bind_eq_ok.mp hRun
      cases hModify
      obtain ⟨hGrows, hu⟩ := moves_evalStatement hLets.1 s is u hs hStmt
      have hFirst : s.Proceeds cx u := ⟨hGrows.toLeads, hu, hGrows.settled⟩
      have hSecond := Body.proceeds_blocks hu
        (u.blocks.modify place fun b => { b with instrs := b.instrs ++ is })
      obtain ⟨hThird, hPerformed⟩ := ih hLets.2 hSecond.isOpen hRest
      refine ⟨hFirst.trans (hSecond.trans hThird), fun e he hAnswers hLeads => ?_⟩
      -- the rest of the block leads on to the end, and so does the state after this statement
      have hStep := performed_evalStatement he hLets.1 hs hAnswers hStmt
        (hSecond.leads.trans (hThird.leads.trans hLeads))
      obtain ⟨done, hDone, hRest, hCode⟩ := hPerformed e he hStep.answers hLeads
      refine ⟨(stmt, is) :: done, by rw [List.map_cons, hDone], ?_, fun i => ?_⟩
      · exact hStep.trans ((performed_blocks hStep.answers _).trans hRest hThird.leads)
          (hSecond.leads.trans hThird.leads)
      · rw [hCode, code?_modifyBlock, Body.code?, hGrows.blocks, ← Body.code?]
        by_cases hPlace : i = place
        · simp [hPlace, Function.comp_def]
        · simp [hPlace]

/-- The blocks are filled from a place on. -/
theorem fillBlocks_eq_ok {bodies : List (List Form)}
    (hLets : ∀ stmts ∈ bodies, ∀ stmt ∈ stmts, stmt.head? = some "let" →
      cx.lets.find? (letName stmt) = some stmt)
    (hs : s.IsOpen cx) (hRun : fillBlocks cx place bodies s = .ok () t) :
    s.Proceeds cx t ∧ ∀ e : End, e.IsSettled cx → s.Answers cx e → t.Leads cx e.filled →
      ∃ done : List Work, done.map (·.map Prod.fst) = bodies ∧ Performed cx e done.flatten s t ∧
        ∀ i, t.code? i = (s.code? i).map (· ++ Work.layout place done i) := by
  induction bodies generalizing s place with
  | nil =>
      cases hRun
      refine ⟨.refl hs, fun e _ hAnswers _ => ⟨[], rfl, .refl hAnswers, fun i => ?_⟩⟩
      simp [Work.layout]
  | cons stmts bodies ih =>
      rw [List.forall_mem_cons] at hLets
      rw [fillBlocks] at hRun
      obtain ⟨_, u, hStmts, hRun⟩ := bind_eq_ok.mp hRun
      have hRest : fillBlocks cx (place + 1) bodies u = .ok () t := by
        rw [get_bind_apply] at hRun
        cases hBlock : u.blocks[place]? with
        | none =>
            rw [hBlock] at hRun
            exact hRun
        | some b =>
            cases hBranch : endsInBranch b && b.succs.length != 2 with
            | false =>
                simp only [hBlock, hBranch] at hRun
                exact hRun
            | true =>
                simp only [hBlock, hBranch] at hRun
                cases hRun
      obtain ⟨hFirst, hPerformed⟩ := evalStatements_eq_ok hLets.1 hs hStmts
      obtain ⟨hSecond, hPerformed'⟩ := ih hLets.2 hFirst.isOpen hRest
      refine ⟨hFirst.trans hSecond, fun e he hAnswers hLeads => ?_⟩
      obtain ⟨done, hDone, hBlock, hCode⟩ :=
        hPerformed e he hAnswers (hSecond.leads.trans hLeads)
      obtain ⟨rest, hRest, hBlocks, hCode'⟩ := hPerformed' e he hBlock.answers hLeads
      refine ⟨done :: rest, by rw [List.map_cons, hDone, hRest], ?_, fun i => ?_⟩
      · rw [List.flatten_cons]
        exact hBlock.trans hBlocks hSecond.leads
      · rw [hCode', hCode, Work.layout, Option.map_map]
        simp [Function.comp_def]

end Filling

section Settling

variable {cx : Context} {s t : Body} {v : Value} {form : Form}

/-- All lets have values. -/
def Body.IsBound (cx : Context) (s : Body) : Prop :=
  ∀ name stmt, cx.lets.find? name = some stmt → (s.names.find? name).isSome

/-- Names that have values keep them, no name gets one without a let, and the program grows. -/
structure Body.Extends (cx : Context) (s t : Body) : Prop where
  names : ∀ name v, s.names.find? name = some v → t.names.find? name = some v
  outer : ∀ name, cx.lets.find? name = none → t.names.find? name = s.names.find? name
  program : s.program.Widens t.program

theorem Body.Leads.extends (h : s.Leads cx t) : s.Extends cx t := ⟨h.names, h.outer, h.program⟩

theorem Body.Extends.names_eq (h : s.Extends cx t) (hBound : s.IsBound cx) (name : String) :
    t.names.find? name = s.names.find? name := by
  cases hLet : cx.lets.find? name with
  | none => exact h.outer name hLet
  | some stmt =>
      obtain ⟨v, hv⟩ := Option.isSome_iff_exists.mp (hBound name stmt hLet)
      rw [hv, h.names name v hv]

theorem Body.Leads.names_eq (h : s.Leads cx t) (hBound : s.IsBound cx) (name : String) :
    t.names.find? name = s.names.find? name :=
  h.extends.names_eq hBound name

theorem Body.Leads.isBound (h : s.Leads cx t) (hBound : s.IsBound cx) : t.IsBound cx := by
  intro name stmt hLet
  rw [h.names_eq hBound]
  exact hBound name stmt hLet

/-- A scope has the names of a state, and the program that it comes to. -/
structure Scope.IsOf (cx : Context) (s t : Body) (sc : Scope) : Prop where
  names : ∀ name, sc.names.find? name = s.names.find? name
  program : t.program.Widens sc.program
  package : sc.package = cx.callee.package

/-- When all lets have values, a form that is not a list gets the value that it stands for. -/
theorem denotes_evalAtom {sc : Scope} {x : Form} {is : List Instr}
    (hAtom : ∀ items, x ≠ .list items) (hBound : s.IsBound cx) (hScope : sc.IsOf cx s t)
    (hRun : evalOperand cx cx.lookup x form s = .ok (v, is) t) : sc.Denotes x v := by
  obtain ⟨-, ⟨name, rfl, hResolve⟩ | ⟨hDenotes, -⟩⟩ := evalAtom_eq_ok hAtom hRun
  · rcases resolve_eq_ok hResolve with ⟨hName, -⟩ | ⟨hName, -, hOuter⟩ |
      ⟨_, stmt, -, hName, hLet, -, -⟩
    · exact .inl ((hScope.names name).trans hName)
    · obtain ⟨-, -, -, hOuter⟩ := resolveOuter_eq_ok hOuter
      exact .inr ⟨(hScope.names name).trans hName, hOuter sc hScope.package hScope.program⟩
    · have hSome := hBound name stmt hLet
      rw [hName] at hSome
      cases hSome
  · exact hDenotes sc

theorem denotes_evalAll {sc : Scope} {xs : List Form} {values : List Value} {is : List Instr}
    (hAtoms : ∀ x ∈ xs, ∀ items, x ≠ .list items) (hs : s.IsOpen cx) (hBound : s.IsBound cx)
    (hScope : sc.IsOf cx s t)
    (hRun : evalAll form (xs.map (evalOperand cx cx.lookup)) s = .ok (values, is) t) :
    List.Forall₂ sc.Denotes xs values := by
  induction xs generalizing s values is with
  | nil =>
      cases hRun
      exact .nil
  | cons x xs ih =>
      rw [List.forall_mem_cons] at hAtoms
      obtain ⟨⟨v, _⟩, u, hFirst, hRun⟩ := bind_eq_ok.mp hRun
      obtain ⟨⟨vs, _⟩, w, hRest, hRun⟩ := bind_eq_ok.mp hRun
      cases hRun
      obtain ⟨hGrows, hu⟩ := moves_operand x form s _ u hs hFirst
      obtain ⟨hGrows', -⟩ := moves_operands xs form u _ _ hu hRest
      have hFirstScope : sc.IsOf cx s u :=
        ⟨hScope.names, hGrows'.program.trans hScope.program, hScope.package⟩
      have hRestScope : sc.IsOf cx u t :=
        ⟨fun name => (hScope.names name).trans (hGrows.names_eq hBound name).symm,
          hScope.program, hScope.package⟩
      exact .cons (denotes_evalAtom hAtoms.1 hBound hFirstScope hFirst)
        (ih hAtoms.2 hu (hGrows.isBound hBound) hRestScope hRest)

/-- Values are those of the operands of a phi, as long as none of them is a list. -/
def Scope.Settles (sc : Scope) (phi : Phi) (values : List Value) : Prop :=
  (∀ x ∈ phi.operands, ∀ items, x ≠ .list items) → List.Forall₂ sc.Denotes phi.operands values

/-- What the settling of phis does to a state. -/
structure Body.Settles (cx : Context) (phis : List Phi) (s t : Body) : Prop where
  leads : s.Leads cx t
  isOpen : t.IsOpen cx
  blocks : t.blocks = s.blocks
  settled : ∃ new, t.settled = s.settled ++ new ∧ new.map Prod.fst = phis.map Phi.value ∧
    ∀ sc : Scope, sc.IsOf cx s t → ∀ phi ∈ phis, ∃ values,
      (phi.value, values) ∈ new ∧ sc.Settles phi values

theorem settlePhi_eq_ok {phi : Phi} (hs : s.IsOpen cx) (hBound : s.IsBound cx)
    (hRun : settlePhi cx phi s = .ok () t) : s.Settles cx [phi] t := by
  obtain ⟨⟨values, is⟩, u, hAll, hRun⟩ := bind_eq_ok.mp hRun
  cases hRun
  rw [evalOperands_eq_map] at hAll
  obtain ⟨hGrows, hu⟩ := moves_operands phi.operands phi.form s _ u hs hAll
  refine ⟨⟨hGrows.names, hGrows.built, hGrows.outer, hGrows.program, hGrows.waiting⟩,
    ⟨hu.unbuilt, hu.built, hu.waiting, hu.ordered⟩, hGrows.blocks, [(phi.value, values)], ?_,
    rfl, fun sc hScope => ?_⟩
  · rw [← hGrows.settled]
  · have hScope' : sc.IsOf cx s u := ⟨hScope.names, hScope.program, hScope.package⟩
    refine List.forall_mem_singleton.mpr ⟨values, List.mem_singleton_self _, fun hAtoms => ?_⟩
    exact denotes_evalAll hAtoms hs hBound hScope' hAll

theorem Body.Settles.trans {u : Body} {phis phis' : List Phi} (h : s.Settles cx phis t)
    (h' : t.Settles cx phis' u) (hBound : s.IsBound cx) : s.Settles cx (phis ++ phis') u := by
  obtain ⟨new, hNew, hKeys, hSettles⟩ := h.settled
  obtain ⟨new', hNew', hKeys', hSettles'⟩ := h'.settled
  refine ⟨h.leads.trans h'.leads, h'.isOpen, h'.blocks.trans h.blocks, new ++ new', ?_, ?_,
    fun sc hScope => List.forall_mem_append.mpr ⟨fun phi hPhi => ?_, fun phi hPhi => ?_⟩⟩
  · rw [hNew', hNew, List.append_assoc]
  · rw [List.map_append, List.map_append, hKeys, hKeys']
  · obtain ⟨values, hMem, hValues⟩ := hSettles sc
      ⟨hScope.names, h'.leads.program.trans hScope.program, hScope.package⟩ phi hPhi
    exact ⟨values, List.mem_append_left _ hMem, hValues⟩
  · obtain ⟨values, hMem, hValues⟩ := hSettles' sc
      ⟨fun name => (hScope.names name).trans (h.leads.names_eq hBound name).symm,
        hScope.program, hScope.package⟩ phi hPhi
    exact ⟨values, List.mem_append_right _ hMem, hValues⟩

theorem settleRound_eq_ok {phis : List Phi} (hs : s.IsOpen cx) (hBound : s.IsBound cx)
    (hRun : phis.forM (settlePhi cx) s = .ok () t) : s.Settles cx phis t := by
  induction phis generalizing s with
  | nil =>
      cases hRun
      exact ⟨.refl cx _, hs, rfl, [], by simp, rfl, by simp⟩
  | cons phi phis ih =>
      obtain ⟨_, u, hFirst, hRest⟩ := bind_eq_ok.mp hRun
      have hSettles := settlePhi_eq_ok hs hBound hFirst
      have hSettles' := ih hSettles.isOpen (hSettles.leads.isBound hBound) hRest
      exact hSettles.trans hSettles' hBound

/-- The phis that wait are settled, and then those that have come up. -/
theorem settlePhis_succ_eq_ok {depth : Nat} (hRun : settlePhis cx (depth + 1) s = .ok () t) :
    ∃ u, s.waiting.forM (settlePhi cx) { s with waiting := [] } = .ok () u ∧
      settlePhis cx depth u = .ok () t := by
  rw [settlePhis, get_bind_apply] at hRun
  cases hEmpty : s.waiting.isEmpty with
  | true =>
      rw [hEmpty] at hRun
      cases hRun
      have hNil := List.isEmpty_iff.mp hEmpty
      refine ⟨s, ?_, ?_⟩
      · obtain ⟨program, blocks, names, built, waiting, settled⟩ := s
        cases hNil
        rfl
      · cases depth with
        | zero => rfl
        | succ depth =>
            rw [settlePhis, get_bind_apply, hNil]
            rfl
  | false =>
      rw [hEmpty] at hRun
      obtain ⟨_, _, hClear, hRun⟩ := bind_eq_ok.mp hRun
      cases hClear
      obtain ⟨_, u, hRound, hRest⟩ := bind_eq_ok.mp hRun
      exact ⟨u, hRound, hRest⟩

theorem Body.IsOpen.clear (hs : s.IsOpen cx) : Body.IsOpen cx { s with waiting := [] } :=
  ⟨hs.unbuilt, hs.built, by simp, List.Pairwise.nil⟩

/-- Phis that come up while others are settled have later numbers. -/
theorem Body.Settles.le_id {phis : List Phi} (h : Body.Settles cx phis { s with waiting := [] } t) :
    ∀ phi ∈ t.waiting, s.program.nextId ≤ phi.value.id := by
  obtain ⟨new, hNew, hIds⟩ := h.leads.waiting
  rw [hNew, List.nil_append]
  exact hIds

theorem settlePhis_eq_ok {depth n : Nat} (hs : s.IsOpen cx) (hBound : s.IsBound cx)
    (hNext : n ≤ s.program.nextId) (hIds : ∀ phi ∈ s.waiting, n ≤ phi.value.id)
    (hRun : settlePhis cx depth s = .ok () t) :
    s.program.Widens t.program ∧ t.blocks = s.blocks ∧
      ∃ new, t.settled = s.settled ++ new ∧ ∀ entry ∈ new, n ≤ entry.1.id := by
  induction depth generalizing s with
  | zero =>
      cases hRun
      exact ⟨.refl _, rfl, [], by simp, by simp⟩
  | succ depth ih =>
      obtain ⟨u, hRound, hRest⟩ := settlePhis_succ_eq_ok hRun
      have hSettles := settleRound_eq_ok hs.clear hBound hRound
      have hProgram := hSettles.leads.program
      obtain ⟨hProgram', hBlocks, new', hNew', hIds'⟩ := ih hSettles.isOpen
        (hSettles.leads.isBound hBound) (Nat.le_trans hNext hProgram.nextId)
        (fun phi hPhi => Nat.le_trans hNext (hSettles.le_id phi hPhi)) hRest
      obtain ⟨new, hNew, hKeys, -⟩ := hSettles.settled
      refine ⟨hProgram.trans hProgram', hBlocks.trans hSettles.blocks, new ++ new', ?_, ?_⟩
      · rw [hNew', hNew, List.append_assoc]
      · refine List.forall_mem_append.mpr ⟨fun entry hEntry => ?_, hIds'⟩
        have hKey : entry.1 ∈ s.waiting.map Phi.value := hKeys ▸ List.mem_map_of_mem hEntry
        obtain ⟨phi, hPhi, hValue⟩ := List.mem_map.mp hKey
        rw [← hValue]
        exact hIds phi hPhi

/-- The end of a body whose phis have been settled. -/
theorem isSettled_of_settlePhis {depth : Nat} {program : Program} (hs : s.IsOpen cx)
    (hBound : s.IsBound cx) (hNone : s.settled = [])
    (hRun : settlePhis cx (depth + 1) s = .ok () t) (hProgram : t.program.Widens program) :
    End.IsSettled cx ⟨s, program, t.settled⟩ ∧ t.blocks = s.blocks := by
  -- the first round settles the phis of the blocks, all others have numbers that come later
  obtain ⟨u, hRound, hRest⟩ := settlePhis_succ_eq_ok hRun
  have hSettles := settleRound_eq_ok hs.clear hBound hRound
  have hProgram' := hSettles.leads.program
  obtain ⟨hProgram'', hBlocks, new', hNew', hIds⟩ := settlePhis_eq_ok hSettles.isOpen
    (hSettles.leads.isBound hBound) hProgram'.nextId hSettles.le_id hRest
  obtain ⟨new, hNew, hKeys, hEntries⟩ := hSettles.settled
  have hSettled : t.settled = new ++ new' := by
    rw [hNew', hNew]
    change s.settled ++ new ++ new' = _
    rw [hNone, List.nil_append]
  have hScope : Scope.IsOf cx { s with waiting := [] } u ⟨s.names, program, cx.callee.package⟩ :=
    ⟨fun _ => rfl, hProgram''.trans hProgram, rfl⟩
  have hNodup : (new.map Prod.fst).Nodup := by
    rw [hKeys]
    refine List.pairwise_map.mpr ((List.pairwise_map.mp hs.ordered).imp fun hLt hEq => ?_)
    rw [hEq] at hLt
    exact Nat.lt_irrefl _ hLt
  refine ⟨⟨hProgram'.trans (hProgram''.trans hProgram), fun phi hPhi => ?_, fun v hv hNot => ?_⟩,
    hBlocks.trans hSettles.blocks⟩
  · obtain ⟨values, hMem, hValues⟩ := hEntries _ hScope phi hPhi
    refine ⟨values, ?_, hValues⟩
    rw [hSettled, List.lookup_append, lookup_of_mem hNodup hMem, Option.some_or]
  · rw [hSettled, List.lookup_append, Option.or_eq_none_iff, List.lookup_eq_none_iff,
      List.lookup_eq_none_iff]
    refine ⟨fun entry hEntry => ?_, fun entry hEntry => ?_⟩
    · have hKey : entry.1 ∈ s.waiting.map Phi.value := hKeys ▸ List.mem_map_of_mem hEntry
      obtain ⟨phi, hPhi, hValue⟩ := List.mem_map.mp hKey
      have hNe := hNot phi hPhi
      rw [bne_iff_ne]
      rintro rfl
      exact hNe (by rw [hValue])
    · have hLe := hIds entry hEntry
      rw [bne_iff_ne]
      rintro rfl
      exact absurd hv (Nat.not_lt.mpr hLe)

end Settling

end NilGuard.Dump
