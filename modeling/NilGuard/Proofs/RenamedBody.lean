import NilGuard.Proofs.Placement
import NilGuard.Proofs.Wording
/-! Whole bodies, loaded side by side with the bodies renamed: their headers, their statements and
the phis at the end. -/
namespace NilGuard.Dump

/-! ### Headers -/

section Headers

variable {w : Wording} {cx cx' : Context}

theorem follows_modifyBlock (i : Nat) (f : Block → Block) (g : Naming → Block → Block)
    (h : ∀ ν b, g ν (b.relabel (Value.rename ν)) = (f b).relabel (Value.rename ν)) :
    w.Follows (modifyBlock i f) (fun ν => modifyBlock i (g ν)) fun _ u => u := by
  have hBlocks (ν : Naming) (bs : Array Block) :
      (bs.map (Block.relabel (Value.rename ν))).modify i (g ν) =
        (bs.modify i f).map (Block.relabel (Value.rename ν)) := by
    apply Array.ext
    · simp
    · intro j hLeft hRight
      simp only [Array.getElem_modify, Array.getElem_map]
      split
      case isTrue => exact h ν _
      case isFalse => rfl
  refine follows_modify (fun _ hs => hs) (fun _ => rfl) (fun _ _ h => h) fun ν s => ?_
  simp only [Wording.mirror, hBlocks]

theorem follows_sortBlocks (forms : List Form) :
    w.Follows (sortBlocks cx forms) (fun _ => sortBlocks cx' (forms.map (renameBlock w.rename)))
      fun _ => List.map (Prod.map id (renameBlock w.rename)) := by
  have hIndex (form : Form) : w.Follows (do return (← blockIndex cx form, form))
      (fun _ => do
        return (← blockIndex cx' (renameBlock w.rename form), renameBlock w.rename form))
      fun _ => Prod.map id (renameBlock w.rename) := by
    have hNumber := blockNumber?_renameBlock (σ := w.rename) form
    unfold blockNumber? at hNumber
    unfold blockIndex
    rw [hNumber]
    cases (form.items[1]?).bind Form.int? with
    | none => exact follows_refuse_bind _ _
    | some i => exact follows_pure fun _ => rfl
  refine (follows_mapM fun form _ => hIndex form).bind fun indexed _ => ?_
  apply follows_pure
  intro ν
  exact (List.map_mergeSort (f := Prod.map id (renameBlock w.rename)) fun _ _ _ _ => rfl).symm

theorem follows_makeBlocks (last : Int) (i : Nat) (sorted : List (Int × Form)) :
    w.Follows (makeBlocks cx last i sorted)
      (fun _ => makeBlocks cx' last i (sorted.map (Prod.map id (renameBlock w.rename))))
      fun _ u => u := by
  induction sorted generalizing i with
  | nil => exact follows_pure fun _ => rfl
  | cons e sorted ih =>
      obtain ⟨index, form⟩ := e
      have hPush : w.Follows
          (modify fun body => { body with blocks := body.blocks.push { index } })
          (fun _ => modify fun body => { body with blocks := body.blocks.push { index } })
          fun _ u => u := by
        refine follows_modify (fun _ hs => hs) (fun _ => rfl) (fun _ _ h => h) fun ν s => ?_
        simp only [Wording.mirror, Array.map_push]
        rfl
      rw [List.map_cons, Prod.map_apply, makeBlocks, makeBlocks]
      by_cases hIndex : index = i
      · simp only [hIndex, ne_eq, not_true_eq_false, if_false, id_eq]
        rw [← hIndex]
        exact hPush.bind fun _ _ => ih (i + 1)
      · simp only [ne_eq, hIndex, not_false_eq_true, if_true]
        exact follows_refuse_bind _ _

theorem follows_addSuccessors (i : Nat) (blockForm blockForm' : Form) (items : List Form) :
    w.Follows (addSuccessors cx i blockForm items) (fun _ => addSuccessors cx' i blockForm' items)
      fun _ u => u := by
  induction items with
  | nil => exact follows_pure fun _ => rfl
  | cons item items ih =>
      rw [addSuccessors, addSuccessors]
      apply follows_get_bind
      intro s _
      have hSize (ν : Naming) : (w.mirror.image ν s).blocks.size = s.blocks.size := Array.size_map
      simp only [hSize]
      cases item.int? with
      | none => exact follows_refuse_bind _ _
      | some target =>
          dsimp only
          split
          case isTrue => exact (follows_modifyBlock i _ _ fun _ _ => rfl).bind fun _ _ => ih
          case isFalse => exact follows_refuse_bind _ _

theorem follows_readHeader (i : Nat) (blockForm blockForm' : Form) (items : List Form) :
    w.Follows (readHeader cx i blockForm items)
      (fun _ => readHeader cx' i blockForm' (items.map (renameStatement w.rename)))
      fun _ => List.map (renameStatement w.rename) := by
  induction items with
  | nil => exact follows_pure fun _ => rfl
  | cons item items ih =>
      rw [List.map_cons, readHeader, readHeader, word?_renameStatement]
      cases hWord : item.word? with
      | some comment => exact (follows_modifyBlock i _ _ fun _ _ => rfl).bind fun _ _ => ih
      | none =>
          simp only [head?_renameStatement]
          split
          case isTrue hSuccs =>
            rw [renameStatement_of_not_statement (.inr hSuccs)]
            exact (follows_addSuccessors i _ _ _).bind fun _ _ => ih
          case isFalse => exact ih.bind fun stmts _ => follows_pure fun _ => rfl

theorem follows_declareLet {stmt : Form} (hLet : stmt.head? = some "let") :
    w.Follows (declareLet cx stmt)
      (fun _ => declareLet (cx.rename w.rename) (renameStatement w.rename stmt))
      fun _ => Context.rename w.rename := by
  have hItems := items_renameStatement w.rename stmt
  unfold declareLet
  rw [hItems]
  match stmt.items with
  | [] | [_] | [_, _] => exact follows_refuse _ _
  | word :: nameForm :: x :: rest =>
      simp only [List.mapIdx_cons, Nat.zero_add, role_let hLet, if_true, renameAs]
      cases hWord : nameForm.word? with
      | none => exact follows_refuse _ _
      | some name =>
          simp only [word?_renameBinder hWord]
          apply follows_get_bind
          intro s _
          have hLets : (cx.rename w.rename).lets.contains (w.rename name) = cx.lets.contains name :=
            Table.contains_rekey w.rename.injective _ _
          have hNames (ν : Naming) :
              (w.mirror.image ν s).names.contains (w.rename name) = s.names.contains name :=
            Table.contains_rekey w.rename.injective _ _
          simp only [hNames, hLets]
          split
          case isTrue => exact follows_refuse _ _
          case isFalse =>
            apply follows_pure
            intro ν
            simp only [Context.rename, Table.insert_rekey w.rename.injective]

theorem follows_declareLets {stmts : List Form} (hLets : ∀ stmt ∈ stmts, stmt.head? = some "let") :
    w.Follows (stmts.foldlM declareLet cx)
      (fun _ => (stmts.map (renameStatement w.rename)).foldlM declareLet (cx.rename w.rename))
      fun _ => Context.rename w.rename := by
  induction stmts generalizing cx with
  | nil => exact follows_pure fun _ => rfl
  | cons stmt stmts ih =>
      rw [List.forall_mem_cons] at hLets
      simp only [List.map_cons, List.foldlM_cons]
      exact (follows_declareLet hLets.1).bind fun _ _ => ih hLets.2

theorem follows_readHeaders (i : Nat) (sorted : List (Int × Form)) :
    w.Follows (readHeaders cx i sorted)
      (fun _ => readHeaders (cx.rename w.rename) i
        (sorted.map (Prod.map id (renameBlock w.rename))))
      fun _ => Prod.map (Context.rename w.rename)
        (List.map (List.map (renameStatement w.rename))) := by
  induction sorted generalizing cx i with
  | nil => exact follows_pure fun _ => rfl
  | cons e sorted ih =>
      obtain ⟨index, form⟩ := e
      rw [List.map_cons, Prod.map_apply, readHeaders, readHeaders, drop_renameBlock]
      refine (follows_readHeader i form _ _).bind fun stmts _ => ?_
      have hFilter : (stmts.map (renameStatement w.rename)).filter (·.head? = some "let") =
          (stmts.filter (·.head? = some "let")).map (renameStatement w.rename) := by
        rw [List.filter_map]
        simp only [Function.comp_def, head?_renameStatement]
      rw [hFilter]
      refine (follows_declareLets fun stmt hStmt => ?_).bind fun cx' _ => ?_
      · exact of_decide_eq_true (List.mem_filter.mp hStmt).2
      · exact (ih (i + 1)).bind fun r _ => follows_pure fun _ => rfl

end Headers

/-! ### Statements and phis -/

theorem endsInBranch_relabel (g : Value → Value) (b : Block) :
    endsInBranch (b.relabel g) = endsInBranch b := by
  unfold endsInBranch Block.relabel
  rw [List.getLast?_map]
  cases b.instrs.getLast? with
  | none => rfl
  | some i =>
      obtain ⟨location, op⟩ := i
      cases op <;> rfl

section Filling

variable {w : Wording} {cx : Context} (hFits : w.Fits cx)
include hFits

theorem follows_evalStatements (i : Nat) {stmts : List Form}
    (hLong : ∀ stmt ∈ stmts, stmt.head? = some "let" → 3 ≤ stmt.items.length)
    (hNames : ∀ stmt ∈ stmts, ∀ name ∈ statementNames stmt, name ∈ w.used) :
    w.Follows (evalStatements cx i stmts)
      (fun _ => evalStatements (cx.rename w.rename) i (stmts.map (renameStatement w.rename)))
      fun _ u => u := by
  induction stmts with
  | nil => exact follows_pure fun _ => rfl
  | cons stmt stmts ih =>
      rw [List.forall_mem_cons] at hLong hNames
      rw [List.map_cons, evalStatements, evalStatements]
      refine (follows_evalStatement hFits hLong.1 hNames.1).bind fun instrs _ => ?_
      have hAdd := follows_modifyBlock (w := w) i (fun b => { b with instrs := b.instrs ++ instrs })
        (fun ν b => { b with instrs := b.instrs ++ renameInstrs ν instrs }) fun ν b => by
          simp only [Block.relabel, renameInstrs, List.map_append]
      exact hAdd.bind fun _ _ => ih hLong.2 hNames.2

theorem follows_fillBlocks (i : Nat) {bodies : List (List Form)}
    (hLong : ∀ stmts ∈ bodies, ∀ stmt ∈ stmts, stmt.head? = some "let" → 3 ≤ stmt.items.length)
    (hNames : ∀ stmts ∈ bodies, ∀ stmt ∈ stmts, ∀ name ∈ statementNames stmt, name ∈ w.used) :
    w.Follows (fillBlocks cx i bodies)
      (fun _ => fillBlocks (cx.rename w.rename) i
        (bodies.map (List.map (renameStatement w.rename))))
      fun _ u => u := by
  induction bodies generalizing i with
  | nil => exact follows_pure fun _ => rfl
  | cons stmts bodies ih =>
      rw [List.forall_mem_cons] at hLong hNames
      have hRest := ih (i + 1) hLong.2 hNames.2
      rw [List.map_cons, fillBlocks, fillBlocks]
      refine (follows_evalStatements hFits i hLong.1 hNames.1).bind fun _ _ => ?_
      apply follows_get_bind
      intro s _
      have hBlock (ν : Naming) : (w.mirror.image ν s).blocks[i]? =
          (s.blocks[i]?).map (Block.relabel (Value.rename ν)) := Array.getElem?_map
      simp only [hBlock]
      cases s.blocks[i]? with
      | none => exact hRest
      | some b =>
          have hSuccs (ν : Naming) : (b.relabel (Value.rename ν)).succs = b.succs := rfl
          simp only [Option.map_some, endsInBranch_relabel, hSuccs]
          split
          case isTrue => exact follows_refuse_bind _ _
          case isFalse => exact hRest

theorem follows_settlePhi {phi : Phi} (hCovers : ∀ x ∈ phi.operands, w.Covers x) :
    w.Follows (settlePhi cx phi)
      (fun ν => settlePhi (cx.rename w.rename) (phi.rename w.rename ν)) fun _ u => u := by
  unfold settlePhi
  simp only [evalOperands_eq_map, Phi.rename]
  refine (follows_evalAll (fun x hx => ?_) _ _).bind fun ops _ => ?_
  · exact follows_evalOperand (follows_lookup hFits) x (hCovers x hx)
  · refine follows_modify (fun _ hs => hs) (fun _ => rfl) (fun _ _ h => h) fun ν s => ?_
    simp only [Wording.mirror, renameOperands, List.map_append, List.map_cons, List.map_nil,
      Prod.map_apply]

theorem follows_settlePhis (depth : Nat) :
    w.Follows (settlePhis cx depth) (fun _ => settlePhis (cx.rename w.rename) depth)
      fun _ u => u := by
  induction depth with
  | zero => exact follows_pure fun _ => rfl
  | succ depth ih =>
      rw [settlePhis, settlePhis]
      apply follows_get_bind
      intro s hs
      have hWaiting (ν : Naming) : (w.mirror.image ν s).waiting =
          s.waiting.map (Phi.rename w.rename ν) := rfl
      simp only [hWaiting, List.isEmpty_map]
      split
      case isTrue => exact follows_pure fun _ => rfl
      case isFalse =>
        have hClear : w.Follows (modify fun body => { body with waiting := [] })
            (fun _ => modify fun body => { body with waiting := [] }) fun _ u => u := by
          refine follows_modify (fun _ hs => ⟨hs.1, ?_⟩) (fun _ => rfl) (fun _ _ h => h)
            fun _ _ => rfl
          intro phi hPhi
          cases hPhi
        refine hClear.bind fun _ _ => ?_
        have hSettle := follows_forM fun phi hPhi => follows_settlePhi hFits (hs.2 phi hPhi)
        exact hSettle.bind fun _ _ => ih

end Filling

theorem phiDepth_rename (σ : Equiv.Perm String) (ν : Naming) (phis : List Phi) :
    phiDepth (phis.map (Phi.rename σ ν)) = phiDepth phis := by
  rw [phiDepth, phiDepth, List.map_map]
  refine congrArg (List.foldl max 0) (List.map_congr_left fun phi _ => ?_)
  exact depth_rename phi.form

/-! ### Bodies -/

/-- The wording suits the blocks of the function: it covers the names that they use, and those that
are renamed have a value or a let. -/
structure Wording.Suits (w : Wording) (forms : List Form) : Prop where
  covers : ∀ form ∈ forms, ∀ stmt ∈ statementsOf form, ∀ name ∈ statementNames stmt, name ∈ w.used
  names : ∀ name ∈ w.used, w.rename name = name ∨
    ((parameterNames w.function).find? name).isSome ∨
      ∃ form ∈ forms, ∃ stmt ∈ statementsOf form, stmt.head? = some "let" ∧ letName stmt = name

/-- Loads blocks when the parameters have their names. -/
def loadNamed (callee : Callee) (forms : List Form) : BodyM Unit := do
  let cx : Context := { callee }
  let sorted ← sortBlocks cx forms
  makeBlocks cx ((sorted.length : Int) - 1) 0 sorted
  let (cx, bodies) ← readHeaders cx 0 sorted
  fillBlocks cx 0 bodies
  settlePhis cx (phiDepth (← get).waiting + 1)

theorem loadBlocks_apply (fn : Function) (forms : List Form) (s : Body) :
    loadBlocks fn forms s = loadNamed fn.callee forms { s with names := parameterNames fn } :=
  rfl

section Bodies

variable {w : Wording} {forms : List Form}

/-- What the headers of a body come to fits the wording. -/
theorem Wording.Suits.fits (h : w.Suits forms) {cx cx' : Context} {sorted : List (Int × Form)}
    {bodies : List (List Form)} (hEmpty : cx.lets.entries = [])
    (hSorted : w.mirror.Yields (sortBlocks cx forms) sorted)
    (hHeaders : w.mirror.Yields (readHeaders cx 0 sorted) (cx', bodies)) : w.Fits cx' := by
  have hRead := areRead_of_returns hEmpty hSorted.returns hHeaders.returns
  have hPerm := ((keeps_sortBlocks_indexed forms).of_returns hSorted.returns).perm
  obtain ⟨s, t, -, hRun⟩ := hHeaders
  obtain ⟨hBodies, -⟩ := (keeps_readHeaders_statements 0 sorted s _ t rfl hRun).2
  dsimp only at hBodies
  refine ⟨fun name hName => ?_, fun name stmt hFind => ?_⟩
  · rcases h.names name hName with hSame | hBound | ⟨form, hForm, stmt, hStmt, hLet, rfl⟩
    · exact .inl hSame
    · exact .inr (.inl hBound)
    · obtain ⟨e, he, rfl⟩ := List.mem_map.mp (hPerm.mem_iff.mpr hForm)
      have hMem : stmt ∈ bodies.flatten := by
        rw [hBodies]
        exact List.mem_flatten.mpr ⟨_, List.mem_map_of_mem he, hStmt⟩
      have hEntry : (letName stmt, stmt) ∈ cx'.lets.entries := by
        rw [hRead.entries]
        exact List.mem_map.mpr ⟨stmt, List.mem_filter.mpr ⟨hMem, decide_eq_true hLet⟩, rfl⟩
      rw [Table.find?_of_mem_entries hRead.nodup hEntry]
      exact .inr (.inr rfl)
  · obtain ⟨rfl, hLet, stmts, hStmts, hStmt⟩ := hRead.of_find? hFind
    refine ⟨hLet, hRead.long stmts hStmts stmt hStmt hLet, ?_⟩
    intro x hx name hName
    obtain ⟨form, hForm, rfl⟩ := hRead.statements stmts hStmts
    refine h.covers form hForm stmt hStmt name (statementNames_of_mem_partsOf ?_ hName)
    rw [partsOf_let hLet]
    exact Option.mem_toList.mpr hx

theorem follows_loadNamed (h : w.Suits forms) (callee : Callee) :
    w.Follows (loadNamed callee forms)
      (fun _ => loadNamed callee (forms.map (renameBlock w.rename))) fun _ u => u := by
  have hContext : (⟨callee, {}⟩ : Context) = (⟨callee, {}⟩ : Context).rename w.rename := rfl
  unfold loadNamed
  dsimp only
  refine (follows_sortBlocks forms).bind fun sorted hSorted => ?_
  rw [List.length_map]
  refine (follows_makeBlocks _ 0 sorted).bind fun _ _ => ?_
  rw [hContext]
  refine (follows_readHeaders 0 sorted).bind fun ⟨cx, bodies⟩ hHeaders => ?_
  have hFits := h.fits rfl hSorted hHeaders
  have hRead := areRead_of_returns rfl hSorted.returns hHeaders.returns
  have hNames : ∀ stmts ∈ bodies, ∀ stmt ∈ stmts, ∀ name ∈ statementNames stmt,
      name ∈ w.used := by
    intro stmts hStmts
    obtain ⟨form, hForm, rfl⟩ := hRead.statements stmts hStmts
    exact h.covers form hForm
  refine (follows_fillBlocks hFits 0 hRead.long hNames).bind fun _ _ => ?_
  apply follows_get_bind
  intro s _
  have hDepth (ν : Naming) : phiDepth (w.mirror.image ν s).waiting = phiDepth s.waiting :=
    phiDepth_rename w.rename ν s.waiting
  simp only [hDepth]
  exact follows_settlePhis hFits _

theorem lookup_map_of_injective {g : Value → Value} (hg : Function.Injective g)
    (settled : List (Value × List Value)) (v : Value) :
    (settled.map (Prod.map g (List.map g))).lookup (g v) = (settled.lookup v).map (List.map g) := by
  induction settled with
  | nil => rfl
  | cons e settled ih =>
      rw [List.map_cons, Prod.map, List.lookup_cons, List.lookup_cons, ih]
      by_cases hKey : v = e.1
      · simp [hKey]
      · rw [beq_false_of_ne hKey, beq_false_of_ne fun h => hKey (hg h)]

theorem fillPhi_relabel {g : Value → Value} (hg : Function.Injective g)
    (settled : List (Value × List Value)) (i : Instr) :
    fillPhi (settled.map (Prod.map g (List.map g))) (i.relabel g) =
      (fillPhi settled i).relabel g := by
  obtain ⟨location, op⟩ := i
  cases op with
  | define v operands =>
      simp only [fillPhi, Instr.relabel, Op.relabel, lookup_map_of_injective hg]
      cases settled.lookup v with
      | none => rfl
      | some values => simp
  | _ => rfl

theorem finished_image (ν : Naming) (s : Body) :
    (w.mirror.image ν s).finished = s.finished.map (Block.relabel (Value.rename ν)) := by
  have hPhi := fillPhi_relabel (Value.isRelabelling_rename ν).injective s.settled
  simp only [Body.finished, Wording.mirror, Array.map_map]
  refine congrArg (fun f => s.blocks.map f) (funext fun b => ?_)
  simp only [Function.comp_apply, Block.relabel, List.map_map]
  exact congrArg (fun f => { b with instrs := b.instrs.map f }) (funext hPhi)

theorem function_image (ν : Naming) (body : Body) :
    (w.mirror.image ν body).function (w.function.relabel (Value.rename ν)) =
      (body.function w.function).relabel (Value.rename ν) := by
  unfold Body.function
  rw [finished_image]
  rfl

theorem loadBody_of_ok {p : Program} {fn : Function} {body : Body}
    (h : loadBlocks fn forms { program := p } = .ok () body) : loadBody p fn forms =
      (body.program.modifyPackage fn.callee.package
        (·.modifyFunction fn.callee fun _ => (body.function fn).link.1),
        .ok (body.function fn).link.1) := by
  rw [loadBody, h]
  rfl

/-- The naming gives parameters and free variables their new names, also where these are
automatic. -/
def Wording.Names (w : Wording) (ν : Naming) : Prop :=
  ∀ v ∈ w.function.params ++ w.function.freeVars, (v.rename ν).name = w.rename v.name

theorem parameterNames_relabel {ν : Naming} (hν : w.Names ν) :
    parameterNames (w.function.relabel (Value.rename ν)) =
      (parameterNames w.function).rekey w.rename (Value.rename ν) := by
  have hFold (vs : List Value) (t : Table Value)
      (hvs : ∀ v ∈ vs, (v.rename ν).name = w.rename v.name) :
      (vs.map (Value.rename ν)).foldl (fun t v => t.insert v.name v)
          (t.rekey w.rename (Value.rename ν)) =
        (vs.foldl (fun t v => t.insert v.name v) t).rekey w.rename (Value.rename ν) := by
    induction vs generalizing t with
    | nil => rfl
    | cons v vs ih =>
        rw [List.forall_mem_cons] at hvs
        rw [List.map_cons, List.foldl_cons, List.foldl_cons, hvs.1,
          Table.insert_rekey w.rename.injective, ih _ hvs.2]
  rw [parameterNames, parameterNames, ← hFold _ _ hν, List.map_append]
  rfl

/-- When a body is loaded, so is the body renamed, and with the same outcome but for the names. -/
theorem exists_loadBody_rename (h : w.Suits forms) {p p' : Program} {fn' : Function}
    (hRun : loadBody p w.function forms = (p', .ok fn')) :
    ∃ names, p'.nextId = p.nextId + names.length ∧
      ∀ ν : Naming, w.Names ν → ν.Gives p.nextId names →
        loadBody (p.relabel (Value.rename ν)) (w.function.relabel (Value.rename ν))
            (forms.map (renameBlock w.rename)) =
          (p'.relabel (Value.rename ν), .ok (fn'.relabel (Value.rename ν))) := by
  obtain ⟨body, hBlocks, rfl, rfl⟩ := loadBody_eq_ok hRun
  rw [loadBlocks_apply] at hBlocks
  obtain ⟨-, names, hCount, hImage⟩ := follows_loadNamed h w.function.callee
    { program := p, names := parameterNames w.function } () body
    ⟨fun _ hName => hName, fun _ hPhi => absurd hPhi List.not_mem_nil⟩ hBlocks
  refine ⟨names, hCount, fun ν hν hGives => ?_⟩
  have hStart : w.mirror.image ν { program := p, names := parameterNames w.function } =
      { program := p.relabel (Value.rename ν)
        names := parameterNames (w.function.relabel (Value.rename ν)) } := by
    rw [parameterNames_relabel hν]
    simp only [Wording.mirror, List.map_nil, Array.map_empty]
    rfl
  have hRenamed : loadBlocks (w.function.relabel (Value.rename ν))
      (forms.map (renameBlock w.rename)) { program := p.relabel (Value.rename ν) } =
      .ok () (w.mirror.image ν body) := by
    have hRun := (hImage ν hGives trivial).1
    rw [hStart] at hRun
    rw [loadBlocks_apply]
    exact hRun
  rw [loadBody_of_ok hRenamed, function_image, Function.link_relabel,
    ← Program.replaceFunction_relabel]
  rfl

end Bodies

end NilGuard.Dump
