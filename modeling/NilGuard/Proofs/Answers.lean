import NilGuard.Proofs.Growth
/-! The evaluation of a body computes what its statements stand for. What is shown of a state
holds for every end that the loading of the body can still come to, so it does not matter which
lets have been evaluated by then. -/
namespace NilGuard

namespace Dump

/-- What the loading of a body comes to: the state when all blocks are filled, the program, and
the operands of phis. -/
structure End where
  filled : Body
  program : Program
  settled : List (Value × List Value)

/-- Where the names of the body are looked up in the end. -/
def End.scope (e : End) (cx : Context) : Scope := ⟨e.filled.names, e.program, cx.callee.package⟩

/-- Instructions with the operands of phis. -/
def End.fill (e : End) (is : List Instr) : List Instr := is.map (fillPhi e.settled)

/-- The phis of the blocks have the values of their operands, and no other value is taken for a
phi. -/
structure End.IsSettled (cx : Context) (e : End) : Prop where
  program : e.filled.program.Widens e.program
  phis : ∀ phi ∈ e.filled.waiting, ∃ values, e.settled.lookup phi.value = some values ∧
    ((∀ x ∈ phi.operands, ∀ items, x ≠ .list items) →
      List.Forall₂ (e.scope cx).Denotes phi.operands values)
  others : ∀ v : Value, v.id < e.filled.program.nextId →
    (∀ phi ∈ e.filled.waiting, phi.value.id ≠ v.id) → e.settled.lookup v = none

/-- The numbers of the values that instructions define. -/
def resultIds (is : List Instr) : List Nat := is.filterMap fun i => i.result?.map Value.id

theorem resultIds_append (is js : List Instr) :
    resultIds (is ++ js) = resultIds is ++ resultIds js :=
  List.filterMap_append

/-- The numbers of the values that the evaluated lets define. -/
def Body.keptIds (s : Body) : List Nat := s.built.entries.flatMap fun e => resultIds e.2

/-- Numbers are distinct from each other and from those of the evaluated lets, and none is still
to be given. -/
structure Body.AreFresh (ids : List Nat) (s : Body) : Prop where
  nodup : (ids ++ s.keptIds).Nodup
  lt : ∀ i ∈ ids ++ s.keptIds, i < s.program.nextId

/-- The instructions that came up between two states define values of their own. -/
def Body.Adds (s t : Body) (is : List Instr) : Prop :=
  ∀ ids, s.AreFresh ids → t.AreFresh (ids ++ resultIds is)

/-- The evaluated lets are bound to values of their expressions, with the instructions that
compute them. -/
def Body.Answers (cx : Context) (e : End) (s : Body) : Prop :=
  ∀ name stmt is, cx.lets.find? name = some stmt → s.built.find? name = some is →
    ∃ x v, letExpression? stmt = some x ∧ s.names.find? name = some v ∧
      (e.scope cx).Yields name (locationOf stmt.items) x v (e.fill is)

section Fresh

variable {s t u : Body} {is js : List Instr}

theorem Body.Adds.refl (s : Body) : s.Adds s [] := by
  intro ids h
  rwa [resultIds, List.filterMap_nil, List.append_nil]

theorem Body.Adds.trans (h : s.Adds t is) (h' : t.Adds u js) : s.Adds u (is ++ js) := by
  intro ids hIds
  rw [resultIds_append, ← List.append_assoc]
  exact h' _ (h ids hIds)

/-- Instructions without a result add nothing. -/
theorem Body.Adds.append_of_resultIds_eq_nil (h : s.Adds t is) (hJs : resultIds js = []) :
    s.Adds t (is ++ js) := by
  intro ids hIds
  rw [resultIds_append, hJs, List.append_nil]
  exact h ids hIds

theorem Body.adds_of_built_eq (hBuilt : t.built = s.built)
    (hId : s.program.nextId ≤ t.program.nextId) : s.Adds t [] := by
  intro ids h
  have hKept : t.keptIds = s.keptIds := by rw [keptIds, hBuilt, keptIds]
  rw [resultIds, List.filterMap_nil, List.append_nil]
  exact ⟨hKept ▸ h.nodup, hKept ▸ fun i hi => Nat.lt_of_lt_of_le (h.lt i hi) hId⟩

/-- A value that gets the next number is a new one. -/
theorem Body.adds_next {i : Instr} {v : Value} (hBuilt : t.built = s.built)
    (hNext : t.program.nextId = s.program.nextId + 1) (hResult : i.result? = some v)
    (hId : v.id = s.program.nextId) : s.Adds t [i] := by
  intro ids h
  have hKept : t.keptIds = s.keptIds := by rw [keptIds, hBuilt, keptIds]
  have hIds : resultIds [i] = [s.program.nextId] := by simp [resultIds, hResult, hId]
  have hPerm : (ids ++ [s.program.nextId] ++ s.keptIds).Perm
      (s.program.nextId :: (ids ++ s.keptIds)) := by
    rw [List.append_assoc]
    exact List.perm_middle
  rw [hIds]
  refine ⟨?_, ?_⟩
  · rw [hKept, hPerm.nodup_iff, List.nodup_cons]
    exact ⟨fun hMem => Nat.lt_irrefl _ (h.lt _ hMem), h.nodup⟩
  · intro j hj
    rw [hKept, hPerm.mem_iff, List.mem_cons] at hj
    rw [hNext]
    rcases hj with rfl | hj
    · exact Nat.lt_succ_self _
    · exact Nat.lt_succ_of_lt (h.lt j hj)

/-- The instructions of a let are kept when it is bound. -/
theorem Body.Adds.bind {name : String} {v : Value} (h : s.Adds t is)
    (hNew : t.built.find? name = none) :
    s.Adds { t with names := t.names.insert name v, built := t.built.insert name is } [] := by
  intro ids hIds
  have hFresh := h ids hIds
  have hKept : Body.keptIds
      { t with names := t.names.insert name v, built := t.built.insert name is } =
        t.keptIds ++ resultIds is := by
    rw [keptIds, Table.entries_insert_of_find?_eq_none hNew, List.flatMap_append]
    simp [keptIds]
  have hPerm : (ids ++ (t.keptIds ++ resultIds is)).Perm (ids ++ resultIds is ++ t.keptIds) := by
    rw [List.append_assoc]
    exact List.perm_append_comm.append_left ids
  rw [resultIds, List.filterMap_nil, List.append_nil]
  refine ⟨?_, fun i hi => ?_⟩
  · rw [hKept, hPerm.nodup_iff]
    exact hFresh.nodup
  · rw [hKept, hPerm.mem_iff] at hi
    exact hFresh.lt i hi

end Fresh

section Own

variable {cx : Context} {e : End} {s t : Body} {form : Form} {head name : String}
  {location : Location} {values : List Value} {v : Value} {own : List Instr}

/-- A value with the next number that is no phi is not taken for one in the end. -/
theorem End.IsSettled.lookup_eq_none (he : e.IsSettled cx) (hs : s.IsOpen cx)
    (hLeads : t.Leads cx e.filled) (hWaiting : t.waiting = s.waiting)
    (hNext : t.program.nextId = s.program.nextId + 1) (hId : v.id = s.program.nextId) :
    e.settled.lookup v = none := by
  obtain ⟨new, hNew, hIds⟩ := hLeads.waiting
  refine he.others v ?_ fun phi hPhi => ?_
  · have hLe := hLeads.program.nextId
    omega
  · rw [hNew, hWaiting] at hPhi
    rcases List.mem_append.mp hPhi with hPhi | hPhi
    · have hLt := hs.waiting phi hPhi
      omega
    · have hLe := hIds phi hPhi
      omega

theorem isMade_leaf (id : Nat) (name : String) (length : Int) (origin : Origin)
    (operands : List Value) :
    Value.IsMade name length (.leaf origin) operands (.leaf ⟨id, name, length⟩ origin) :=
  ⟨rfl, rfl, rfl, fun _ h => by cases h⟩

/-- A definition makes a value with the next number. -/
theorem define_eq_ok {length : Int} {kind : Kind}
    (h : define cx form head name length location kind (values, []) s = .ok (v, own) t) :
    v.IsMade name length kind values ∧ v.id = s.program.nextId ∧
      own = [{ location, op := .define v (values.map some) }] ∧
      t = { s with program := { s.program with nextId := s.program.nextId + 1 } } := by
  cases kind with
  | leaf origin =>
      cases h
      exact ⟨isMade_leaf _ _ _ _ _, rfl, rfl, rfl⟩
  | converted conversion =>
      cases values with
      | nil => cases h
      | cons u us =>
          cases h
          exact ⟨⟨rfl, rfl, rfl, fun w hw => hw⟩, rfl, rfl, rfl⟩

/-- What the making of a value leaves alone, and what it makes in the end. -/
structure Made (cx : Context) (e : End) (form : Form) (name : String) (location : Location)
    (shape : Shape) (values : List Value) (s : Body) (v : Value) (own : List Instr) (t : Body) :
    Prop where
  names : t.names = s.names
  built : t.built = s.built
  adds : s.Adds t own
  makes : (e.scope cx).Makes form name location values v (e.fill own) shape

theorem made_of_define {length : Int} {kind : Kind} {shape : Shape} (he : e.IsSettled cx)
    (hs : s.IsOpen cx) (hLeads : t.Leads cx e.filled)
    (h : define cx form head name length location kind (values, []) s = .ok (v, own) t)
    (hMakes : v.IsMade name length kind values →
      (e.scope cx).Makes form name location values v
        [{ location, op := .define v (values.map some) }] shape) :
    Made cx e form name location shape values s v own t := by
  obtain ⟨hMade, hId, rfl, rfl⟩ := define_eq_ok h
  have hFill : e.fill [{ location, op := .define v (values.map some) }] =
      [{ location, op := .define v (values.map some) }] := by
    simp [End.fill, fillPhi, he.lookup_eq_none hs hLeads rfl rfl hId]
  refine ⟨rfl, rfl, Body.adds_next rfl rfl rfl hId, ?_⟩
  rw [hFill]
  exact hMakes hMade

/-- Making the value of an expression makes what it stands for. -/
theorem made_of_make {shape : Shape} (he : e.IsSettled cx) (hs : s.IsOpen cx)
    (hLeads : t.Leads cx e.filled)
    (h : shape.make cx form head name location values s = .ok (v, own) t) :
    Made cx e form name location shape values s v own t := by
  have hNext : s.program.nextId ≤ s.program.nextId + 1 := Nat.le_succ _
  cases shape with
  | const =>
      rw [Shape.make] at h
      cases hArgs : form.items.drop 1 with
      | nil =>
          rw [hArgs] at h
          cases h
          refine ⟨rfl, rfl, Body.adds_of_built_eq rfl hNext, ?_, rfl⟩
          rw [hArgs]
          exact isMade_leaf _ _ _ _ _
      | cons x xs =>
          rw [hArgs] at h
          cases hNil : x.isNil with
          | true =>
              simp only [hNil] at h
              cases h
              refine ⟨rfl, rfl, Body.adds_of_built_eq rfl hNext, ?_, rfl⟩
              rw [hArgs, literalOf, hNil]
              exact isMade_leaf _ _ _ _ _
          | false =>
              simp only [hNil] at h
              cases h
              refine ⟨rfl, rfl, Body.adds_of_built_eq rfl hNext, ?_, rfl⟩
              rw [hArgs, literalOf, hNil]
              exact isMade_leaf _ _ _ _ _
  | global =>
      obtain ⟨w, u, hGlobal, h⟩ := bind_eq_ok.mp h
      cases h
      obtain ⟨p, rfl, hProgram, hFound⟩ := globalValue_eq_ok hGlobal
      refine ⟨rfl, rfl, Body.adds_of_built_eq rfl hProgram.nextId, ?_, rfl⟩
      exact he.program.globals _ _ _ (hLeads.program.globals _ _ _ hFound)
  | funcRef =>
      cases h
      exact ⟨rfl, rfl, Body.adds_of_built_eq rfl hNext, isMade_leaf _ _ _ _ _, rfl⟩
  | simple kind =>
      rw [Shape.make] at h
      exact made_of_define he hs hLeads h fun hMade => ⟨hMade, rfl⟩
  | fieldAddr =>
      rw [Shape.make] at h
      exact made_of_define he hs hLeads h fun hMade => ⟨hMade, rfl⟩
  | arrayPtr =>
      rw [Shape.make] at h
      exact made_of_define he hs hLeads h fun hMade => ⟨hMade, rfl⟩
  | closure =>
      rw [Shape.make] at h
      exact made_of_define he hs hLeads h fun hMade => ⟨hMade, rfl⟩
  | single place =>
      rw [Shape.make] at h
      exact made_of_define he hs hLeads h fun hMade => ⟨hMade, rfl⟩
  | phi =>
      cases h
      obtain ⟨new, hNew, -⟩ := hLeads.waiting
      obtain ⟨operands, hLookup, hDenotes⟩ := he.phis
        ⟨.leaf ⟨s.program.nextId, name, 0⟩ .other, form.items.drop 1, form⟩ (by simp [hNew])
      refine ⟨rfl, rfl, Body.adds_next rfl rfl rfl rfl, isMade_leaf _ _ _ _ _, operands, ?_,
        hDenotes⟩
      simp [End.fill, fillPhi, hLookup]
  | binop =>
      cases h
      exact ⟨rfl, rfl, Body.adds_next rfl rfl rfl rfl, isMade_leaf _ _ _ _ _, rfl⟩
  | call =>
      cases h
      exact ⟨rfl, rfl, Body.adds_next rfl rfl rfl rfl, isMade_leaf _ _ _ _ _, rfl⟩
  | callMethod =>
      cases h
      exact ⟨rfl, rfl, Body.adds_next rfl rfl rfl rfl, isMade_leaf _ _ _ _ _, rfl⟩
  | callDynamic =>
      cases h
      exact ⟨rfl, rfl, Body.adds_next rfl rfl rfl rfl, isMade_leaf _ _ _ _ _, rfl⟩

end Own

section Atoms

variable {cx : Context} {s t : Body} {v : Value} {name : String} {form : Form}

/-- A form that is not a list has no instructions. Its value is that of a name, or a literal. -/
theorem evalAtom_eq_ok {resolve : String → Form → BodyM Value} {x : Form} {is : List Instr}
    (hAtom : ∀ items, x ≠ .list items) (h : evalOperand cx resolve x form s = .ok (v, is) t) :
    is = [] ∧ ((∃ name, x = .sym name ∧ resolve name form s = .ok v t) ∨
      (∀ sc : Scope, sc.Denotes x v) ∧
        t = { s with program := { s.program with nextId := s.program.nextId + 1 } }) := by
  cases x with
  | int | real | str =>
      cases h
      exact ⟨rfl, .inr ⟨fun _ => isMade_leaf _ _ _ _ _, rfl⟩⟩
  | sym name =>
      obtain ⟨w, u, hResolve, h⟩ := bind_eq_ok.mp h
      cases h
      exact ⟨rfl, .inl ⟨name, rfl, hResolve⟩⟩
  | list items => exact absurd rfl (hAtom items)

/-- A name without a let is nil, a variable or a constant. -/
theorem resolveOuter_eq_ok (h : resolveOuter cx name form s = .ok v t) :
    t.names = s.names ∧ t.built = s.built ∧ s.Adds t [] ∧
      ∀ sc : Scope, sc.package = cx.callee.package → t.program.Widens sc.program →
        sc.IsOuter name v := by
  unfold resolveOuter at h
  by_cases hNil : name = "nil"
  · rw [if_pos hNil] at h
    cases h
    refine ⟨rfl, rfl, Body.adds_of_built_eq rfl (Nat.le_succ _), fun sc _ _ => ?_⟩
    rw [Scope.IsOuter, if_pos hNil]
    exact isMade_leaf _ _ _ _ _
  · rw [if_neg hNil, get_bind_apply] at h
    cases hGlobal : (s.program.package? cx.callee.package).bind (·.globals.find? name) with
    | some w =>
        simp only [hGlobal] at h
        cases h
        refine ⟨rfl, rfl, .refl _, fun sc hPackage hProgram => ?_⟩
        rw [Scope.IsOuter, if_neg hNil, hPackage]
        exact .inl (hProgram.globals _ _ _ hGlobal)
    | none =>
        cases hConst : (s.program.package? cx.callee.package).bind (·.consts.find? name) with
        | some w =>
            simp only [hGlobal, hConst] at h
            cases h
            refine ⟨rfl, rfl, .refl _, fun sc hPackage hProgram => ?_⟩
            rw [Scope.IsOuter, if_neg hNil, hPackage]
            exact .inr (hProgram.consts _ _ _ hConst)
        | none =>
            simp only [hGlobal, hConst] at h
            cases h

end Atoms

section Evaluation

variable {cx : Context} {e : End} {entered : List String} {resolve : String → Form → BodyM Value}

/-- Resolving lets the state grow, and gives the values that names stand for. -/
structure IsResolver (cx : Context) (e : End) (entered : List String)
    (resolve : String → Form → BodyM Value) : Prop where
  moves : ∀ name form, Moves cx entered (resolve name form)
  answers : ∀ name form s v t, s.IsOpen cx → s.Answers cx e → resolve name form s = .ok v t →
    t.Leads cx e.filled →
    t.Answers cx e ∧ s.Adds t [] ∧ (e.scope cx).Denotes (.sym name) v

theorem IsResolver.moves_operand (h : IsResolver cx e entered resolve) (x form : Form) :
    Moves cx entered (evalOperand cx resolve x form) :=
  isEvaluable_moves.evalOperand h.moves x (allows_moves x) form

/-- A computation gives a value and its instructions as described. -/
def Computes (cx : Context) (e : End) (x : BodyM Computed) (Q : Value → List Instr → Prop) :
    Prop :=
  ∀ s v is t, s.IsOpen cx → s.Answers cx e → x s = .ok (v, is) t → t.Leads cx e.filled →
    t.Answers cx e ∧ s.Adds t is ∧ Q v (e.fill is)

theorem Body.Answers.of_names_eq {s t : Body} (h : s.Answers cx e) (hNames : t.names = s.names)
    (hBuilt : t.built = s.built) : t.Answers cx e := by
  rw [Answers, hNames, hBuilt]
  exact h

theorem check_eq_ok {form : Form} {head : String} {shape : Shape} {s t : Body}
    (h : shape.check cx form head s = .ok () t) : t = s := by
  have hExpect (atLeast : Bool) (count : Nat) {u : Body}
      (h : expect cx form head atLeast count s = .ok () u) : u = s := by
    rw [expect] at h
    by_cases hCount : form.items.length - 1 < count ∨
        (¬ atLeast ∧ form.items.length - 1 ≠ count)
    · simp only [if_pos hCount] at h
      cases h
    · simp only [if_neg hCount] at h
      cases h
      rfl
  cases shape with
  | const | simple | phi =>
      cases h
      rfl
  | global | funcRef | fieldAddr | callDynamic | closure | call | single | binop | callMethod =>
      exact hExpect _ _ h
  | arrayPtr =>
      obtain ⟨_, u, hFirst, h⟩ := bind_eq_ok.mp h
      rw [hExpect _ _ hFirst] at h
      cases hLength : ((form.items.drop 1)[1]?).bind Form.int? with
      | none =>
          rw [hLength] at h
          cases h
      | some length =>
          rw [hLength] at h
          by_cases hNeg : length < 0
          · simp only [if_pos hNeg] at h
            cases h
          · simp only [if_neg hNeg] at h
            cases h
            rfl

/-- Statements that are not evaluated for a value have no result. -/
theorem ending_result? (ending : Ending) (values : List Value) (location : Location) :
    Instr.result? { location, op := ending.op values } = none := by
  unfold Ending.op
  split
  all_goals rfl

theorem resultIds_ending (ending : Ending) (values : List Value) (location : Location) :
    resultIds [{ location, op := ending.op values }] = [] := by
  rw [resultIds, List.filterMap_cons, ending_result?]
  rfl

theorem fill_ending (ending : Ending) (values : List Value) (location : Location) :
    e.fill [{ location, op := ending.op values }] = [{ location, op := ending.op values }] := by
  unfold Ending.op
  cases ending with
  | store =>
      rcases values with _ | ⟨address, _ | ⟨value, rest⟩⟩
      all_goals rfl
  | branch | jump | ret | panic => rfl

theorem fill_append (is js : List Instr) : e.fill (is ++ js) = e.fill is ++ e.fill js :=
  List.map_append

/-- Operands are evaluated from left to right. -/
theorem computes_evalAll {operand : Form → Operand} {xs : List Form} {form : Form}
    (hMoves : ∀ x ∈ xs, Moves cx entered (operand x form))
    (hOperand : ∀ x ∈ xs, Computes cx e (operand x form) ((e.scope cx).Yields "" {} x))
    {s t : Body} {values : List Value} {is : List Instr} (hs : s.IsOpen cx)
    (hAnswers : s.Answers cx e) (hRun : evalAll form (xs.map operand) s = .ok (values, is) t)
    (hLeads : t.Leads cx e.filled) :
    t.Answers cx e ∧ s.Adds t is ∧ (e.scope cx).YieldsAll xs values (e.fill is) := by
  induction xs generalizing s values is with
  | nil =>
      cases hRun
      exact ⟨hAnswers, .refl _, .nil⟩
  | cons x xs ih =>
      rw [List.forall_mem_cons] at hMoves hOperand
      obtain ⟨⟨v, is⟩, u, hFirst, hRun⟩ := bind_eq_ok.mp hRun
      obtain ⟨⟨vs, js⟩, w, hRest, hRun⟩ := bind_eq_ok.mp hRun
      cases hRun
      have hAll : Moves cx entered (evalAll form (xs.map operand)) :=
        isEvaluable_moves.evalAll hMoves.2
      obtain ⟨-, hu⟩ := hMoves.1 s _ u hs hFirst
      obtain ⟨hGrows, -⟩ := hAll u _ _ hu hRest
      obtain ⟨hu', hAdds, hYields⟩ :=
        hOperand.1 s v is u hs hAnswers hFirst (hGrows.toLeads.trans hLeads)
      obtain ⟨ht', hAdds', hYields'⟩ := ih hMoves.2 hOperand.2 hu hu' hRest
      refine ⟨ht', hAdds.trans hAdds', ?_⟩
      rw [fill_append]
      exact .cons hYields hYields'

variable (he : e.IsSettled cx)
include he

/-- A list gives what its shape makes of the values of its operands. -/
theorem computes_evalList {operand : Form → Operand} (name : String) (location : Location)
    {items : List Form} (hMoves : ∀ x form, Moves cx entered (operand x form))
    (hOperand : ∀ x ∈ items, ∀ form, Computes cx e (operand x form) ((e.scope cx).Yields "" {} x)) :
    Computes cx e (evalList cx name location items (items.map operand))
      ((e.scope cx).Yields name location (.list items)) := by
  intro s v is t hs hAnswers hRun hLeads
  rcases evalList_cases cx operand name location items with
    ⟨-, hEval⟩ | ⟨_, _, _, hEval⟩ | ⟨head, shape, hHead, hShape, hEval⟩
  · rw [hEval] at hRun
    cases hRun
  · rw [hEval] at hRun
    cases hRun
  · rw [hEval] at hRun
    obtain ⟨_, u, hCheck, hRun⟩ := bind_eq_ok.mp hRun
    obtain ⟨⟨values, is⟩, w, hAll, hRun⟩ := bind_eq_ok.mp hRun
    obtain ⟨⟨v, own⟩, x, hMake, hRun⟩ := bind_eq_ok.mp hRun
    cases hRun
    rw [check_eq_ok hCheck] at hAll
    have hAllMoves : Moves cx entered (evalAll (.list (withoutPosition items))
        ((shape.inline ((withoutPosition items).drop 1)).map operand)) :=
      isEvaluable_moves.evalAll fun x _ => hMoves x _
    have hMakeMoves : Moves cx entered (shape.make cx (.list (withoutPosition items)) head name
        (placed items location) values) :=
      isEvaluable_moves.make _ _ _ _ _ fun _ => moves_makePhi _ _ _ _ _ _
    obtain ⟨-, hw⟩ := hAllMoves s _ w hs hAll
    obtain ⟨hGrows, -⟩ := hMakeMoves w _ _ hw hMake
    obtain ⟨hw', hAdds, hYields⟩ := computes_evalAll (fun x _ => hMoves x _)
      (fun x hx => hOperand x (mem_of_mem_inline hx) _) hs hAnswers hAll
      (hGrows.toLeads.trans hLeads)
    have hMade := made_of_make he hw hLeads hMake
    refine ⟨hw'.of_names_eq hMade.names hMade.built, hAdds.trans hMade.adds, ?_⟩
    rw [fill_append]
    exact .list hHead hShape hYields hMade.makes

omit he in
theorem computes_atom (hResolver : IsResolver cx e entered resolve) {x : Form}
    (hAtom : ∀ items, x ≠ .list items) (form : Form) :
    Computes cx e (evalOperand cx resolve x form) fun v is =>
      (e.scope cx).Denotes x v ∧ is = [] := by
  intro s v is t hs hAnswers hRun hLeads
  obtain ⟨rfl, ⟨name, rfl, hResolve⟩ | ⟨hDenotes, rfl⟩⟩ := evalAtom_eq_ok hAtom hRun
  · obtain ⟨ht, hAdds, hDenotes⟩ := hResolver.answers name form s v t hs hAnswers hResolve hLeads
    exact ⟨ht, hAdds, hDenotes, rfl⟩
  · exact ⟨hAnswers, Body.adds_of_built_eq rfl (Nat.le_succ _), hDenotes _, rfl⟩

theorem computes_evalOperand (hResolver : IsResolver cx e entered resolve) (x : Form) :
    ∀ form, Computes cx e (evalOperand cx resolve x form) ((e.scope cx).Yields "" {} x) := by
  induction x using Form.induct with
  | atom x hAtom =>
      intro form s v is t hs hAnswers hRun hLeads
      obtain ⟨ht, hAdds, hDenotes, hNone⟩ :=
        computes_atom hResolver hAtom form s v is t hs hAnswers hRun hLeads
      exact ⟨ht, hAdds, hNone ▸ .atom hDenotes⟩
  | list items ih =>
      intro form
      rw [evalOperand, evalOperands_eq_map]
      exact computes_evalList he "" {} hResolver.moves_operand ih

theorem computes_evalBound (hResolver : IsResolver cx e entered resolve) (name : String)
    (location : Location) (x : Form) :
    Computes cx e (evalBound cx resolve name location x) ((e.scope cx).Yields name location x) := by
  unfold evalBound
  split
  case h_1 items =>
    rw [evalOperands_eq_map]
    exact computes_evalList he name location hResolver.moves_operand fun x _ =>
      computes_evalOperand he hResolver x
  case h_2 hAtom =>
    intro s v is t hs hAnswers hRun hLeads
    obtain ⟨ht, hAdds, hDenotes, hNone⟩ :=
      computes_atom hResolver hAtom x s v is t hs hAnswers hRun hLeads
    exact ⟨ht, hAdds, hNone ▸ .atom hDenotes⟩

/-- A let that is evaluated is bound to the value of its expression. -/
theorem answers_evalLet {name : String} {stmt : Form} {s t : Body} {v : Value}
    (hResolver : IsResolver cx e (name :: entered) resolve)
    (hLet : cx.lets.find? name = some stmt) (hName : name ∉ entered) (hs : s.IsOpen cx)
    (hAnswers : s.Answers cx e) (hNew : s.names.find? name = none)
    (hRun : evalLet cx resolve name stmt s = .ok v t) (hLeads : t.Leads cx e.filled) :
    t.Answers cx e ∧ s.Adds t [] ∧ t.names.find? name = some v := by
  obtain ⟨x, instrs, u, hExpression, hBound, rfl⟩ := evalLet_eq_ok hRun
  have hMoves : Moves cx (name :: entered) (evalBound cx resolve name (locationOf stmt.items) x) :=
    isEvaluable_moves.evalBound hResolver.moves name _ (allows_moves x)
  obtain ⟨hGrows, hu⟩ := hMoves s _ u hs hBound
  -- the let was entered, so nothing has bound its name while its expression was evaluated
  have hUnbound : u.names.find? name = none := hGrows.entered name List.mem_cons_self hNew
  have hUnbuilt := hu.built_eq_none hUnbound
  obtain ⟨hBind, -⟩ := hu.bind hLet hUnbound hName v instrs
  obtain ⟨hu', hAdds, hYields⟩ := computes_evalBound he hResolver name (locationOf stmt.items) x
    s v instrs u hs hAnswers hBound (hBind.toLeads.trans hLeads)
  have hFound : (u.names.insert name v).find? name = some v := by
    rw [Table.find?_insert, if_pos rfl]
  refine ⟨fun other stmt' is hOther hBuilt => ?_, hAdds.bind hUnbuilt, hFound⟩
  rw [Table.find?_insert] at hBuilt
  by_cases hSame : other = name
  · subst hSame
    rw [if_pos rfl] at hBuilt
    cases hBuilt
    rw [hLet] at hOther
    cases hOther
    exact ⟨x, v, hExpression, hFound, hYields⟩
  · rw [if_neg hSame] at hBuilt
    obtain ⟨y, w, hy, hw, hYields'⟩ := hu' other stmt' is hOther hBuilt
    refine ⟨y, w, hy, ?_, hYields'⟩
    rwa [Table.find?_insert, if_neg hSame]

theorem answers_outer {name : String} {form : Form} {s t : Body} {v : Value}
    (hAnswers : s.Answers cx e) (hName : s.names.find? name = none)
    (hLet : cx.lets.find? name = none) (hRun : resolveOuter cx name form s = .ok v t)
    (hLeads : t.Leads cx e.filled) :
    t.Answers cx e ∧ s.Adds t [] ∧ (e.scope cx).Denotes (.sym name) v := by
  obtain ⟨hNames, hBuilt, hAdds, hOuter⟩ := resolveOuter_eq_ok hRun
  have hUnbound := hLeads.outer name hLet
  rw [hNames, hName] at hUnbound
  have hDenotes := hOuter (e.scope cx) rfl (hLeads.program.trans he.program)
  exact ⟨hAnswers.of_names_eq hNames hBuilt, hAdds, .inr ⟨hUnbound, hDenotes⟩⟩

theorem isResolver_resolve (depth : Nat) (entered : List String) :
    IsResolver cx e entered (Dump.resolve cx depth entered) := by
  induction depth generalizing entered with
  | zero =>
      refine ⟨moves_resolve 0 entered, fun name form s v t hs hAnswers hRun hLeads => ?_⟩
      rcases resolve_eq_ok hRun with ⟨hName, rfl⟩ | ⟨hName, hLet, hOuter⟩ | ⟨_, _, hDepth, _⟩
      · exact ⟨hAnswers, .refl _, .inl (hLeads.names name v hName)⟩
      · exact answers_outer he hAnswers hName hLet hOuter hLeads
      · cases hDepth
  | succ depth ih =>
      refine ⟨moves_resolve _ entered, fun name form s v t hs hAnswers hRun hLeads => ?_⟩
      rcases resolve_eq_ok hRun with ⟨hName, rfl⟩ | ⟨hName, hLet, hOuter⟩ |
        ⟨below, stmt, hDepth, hNew, hLet, hEntered, hRun⟩
      · exact ⟨hAnswers, .refl _, .inl (hLeads.names name v hName)⟩
      · exact answers_outer he hAnswers hName hLet hOuter hLeads
      · cases hDepth
        obtain ⟨ht, hAdds, hFound⟩ := answers_evalLet he (ih (name :: entered)) hLet hEntered hs
          hAnswers hNew hRun hLeads
        exact ⟨ht, hAdds, .inl (hLeads.names name v hFound)⟩

/-- Statements with the instructions that they came to. -/
abbrev Work := List (Form × List Instr)

/-- The instructions of the statements that are not lets. -/
def Work.loose (done : Work) : List Instr :=
  (done.filter fun p => p.1.head? ≠ some "let").flatMap Prod.snd

/-- What statements leave behind. The instructions of lets are kept under their names, those of
other statements define values of their own. -/
structure Performed (cx : Context) (e : End) (done : Work) (s t : Body) : Prop where
  answers : t.Answers cx e
  performs : ∀ p ∈ done, (e.scope cx).Performs p.1 (e.fill p.2)
  kept : ∀ p ∈ done, p.1.head? = some "let" → t.built.find? (letName p.1) = some p.2
  adds : s.Adds t done.loose

omit he in
theorem Performed.refl {s : Body} (h : s.Answers cx e) : Performed cx e [] s s :=
  ⟨h, by simp, by simp, .refl s⟩

omit he in
theorem Performed.trans {done done' : Work} {s t u : Body} (h : Performed cx e done s t)
    (h' : Performed cx e done' t u) (hLeads : t.Leads cx u) :
    Performed cx e (done ++ done') s u := by
  refine ⟨h'.answers, List.forall_mem_append.mpr ⟨h.performs, h'.performs⟩,
    List.forall_mem_append.mpr ⟨fun p hp hLet => ?_, h'.kept⟩, ?_⟩
  · exact hLeads.built _ _ (h.kept p hp hLet)
  · rw [Work.loose, List.filter_append, List.flatMap_append]
    exact h.adds.trans h'.adds

omit he in
theorem performed_singleton {stmt : Form} {is : List Instr} {s t : Body} (ht : t.Answers cx e)
    (hPerforms : (e.scope cx).Performs stmt (e.fill is))
    (hKept : stmt.head? = some "let" → s.Adds t [] ∧ t.built.find? (letName stmt) = some is)
    (hLoose : stmt.head? ≠ some "let" → s.Adds t is) : Performed cx e [(stmt, is)] s t := by
  refine ⟨ht, List.forall_mem_singleton.mpr hPerforms,
    List.forall_mem_singleton.mpr fun hLet => (hKept hLet).2, ?_⟩
  by_cases hLet : stmt.head? = some "let"
  · simpa [Work.loose, hLet] using (hKept hLet).1
  · simpa [Work.loose, hLet] using hLoose hLet

theorem performed_evalStatement {stmt : Form} {s t : Body} {is : List Instr}
    (hLet : stmt.head? = some "let" → cx.lets.find? (letName stmt) = some stmt)
    (hs : s.IsOpen cx) (hAnswers : s.Answers cx e) (hRun : evalStatement cx stmt s = .ok is t)
    (hLeads : t.Leads cx e.filled) : Performed cx e [(stmt, is)] s t := by
  have hResolver : IsResolver cx e [] cx.lookup := isResolver_resolve he _ _
  rcases evalStatement_cases cx stmt with ⟨-, -, hEval⟩ | ⟨_, _, _, hEval⟩ |
    ⟨hHead, hEval⟩ | ⟨head, ending, hHead, hEnding, hTakes, hEval⟩ |
    ⟨head, shape, hHead, hEnding, hShape, hEval⟩
  all_goals rw [hEval] at hRun
  · cases hRun
  · cases hRun
  · obtain ⟨ht, hAdds, hBuilt⟩ : t.Answers cx e ∧ s.Adds t [] ∧
        t.built.find? (letName stmt) = some is := by
      rcases evalLetStatement_eq_ok hRun with ⟨hBuilt, rfl⟩ | ⟨hBuilt, v, hEvalLet, hIs⟩
      · exact ⟨hAnswers, .refl _, hBuilt⟩
      · have hNew := hs.unbuilt _ stmt (hLet hHead) hBuilt
        obtain ⟨ht, hAdds, -⟩ := answers_evalLet he (isResolver_resolve he _ _) (hLet hHead)
          List.not_mem_nil hs hAnswers hNew hEvalLet hLeads
        obtain ⟨x, instrs, u, -, -, rfl⟩ := evalLet_eq_ok hEvalLet
        refine ⟨ht, hAdds, ?_⟩
        rw [hIs, Table.find?_insert, if_pos rfl, Option.getD_some]
    obtain ⟨x, v, hExpression, hFound, hYields⟩ := ht _ stmt is (hLet hHead) hBuilt
    exact performed_singleton ht (.binding hHead hExpression (hLeads.names _ _ hFound) hYields)
      (fun _ => ⟨hAdds, hBuilt⟩) fun hNot => absurd hHead hNot
  · obtain ⟨⟨values, js⟩, u, hAll, hRun⟩ := bind_eq_ok.mp hRun
    cases hRun
    obtain ⟨ht, hAdds, hYields⟩ := computes_evalAll (fun x _ => hResolver.moves_operand x _)
      (fun x _ => computes_evalOperand he hResolver x _) hs hAnswers hAll hLeads
    have hNot := head?_ne_let_of_ending hHead hEnding
    refine performed_singleton ht ?_ (fun hLet => absurd hLet hNot) fun _ =>
      hAdds.append_of_resultIds_eq_nil (resultIds_ending ending _ _)
    rw [fill_append, fill_ending]
    exact .ending hHead hEnding hTakes hYields
  · obtain ⟨⟨v, js⟩, hList, rfl⟩ := map_eq_ok.mp hRun
    obtain ⟨ht, hAdds, hYields⟩ := computes_evalList he "" _ hResolver.moves_operand
      (fun x _ => computes_evalOperand he hResolver x) s v js t hs hAnswers hList hLeads
    have hNot := head?_ne_let_of_shape hHead hShape
    exact performed_singleton ht (.expression hHead hShape hYields) (fun hLet => absurd hLet hNot)
      fun _ => hAdds

end Evaluation

end Dump

end NilGuard
