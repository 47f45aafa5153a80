import NilGuard.Proofs.Meaning
/-! How the state of a body grows while it is loaded. Names that have values keep them, and a
let that is being evaluated stays unbound until its expression is done. -/
namespace NilGuard

namespace Program

/-- Variables and constants are what they were, and new values get new numbers. -/
structure Widens (p q : Program) : Prop where
  globals : ∀ path name v, p.global? path name = some v → q.global? path name = some v
  consts : ∀ path name v, p.const? path name = some v → q.const? path name = some v
  nextId : p.nextId ≤ q.nextId

variable {p q r : Program} {path : String}

theorem Widens.refl (p : Program) : p.Widens p :=
  ⟨fun _ _ _ h => h, fun _ _ _ h => h, Nat.le_refl _⟩

theorem Widens.trans (h : p.Widens q) (h' : q.Widens r) : p.Widens r :=
  ⟨fun path name v hv => h'.globals path name v (h.globals path name v hv),
    fun path name v hv => h'.consts path name v (h.consts path name v hv),
    Nat.le_trans h.nextId h'.nextId⟩

theorem widens_of_packages_eq (hPackages : q.packages = p.packages) (hId : p.nextId ≤ q.nextId) :
    p.Widens q := by
  have hSame : ∀ path, q.package? path = p.package? path := by
    intro path
    rw [package?, hPackages, package?]
  refine ⟨fun path name v hv => ?_, fun path name v hv => ?_, hId⟩
  · rwa [global?, hSame]
  · rwa [const?, hSame]

theorem package?_addPackage_of_some {a : Package} {other : String}
    (h : p.package? other = some a) : (p.addPackage path).package? other = some a := by
  rw [package?, addPackage, Table.find?_insertIfNew]
  split
  case isTrue hSame =>
    rw [← hSame, ← package?, h]
    rfl
  case isFalse => exact h

theorem widens_addPackage (p : Program) (path : String) : p.Widens (p.addPackage path) := by
  refine ⟨fun other name v hv => ?_, fun other name v hv => ?_, Nat.le_refl _⟩
  · obtain ⟨a, ha, hv⟩ := Option.bind_eq_some_iff.mp hv
    exact Option.bind_eq_some_iff.mpr ⟨a, package?_addPackage_of_some ha, hv⟩
  · obtain ⟨a, ha, hv⟩ := Option.bind_eq_some_iff.mp hv
    exact Option.bind_eq_some_iff.mpr ⟨a, package?_addPackage_of_some ha, hv⟩

/-- A package may be changed if its variables and constants stay. -/
theorem widens_modifyPackage {f : Package → Package}
    (hGlobals : ∀ a name v, p.package? path = some a → a.globals.find? name = some v →
      (f a).globals.find? name = some v)
    (hConsts : ∀ a, (f a).consts = a.consts) : p.Widens (p.modifyPackage path f) := by
  refine ⟨fun other name v hv => ?_, fun other name v hv => ?_, Nat.le_refl _⟩
  · obtain ⟨a, ha, hv⟩ := Option.bind_eq_some_iff.mp hv
    rw [global?, package?, modifyPackage, Table.find?_modify]
    split
    case isTrue hSame =>
      subst hSame
      rw [← package?, ha]
      exact hGlobals a name v ha hv
    case isFalse => exact Option.bind_eq_some_iff.mpr ⟨a, ha, hv⟩
  · obtain ⟨a, ha, hv⟩ := Option.bind_eq_some_iff.mp hv
    rw [const?, package?, modifyPackage, Table.find?_modify]
    split
    case isTrue hSame =>
      subst hSame
      rw [← package?, ha, Option.map_some, Option.bind_some, hConsts]
      exact hv
    case isFalse => exact Option.bind_eq_some_iff.mpr ⟨a, ha, hv⟩

theorem widens_addGlobal {name : String} {v : Value} (hNew : p.global? path name = none) :
    p.Widens (p.modifyPackage path fun a => { a with globals := a.globals.insert name v }) := by
  refine widens_modifyPackage (fun a other u ha hu => ?_) fun _ => rfl
  rw [Table.find?_insert]
  split
  case isTrue hSame =>
    rw [global?, ha, Option.bind_some, ← hSame, hu] at hNew
    cases hNew
  case isFalse => exact hu

theorem global?_addGlobal (name : String) (v : Value) {a : Package}
    (ha : p.package? path = some a) :
    (p.modifyPackage path fun a =>
      { a with globals := a.globals.insert name v }).global? path name = some v := by
  rw [global?, package?, modifyPackage, Table.find?_modify, if_pos rfl, ← package?, ha,
    Option.map_some, Option.bind_some, Table.find?_insert, if_pos rfl]

end Program

namespace Dump

/-- What the state of a body may become while it is loaded. -/
structure Body.Leads (cx : Context) (s t : Body) : Prop where
  names : ∀ name v, s.names.find? name = some v → t.names.find? name = some v
  built : ∀ name is, s.built.find? name = some is → t.built.find? name = some is
  outer : ∀ name, cx.lets.find? name = none → t.names.find? name = s.names.find? name
  program : s.program.Widens t.program
  waiting : ∃ new, t.waiting = s.waiting ++ new ∧ ∀ phi ∈ new, s.program.nextId ≤ phi.value.id

/-- What it may become while a value is computed. `entered` are the lets that are being
evaluated. -/
structure Body.Grows (cx : Context) (entered : List String) (s t : Body) : Prop
    extends s.Leads cx t where
  entered : ∀ name ∈ entered, s.names.find? name = none → t.names.find? name = none
  blocks : t.blocks = s.blocks
  settled : t.settled = s.settled

/-- The lets that were evaluated are those that are bound, and the phis that wait are in the
order in which they were made. -/
structure Body.IsOpen (cx : Context) (s : Body) : Prop where
  unbuilt : ∀ name stmt, cx.lets.find? name = some stmt → s.built.find? name = none →
    s.names.find? name = none
  built : ∀ name is, s.built.find? name = some is → (s.names.find? name).isSome
  waiting : ∀ phi ∈ s.waiting, phi.value.id < s.program.nextId
  ordered : (s.waiting.map (·.value.id)).Pairwise (· < ·)

/-- A computation lets the state grow if it succeeds. -/
def Moves (cx : Context) (entered : List String) {α : Type} (x : BodyM α) : Prop :=
  ∀ s a t, s.IsOpen cx → x s = .ok a t → s.Grows cx entered t ∧ t.IsOpen cx

variable {cx : Context} {entered : List String} {s t u : Body}

theorem Body.Leads.refl (cx : Context) (s : Body) : s.Leads cx s :=
  ⟨fun _ _ h => h, fun _ _ h => h, fun _ _ => rfl, .refl _, [], by simp, by simp⟩

theorem Body.Leads.trans (h : s.Leads cx t) (h' : t.Leads cx u) : s.Leads cx u := by
  obtain ⟨new, hNew, hIds⟩ := h.waiting
  obtain ⟨new', hNew', hIds'⟩ := h'.waiting
  refine ⟨fun name v hv => h'.names name v (h.names name v hv),
    fun name is hi => h'.built name is (h.built name is hi),
    fun name hName => (h'.outer name hName).trans (h.outer name hName),
    h.program.trans h'.program, new ++ new', ?_, ?_⟩
  · rw [hNew', hNew, List.append_assoc]
  · refine List.forall_mem_append.mpr ⟨hIds, fun phi hPhi => ?_⟩
    exact Nat.le_trans h.program.nextId (hIds' phi hPhi)

theorem Body.Grows.refl (cx : Context) (entered : List String) (s : Body) :
    s.Grows cx entered s :=
  ⟨.refl cx s, fun _ _ h => h, rfl, rfl⟩

theorem Body.Grows.trans (h : s.Grows cx entered t) (h' : t.Grows cx entered u) :
    s.Grows cx entered u :=
  ⟨h.toLeads.trans h'.toLeads,
    fun name hName hv => h'.entered name hName (h.entered name hName hv),
    h'.blocks.trans h.blocks, h'.settled.trans h.settled⟩

/-- The program grows while everything else stays. -/
theorem Body.grows_program {p : Program} (h : s.program.Widens p) :
    s.Grows cx entered { s with program := p } :=
  ⟨⟨fun _ _ h => h, fun _ _ h => h, fun _ _ => rfl, h, [], by simp, by simp⟩,
    fun _ _ h => h, rfl, rfl⟩

theorem Body.IsOpen.program {p : Program} (hs : s.IsOpen cx) (h : s.program.Widens p) :
    Body.IsOpen cx { s with program := p } :=
  ⟨hs.unbuilt, hs.built, fun phi hPhi => Nat.lt_of_lt_of_le (hs.waiting phi hPhi) h.nextId,
    hs.ordered⟩

theorem isClosed_moves : IsClosed fun _ => Moves cx entered where
  pure a := by
    rintro s _ _ hs ⟨⟩
    exact ⟨.refl _ _ _, hs⟩
  get := by
    rintro s _ _ hs ⟨⟩
    exact ⟨.refl _ _ _, hs⟩
  refused _ _ _ := by
    rintro s _ _ hs ⟨⟩
  seq := by
    intro α β x f hx hf s b u hs hRun
    obtain ⟨a, t, hFirst, hRest⟩ := bind_eq_ok.mp hRun
    obtain ⟨hGrows, ht⟩ := hx s a t hs hFirst
    obtain ⟨hGrows', hu⟩ := hf a ⟨s, t, hFirst⟩ t b u ht hRest
    exact ⟨hGrows.trans hGrows', hu⟩

theorem widens_nextId (p : Program) : p.Widens { p with nextId := p.nextId + 1 } :=
  Program.widens_of_packages_eq rfl (Nat.le_succ _)

/-- The variable of a package is there afterwards, and nothing but the program has changed. -/
theorem globalValue_eq_ok {package name : String} {v : Value}
    (h : globalValue package name s = .ok v t) :
    ∃ p, t = { s with program := p } ∧ s.program.Widens p ∧ p.global? package name = some v := by
  obtain ⟨_, _, hAdd, h⟩ := bind_eq_ok.mp h
  cases hAdd
  rw [get_bind_apply] at h
  have hAdded := Program.widens_addPackage s.program package
  cases hFound : ((s.program.addPackage package).package? package).bind (·.globals.find? name) with
  | some u =>
      rw [hFound] at h
      cases h
      exact ⟨_, rfl, hAdded, hFound⟩
  | none =>
      rw [hFound] at h
      cases h
      refine ⟨_, rfl, ?_, ?_⟩
      · refine hAdded.trans (Program.Widens.trans ?_ (Program.widens_addGlobal hFound))
        exact Program.widens_of_packages_eq rfl (Nat.le_succ _)
      · obtain ⟨a, ha⟩ : ∃ a, (s.program.addPackage package).package? package = some a := by
          rw [Program.package?, Program.addPackage, Table.find?_insertIfNew, if_pos rfl]
          exact ⟨_, rfl⟩
        have hThere := Program.global?_addGlobal name
          (.leaf ⟨s.program.nextId, package ++ "." ++ name, 0⟩ .global) ha
        exact hThere

theorem isEvaluable_moves : IsEvaluable fun _ => Moves cx entered where
  toIsClosed := isClosed_moves
  tag name length := by
    rintro s _ _ hs ⟨⟩
    exact ⟨s.grows_program (widens_nextId _), hs.program (widens_nextId _)⟩
  global package name := by
    intro s v t hs hRun
    obtain ⟨p, rfl, hProgram, -⟩ := globalValue_eq_ok hRun
    exact ⟨s.grows_program hProgram, hs.program hProgram⟩

theorem moves_makePhi (cx' : Context) (form : Form) (head name : String) (location : Location)
    (values : List Value) :
    Moves cx entered (Shape.phi.make cx' form head name location values) := by
  rintro s _ _ hs ⟨⟩
  refine ⟨⟨⟨fun _ _ h => h, fun _ _ h => h, fun _ _ => rfl, widens_nextId _, _, rfl, ?_⟩,
    fun _ _ h => h, rfl, rfl⟩, hs.unbuilt, hs.built, ?_, ?_⟩
  · exact List.forall_mem_singleton.mpr (Nat.le_refl _)
  · refine List.forall_mem_append.mpr ⟨fun phi hPhi => ?_, ?_⟩
    · exact Nat.lt_succ_of_lt (hs.waiting phi hPhi)
    · exact List.forall_mem_singleton.mpr (Nat.lt_succ_self _)
  · change List.Pairwise _ (List.map _ (s.waiting ++ _))
    rw [List.map_append, List.pairwise_append]
    refine ⟨hs.ordered, List.pairwise_singleton _ _, ?_⟩
    intro i hi j hj
    obtain ⟨phi, hPhi, rfl⟩ := List.mem_map.mp hi
    rw [List.map_singleton, List.mem_singleton] at hj
    rw [hj]
    exact hs.waiting phi hPhi

theorem allows_moves (x : Form) : Allows (fun _ => Moves cx entered) x where
  headless _ _ := by
    rintro s _ _ hs ⟨⟩
  phi cx' _ head name location values _ _ := moves_makePhi cx' _ head name location values

section Binding

variable {name : String} {stmt : Form} {v : Value}

theorem Body.IsOpen.built_eq_none (hs : s.IsOpen cx) (hNew : s.names.find? name = none) :
    s.built.find? name = none := by
  cases hBuilt : s.built.find? name with
  | none => rfl
  | some is =>
      have hSome := hs.built name is hBuilt
      rw [hNew] at hSome
      cases hSome

/-- A let that is unbound may be bound, unless it is among those that are being evaluated. -/
theorem Body.IsOpen.bind (hs : s.IsOpen cx) (hLet : cx.lets.find? name = some stmt)
    (hNew : s.names.find? name = none) (hName : name ∉ entered) (v : Value)
    (instrs : List Instr) :
    s.Grows cx entered
      { s with names := s.names.insert name v, built := s.built.insert name instrs } ∧
    Body.IsOpen cx
      { s with names := s.names.insert name v, built := s.built.insert name instrs } := by
  have hUnbuilt := hs.built_eq_none hNew
  refine ⟨⟨⟨fun other w hw => ?_, fun other is hi => ?_, fun other hOther => ?_, .refl _,
    [], by simp, by simp⟩, fun other hOther hNone => ?_, rfl, rfl⟩,
    ⟨fun other stmt' hOther hNone => ?_, fun other is hi => ?_, hs.waiting, hs.ordered⟩⟩
  · have hNe : other ≠ name := by
      rintro rfl
      rw [hNew] at hw
      cases hw
    rwa [Table.find?_insert, if_neg hNe]
  · have hNe : other ≠ name := by
      rintro rfl
      rw [hUnbuilt] at hi
      cases hi
    rwa [Table.find?_insert, if_neg hNe]
  · have hNe : other ≠ name := by
      rintro rfl
      rw [hLet] at hOther
      cases hOther
    rw [Table.find?_insert, if_neg hNe]
  · have hNe : other ≠ name := by
      rintro rfl
      exact hName hOther
    rwa [Table.find?_insert, if_neg hNe]
  · rw [Table.find?_insert] at hNone ⊢
    split at hNone
    case isTrue => cases hNone
    case isFalse hNe =>
      rw [if_neg hNe]
      exact hs.unbuilt other stmt' hOther hNone
  · rw [Table.find?_insert] at hi ⊢
    split
    case isTrue => rfl
    case isFalse hNe =>
      rw [if_neg hNe] at hi
      exact hs.built other is hi

theorem Body.Grows.leave (h : s.Grows cx (name :: entered) t) : s.Grows cx entered t :=
  { h with entered := fun other hOther => h.entered other (List.mem_cons_of_mem name hOther) }

/-- A let that is unbound is bound by its evaluation. -/
theorem moves_evalLet {resolve : String → Form → BodyM Value}
    (hResolve : ∀ other form, Moves cx (name :: entered) (resolve other form))
    (hLet : cx.lets.find? name = some stmt) (hs : s.IsOpen cx) (hNew : s.names.find? name = none)
    (hName : name ∉ entered) (hRun : evalLet cx resolve name stmt s = .ok v t) :
    s.Grows cx entered t ∧ t.IsOpen cx := by
  obtain ⟨x, instrs, u, -, hBound, rfl⟩ := evalLet_eq_ok hRun
  have hEval : Moves cx (name :: entered) (evalBound cx resolve name (locationOf stmt.items) x) :=
    isEvaluable_moves.evalBound hResolve name _ (allows_moves x)
  obtain ⟨hGrows, hu⟩ := hEval s _ u hs hBound
  have hUnbound : u.names.find? name = none := hGrows.entered name List.mem_cons_self hNew
  obtain ⟨hBind, ht⟩ := hu.bind hLet hUnbound hName v instrs
  exact ⟨hGrows.leave.trans hBind, ht⟩

end Binding

theorem moves_resolve (depth : Nat) (entered : List String) (name : String) (form : Form) :
    Moves cx entered (resolve cx depth entered name form) := by
  induction depth generalizing entered name form with
  | zero =>
      intro s v t hs hRun
      rcases resolve_eq_ok hRun with ⟨-, rfl⟩ | ⟨-, -, hOuter⟩ | ⟨below, _, hDepth, _⟩
      · exact ⟨.refl _ _ _, hs⟩
      · exact isEvaluable_moves.resolveOuter name form s v t hs hOuter
      · cases hDepth
  | succ depth ih =>
      intro s v t hs hRun
      rcases resolve_eq_ok hRun with ⟨-, rfl⟩ | ⟨-, -, hOuter⟩ |
        ⟨below, stmt, hDepth, hNew, hLet, hEntered, hRun⟩
      · exact ⟨.refl _ _ _, hs⟩
      · exact isEvaluable_moves.resolveOuter name form s v t hs hOuter
      · cases hDepth
        exact moves_evalLet (ih (name :: entered)) hLet hs hNew hEntered hRun

theorem moves_operand (x form : Form) : Moves cx [] (evalOperand cx cx.lookup x form) :=
  isEvaluable_moves.evalOperand (moves_resolve _ _) x (allows_moves x) form

theorem moves_operands (xs : List Form) (form : Form) :
    Moves cx [] (evalAll form (xs.map (evalOperand cx cx.lookup))) :=
  isEvaluable_moves.evalAll fun x _ => moves_operand x form

theorem moves_evalStatement {stmt : Form}
    (hLet : stmt.head? = some "let" → cx.lets.find? (letName stmt) = some stmt) :
    Moves cx [] (evalStatement cx stmt) := by
  rcases evalStatement_cases cx stmt with ⟨-, -, hEval⟩ | ⟨_, _, _, hEval⟩ |
    ⟨hHead, hEval⟩ | ⟨head, ending, -, -, -, hEval⟩ | ⟨head, shape, -, -, -, hEval⟩
  all_goals rw [hEval]
  · rintro s _ _ hs ⟨⟩
  · exact isClosed_moves.refused _ _ _
  · intro s is t hs hRun
    rcases evalLetStatement_eq_ok hRun with ⟨-, rfl⟩ | ⟨hBuilt, v, hRun, -⟩
    · exact ⟨.refl _ _ _, hs⟩
    · have hNew := hs.unbuilt _ stmt (hLet hHead) hBuilt
      exact moves_evalLet (moves_resolve _ _) (hLet hHead) hs hNew (by simp) hRun
  · exact isClosed_moves.bind (moves_operands _ stmt) fun _ => isClosed_moves.pure _
  · exact isClosed_moves.map _
      (isEvaluable_moves.evalList "" _ (allows_moves _) fun x _ _ form => moves_operand x form)

end Dump

end NilGuard
