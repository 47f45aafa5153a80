import Mathlib
import NilGuard.Proofs.Circular
import NilGuard.Proofs.Occurrence
/-! What a name means in a body that loads. A name that the function binds is read as one value
throughout, before and after its let and in the operands of phis. Other names are read from the
package, which may get a variable while the body is loaded. A constant of that name is hidden from
then on, so the name has two meanings if it is also read earlier. -/
namespace NilGuard.Dump

/-- A name was read between two programs. What the function binds comes first, then the variables
that its package had at the time, and then the constants. -/
structure Reading.Conforms (names : Table Value) (start finish : Program) (package : String)
    (r : Reading) : Prop where
  start : start.Widens r.program
  finish : r.program.Widens finish
  value : r.name ≠ "nil" →
    some r.value = (names.find? r.name).or (r.program.member? package r.name)

section Readings

variable {names : Table Value} {start finish : Program} {package : String} {r r' : Reading}

theorem Reading.Conforms.value_of_bound (h : r.Conforms names start finish package)
    (hNil : r.name ≠ "nil") {v : Value} (hBound : names.find? r.name = some v) : r.value = v := by
  have hValue := h.value hNil
  rw [hBound, Option.some_or] at hValue
  exact Option.some.inj hValue

/-- A name that the function does not bind is read as the variable that its package has in the end,
if it had it at the time, and else as the constant. -/
theorem Reading.Conforms.value_of_unbound (h : r.Conforms names start finish package)
    (hNil : r.name ≠ "nil") (hUnbound : names.find? r.name = none) :
    some r.value = if (r.program.global? package r.name).isSome
      then finish.global? package r.name else finish.const? package r.name := by
  have hValue := h.value hNil
  rw [hUnbound, Option.none_or, Program.member?] at hValue
  cases hGlobal : r.program.global? package r.name with
  | some v =>
      rw [hGlobal, Option.some_or] at hValue
      rw [Option.isSome_some, if_pos rfl, h.finish.globals _ _ v hGlobal]
      exact hValue
  | none =>
      rw [hGlobal, Option.none_or] at hValue
      rw [Option.isSome_none, if_neg Bool.false_ne_true]
      exact (h.finish.consts _ _ _ hValue.symm).symm

/-- Two readings of a name differ exactly if the function does not bind it, its package has a
variable and a constant of that name in the end, and the variable came between the two. -/
theorem Reading.Conforms.value_ne_iff (h : r.Conforms names start finish package)
    (h' : r'.Conforms names start finish package) (hName : r'.name = r.name)
    (hNil : r.name ≠ "nil") :
    r.value ≠ r'.value ↔ names.find? r.name = none ∧
      finish.const? package r.name ≠ finish.global? package r.name ∧
      (r.program.global? package r.name).isSome ≠
        (r'.program.global? package r.name).isSome := by
  cases hBound : names.find? r.name with
  | some v =>
      have hHere := h.value_of_bound hNil hBound
      have hThere := h'.value_of_bound (hName ▸ hNil) (hName ▸ hBound)
      simp [hHere, hThere]
  | none =>
      have hHere := h.value_of_unbound hNil hBound
      have hThere := h'.value_of_unbound (hName ▸ hNil) (hName ▸ hBound)
      rw [hName] at hThere
      have hSome : r.value ≠ r'.value ↔ some r.value ≠ some r'.value := by simp
      rw [hSome, hHere, hThere]
      cases (r.program.global? package r.name).isSome <;>
        cases (r'.program.global? package r.name).isSome <;> simp [eq_comm]

end Readings

section Loading

variable {program program' : Program} {fn loaded : Function} {forms : List Form} {r : Reading}

theorem conforms_of_readsBody {sorted : List (Int × Form)} {cx : Context}
    {bodies : List (List Form)} {s t body : Body}
    (hBegins : Begins program fn forms sorted cx bodies s)
    (hFill : fillBlocks cx 0 bodies s = .ok () t)
    (hSettle : settlePhis cx (phiDepth t.waiting + 1) t = .ok () body)
    (hProgram : body.program.Widens program') (hReads : ReadsBody program fn forms r) :
    r.Conforms t.names program program' fn.callee.package := by
  have hRead := hBegins.hasHeaders
  have hBound := hBegins.isBound hFill
  obtain ⟨hFills, -⟩ := fillBlocks_eq_ok (fun _ hStmts _ => hRead.find? hStmts) hRead.isOpen hFill
  obtain ⟨hSettles, -⟩ := extends_settlePhis hFills.isOpen hBound hSettle
  have hResolves := hReads.resolves hBegins hFill hSettle
  obtain ⟨hStart, hFinish⟩ := hResolves.widens
  rw [hBegins.program_eq] at hStart
  refine ⟨hStart, hFinish.trans hProgram, fun hNil => ?_⟩
  rw [← hSettles.names_eq hBound, ← hRead.callee]
  rcases hResolves.value with hName | ⟨hName, hMember⟩
  · rw [hName, Option.some_or]
  · rw [hName, Option.none_or, hMember hNil]

/-- In a body that loads, each name that stands where a value is needed is read. Names that the
function binds are read as what they are bound to. Two readings of one name differ exactly if the
function does not bind it and a variable of the package came to hide a constant in between. -/
theorem loadBody_readings (h : loadBody program fn forms = (program', .ok loaded)) :
    ∃ names : Table Value,
      (∀ name ∉ (letsOf forms).map letName, names.find? name = (parameterNames fn).find? name) ∧
      (∀ stmt ∈ letsOf forms, ∃ x v is, letExpression? stmt = some x ∧
        names.find? (letName stmt) = some v ∧
        Scope.Yields ⟨names, program', fn.callee.package⟩ (letName stmt) (locationOf stmt.items)
          x v is) ∧
      (∀ form ∈ forms, ∀ stmt ∈ statementsOf form, ∀ x ∈ partsOf stmt, ∀ name,
        StandsIn (.sym name) x → ∃ r, ReadsBody program fn forms r ∧ r.name = name) ∧
      (∀ r, ReadsBody program fn forms r →
        r.Conforms names program program' fn.callee.package) ∧
      ∀ r r', ReadsBody program fn forms r → ReadsBody program fn forms r' →
        r'.name = r.name → r.name ≠ "nil" →
        (r.value ≠ r'.value ↔ names.find? r.name = none ∧
          program'.const? fn.callee.package r.name ≠ program'.global? fn.callee.package r.name ∧
          (r.program.global? fn.callee.package r.name).isSome ≠
            (r'.program.global? fn.callee.package r.name).isSome) := by
  obtain ⟨body, hLoad, rfl, hProgram⟩ := loadBody_eq_ok h
  have hWidens : body.program.Widens program' := hProgram ▸ widens_modifyFunction _ _ _ _
  obtain ⟨sorted, cx, bodies, s, t, hBegins, hFill, hSettle⟩ := begins_of_loadBlocks hLoad
  have hRead := hBegins.hasHeaders
  obtain ⟨done, hRecounts⟩ := recounts_of_settlePhis hRead hFill (hBegins.isBound hFill) hSettle
    hWidens
  have hHolds := hRecounts.holds_link
  rw [End.scope, hRead.callee] at hHolds
  have hConforms : ∀ r, ReadsBody program fn forms r →
      r.Conforms t.names program program' fn.callee.package :=
    fun r hr => conforms_of_readsBody hBegins hFill hSettle hWidens hr
  refine ⟨t.names, fun name => hRecounts.find?_outer, fun stmt => hHolds.yields, ?_, hConforms, ?_⟩
  · intro form hForm stmt hStmt x hx name hStands
    exact exists_readsBody hLoad hForm hStmt hx hStands
  · intro r r' hr hr' hName hNil
    exact (hConforms r hr).value_ne_iff (hConforms r' hr') hName hNil

end Loading

/-- A call that takes a constant and a parameter. -/
def hidingCall : Form := .list [.sym "call", .str "p", .sym "use", .sym "c", .sym "x"]

/-- The package gets a variable with the name of its constant. -/
def hidingLet : Form := .list [.sym "let", .sym "g", .list [.sym "global", .str "p", .sym "c"]]

def hidingStatements : List Form := [hidingCall, hidingLet, hidingCall, .list [.sym "jump"]]

def phiStatements : List Form :=
  [.list [.sym "let", .sym "m", .list [.sym "phi", .sym "c", .sym "x"]], .list [.sym "return"]]

/-- The second block comes first, and its phi takes the constant and the parameter as well. -/
def hidingForms : List Form :=
  [.list (.sym "block" :: .int 1 :: phiStatements),
   .list (.sym "block" :: .int 0 :: .list [.sym "succs", .int 1] :: hidingStatements)]

def hidingFunction : Function where
  callee := ⟨"p", "hiding", none⟩
  params := [.leaf { id := 0, name := "x" } .other]

def nilConstant : Value := .leaf { id := 1, name := "c" } (.const true "nil")

/-- A package with one constant. -/
def constantPackage : Package where
  path := "p"
  consts := ⟨[("c", nilConstant)]⟩

def constantProgram : Program where
  packages := ⟨[("p", constantPackage)]⟩
  nextId := 2

/-- Loads the body, and what its constant comes to in the first call and in the second. -/
def bothReadings : BodyM (List (List Form) × Value × Value) := do
  let sorted ← sortBlocks { callee := hidingFunction.callee } hidingForms
  makeBlocks { callee := hidingFunction.callee } ((sorted.length : Int) - 1) 0 sorted
  let (cx, bodies) ← readHeaders { callee := hidingFunction.callee } 0 sorted
  let s ← get
  fillBlocks cx 0 bodies
  set s
  let first ← resolve cx cx.lets.entries.length [] "c" hidingCall
  set s
  evalStatements cx 0 [hidingCall, hidingLet]
  let second ← resolve cx cx.lets.entries.length [] "c" hidingCall
  return (bodies, first, second)

theorem exists_eq_ok_of_run' {α : Type} {x : BodyM α} {s : Body} {a : α}
    (h : x.run' s = some a) : ∃ t, x s = .ok a t := by
  unfold EStateM.run' at h
  cases hRun : x.run s with
  | ok b t =>
      rw [hRun] at h
      cases h
      exact ⟨t, hRun⟩
  | error e t =>
      rw [hRun] at h
      cases h

theorem bothReadings_eq :
    bothReadings.run' { program := constantProgram, names := parameterNames hidingFunction } =
      some ([hidingStatements, phiStatements], nilConstant,
        .leaf { id := 3, name := "p.c" } .global) := by cbv

theorem exists_loadBody_hiding :
    ∃ program loaded, loadBody constantProgram hidingFunction hidingForms =
      (program, .ok loaded) := by
  have hLoads :
      (loadBody constantProgram hidingFunction hidingForms).2.toOption.isSome = true := by cbv
  cases hRun : loadBody constantProgram hidingFunction hidingForms with
  | mk program result =>
      rw [hRun] at hLoads
      cases result with
      | error e => cases hLoads
      | ok loaded => exact ⟨program, loaded, rfl⟩

theorem readsStatement_hidingCall {cx : Context} {s t : Body} {v : Value}
    (h : resolve cx cx.lets.entries.length [] "c" hidingCall s = .ok v t) :
    ReadsStatement cx hidingCall s ⟨"c", v, s.program⟩ := by
  have hParts : partsOf hidingCall = [] ++ hidingCall :: [] := by rfl
  have hOperands : operandsOf hidingCall = [] ++ .sym "c" :: [.sym "x"] := by rfl
  exact .operand (by decide) ⟨_, _, _, _, s, hParts, rfl, .operand hOperands rfl (.name h)⟩

/-- The constant is read as nil in one call, and as the variable that hides it in the next. -/
theorem loadBody_readings_differ :
    ∃ program loaded r r',
      loadBody constantProgram hidingFunction hidingForms = (program, .ok loaded) ∧
      ReadsBody constantProgram hidingFunction hidingForms r ∧
      ReadsBody constantProgram hidingFunction hidingForms r' ∧
      r.name = "c" ∧ r'.name = "c" ∧ r.value = nilConstant ∧ r.value ≠ r'.value := by
  obtain ⟨program, loaded, hLoad⟩ := exists_loadBody_hiding
  obtain ⟨_, hRun⟩ := exists_eq_ok_of_run' bothReadings_eq
  obtain ⟨sorted, indexed, hSorted, hRun⟩ := bind_eq_ok.mp hRun
  obtain ⟨_, made, hMade, hRun⟩ := bind_eq_ok.mp hRun
  obtain ⟨⟨cx, bodies⟩, s, hHeaders, hRun⟩ := bind_eq_ok.mp hRun
  have hBegins : Begins constantProgram hidingFunction hidingForms sorted cx bodies s :=
    ⟨indexed, made, hSorted, hMade, hHeaders⟩
  obtain ⟨_, _, hGet, hRun⟩ := bind_eq_ok.mp hRun
  cases hGet
  obtain ⟨_, t, hFill, hRun⟩ := bind_eq_ok.mp hRun
  obtain ⟨_, _, hSet, hRun⟩ := bind_eq_ok.mp hRun
  cases hSet
  obtain ⟨first, _, hFirst, hRun⟩ := bind_eq_ok.mp hRun
  obtain ⟨_, _, hSet, hRun⟩ := bind_eq_ok.mp hRun
  cases hSet
  obtain ⟨_, u, hPast, hRun⟩ := bind_eq_ok.mp hRun
  obtain ⟨second, _, hSecond, hRun⟩ := bind_eq_ok.mp hRun
  cases hRun
  -- the block that is filled first holds both calls
  have hReads (before : List Form) {after : List Form} {u : Body} {r : Reading}
      (hBody : hidingStatements = before ++ hidingCall :: after)
      (hBefore : evalStatements cx 0 before s = .ok () u) (hr : ReadsStatement cx hidingCall u r) :
      ReadsBody constantProgram hidingFunction hidingForms r :=
    ⟨sorted, cx, _, s, t, hBegins, hFill, .inl ⟨[], hidingStatements, [phiStatements], s, rfl, rfl,
      before, hidingCall, after, u, hBody, hBefore, hr⟩⟩
  have hDiffer : nilConstant ≠ .leaf { id := 3, name := "p.c" } .global := by decide
  exact ⟨program, loaded, _, _, hLoad, hReads [] rfl rfl (readsStatement_hidingCall hFirst),
    hReads [hidingCall, hidingLet] rfl hPast (readsStatement_hidingCall hSecond), rfl, rfl, rfl,
    hDiffer⟩

theorem loadBody_readings_hiding :
    ∃ program loaded,
      loadBody constantProgram hidingFunction hidingForms = (program, .ok loaded) ∧
      (∃ r, ReadsBody constantProgram hidingFunction hidingForms r ∧ r.name = "x") ∧
      (∀ r, ReadsBody constantProgram hidingFunction hidingForms r → r.name = "x" →
        r.value = .leaf { id := 0, name := "x" } .other) ∧
      ∀ r r', ReadsBody constantProgram hidingFunction hidingForms r →
        ReadsBody constantProgram hidingFunction hidingForms r' → r.name = "c" → r'.name = "c" →
        (r.value ≠ r'.value ↔ (r.program.global? "p" "c").isSome ≠
          (r'.program.global? "p" "c").isSome) := by
  obtain ⟨program, loaded, hLoad⟩ := exists_loadBody_hiding
  have hProgram : (loadBody constantProgram hidingFunction hidingForms).1.const? "p" "c" ≠
      (loadBody constantProgram hidingFunction hidingForms).1.global? "p" "c" := by
    have hConst : (loadBody constantProgram hidingFunction hidingForms).1.const? "p" "c" =
        some nilConstant := by cbv
    have hGlobal : (loadBody constantProgram hidingFunction hidingForms).1.global? "p" "c" =
        some (.leaf { id := 3, name := "p.c" } .global) := by cbv
    rw [hConst, hGlobal]
    decide
  rw [hLoad] at hProgram
  obtain ⟨names, hOuter, -, hRead, hConforms, hPairs⟩ := loadBody_readings hLoad
  have hParameter : names.find? "x" = some (.leaf { id := 0, name := "x" } .other) :=
    hOuter "x" (by decide)
  have hConstant : names.find? "c" = none := hOuter "c" (by decide)
  refine ⟨program, loaded, hLoad, ?_, fun r hr hName => ?_, fun r r' hr hr' hName hName' => ?_⟩
  · have hStands : StandsIn (.sym "x") (.list [.sym "phi", .sym "c", .sym "x"]) :=
      .operand rfl rfl (.tail _ (.head _)) .self
    exact hRead _ (.head _) _ (.head _) _ (.head _) "x" hStands
  · exact (hConforms r hr).value_of_bound (by rw [hName]; decide) (hName ▸ hParameter)
  · rw [hPairs r r' hr hr' (hName'.trans hName.symm) (by rw [hName]; decide), hName]
    exact ⟨fun h => h.2.2, fun h => ⟨hConstant, hProgram, h⟩⟩

end NilGuard.Dump
