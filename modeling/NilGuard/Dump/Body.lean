import NilGuard.Dump.Expression
import NilGuard.Flow.Link
/-! Function bodies. A name may be used before the let that binds it is reached; the let
is then evaluated at once, and its instructions wait for its own place. Only a phi
may refer to a value that depends on itself. -/
namespace NilGuard.Dump

/-- Evaluates a let and binds its name. -/
def evalLet (cx : Context) (resolve : String → Form → BodyM Value) (name : String)
    (stmt : Form) : BodyM Value := do
  let (items, location) ← splitPosition stmt.items
  match items[2]? with
  | none => throw .letWithoutExpression
  | some expression =>
    let (value, instrs) ← evalBound cx resolve name location expression
    modify fun body =>
      { body with names := body.names.insert name value, built := body.built.insert name instrs }
    return value

/-- A name without a let: nil, or a variable or constant of the package. -/
def resolveOuter (cx : Context) (name : String) (form : Form) : BodyM Value := do
  if name = "nil" then freshNil ""
  else
    let package := (← get).program.package? cx.callee.package
    match package.bind (·.globals.find? name) with
    | some v => return v
    | none =>
      match package.bind (·.consts.find? name) with
      | some v => return v
      | none => cx.refuse (.undefinedName name) (some form)

/-- The value of a name, evaluating its let if that has not been done. `entered` are
the lets being evaluated. The number bounds how many more can be entered, which is
never more than the lets that have not been. -/
def resolve (cx : Context) : Nat → List String → String → Form → BodyM Value
  | depth, entered, name, form => do
    match (← get).names.find? name with
    | some v => return v
    | none =>
      match cx.lets.find? name with
      | none => resolveOuter cx name form
      | some stmt =>
        match depth with
        | 0 => cx.refuse (.dependsOnItself name) (some stmt)
        | depth + 1 =>
          if name ∈ entered then cx.refuse (.dependsOnItself name) (some stmt)
          else evalLet cx (resolve cx depth (name :: entered)) name stmt

/-- Resolves a name while no let is being evaluated. -/
def Context.lookup (cx : Context) : String → Form → BodyM Value :=
  resolve cx cx.lets.entries.length []

/-- The instructions of a statement. Those of a let that has been evaluated already
were kept for it. -/
def evalStatement (cx : Context) (stmt : Form) : BodyM (List Instr) := do
  match stmt with
  | .int _ | .real _ => throw .numberAsStatement
  | .sym _ | .str _ => cx.refuse .unknownStatement (some stmt)
  | .list all =>
    if stmt.head? = some "let" then
      let name := ((all[1]?).map Form.text).getD ""
      match (← get).built.find? name with
      | some instrs => return instrs
      | none =>
        discard <| evalLet cx (resolve cx cx.lets.entries.length [name]) name stmt
        return ((← get).built.find? name).getD []
    else
      let (items, location) ← splitPosition all
      let operands := (evalOperands cx cx.lookup items).drop 1
      match stmt.head? with
      | some "if" =>
        match operands with
        | [condition] =>
          let (v, is) ← condition stmt
          return is ++ [{ location, op := .branch (some v) }]
        | _ => cx.refuse .badIf (some stmt)
      | some "jump" => return [{ location, op := .jump }]
      | some "return" =>
        let (vs, is) ← evalAll stmt operands
        return is ++ [{ location, op := .ret (vs.map some) }]
      | some "panic" =>
        let (vs, is) ← evalAll stmt (operands.take 1)
        return is ++ [{ location, op := .panic vs.head? }]
      | some "store" =>
        match operands with
        | [address, value] =>
          let (a, is) ← address stmt
          let (v, js) ← value stmt
          return is ++ js ++ [{ location, op := .store a v }]
        | _ => cx.refuse .badStore (some stmt)
      | some head =>
        if (Shape.ofHead? head).isSome then
          let (_, is) ← evalList cx "" location items (evalOperands cx cx.lookup items)
          return is
        else cx.refuse .unknownStatement (some stmt)
      | none => cx.refuse .unknownStatement (some stmt)

/-- The index that a block form gives. -/
def blockIndex (cx : Context) (form : Form) : BodyM Int :=
  match (form.items[1]?).bind Form.int? with
  | some i => return i
  | none => cx.refuse .noBlockIndex (some form)

/-- The block forms in the order of their indices. Forms with one index keep the order
of the dump. -/
def sortBlocks (cx : Context) (forms : List Form) : BodyM (List (Int × Form)) := do
  let indexed ← forms.mapM fun form => return (← blockIndex cx form, form)
  return indexed.mergeSort fun a b => a.1 ≤ b.1

/-- Makes the blocks, whose indices have to be zero, one, two and so on. -/
def makeBlocks (cx : Context) (last : Int) : Nat → List (Int × Form) → BodyM Unit
  | _, [] => return ()
  | i, (index, form) :: rest => do
    if index ≠ i then cx.refuse (.blockIndices last) (some form)
    modify fun body => { body with blocks := body.blocks.push { index } }
    makeBlocks cx last (i + 1) rest

def modifyBlock (i : Nat) (f : Block → Block) : BodyM Unit :=
  modify fun body => { body with blocks := body.blocks.modify i f }

/-- Adds the successors that a form lists to a block. -/
def addSuccessors (cx : Context) (i : Nat) (blockForm : Form) : List Form → BodyM Unit
  | [] => return ()
  | item :: rest => do
    let count := (← get).blocks.size
    match item.int? with
    | some s =>
      if 0 ≤ s ∧ s < count then modifyBlock i fun b => { b with succs := b.succs ++ [s.toNat] }
      else cx.refuse (.unknownSuccessor item) (some blockForm)
    | none => cx.refuse (.unknownSuccessor item) (some blockForm)
    addSuccessors cx i blockForm rest

/-- Reads the comment and the successors of a block, and gives its statements. -/
def readHeader (cx : Context) (i : Nat) (blockForm : Form) : List Form → BodyM (List Form)
  | [] => return []
  | item :: rest => do
    match item.word? with
    | some comment =>
      modifyBlock i fun b => { b with comment }
      readHeader cx i blockForm rest
    | none =>
      if item.head? = some "succs" then
        addSuccessors cx i blockForm (item.items.drop 1)
        readHeader cx i blockForm rest
      else return item :: (← readHeader cx i blockForm rest)

/-- Takes down the name of a let, which must be new. -/
def declareLet (cx : Context) (stmt : Form) : BodyM Context := do
  match stmt.items with
  | _ :: nameForm :: _ :: _ =>
    match nameForm.word? with
    | some name =>
      if (← get).names.contains name || cx.lets.contains name then
        cx.refuse (.assignedTwice name) (some stmt)
      else return { cx with lets := cx.lets.insert name stmt }
    | none => cx.refuse .badLet (some stmt)
  | _ => cx.refuse .badLet (some stmt)

/-- Reads the headers of all blocks. The lets of a block are taken down before the next
header is read. -/
def readHeaders (cx : Context) : Nat → List (Int × Form) → BodyM (Context × List (List Form))
  | _, [] => return (cx, [])
  | i, (_, form) :: rest => do
    let stmts ← readHeader cx i form (form.items.drop 2)
    let cx ← (stmts.filter (·.head? = some "let")).foldlM declareLet cx
    let (cx, bodies) ← readHeaders cx (i + 1) rest
    return (cx, stmts :: bodies)

/-- Adds the instructions of statements to a block, one statement after the other. -/
def evalStatements (cx : Context) (i : Nat) : List Form → BodyM Unit
  | [] => return ()
  | stmt :: rest => do
    let instrs ← evalStatement cx stmt
    modifyBlock i fun b => { b with instrs := b.instrs ++ instrs }
    evalStatements cx i rest

def endsInBranch (b : Block) : Bool :=
  match b.instrs.getLast? with
  | some ⟨_, .branch _⟩ => true
  | _ => false

/-- Fills the blocks. A block that ends in a branch needs two successors. -/
def fillBlocks (cx : Context) : Nat → List (List Form) → BodyM Unit
  | _, [] => return ()
  | i, stmts :: rest => do
    evalStatements cx i stmts
    match (← get).blocks[i]? with
    | some b =>
      if endsInBranch b && b.succs.length != 2 then
        cx.refuse (.successorCount i b.succs.length) none
    | none => pure ()
    fillBlocks cx (i + 1) rest

/-- Evaluates the operands of a phi. The instructions of operands that are expressions
belong to no block. -/
def settlePhi (cx : Context) (phi : Phi) : BodyM Unit := do
  let (values, _) ← evalAll phi.form (evalOperands cx cx.lookup phi.operands)
  modify fun body => { body with settled := body.settled ++ [(phi.value, values)] }

/-- Settles the phis that wait, then those inside their operands, and so on. The number
bounds how deep phis can stand inside each other. -/
def settlePhis (cx : Context) : Nat → BodyM Unit
  | 0 => return ()
  | depth + 1 => do
    let phis := (← get).waiting
    if phis.isEmpty then return ()
    modify fun body => { body with waiting := [] }
    phis.forM (settlePhi cx)
    settlePhis cx depth

/-- The deepest nesting among the phis that wait. -/
def phiDepth (phis : List Phi) : Nat :=
  (phis.map fun phi => phi.form.depth).foldl max 0

/-- The names of the parameters and free variables. One without a name of its own goes by its
automatic name. Of several of one name the last has it. -/
def parameterNames (fn : Function) : Table Value :=
  (fn.params ++ fn.freeVars).foldl (fun t v => t.insert v.name v) {}

/-- Loads the blocks of a function whose parameters and free variables have the given
values. -/
def loadBlocks (fn : Function) (forms : List Form) : BodyM Unit := do
  let cx : Context := { callee := fn.callee }
  modify fun body => { body with names := parameterNames fn }
  let sorted ← sortBlocks cx forms
  makeBlocks cx ((sorted.length : Int) - 1) 0 sorted
  let (cx, bodies) ← readHeaders cx 0 sorted
  fillBlocks cx 0 bodies
  settlePhis cx (phiDepth (← get).waiting + 1)

/-- An instruction with the operands of its phi. -/
def fillPhi (settled : List (Value × List Value)) (i : Instr) : Instr :=
  match i.op with
  | .define v _ =>
    match settled.lookup v with
    | some operands => { i with op := .define v (operands.map some) }
    | none => i
  | _ => i

/-- The blocks that a body has come to, with the operands of the phis that are settled. -/
def Body.finished (body : Body) : Array Block :=
  body.blocks.map fun b => { b with instrs := b.instrs.map (fillPhi body.settled) }

/-- Loads the body of a function and links it. When that fails the function keeps the
blocks as far as they came. -/
def loadBody (program : Program) (fn : Function) (forms : List Form) :
    Program × Except LoadError Function :=
  match loadBlocks fn forms { program } with
  | .ok _ body =>
    let (linked, _) := { fn with blocks := body.finished }.link
    (body.program.modifyPackage fn.callee.package (·.modifyFunction fn.callee fun _ => linked),
      .ok linked)
  | .error e body =>
    let partly := { fn with blocks := body.finished }
    (body.program.modifyPackage fn.callee.package (·.modifyFunction fn.callee fun _ => partly),
      .error e)

end NilGuard.Dump
