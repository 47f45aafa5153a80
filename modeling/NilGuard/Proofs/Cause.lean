import Mathlib
import NilGuard.Proofs.Bounds
import NilGuard.Proofs.Declaration
/-! Why a load fails without a message. Each of the four failures that have none comes from a
form of the dump, and the dump shows where. -/
namespace NilGuard

namespace Datum

mutual

/-- A quoted datum stands outside brackets. -/
def hasQuote : Datum → Bool
  | .quote _ => true
  | .list xs => hasQuoteAll xs
  | _ => false

def hasQuoteAll : List Datum → Bool
  | [] => false
  | x :: xs => hasQuote x || hasQuoteAll xs

end

mutual

/-- Quoted data outside brackets is all that keeps a datum from being a form. -/
theorem form?_eq_none_iff : ∀ x : Datum, x.form? = none ↔ x.hasQuote = true
  | .int _ | .real _ | .sym _ | .str _ | .brackets _ | .quote _ => by simp [form?, hasQuote]
  | .list xs => by
      rw [form?, hasQuote, Option.map_eq_none_iff]
      exact formAll?_eq_none_iff xs

theorem formAll?_eq_none_iff : ∀ xs : List Datum, formAll? xs = none ↔ hasQuoteAll xs = true
  | [] => by simp [formAll?, hasQuoteAll]
  | x :: xs => by
      have hFirst := form?_eq_none_iff x
      have hRest := formAll?_eq_none_iff xs
      rw [formAll?, hasQuoteAll, Bool.or_eq_true, ← hFirst, ← hRest]
      cases form? x with
      | none => simp
      | some f =>
          cases formAll? xs with
          | none => simp
          | some fs => simp

end

end Datum

def Form.isNumber : Form → Bool
  | .int _ | .real _ => true
  | _ => false

/-- There is a message about a failure, whatever the source is called. -/
def LoadError.IsReported (e : LoadError) : Prop := ∀ source, (e.message? source).isSome

namespace Dump

/-- A let whose third and last item is a position. -/
def isBareLet (stmt : Form) : Bool :=
  stmt.head? == some "let" && stmt.items.length == 3 &&
    (stmt.items[2]?).bind Form.head? == some "pos"

/-- An item of a block explains a failure: it is a number, a let without an expression, or it
has a list without a word at its front where a value is needed. -/
def Explains (item : Form) : LoadError → Prop
  | .numberAsStatement => item.isNumber = true
  | .letWithoutExpression => isBareLet item = true
  | .listWithoutHead => ∃ x ∈ partsOf item, x.lacksHead = true
  | _ => False

/-- A failure has a message, or an item of a block explains it. -/
def IsAccountedFor (forms : List Form) (e : LoadError) : Prop :=
  e.IsReported ∨ ∃ form ∈ forms, ∃ item ∈ form.items.drop 2, Explains item e

/-- Only a position that was taken off leaves a let of three items without an expression. -/
theorem isBareLet_of_letExpression?_eq_none {stmt : Form} (hLet : stmt.head? = some "let")
    (hLong : 3 ≤ stmt.items.length) (h : letExpression? stmt = none) : isBareLet stmt = true := by
  rw [letExpression?, List.getElem?_eq_none_iff] at h
  unfold withoutPosition at h
  split at h
  case isTrue hPosition =>
    rw [List.length_dropLast] at h
    have hLength : stmt.items.length = 3 := by omega
    obtain ⟨last, hLast⟩ := Option.isSome_iff_exists.mp hPosition
    rw [ownPosition?, Option.filter_eq_some_iff] at hLast
    have hThird : (stmt.items[2]?).bind Form.head? = some "pos" := by
      have hSame : stmt.items[2]? = some last := by
        rw [← hLast.1, List.getLast?_eq_getElem?, hLength]
      rw [hSame]
      exact (of_decide_eq_true hLast.2).2
    rw [isBareLet, hLet, hLength, hThird]
    rfl
  case isFalse => omega

section Bodies

variable {forms : List Form}

/-- A list without a word at its front among the operands of a phi that waits is accounted
for. -/
def Body.IsAccounted (forms : List Form) (s : Body) : Prop :=
  ∀ phi ∈ s.waiting, phi.operands.any Form.lacksHead = true →
    IsAccountedFor forms .listWithoutHead

abbrev Accounts (forms : List Form) {α : Type} (x : BodyM α) : Prop :=
  Meets (Body.IsAccounted forms) (fun e _ => IsAccountedFor forms e) x

theorem isLoadable_accounts : IsLoadable fun _ => Accounts forms := by
  have hClosed : IsClosed fun _ => Accounts forms :=
    isClosed_meets fun _ _ _ _ _ => .inl fun _ => rfl
  have hTag (name : String) (length : Int) : Accounts forms (freshTag name length) := fun _ hs => hs
  refine { hClosed with
    tag := hTag
    global := hClosed.globalValue hTag fun _ _ hs => hs
    change := ?_ }
  intro f _ _ _ hWaiting s hs
  change Body.IsAccounted forms (f s)
  rw [Body.IsAccounted, hWaiting]
  exact hs

theorem allows_accounts {x : Form}
    (h : x.lacksHead = true → IsAccountedFor forms .listWithoutHead) :
    Allows (fun _ => Accounts forms) x where
  headless hx _ _ _ := h hx
  phi _ items _ _ _ _ _ hItems s hs := by
    intro phi hPhi
    rcases List.mem_append.mp hPhi with hPhi | hPhi
    · exact hs phi hPhi
    · rw [List.mem_singleton.mp hPhi]
      exact fun hAny => h (hItems hAny)

theorem allowsStatement_accounts {form stmt : Form} (hForm : form ∈ forms)
    (hStmt : stmt ∈ statementsOf form) : AllowsStatement (fun _ => Accounts forms) stmt := by
  have hItem : stmt ∈ form.items.drop 2 := (List.mem_filter.mp hStmt).1
  have hAccount {e : LoadError} (h : Explains stmt e) : IsAccountedFor forms e :=
    .inr ⟨form, hForm, stmt, hItem, h⟩
  have hParts : ∀ x ∈ partsOf stmt, Allows (fun _ => Accounts forms) x :=
    fun x hx => allows_accounts fun hLacks => hAccount ⟨x, hx, hLacks⟩
  refine ⟨fun hWord hAtom _ _ _ => hAccount ?_, fun hLet => ⟨fun x hx => ?_, ?_, ?_⟩, hParts⟩
  · cases stmt with
    | int | real => rfl
    | sym | str => cases hWord
    | list items => exact absurd rfl (hAtom items)
  · refine hParts x ?_
    rw [partsOf_let hLet, hx]
    exact List.mem_singleton_self x
  · exact fun hNone hLong _ _ _ => hAccount (isBareLet_of_letExpression?_eq_none hLet hLong hNone)
  · exact fun _ _ _ hs => hs

theorem accounts_settlePhis {cx : Context} (hLets : AllowsLets (fun _ => Accounts forms) cx)
    (depth : Nat) : Accounts forms (settlePhis cx depth) := by
  have h : IsLoadable fun _ => Accounts forms := isLoadable_accounts
  induction depth with
  | zero => exact h.pure _
  | succ depth ih =>
      intro s hs
      rw [settlePhis, get_bind_apply]
      have hPhi : ∀ phi ∈ s.waiting, Accounts forms (settlePhi cx phi) := by
        intro phi hMem
        refine h.settlePhi (h.resolve hLets _ _) (fun x hx => ?_) fun _ _ ht => ht
        exact allows_accounts fun hLacks => hs phi hMem (List.any_eq_true.mpr ⟨x, hx, hLacks⟩)
      cases hEmpty : s.waiting.isEmpty with
      | true => exact hs
      | false =>
          have hRound : Accounts forms (do
              modify fun body => { body with waiting := [] }
              s.waiting.forM (settlePhi cx)
              settlePhis cx depth) :=
            h.bind (fun _ _ => List.forall_mem_nil _) fun _ => h.bind (h.forM hPhi) fun _ => ih
          exact hRound s hs

theorem isAccountedFor_loadBody {program : Program} {fn : Function} {e : LoadError}
    (h : (loadBody program fn forms).2 = .error e) : IsAccountedFor forms e := by
  have hBlocks : Accounts forms (loadBlocks fn forms) :=
    isLoadable_accounts.loadBlocks fn (fun _ _ hs => hs)
      (fun _ hForm _ hStmt => allowsStatement_accounts hForm hStmt) fun _ => accounts_settlePhis
  have hRun := hBlocks { program } (by simp [Body.IsAccounted])
  unfold loadBody at h
  cases hResult : loadBlocks fn forms { program } with
  | ok _ body =>
      rw [hResult] at h
      cases h
  | error e' body =>
      rw [hResult] at h hRun
      cases h
      exact hRun

end Bodies

theorem isAccountedFor_loadBodies {program : Program} {pending : List Pending} {e : LoadError}
    (h : (loadBodies program pending).error = some e) :
    ∃ f ∈ pending, IsAccountedFor f.blocks e := by
  induction pending generalizing program with
  | nil => cases h
  | cons f rest ih =>
      rw [loadBodies] at h
      cases hRun : loadBody program f.function f.blocks with
      | mk program' result =>
          rw [hRun] at h
          cases result with
          | error e' =>
              cases h
              have hError : (loadBody program f.function f.blocks).2 = .error e := by rw [hRun]
              exact ⟨f, List.mem_cons_self, isAccountedFor_loadBody hError⟩
          | ok fn =>
              obtain ⟨g, hg, hCause⟩ := ih h
              exact ⟨g, List.mem_cons_of_mem f hg, hCause⟩

/-- Whatever stops a declaration has a message. -/
theorem isDeclarable_reports :
    IsDeclarable fun _ => Meets (fun _ => True) fun e _ => e.IsReported where
  toIsClosed := isClosed_meets fun _ _ _ _ _ _ => rfl
  value _ _ _ _ := trivial
  package _ _ _ := trivial
  type _ _ _ _ := trivial
  const _ _ _ _ _ := trivial
  global path name := by
    intro s _
    rw [declareGlobal, get_bind_apply]
    cases (s.program.package? path).bind (·.globals.find? name) with
    | some v => trivial
    | none => trivial
  function callee items := by
    have hClosed : IsClosed fun _ (x : DeclareM _) =>
        Meets (fun _ => True) (fun e _ => e.IsReported) x :=
      isClosed_meets fun _ _ _ _ _ _ => rfl
    refine hClosed.bind hClosed.get fun s => ?_
    split
    case h_1 => exact hClosed.refused _ _ _
    case h_2 =>
      refine hClosed.bind (hClosed.readItems (fun _ _ _ _ => trivial) _ _) fun f => ?_
      refine hClosed.bind (fun _ _ => trivial) fun _ => ?_
      split
      case isTrue => exact fun _ _ => trivial
      case isFalse => exact hClosed.pure _

/-- A failure of a dump has a message, or an item of a block of one of its functions explains
it. -/
theorem isAccountedFor_loadForm {p : Program} {form : Form} {e : LoadError}
    (h : (loadForm p form).error = some e) :
    e.IsReported ∨ ∃ d ∈ declarations form, ∃ block ∈ d.blocks, ∃ item ∈ block.items.drop 2,
      Explains item e := by
  have hDeclared := isDeclarable_reports.declareProgram form { program := p } trivial
  unfold loadForm at h
  cases hRun : declareProgram form { program := p } with
  | error e' s =>
      rw [hRun] at h hDeclared
      cases h
      exact .inl hDeclared
  | ok _ s =>
      rw [hRun] at h
      obtain ⟨f, hf, hCause⟩ := isAccountedFor_loadBodies h
      have hDeclares := declaring_declareProgram form _ _ _ (by simp) hRun
      obtain ⟨d, hd, -, hBlocks⟩ := hDeclares.exists_of_mem_pending rfl hf
      rw [hBlocks] at hCause
      exact hCause.imp_right fun hBlock => ⟨d, hd, hBlock⟩

theorem load_of_formOf?_eq_none {text : String} (h : formOf? text = none) (p : Program) :
    (∃ e, Datum.read text = .error e ∧
      p.load text = { program := p, error := some (.unreadable e) }) ∨
    ∃ datum, Datum.read text = .ok datum ∧ datum.hasQuote = true ∧
      p.load text = { program := p, error := some .quotedDatum } := by
  unfold formOf? at h
  unfold Program.load
  cases hRead : Datum.read text with
  | error e => exact .inl ⟨e, rfl, rfl⟩
  | ok datum =>
      rw [hRead] at h
      change datum.form? = none at h
      refine .inr ⟨datum, rfl, (Datum.form?_eq_none_iff datum).mp h, ?_⟩
      simp only [h]

/-- Quoted data outside brackets breaks every load, and nothing else breaks one in this way. -/
theorem load_eq_quotedDatum_iff (p : Program) (text : String) :
    (p.load text).error = some .quotedDatum ↔
      ∃ datum, Datum.read text = .ok datum ∧ datum.hasQuote = true := by
  cases hForm : formOf? text with
  | some form =>
      rw [load_of_formOf? hForm]
      constructor
      · intro h
        rcases isAccountedFor_loadForm h with hReported | ⟨_, _, _, _, _, _, hExplains⟩
        · cases hReported ""
        · cases hExplains
      · rintro ⟨datum, hRead, hQuote⟩
        rw [formOf?, hRead] at hForm
        change datum.form? = some form at hForm
        rw [(Datum.form?_eq_none_iff datum).mpr hQuote] at hForm
        cases hForm
  | none =>
      rcases load_of_formOf?_eq_none hForm p with ⟨e, hRead, hLoad⟩ | ⟨datum, hRead, hQuote, hLoad⟩
      · simp [hLoad, hRead]
      · simp [hLoad, hRead, hQuote]

end Dump

/-- A load ends with a program or with a message, or it breaks off: at quoted data, which it
always does, or at an item of a block that explains why. Whatever would happen past the bound on
the resolution of names makes no difference, and no phi is left waiting when the rounds of
settling end. -/
theorem load_ends_accounted_for (p : Program) (text : String) :
    (∀ e, (p.load text).error = some e → e.IsReported ∨ e = .quotedDatum ∨
      ∃ form, Dump.formOf? text = some form ∧ ∃ d ∈ Dump.declarations form, ∃ block ∈ d.blocks,
        ∃ item ∈ block.items.drop 2, Dump.Explains item e) ∧
    ((p.load text).error = some .quotedDatum ↔
      ∃ datum, Datum.read text = .ok datum ∧ datum.hasQuote = true) ∧
    (∀ (cx : Dump.Context) (stuck : String → Form → Dump.BodyM Value) (depth : Nat)
      (entered : List String), entered.Nodup → entered ⊆ cx.lets.keys →
      cx.lets.entries.length < depth →
      Dump.resolveOr cx stuck depth entered = Dump.resolve cx cx.lets.entries.length entered) ∧
    ∀ fn forms body, Dump.loadBlocks fn forms { program := p } = .ok () body →
      body.waiting = [] := by
  refine ⟨fun e h => ?_, ?_, fun cx stuck depth entered hNodup hLets hDepth => ?_, ?_⟩
  · cases hForm : Dump.formOf? text with
    | some form =>
        rw [Dump.load_of_formOf? hForm] at h
        exact (Dump.isAccountedFor_loadForm h).imp_right fun hCause => .inr ⟨form, rfl, hCause⟩
    | none =>
        rcases Dump.load_of_formOf?_eq_none hForm p with ⟨readError, -, hLoad⟩ |
          ⟨datum, -, -, hLoad⟩
        · rw [hLoad] at h
          cases h
          exact .inl fun _ => rfl
        · rw [hLoad] at h
          cases h
          exact .inr (.inl rfl)
  · exact Dump.load_eq_quotedDatum_iff p text
  · exact Dump.resolveOr_eq stuck hNodup hLets (by omega) (by omega)
  · exact fun fn forms body => Dump.waiting_eq_nil_of_loadBlocks

/-- Two lets that need each other, one of them through a phi inside a phi. A list without a word
at its front is the operand of the inner one. -/
def knotText : String :=
  "(program (package app (func knot (block 0 (let a (phi b (phi (5 a)))) (let b (slice a)) " ++
    "(return b)))))"

/-- The body without that list. -/
def knotForms : List Form :=
  [.list [.sym "block", .int 0,
    .list [.sym "let", .sym "a", .list [.sym "phi", .sym "b", .list [.sym "phi", .sym "a"]]],
    .list [.sym "let", .sym "b", .list [.sym "slice", .sym "a"]],
    .list [.sym "return", .sym "b"]]]

/-- The context that its header gives. -/
def knotContext : Dump.Context where
  callee := ⟨"app", "knot", none⟩
  lets := ⟨((knotForms.flatMap Dump.statementsOf).take 2).map fun stmt => (Dump.letName stmt, stmt)⟩

/-- The load breaks off and the list is found. Without it the same body loads, and all its phis
are settled. -/
theorem load_ends_accounted_for_knotText :
    (({} : Program).load knotText).error = some .listWithoutHead ∧
    (∃ form, Dump.formOf? knotText = some form ∧ ∃ d ∈ Dump.declarations form,
      ∃ block ∈ d.blocks, ∃ item ∈ block.items.drop 2, ∃ x ∈ Dump.partsOf item,
        x.lacksHead = true) ∧
    (∀ stuck, Dump.resolveOr knotContext stuck 3 ["b"] = Dump.resolve knotContext 2 ["b"]) ∧
    ∃ body, Dump.loadBlocks { callee := ⟨"app", "knot", none⟩ } knotForms { program := {} } =
      .ok () body ∧ body.waiting = [] := by
  have hError : (({} : Program).load knotText).error = some .listWithoutHead := by cbv
  have hSucceeds : (Dump.loadBlocks { callee := ⟨"app", "knot", none⟩ } knotForms).run'
      { program := {} } = some () := by cbv
  obtain ⟨hCause, -, hResolve, hWaiting⟩ := load_ends_accounted_for {} knotText
  refine ⟨hError, ?_, fun stuck => ?_, ?_⟩
  · rcases hCause _ hError with hReported | hQuote | hExplains
    · cases hReported ""
    · cases hQuote
    · exact hExplains
  · exact hResolve knotContext stuck 3 ["b"] (by decide) (by decide) (by decide)
  · cases hRun : Dump.loadBlocks { callee := ⟨"app", "knot", none⟩ } knotForms
        { program := {} } with
    | ok _ body => exact ⟨body, rfl, hWaiting _ _ body hRun⟩
    | error e body =>
        rw [EStateM.run', EStateM.run, hRun] at hSucceeds
        cases hSucceeds

end NilGuard
