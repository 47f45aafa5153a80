import NilGuard.Proofs.JsonLine
import NilGuard.Proofs.Matching
import NilGuard.Target.File
/-! Integers that are read. Each of them has a numeral, since it was read from one of not too many
digits. So the places of a loaded program can be written, and the positions of targets, whether
they are given in specifications or in files. -/
namespace NilGuard

namespace Text

theorem digit?_lt_ten {c : Char} {d : Nat} (h : digit? c = some d) : d < 10 := by
  unfold digit? at h
  dsimp only at h
  split at h
  case isTrue =>
    cases h
    omega
  split at h
  case isTrue => cases h
  case isFalse =>
    obtain ⟨z, hz, rfl⟩ := Option.map_eq_some_iff.mp h
    have hRange := List.find?_some hz
    simp only [Bool.and_eq_true, decide_eq_true_eq] at hRange
    omega

theorem asciiDigit?_lt_ten {c : Char} {d : Nat} (h : asciiDigit? c = some d) : d < 10 := by
  obtain ⟨hDigit, hValue⟩ := Option.ite_none_right_eq_some.mp h
  cases hValue
  have hRange := toNat_of_isDigit hDigit
  omega

theorem lt_ten_of_asciiDigits {cs : List Char} : ∀ d ∈ cs.filterMap asciiDigit?, d < 10 := by
  intro d hd
  obtain ⟨c, -, hc⟩ := List.mem_filterMap.mp hd
  exact asciiDigit?_lt_ten hc

/-- A row of digits is less than the power of ten with as many zeros. -/
theorem ofDigits_lt_pow {ds : List Nat} (h : ∀ d ∈ ds, d < 10) : ofDigits ds < 10 ^ ds.length := by
  suffices hFrom : ∀ n, ds.foldl (fun n d => 10 * n + d) n < (n + 1) * 10 ^ ds.length by
    simpa [ofDigits] using hFrom 0
  induction ds with
  | nil => simp
  | cons d ds ih =>
      intro n
      rw [List.forall_mem_cons] at h
      have hNext : 10 * n + d + 1 ≤ (n + 1) * 10 := by omega
      calc ds.foldl (fun n d => 10 * n + d) (10 * n + d)
          < (10 * n + d + 1) * 10 ^ ds.length := ih h.2 _
        _ ≤ (n + 1) * 10 * 10 ^ ds.length := Nat.mul_le_mul_right _ hNext
        _ = (n + 1) * 10 ^ (d :: ds).length := by rw [List.length_cons, Nat.pow_succ']; ring

end Text

namespace Numeral

open NilGuard.Text

theorem isShort_iff {n : Int} : IsShort n ↔ n.natAbs < 10 ^ digitLimit :=
  Nat.length_toDigits_le_iff (by decide) (by decide)

theorem isShort_neg {n : Int} : IsShort (-n) ↔ IsShort n := by
  rw [IsShort, Int.natAbs_neg, IsShort]

theorem isShort_ofDigits {ds : List Nat} (hDigits : ∀ d ∈ ds, d < 10)
    (hLength : ds.length ≤ digitLimit) : IsShort (ofDigits ds) := by
  rw [isShort_iff, Int.natAbs_natCast]
  exact Nat.lt_of_lt_of_le (ofDigits_lt_pow hDigits) (Nat.pow_le_pow_right (by decide) hLength)

theorem lt_ten_of_digits? {cs : List Char} {ds : List Nat} (h : digits? cs = some ds) :
    ∀ d ∈ ds, d < 10 := by
  induction cs using digits?.induct generalizing ds with
  | case1 => cases h
  | case2 c =>
      obtain ⟨d, hd, rfl⟩ := Option.map_eq_some_iff.mp h
      simpa using digit?_lt_ten hd
  | case3 c cs ih =>
      simp only [digits?, Option.bind_eq_bind, Option.bind_eq_some_iff] at h
      obtain ⟨d, hd, rest, hRest, hList⟩ := h
      cases hList
      exact List.forall_mem_cons.mpr ⟨digit?_lt_ten hd, ih hRest⟩
  | case4 c cs hOne hMark ih =>
      rw [digits?] at h
      · simp only [Option.bind_eq_bind, Option.bind_eq_some_iff] at h
        obtain ⟨d, hd, rest, hRest, hList⟩ := h
        cases hList
        exact List.forall_mem_cons.mpr ⟨digit?_lt_ten hd, ih hRest⟩
      · exact hOne
      · exact hMark

/-- What is read as an integer has a numeral. -/
theorem isShort_of_integer? {cs : List Char} {n : Int} (h : integer? cs = some n) : IsShort n := by
  unfold integer? at h
  simp only [Option.bind_eq_bind, Option.bind_eq_some_iff] at h
  obtain ⟨ds, hDigits, h⟩ := h
  split at h
  case isFalse => cases h
  case isTrue hLength =>
    have hShort := isShort_ofDigits (lt_ten_of_digits? hDigits) hLength
    cases h
    split
    case isTrue => exact isShort_neg.mpr hShort
    case isFalse => exact hShort

end Numeral

/-- All integers in a datum that can have a form have numerals. What is in brackets is spelled
out, and what is quoted has no form. -/
inductive Datum.HasNumerals : Datum → Prop where
  | int {n : Int} (h : Numeral.IsShort n) : HasNumerals (.int n)
  | real (t : String) : HasNumerals (.real t)
  | sym (s : String) : HasNumerals (.sym s)
  | str (s : String) : HasNumerals (.str s)
  | list {ds : List Datum} (h : ∀ d ∈ ds, HasNumerals d) : HasNumerals (.list ds)
  | brackets (ds : List Datum) : HasNumerals (.brackets ds)
  | quote (d : Datum) : HasNumerals (.quote d)

namespace Reader

/-- All integers that are read so far have numerals. -/
structure State.HasNumerals (s : State) : Prop where
  levels : ∀ l ∈ s.levels, ∀ d ∈ l.data, d.HasNumerals
  top : ∀ d ∈ s.top.data, d.HasNumerals

theorem hasNumerals_ofToken (token : List Char) : (ofToken token).HasNumerals := by
  unfold ofToken
  split
  case h_1 n hInteger => exact .int (Numeral.isShort_of_integer? hInteger)
  case h_2 =>
    split
    case h_1 => exact .real _
    case h_2 => exact .sym _

theorem Level.hasNumerals_add {l : Level} {d : Datum} (hl : ∀ e ∈ l.data, e.HasNumerals)
    (hd : d.HasNumerals) : ∀ e ∈ (l.add d).data, e.HasNumerals := by
  have hQuoted (waiting : List Nat) (d : Datum) (hd : d.HasNumerals) :
      (waiting.foldl (fun x _ => Datum.quote x) d).HasNumerals := by
    induction waiting generalizing d with
    | nil => exact hd
    | cons _ _ ih => exact ih (.quote d) (.quote d)
  exact List.forall_mem_cons.mpr ⟨hQuoted l.waiting d hd, hl⟩

theorem Level.hasNumerals_datum {l : Level} (hl : ∀ e ∈ l.data, e.HasNumerals) :
    l.datum.HasNumerals := by
  unfold Level.datum
  split
  case isTrue => exact .brackets _
  case isFalse => exact .list fun d hd => hl d (List.mem_reverse.mp hd)

namespace State.HasNumerals

variable {s t : State} (h : s.HasNumerals)
include h

theorem withMode (mode : Mode) : State.HasNumerals { s with mode } := ⟨h.levels, h.top⟩

theorem add {d : Datum} (hd : d.HasNumerals) : (s.add d).HasNumerals := by
  have hLevels := h.levels
  unfold State.add
  cases hs : s.levels with
  | nil =>
      rw [hs] at hLevels
      exact ⟨hLevels, Level.hasNumerals_add h.top hd⟩
  | cons l ls =>
      rw [hs, List.forall_mem_cons] at hLevels
      refine ⟨?_, h.top⟩
      exact List.forall_mem_cons.mpr ⟨Level.hasNumerals_add hLevels.1 hd, hLevels.2⟩

theorem close {c : Char} (hNext : s.close c = .next t) : t.HasNumerals := by
  have hLevels := h.levels
  unfold State.close at hNext
  cases hs : s.levels with
  | nil =>
      rw [hs] at hNext
      cases hWaiting : s.top.waiting <;> simp [hWaiting] at hNext
  | cons l ls =>
      rw [hs, List.forall_mem_cons] at hLevels
      rw [hs] at hNext
      cases hWaiting : l.waiting with
      | cons => simp [hWaiting] at hNext
      | nil =>
          simp only [hWaiting] at hNext
          split at hNext
          case isTrue =>
            cases hNext
            have hOuter : State.HasNumerals { s with levels := ls } := ⟨hLevels.2, h.top⟩
            exact hOuter.add (Level.hasNumerals_datum hLevels.1)
          case isFalse => cases hNext

theorem wait (position : Nat) : (s.wait position).HasNumerals := by
  have hLevels := h.levels
  unfold State.wait
  cases hs : s.levels with
  | nil =>
      rw [hs] at hLevels
      exact ⟨hLevels, h.top⟩
  | cons l ls =>
      rw [hs, List.forall_mem_cons] at hLevels
      exact ⟨List.forall_mem_cons.mpr hLevels, h.top⟩

theorem openList (closer : Char) : (s.openList closer).HasNumerals :=
  ⟨List.forall_mem_cons.mpr ⟨by simp, h.levels⟩, h.top⟩

theorem between {position : Nat} {c : Char} (hNext : s.between position c = .next t) :
    t.HasNumerals := by
  unfold State.between at hNext
  split at hNext
  case isTrue => cases hNext; exact h.withMode _
  split at hNext
  case isTrue => cases hNext; exact h.withMode _
  split at hNext
  case isTrue => cases hNext; exact h.openList _
  split at hNext
  case isTrue => cases hNext; exact h.openList _
  split at hNext
  case isTrue => exact h.close hNext
  split at hNext
  case isTrue => cases hNext; exact (h.wait position).withMode _
  split at hNext
  case isTrue => cases hNext; exact h.withMode _
  split at hNext
  case isTrue => cases hNext; exact h.withMode _
  case isFalse => cases hNext; exact h.withMode _

/-- Reading a character adds no integer but those of numerals. -/
theorem step {position : Nat} {c : Char} (hNext : s.step position c = .next t) :
    t.HasNumerals := by
  unfold State.step at hNext
  split at hNext
  case h_1 => exact h.between hNext
  case h_2 =>
    cases hNext
    split
    case isTrue => exact h.withMode _
    case isFalse => exact h
  case h_3 taken _ =>
    split at hNext
    case isTrue => cases hNext; exact h.add (.str _)
    split at hNext
    case isTrue => cases hNext; exact h.withMode _
    case isFalse => cases hNext; exact h.withMode _
  case h_4 taken _ =>
    cases hNext
    exact h.withMode _
  case h_5 taken _ =>
    split at hNext
    case isTrue => exact (h.add (hasNumerals_ofToken taken.reverse)).between hNext
    split at hNext
    case isTrue => cases hNext; exact h.withMode _
    case isFalse => cases hNext; exact h.withMode _
  case h_6 taken _ =>
    cases hNext
    exact h.withMode _

theorem conclude {d : Datum} (hDatum : s.conclude = .ok d) : d.HasNumerals := by
  have hTop := h.top
  unfold State.conclude at hDatum
  split at hDatum
  case h_1 => split at hDatum <;> cases hDatum
  case h_2 =>
    split at hDatum
    case h_1 => cases hDatum
    case h_2 =>
      split at hDatum
      case h_1 e hData =>
        cases hDatum
        rw [hData] at hTop
        exact hTop d (List.mem_singleton_self d)
      case h_2 => cases hDatum

theorem finish {d : Datum} (hDatum : s.finish = .ok d) : d.HasNumerals := by
  unfold State.finish at hDatum
  split at hDatum
  case h_1 => exact h.conclude hDatum
  case h_2 => exact h.conclude hDatum
  case h_6 taken _ => exact (h.add (hasNumerals_ofToken taken.reverse)).conclude hDatum
  all_goals cases hDatum

theorem run {position : Nat} {cs : List Char} {d : Datum} (hDatum : run position s cs = .ok d) :
    d.HasNumerals := by
  induction cs generalizing position s with
  | nil => exact h.finish hDatum
  | cons c cs ih =>
      rw [Reader.run] at hDatum
      cases hStep : s.step position c with
      | next t =>
          rw [hStep] at hDatum
          exact ih (h.step hStep) hDatum
      | surplus =>
          rw [hStep] at hDatum
          cases hDatum
      | fail e =>
          rw [hStep] at hDatum
          cases hDatum

end State.HasNumerals

end Reader

theorem Datum.hasNumerals_of_read {text : String} {d : Datum} (h : Datum.read text = .ok d) :
    d.HasNumerals := by
  have hStart : Reader.State.start.HasNumerals :=
    ⟨fun _ hl => absurd hl List.not_mem_nil, fun _ hd => absurd hd List.not_mem_nil⟩
  exact hStart.run h

/-- All integers in a form have numerals. -/
inductive Form.HasNumerals : Form → Prop where
  | int {n : Int} (h : Numeral.IsShort n) : HasNumerals (.int n)
  | real (t : String) : HasNumerals (.real t)
  | sym (s : String) : HasNumerals (.sym s)
  | str (s : String) : HasNumerals (.str s)
  | list {items : List Form} (h : ∀ x ∈ items, HasNumerals x) : HasNumerals (.list items)

theorem Form.HasNumerals.items {y : Form} (h : y.HasNumerals) : ∀ x ∈ y.items, x.HasNumerals := by
  cases h with
  | list h => exact h
  | _ => exact fun x hx => absurd hx List.not_mem_nil

namespace Datum

theorem mem_formAll? {ds : List Datum} {forms : List Form} (h : formAll? ds = some forms) {x : Form}
    (hx : x ∈ forms) : ∃ d ∈ ds, d.form? = some x := by
  induction ds generalizing forms with
  | nil =>
      cases h
      cases hx
  | cons d ds ih =>
      simp only [formAll?, Option.bind_eq_bind, Option.bind_eq_some_iff] at h
      obtain ⟨f, hf, fs, hfs, hForms⟩ := h
      cases hForms
      rcases List.mem_cons.mp hx with rfl | hx
      · exact ⟨d, List.mem_cons_self, hf⟩
      · obtain ⟨e, he, hEq⟩ := ih hfs hx
        exact ⟨e, List.mem_cons_of_mem d he, hEq⟩

theorem HasNumerals.form? {d : Datum} (h : d.HasNumerals) {x : Form} (hx : d.form? = some x) :
    x.HasNumerals := by
  induction h generalizing x with
  | int h =>
      cases hx
      exact .int h
  | real =>
      cases hx
      exact .real _
  | sym =>
      cases hx
      exact .sym _
  | str =>
      cases hx
      exact .str _
  | brackets =>
      cases hx
      exact .sym _
  | quote => cases hx
  | list _ ih =>
      rw [Datum.form?, Option.map_eq_some_iff] at hx
      obtain ⟨forms, hForms, rfl⟩ := hx
      refine .list fun y hy => ?_
      obtain ⟨e, he, hForm⟩ := mem_formAll? hForms hy
      exact ih e he hForm

end Datum

/-- A place whose numbers have numerals. -/
structure Location.HasNumerals (l : Location) : Prop where
  line : Numeral.IsShort l.line
  column : Numeral.IsShort l.column

namespace Dump

theorem hasNumerals_of_formOf? {text : String} {form : Form} (h : formOf? text = some form) :
    form.HasNumerals := by
  unfold formOf? at h
  cases hRead : Datum.read text with
  | ok datum =>
      rw [hRead] at h
      exact (Datum.hasNumerals_of_read hRead).form? h
  | error e =>
      rw [hRead] at h
      cases h

theorem hasNumerals_of_memberDeclarations {path : String} {member : Form}
    (h : member.HasNumerals) {d : Declaration} (hd : d ∈ memberDeclarations path member) :
    ∀ item ∈ d.items, item.HasNumerals := by
  unfold memberDeclarations at hd
  split at hd
  case h_1 hMethods =>
    obtain ⟨m, hm, hd⟩ := List.mem_flatMap.mp hd
    have hMethod := h.items m (by simp [hMethods, hm])
    unfold methodDeclarations at hd
    split at hd
    case h_1 hItems =>
      intro item hItem
      rw [List.mem_singleton.mp hd] at hItem
      exact hMethod.items item (by simp [hItems, hItem])
    case h_2 => cases hd
  case h_2 hItems =>
    intro item hItem
    rw [List.mem_singleton.mp hd] at hItem
    exact h.items item (by simp [hItems, hItem])
  case h_3 hItems =>
    intro item hItem
    rw [List.mem_singleton.mp hd] at hItem
    exact h.items item (by simp [hItems, hItem])
  case h_4 => cases hd

/-- The items of a declaration stand in the dump. -/
theorem hasNumerals_of_declarations {form : Form} (h : form.HasNumerals) {d : Declaration}
    (hd : d ∈ declarations form) : ∀ item ∈ d.items, item.HasNumerals := by
  obtain ⟨package, hPackage, hd⟩ := List.mem_flatMap.mp hd
  have hPackage := h.items package (List.mem_of_mem_drop hPackage)
  unfold packageDeclarations at hd
  split at hd
  case h_1 hMembers =>
    obtain ⟨member, hMember, hd⟩ := List.mem_flatMap.mp hd
    exact hasNumerals_of_memberDeclarations
      (hPackage.items member (by simp [hMembers, hMember])) hd
  case h_2 => cases hd

section Items

variable {items : List Form} (h : ∀ x ∈ items, x.HasNumerals)
include h

theorem hasNumerals_withoutPosition : ∀ x ∈ withoutPosition items, x.HasNumerals := by
  unfold withoutPosition
  split
  case isTrue => exact fun x hx => h x (List.mem_of_mem_dropLast hx)
  case isFalse => exact h

/-- The place that stands at the end of items. -/
theorem hasNumerals_locationOf : (locationOf items).HasNumerals := by
  have hNowhere : ({} : Location).HasNumerals := ⟨by decide, by decide⟩
  unfold locationOf
  cases hOwn : ownPosition? items with
  | none => exact hNowhere
  | some last =>
      have hLast := h last (List.mem_of_getLast? (Option.filter_eq_some_iff.mp hOwn).1)
      cases hPlace : location? last with
      | none =>
          rw [Option.bind_some, hPlace]
          exact hNowhere
      | some location =>
          rw [Option.bind_some, hPlace, Option.getD_some]
          have hItems := hLast.items
          unfold location? at hPlace
          split at hPlace
          case h_1 file line hList =>
            cases hPlace
            rw [hList] at hItems
            cases hItems (.int line) (by simp) with
            | int hLine => exact ⟨hLine, hNowhere.column⟩
          case h_2 file line column hList =>
            cases hPlace
            rw [hList] at hItems
            cases hItems (.int line) (by simp) with
            | int hLine =>
                cases hItems (.int column) (by simp) with
                | int hColumn => exact ⟨hLine, hColumn⟩
          case h_3 => cases hPlace

end Items

theorem Shape.operands_sublist {α : Type} (shape : Shape) (xs : List α) :
    (shape.operands xs).Sublist xs := by
  unfold Shape.operands
  split
  case h_1 => exact .refl xs
  case h_2 => exact Shape.inline_sublist _ xs

theorem Ending.operands_sublist {α : Type} (ending : Ending) (xs : List α) :
    (ending.operands xs).Sublist xs := by
  cases ending with
  | jump => exact List.nil_sublist xs
  | panic => exact List.take_sublist 1 xs
  | branch | ret | store => exact .refl xs

theorem hasNumerals_of_expressions {x : Form} (h : x.HasNumerals) :
    ∀ y ∈ expressions x, y.HasNumerals := by
  induction x using Form.induct with
  | atom x hAtom =>
      cases x with
      | list items => exact absurd rfl (hAtom items)
      | _ => exact fun y hy => absurd hy List.not_mem_nil
  | list items ih =>
      intro y hy
      cases hHead : (Form.list items).head?.bind Shape.ofHead? with
      | none =>
          rw [expressions, Form.fold_list, expressionsIn, hHead] at hy
          exact List.mem_singleton.mp hy ▸ h
      | some shape =>
          obtain ⟨head, hHead, hShape⟩ := Option.bind_eq_some_iff.mp hHead
          rw [expressions_list hHead hShape] at hy
          rcases List.mem_cons.mp hy with rfl | hy
          · exact h
          · obtain ⟨z, hz, hy⟩ := List.mem_flatMap.mp hy
            have hItem : z ∈ items := (withoutPosition_isPrefix items).subset
              (List.mem_of_mem_drop ((shape.operands_sublist _).subset hz))
            exact ih z hItem (h.items z hItem) y hy

theorem hasNumerals_of_partsOf {stmt : Form} (h : stmt.HasNumerals) :
    ∀ x ∈ partsOf stmt, x.HasNumerals := by
  have hItems := hasNumerals_withoutPosition h.items
  intro x hx
  unfold partsOf at hx
  split at hx
  case h_1 => cases hx
  case h_2 head _ =>
    split at hx
    case isTrue => exact hItems x (List.mem_of_getElem? (Option.mem_toList.mp hx))
    case isFalse =>
      split at hx
      case h_1 ending _ =>
        exact hItems x (List.mem_of_mem_drop ((ending.operands_sublist _).subset hx))
      case h_2 =>
        rw [List.mem_singleton.mp hx]
        exact .list hItems

/-- Expressions and places whose integers have numerals. -/
def numeralSources : Sources where
  expression := Form.HasNumerals
  place := Location.HasNumerals
  nowhere := ⟨by decide, by decide⟩
  own _ h := hasNumerals_locationOf h.items

theorem cover_numeralSources {stmt : Form} (h : stmt.HasNumerals) : numeralSources.Cover stmt :=
  ⟨hasNumerals_locationOf h.items, fun x hx => hasNumerals_of_expressions
    (hasNumerals_of_partsOf h x hx)⟩

end Dump

/-- In every program that dumps were loaded into, the numbers of all places have numerals. -/
theorem Program.hasNumerals_loadEach {texts : List String} {fn : Function}
    (hFn : fn ∈ (({} : Program).loadEach texts).allFunctions) {block : Block}
    (hBlock : block ∈ fn.blocks) {i : Instr} (hi : i ∈ block.instrs) : i.location.HasNumerals := by
  have hTraced : (({} : Program).loadEach texts).IsTraced fun _ => Dump.numeralSources := by
    refine isTraced_loadEach fun text _ form hForm d hd b hb stmt hStmt =>
      Dump.cover_numeralSources ?_
    have hItems := Dump.hasNumerals_of_declarations (Dump.hasNumerals_of_formOf? hForm) hd
    have hBlock := hItems b (List.mem_of_mem_filter hb)
    exact hBlock.items stmt (List.mem_of_mem_drop (List.mem_of_mem_filter hStmt))
  exact (hTraced.code fn hFn block hBlock i hi).1

theorem Program.loadEach_of_loadAll? {p q : Program} {texts : List String}
    (h : p.loadAll? texts = some q) : p.loadEach texts = q := by
  induction texts generalizing p with
  | nil => exact Option.some.inj h
  | cons text texts ih =>
      rw [loadAll?] at h
      split at h
      case h_1 => exact ih h
      case h_2 => cases h

namespace Json

/-- All integers in a value have numerals. -/
def HasNumerals (j : Json) : Prop := ∀ n ∈ j.integers, Numeral.IsShort n

theorem hasNumerals_arr_iff {xs : List Json} :
    (Json.arr xs).HasNumerals ↔ ∀ x ∈ xs, x.HasNumerals := by
  simp only [HasNumerals, mem_integers_arr]
  constructor
  · intro h x hx n hn
    exact h n ⟨x, hx, hn⟩
  · rintro h n ⟨x, hx, hn⟩
    exact h x hx n hn

theorem hasNumerals_obj_iff {fs : List (String × Json)} :
    (Json.obj fs).HasNumerals ↔ ∀ f ∈ fs, f.2.HasNumerals := by
  simp only [HasNumerals, mem_integers_obj]
  constructor
  · intro h f hf n hn
    exact h n ⟨f, hf, hn⟩
  · rintro h n ⟨f, hf, hn⟩
    exact h f hf n hn

theorem hasNumerals_number {cs r : List Char} {j : Json} (h : number cs = .ok (j, r)) :
    j.HasNumerals := by
  unfold number at h
  dsimp only at h
  split at h
  case h_1 => cases h
  case h_2 digits rest _ =>
    split at h
    case isFalse =>
      cases h
      simp [HasNumerals, integers]
    case isTrue =>
      split at h
      case isFalse => cases h
      case isTrue hLength =>
        have hShort := Numeral.isShort_ofDigits Text.lt_ten_of_asciiDigits
          (Nat.le_trans (List.length_filterMap_le Text.asciiDigit? digits) hLength)
        cases h
        intro n hn
        rw [integers, List.mem_singleton] at hn
        subst hn
        split
        case h_1 => exact Numeral.isShort_neg.mpr hShort
        case h_2 => exact hShort

theorem hasNumerals_scalar {cs r : List Char} {j : Json} (h : scalar cs = .ok (j, r)) :
    j.HasNumerals := by
  unfold scalar at h
  split at h
  case h_1 found hFound =>
    cases h
    obtain ⟨word, hWord, hAfter⟩ := List.exists_of_findSome?_eq_some hFound
    obtain ⟨rest, -, hPair⟩ := Option.map_eq_some_iff.mp hAfter
    cases hPair
    have hWords : ∀ w ∈ words, w.2.HasNumerals := by simp [words, HasNumerals, integers]
    exact hWords word hWord
  case h_2 => exact hasNumerals_number h

theorem hasNumerals_putField {fs : List (String × Json)} (hfs : ∀ f ∈ fs, f.2.HasNumerals)
    {x : Json} (hx : x.HasNumerals) (k : String) : ∀ f ∈ putField fs k x, f.2.HasNumerals := by
  unfold putField
  split
  case isTrue =>
    intro f hf
    obtain ⟨g, hg, rfl⟩ := List.mem_map.mp hf
    split
    case isTrue => exact hx
    case isFalse => exact hfs g hg
  case isFalse =>
    intro f hf
    rcases List.mem_append.mp hf with hf | hf
    · exact hfs f hf
    · rw [List.mem_singleton.mp hf]
      exact hx

theorem hasNumerals_append {xs : List Json} (hxs : ∀ x ∈ xs, x.HasNumerals) {y : Json}
    (hy : y.HasNumerals) : ∀ x ∈ xs ++ [y], x.HasNumerals := by
  simpa [or_imp, forall_and] using ⟨hxs, hy⟩

/-- What is read within a bound has numerals, if what is kept of an open array or object has. -/
structure ReadsNumerals (n : Nat) : Prop where
  value : ∀ {cs r j}, Json.value n cs = .ok (j, r) → j.HasNumerals
  items : ∀ {done cs r j}, Json.items n done cs = .ok (j, r) → (∀ x ∈ done, x.HasNumerals) →
    j.HasNumerals
  fields : ∀ {done cs r j}, Json.fields n done cs = .ok (j, r) → (∀ f ∈ done, f.2.HasNumerals) →
    j.HasNumerals

namespace ReadsNumerals

variable {n : Nat} {cs r : List Char} {j : Json} (ih : ReadsNumerals n)
include ih

theorem value_succ (h : Json.value (n + 1) cs = .ok (j, r)) : j.HasNumerals := by
  unfold Json.value at h
  split at h
  case h_1 =>
    obtain ⟨⟨s, rest⟩, -, hPair⟩ := exists_of_bind_eq_ok h
    cases hPair
    simp [HasNumerals, integers]
  case h_2 =>
    split at h
    case h_1 =>
      cases h
      simp [HasNumerals, integers, itemIntegers]
    case h_2 => exact ih.items h (by simp)
  case h_3 =>
    split at h
    case h_1 =>
      cases h
      simp [HasNumerals, integers, fieldIntegers]
    case h_2 => exact ih.fields h (by simp)
  case h_4 => exact hasNumerals_scalar h

theorem items_succ {done : List Json} (h : Json.items (n + 1) done cs = .ok (j, r))
    (hDone : ∀ x ∈ done, x.HasNumerals) : j.HasNumerals := by
  rw [Json.items] at h
  obtain ⟨⟨x, rest⟩, hx, h⟩ := exists_of_bind_eq_ok h
  have hNext := hasNumerals_append hDone (ih.value hx)
  dsimp only at h
  split at h
  case h_1 =>
    cases h
    exact hasNumerals_arr_iff.mpr hNext
  case h_2 => exact ih.items h hNext
  case h_3 => cases h

theorem fields_succ {done : List (String × Json)}
    (h : Json.fields (n + 1) done cs = .ok (j, r)) (hDone : ∀ f ∈ done, f.2.HasNumerals) :
    j.HasNumerals := by
  unfold Json.fields at h
  split at h
  case h_2 => cases h
  case h_1 =>
    obtain ⟨⟨k, afterName⟩, -, h⟩ := exists_of_bind_eq_ok h
    dsimp only at h
    split at h
    case h_2 => cases h
    case h_1 =>
      obtain ⟨⟨x, rest⟩, hx, h⟩ := exists_of_bind_eq_ok h
      have hNext := hasNumerals_putField hDone (ih.value hx) k
      dsimp only at h
      split at h
      case h_1 =>
        cases h
        exact hasNumerals_obj_iff.mpr hNext
      case h_2 => exact ih.fields h hNext
      case h_3 => cases h

end ReadsNumerals

theorem readsNumerals (n : Nat) : ReadsNumerals n := by
  induction n with
  | zero => exact ⟨fun h => (by cases h), fun h => (by cases h), fun h => (by cases h)⟩
  | succ n ih => exact ⟨ih.value_succ, ih.items_succ, ih.fields_succ⟩

/-- Integers that are read from a text have numerals. -/
theorem hasNumerals_of_read {text : String} {j : Json} (h : read text = .ok j) :
    j.HasNumerals := by
  rw [read] at h
  cases hChars : readChars text.toList with
  | error e =>
      rw [hChars] at h
      cases h
  | ok j' =>
      rw [hChars] at h
      cases h
      unfold readChars at hChars
      split at hChars
      case h_1 => cases hChars
      case h_2 =>
        obtain ⟨⟨x, rest⟩, hx, hEnd⟩ := exists_of_bind_eq_ok hChars
        dsimp only at hEnd
        split at hEnd
        case h_1 =>
          cases hEnd
          exact (readsNumerals _).value hx
        case h_2 => cases hEnd

theorem HasNumerals.field? {j x : Json} (h : j.HasNumerals) {name : String}
    (hField : j.field? name = some x) : x.HasNumerals := by
  cases j with
  | obj fs =>
      obtain ⟨before, after, hSplit, -⟩ := List.lookup_eq_some_iff.mp hField
      rw [hasNumerals_obj_iff, hSplit] at h
      exact h (name, x) (by simp)
  | _ => cases hField

end Json

namespace Target

/-- A position that is left out is zero. -/
theorem isShort_of_ofJson {entry : Json} {t : Target} (hEntry : entry.HasNumerals)
    (h : ofJson entry = .ok t) : Numeral.IsShort t.position := by
  unfold ofJson at h
  split at h
  case h_2 => cases h
  case h_1 fields =>
    split at h
    case h_1 => cases h
    case h_2 =>
      split at h
      case h_1 => cases h
      case h_2 =>
        split at h
        case h_2 => cases h
        case h_1 =>
          split at h
          case h_2 => cases h
          case h_1 position hPosition =>
            cases h
            cases hField : (Json.obj fields).field? "arg_pos" with
            | none =>
                rw [hField] at hPosition
                cases hPosition
                exact (by decide : Numeral.IsShort 0)
            | some x =>
                rw [hField, Option.getD_some] at hPosition
                subst hPosition
                exact hEntry.field? hField position (by simp [Json.integers])

theorem isShort_of_parseFile {path contents : String} {ts : List Target}
    (h : parseFile path contents = .ok ts) : ∀ t ∈ ts, Numeral.IsShort t.position := by
  unfold parseFile at h
  cases hRead : Json.read (Text.fileText contents) with
  | error e =>
      rw [hRead] at h
      cases h
  | ok json =>
      have hNumerals := Json.hasNumerals_of_read hRead
      rw [hRead] at h
      cases json with
      | arr entries =>
          cases hAll : entries.mapM ofJson with
          | error e =>
              simp only [ofJsonList, hAll] at h
              cases h
          | ok ts' =>
              simp only [ofJsonList, hAll] at h
              cases h
              intro t ht
              obtain ⟨entry, hEntry, hOfJson⟩ := exists_of_mapM_eq_ok hAll t ht
              exact isShort_of_ofJson (Json.hasNumerals_arr_iff.mp hNumerals entry hEntry) hOfJson
      | _ => cases h

theorem isShort_of_parse {text : String} {t : Target} (h : parse text = .ok t) :
    Numeral.IsShort t.position := by
  obtain ⟨s, hProper, -, rfl⟩ := parse_eq_ok_iff.mp h
  have hLength : (s.digits.getD []).length ≤ Numeral.digitLimit := by
    cases hDigits : s.digits with
    | none => decide
    | some ds => exact hProper.short ds hDigits
  have hBound := Nat.le_trans (List.length_filterMap_le Text.asciiDigit? _) hLength
  rw [Spec.target, ← Text.ofDigits_filterMap_asciiDigit? hProper.toIsCut.isDigit]
  exact Numeral.isShort_ofDigits Text.lt_ten_of_asciiDigits hBound

/-- The position of a target stays as it is when the target is bound. -/
theorem isShort_of_resolveAll {p : Program} {ts : List Target} {resolved : List ResolvedTarget}
    (h : resolveAll p ts = .ok resolved) (hts : ∀ t ∈ ts, Numeral.IsShort t.position) :
    ∀ s ∈ resolved, Numeral.IsShort s.position := by
  intro s hs
  obtain ⟨t, ht, hResolve⟩ := exists_of_resolveAll h s hs
  rw [(position_of_resolve hResolve).1]
  exact hts t ht

end Target

end NilGuard
