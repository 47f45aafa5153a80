import Mathlib
import NilGuard.Form.Reader
import NilGuard.Proofs.Decimal
/-! Forms as they are written, and that they are read back. A form is a row of tokens, and blanks
and comments may stand between tokens and around the whole. The reader takes one token after the
other, whatever stands between them. -/
namespace NilGuard

/-- The smallest parts of a written form. -/
inductive Token where
  | opening
  | closing
  | number (value : Int)
  | word (content : List Char)
  | quotation (content : List Char)
  deriving DecidableEq, Repr

namespace Token

/-- The characters that have a backslash before them in a symbol. -/
def marked : List Char :=
  ['\\', '\'', '"', '\x60', '(', ')', '[', ']', ' ', ',', '?', ';', '#']

/-- A character as a symbol shows it. -/
def inWord (c : Char) : List Char := if c ∈ marked then ['\\', c] else [c]

/-- A character as a quoted string shows it. -/
def inQuotation (c : Char) : List Char := if c = '\\' ∨ c = '"' then ['\\', c] else [c]

def text : Token → List Char
  | .opening => ['(']
  | .closing => [')']
  | .number n => (toString n).toList
  | .word cs => cs.flatMap inWord
  | .quotation cs => '"' :: (cs.flatMap inQuotation ++ ['"'])

/-- Two of these have to be kept apart. -/
def isAtom : Token → Bool
  | .number _ | .word _ => true
  | .opening | .closing | .quotation _ => false

end Token

/-- White space and comments. A comment runs from a semicolon to the end of its line. -/
inductive IsGap : List Char → Prop where
  | nil : IsGap []
  | blank {c : Char} {cs : List Char} : c ∈ [' ', '\t', '\n', '\r', '\x0b', '\x0c'] → IsGap cs →
      IsGap (c :: cs)
  | comment {note cs : List Char} : '\n' ∉ note → IsGap cs → IsGap (';' :: (note ++ '\n' :: cs))

/-- Tokens with a gap after each of them. The gap may be empty, but not between two atoms. -/
inductive IsSpaced : List Token → List Char → Prop where
  | nil : IsSpaced [] []
  | cons {t : Token} {ts : List Token} {gap rest : List Char} : IsGap gap →
      (t.isAtom = true → (∀ u ∈ ts.head?, u.isAtom = true → gap ≠ [])) → IsSpaced ts rest →
      IsSpaced (t :: ts) (t.text ++ (gap ++ rest))

namespace Form

mutual

/-- The tokens of a form. A number that is no integer is not written. -/
def tokens : Form → List Token
  | .int n => [.number n]
  | .real _ => []
  | .sym s => [.word s.toList]
  | .str s => [.quotation s.toList]
  | .list xs => .opening :: (tokensAll xs ++ [.closing])

def tokensAll : List Form → List Token
  | [] => []
  | x :: xs => tokens x ++ tokensAll xs

end

/-- Forms that can be written: integers that are not too long, symbols that are no numerals and
have no blank in them but the space, any strings, and lists of these. -/
inductive IsWritable : Form → Prop where
  | int {n : Int} : (Nat.toDigits 10 n.natAbs).length ≤ 4300 → IsWritable (.int n)
  | sym {s : String} : s ≠ "" → (∀ c ∈ ['\t', '\n', '\r', '\x0b', '\x0c'], c ∉ s.toList) →
      Numeral.integer? s.toList = none → Numeral.real? s.toList = none → IsWritable (.sym s)
  | str {s : String} : IsWritable (.str s)
  | list {xs : List Form} : (∀ x ∈ xs, IsWritable x) → IsWritable (.list xs)

/-- A text shows a form: it has the tokens of the form, with a gap around the whole. -/
def IsShownBy (form : Form) (text : String) : Prop :=
  ∃ gap rest, text.toList = gap ++ rest ∧ IsGap gap ∧ IsSpaced form.tokens rest

mutual

/-- What the reader finds where a form is written. -/
def datum : Form → Datum
  | .int n => .int n
  | .real t => .real t
  | .sym s => .sym s
  | .str s => .str s
  | .list xs => .list (dataAll xs)

def dataAll : List Form → List Datum
  | [] => []
  | x :: xs => datum x :: dataAll xs

end

mutual

theorem form?_datum : ∀ x : Form, x.datum.form? = some x
  | .int _ | .real _ | .sym _ | .str _ => rfl
  | .list xs => by rw [datum, Datum.form?, formAll?_dataAll xs, Option.map_some]

theorem formAll?_dataAll : ∀ xs : List Form, Datum.formAll? (dataAll xs) = some xs
  | [] => rfl
  | x :: xs => by
      rw [dataAll, Datum.formAll?, form?_datum x, formAll?_dataAll xs]
      rfl

end

end Form

namespace Text

theorem isAsciiBlank_iff {c : Char} :
    isAsciiBlank c = true ↔ c ∈ [' ', '\t', '\n', '\r', '\x0b', '\x0c'] := by
  constructor
  · intro h
    have hRange : c.toNat = 9 ∨ c.toNat = 10 ∨ c.toNat = 11 ∨ c.toNat = 12 ∨ c.toNat = 13 ∨
        c.toNat = 32 := by
      simp [isAsciiBlank] at h
      omega
    rw [← Char.ofNat_toNat c]
    rcases hRange with h | h | h | h | h | h
    all_goals rw [h]; decide
  · intro h
    fin_cases h
    all_goals rfl

end Text

namespace Reader

open NilGuard.Text

/-- What a text leads to: reading it in one state comes to the same as reading another text in
another state. Positions are left out, since they only show in what is said about apostrophes. -/
def Leads (s : State) (cs : List Char) (s' : State) (cs' : List Char) : Prop :=
  ∀ position, ∃ position', run position s cs = run position' s' cs'

theorem Leads.refl (s : State) (cs : List Char) : Leads s cs s cs := fun position => ⟨position, rfl⟩

theorem Leads.trans {s s' s'' : State} {cs cs' cs'' : List Char} (h : Leads s cs s' cs')
    (h' : Leads s' cs' s'' cs'') : Leads s cs s'' cs'' := by
  intro position
  obtain ⟨middle, hFirst⟩ := h position
  obtain ⟨last, hSecond⟩ := h' middle
  exact ⟨last, hFirst.trans hSecond⟩

theorem Leads.step {s t : State} {c : Char} {cs : List Char}
    (h : ∀ position, s.step position c = .next t) : Leads s (c :: cs) t cs := by
  intro position
  exact ⟨position + 1, by rw [run, h]⟩

section Modes

variable {s : State} {cs rest : List Char}

/-- Whatever token a state stands in, a datum that is added ends it. -/
theorem add_mode (s : State) (m : Mode) (d : Datum) : { s with mode := m }.add d = s.add d := by
  unfold State.add
  cases s.levels <;> rfl

theorem mode_add (s : State) (d : Datum) : (s.add d).mode = .between := by
  unfold State.add
  cases s.levels <;> rfl

theorem mode_eq (h : s.mode = .between) : { s with mode := .between } = s := by
  cases s
  cases h
  rfl

theorem leads_comment {note : List Char} (hNote : '\n' ∉ note) :
    Leads { s with mode := .comment } (note ++ '\n' :: rest) { s with mode := .between } rest := by
  induction note with
  | nil => exact Leads.step fun position => rfl
  | cons c note ih =>
      rw [List.mem_cons, not_or] at hNote
      refine (Leads.step (t := { s with mode := .comment }) fun position => ?_).trans (ih hNote.2)
      simp [State.step, Ne.symm hNote.1]

theorem leads_gap {gap : List Char} (hGap : IsGap gap) (hs : s.mode = .between) :
    Leads s (gap ++ rest) s rest := by
  induction hGap with
  | nil => exact Leads.refl s rest
  | @blank c cs hc _ ih =>
      refine (Leads.step fun position => ?_).trans ih
      have hBlank := isAsciiBlank_iff.mpr hc
      have hQuote : c ≠ '"' := by
        rintro rfl
        exact absurd hBlank (by decide)
      simp [State.step, hs, State.between, hBlank, hQuote, mode_eq hs]
  | @comment note cs hNote _ ih =>
      have hOpen : Leads s (';' :: (note ++ '\n' :: cs) ++ rest) { s with mode := .comment }
          (note ++ '\n' :: (cs ++ rest)) := by
        rw [List.cons_append, List.append_assoc, List.cons_append]
        exact Leads.step fun position => by simp [State.step, hs, State.between, isAsciiBlank]
      have hNoted :
          Leads { s with mode := .comment } (note ++ '\n' :: (cs ++ rest)) s (cs ++ rest) := by
        simpa only [mode_eq hs] using leads_comment (s := s) hNote
      exact (hOpen.trans hNoted).trans ih

/-- A string ends at its closing mark, and its marks and backslashes are taken as they are. -/
theorem leads_string (taken : List Char) :
    Leads { s with mode := .string taken } (cs.flatMap Token.inQuotation ++ '"' :: rest)
      (s.add (.str (String.ofList (taken.reverse ++ cs)))) rest := by
  induction cs generalizing taken with
  | nil =>
      rw [List.append_nil, ← add_mode s (.string taken)]
      exact Leads.step fun position => rfl
  | cons c cs ih =>
      have hTaken : (c :: taken).reverse ++ cs = taken.reverse ++ c :: cs := by simp
      have hMore := ih (c :: taken)
      rw [hTaken] at hMore
      refine Leads.trans ?_ hMore
      by_cases hMark : c = '\\' ∨ c = '"'
      · simp only [List.flatMap_cons, Token.inQuotation, if_pos hMark, List.cons_append,
          List.nil_append]
        refine (Leads.step (t := { s with mode := .stringEscape taken })
          fun position => rfl).trans ?_
        exact Leads.step fun position => by simp [State.step, stringPair, hMark]
      · simp only [List.flatMap_cons, Token.inQuotation, if_neg hMark, List.cons_append,
          List.nil_append]
        rw [not_or] at hMark
        exact Leads.step fun position => by simp [State.step, hMark]

theorem leads_quotation (hs : s.mode = .between) :
    Leads s ((Token.quotation cs).text ++ rest) (s.add (.str (String.ofList cs))) rest := by
  have hText : (Token.quotation cs).text ++ rest =
      '"' :: (cs.flatMap Token.inQuotation ++ '"' :: rest) := by simp [Token.text]
  rw [hText]
  refine Leads.trans (Leads.step (t := { s with mode := .string [] }) fun position => ?_)
    (leads_string [])
  simp [State.step, hs, State.between]

/-- The characters that stand for themselves in an atom: none of them ends it or is escaped. -/
theorem plain_of_not_marked {c : Char} (hMark : c ∉ Token.marked)
    (hBlank : isAsciiBlank c = false) :
    endsAtom c = false ∧ c ≠ '\\' ∧ c ≠ '\'' := by
  simp only [Token.marked, List.mem_cons, List.not_mem_nil, or_false, not_or] at hMark
  simp [endsAtom, hBlank, hMark]

theorem isEscapable_of_mem {c : Char} (h : c ∈ Token.marked) : isEscapable c = true := by
  simp only [Token.marked, List.mem_cons, List.not_mem_nil, or_false] at h
  rcases h with rfl | rfl | rfl | rfl | rfl | rfl | rfl | rfl | rfl | rfl | rfl | rfl | rfl
  all_goals rfl

/-- The characters of a symbol are blanks only if they are spaces, which are escaped. -/
def IsPlain (cs : List Char) : Prop := ∀ c ∈ cs, c ∉ Token.marked → isAsciiBlank c = false

/-- An atom goes on to the next character that ends it, or to the end of the text. -/
theorem leads_atom (taken : List Char) (hcs : IsPlain cs)
    (hRest : ∀ c ∈ rest.head?, endsAtom c = true) :
    Leads { s with mode := .atom taken } (cs.flatMap Token.inWord ++ rest)
      (s.add (ofToken (taken.reverse ++ cs))) rest := by
  induction cs generalizing taken with
  | nil =>
      intro position
      refine ⟨position, ?_⟩
      rw [List.flatMap_nil, List.nil_append, List.append_nil]
      cases rest with
      | nil => simp only [run, State.finish, add_mode, mode_add]
      | cons c rest => simp only [run, State.step, add_mode, mode_add, if_pos (hRest c rfl)]
  | cons c cs ih =>
      have hTaken : (c :: taken).reverse ++ cs = taken.reverse ++ c :: cs := by simp
      have hMore := ih (c :: taken) fun d hd => hcs d (List.mem_cons_of_mem c hd)
      rw [hTaken] at hMore
      refine Leads.trans ?_ hMore
      by_cases hMark : c ∈ Token.marked
      · simp only [List.flatMap_cons, Token.inWord, if_pos hMark, List.cons_append, List.nil_append]
        refine (Leads.step (t := { s with mode := .atomEscape taken }) fun position => rfl).trans ?_
        exact Leads.step fun position => by
          simp [State.step, atomPair, isEscapable_of_mem hMark]
      · simp only [List.flatMap_cons, Token.inWord, if_neg hMark, List.cons_append, List.nil_append]
        have hPlain := plain_of_not_marked hMark (hcs c List.mem_cons_self hMark)
        exact Leads.step fun position => by simp [State.step, hPlain]

theorem leads_word (hs : s.mode = .between) (hSome : cs ≠ []) (hcs : IsPlain cs)
    (hRest : ∀ c ∈ rest.head?, endsAtom c = true) :
    Leads s ((Token.word cs).text ++ rest) (s.add (ofToken cs)) rest := by
  cases cs with
  | nil => exact absurd rfl hSome
  | cons c cs =>
      have hMore := leads_atom (s := s) [c] (fun d hd => hcs d (List.mem_cons_of_mem c hd)) hRest
      refine Leads.trans ?_ hMore
      by_cases hMark : c ∈ Token.marked
      · simp only [Token.text, List.flatMap_cons, Token.inWord, if_pos hMark, List.cons_append,
          List.nil_append]
        refine (Leads.step (t := { s with mode := .atomEscape [] }) fun position => ?_).trans ?_
        · simp [State.step, hs, State.between, isAsciiBlank]
        · exact Leads.step fun position => by
            simp [State.step, atomPair, isEscapable_of_mem hMark]
      · have hBlank := hcs c List.mem_cons_self hMark
        simp only [Token.text, List.flatMap_cons, Token.inWord, if_neg hMark, List.cons_append,
          List.nil_append]
        simp only [Token.marked, List.mem_cons, List.not_mem_nil, or_false, not_or] at hMark
        exact Leads.step fun position => by
          simp [State.step, hs, State.between, hBlank, hMark]

end Modes

/-- The numeral of an integer is written with characters that stand for themselves. -/
theorem not_mem_marked_of_numeral {n : Int} {c : Char} (h : c ∈ (toString n).toList) :
    c ∉ Token.marked ∧ isAsciiBlank c = false := by
  have hChar : c = '-' ∨ c.isDigit = true := by
    rw [Numeral.toList_toString] at h
    split at h
    · rcases List.mem_cons.mp h with rfl | h
      · exact Or.inl rfl
      · exact Or.inr (Numeral.isDigit_of_mem_toDigits h)
    · exact Or.inr (Numeral.isDigit_of_mem_toDigits h)
  rcases hChar with rfl | hDigit
  · decide
  · have hRange := toNat_of_isDigit hDigit
    constructor
    · intro hMark
      simp only [Token.marked, List.mem_cons, List.not_mem_nil, or_false] at hMark
      rcases hMark with rfl | rfl | rfl | rfl | rfl | rfl | rfl | rfl | rfl | rfl | rfl | rfl | rfl
      all_goals exact absurd hDigit (by decide)
    · simp [isAsciiBlank]
      omega

theorem text_number (n : Int) : (Token.number n).text = (Token.word (toString n).toList).text := by
  have hSame : ∀ c ∈ (toString n).toList, Token.inWord c = [c] := fun c hc =>
    if_neg (not_mem_marked_of_numeral hc).1
  rw [Token.text, Token.text, List.flatMap_congr hSame, List.flatMap_singleton']

theorem endsAtom_of_gap {gap rest : List Char} (hGap : IsGap gap) (hSome : gap ≠ []) :
    ∀ c ∈ (gap ++ rest).head?, endsAtom c = true := by
  intro c hc
  cases hGap with
  | nil => exact absurd rfl hSome
  | blank hBlank _ =>
      cases hc
      simp [endsAtom, isAsciiBlank_iff.mpr hBlank]
  | comment =>
      cases hc
      rfl

/-- A token that is no atom begins with a character that ends an atom before it. -/
theorem endsAtom_of_spaced {ts : List Token} {text : List Char} (h : IsSpaced ts text)
    (hFirst : ∀ u ∈ ts.head?, u.isAtom = false) : ∀ c ∈ text.head?, endsAtom c = true := by
  intro c hc
  cases h with
  | nil => cases hc
  | @cons t ts gap rest _ _ _ =>
      have hToken := hFirst t rfl
      cases t with
      | number n => cases hToken
      | word cs => cases hToken
      | opening | closing | quotation cs =>
          cases hc
          rfl

/-- What the first of spaced tokens leads to, if it is told what its characters lead to. -/
theorem leads_first {s s' : State} {t : Token} {ts : List Token} {text : List Char}
    (h : IsSpaced (t :: ts) text) (hs' : s'.mode = .between)
    (hToken : ∀ rest, (t.isAtom = true → ∀ c ∈ rest.head?, endsAtom c = true) →
      Leads s (t.text ++ rest) s' rest) :
    ∃ text', IsSpaced ts text' ∧ Leads s text s' text' := by
  cases h with
  | @cons _ _ gap rest hGap hApart hRest =>
      refine ⟨rest, hRest, (hToken (gap ++ rest) fun hAtom => ?_).trans (leads_gap hGap hs')⟩
      by_cases hSome : gap = []
      · subst hSome
        refine endsAtom_of_spaced hRest fun u hu => ?_
        rw [← Bool.not_eq_true]
        intro hNext
        exact hApart hAtom u hu hNext rfl
      · exact endsAtom_of_gap hGap hSome

/-- Data that are added to a list stand in it in their order. -/
theorem foldl_add_level (s : State) (ds done : List Datum) (closer : Char) (ls : List Level) :
    ds.foldl State.add { s with mode := .between, levels := ⟨closer, done, []⟩ :: ls } =
      { s with mode := .between, levels := ⟨closer, ds.reverse ++ done, []⟩ :: ls } := by
  induction ds generalizing done with
  | nil => rfl
  | cons d ds ih =>
      rw [List.foldl_cons, List.reverse_cons, List.append_assoc]
      exact ih (d :: done)

/-- The tokens of a form lead to its datum. -/
def LeadsForm (x : Form) : Prop :=
  ∀ s ts text, s.mode = .between → IsSpaced (x.tokens ++ ts) text →
    ∃ text', IsSpaced ts text' ∧ Leads s text (s.add x.datum) text'

theorem leads_items {xs : List Form} (hxs : ∀ x ∈ xs, LeadsForm x) {s : State} {ts : List Token}
    {text : List Char} (hs : s.mode = .between) (h : IsSpaced (Form.tokensAll xs ++ ts) text) :
    ∃ text', IsSpaced ts text' ∧ Leads s text ((Form.dataAll xs).foldl State.add s) text' := by
  induction xs generalizing s text with
  | nil => exact ⟨text, h, Leads.refl s text⟩
  | cons x xs ih =>
      rw [List.forall_mem_cons] at hxs
      rw [Form.tokensAll, List.append_assoc] at h
      obtain ⟨middle, hMiddle, hFirst⟩ := hxs.1 s _ text hs h
      obtain ⟨last, hLast, hRest⟩ := ih hxs.2 (mode_add s x.datum) hMiddle
      exact ⟨last, hLast, hFirst.trans hRest⟩

theorem leads_list {xs : List Form} (hxs : ∀ x ∈ xs, LeadsForm x) : LeadsForm (.list xs) := by
  intro s ts text hs h
  rw [Form.tokens, List.cons_append, List.append_assoc] at h
  have hOpen (rest : List Char) : Leads s (Token.opening.text ++ rest) (s.openList ')') rest :=
    Leads.step fun position => by simp [State.step, hs, State.between, isAsciiBlank]
  obtain ⟨inside, hInside, hFirst⟩ := leads_first h rfl fun rest _ => hOpen rest
  obtain ⟨ending, hEnding, hItems⟩ := leads_items hxs (s := s.openList ')') rfl hInside
  rw [State.openList, foldl_add_level, List.append_nil] at hItems
  have hClose (rest : List Char) : Leads
      { s with mode := .between, levels := ⟨')', (Form.dataAll xs).reverse, []⟩ :: s.levels }
      (Token.closing.text ++ rest) (s.add (Form.list xs).datum) rest := by
    refine Leads.step fun position => ?_
    simp only [State.step, State.between, State.close, Level.datum, List.reverse_reverse,
      Form.datum]
    rfl
  obtain ⟨text', hText', hLast⟩ := leads_first hEnding (mode_add s _) fun rest _ => hClose rest
  exact ⟨text', hText', (hFirst.trans hItems).trans hLast⟩

/-- The number test is made on the characters of the token, whatever stood before them. -/
theorem ofToken_of_not_numeral {cs : List Char} (hInt : Numeral.integer? cs = none)
    (hReal : Numeral.real? cs = none) : ofToken cs = .sym (String.ofList cs) := by
  rw [ofToken, hInt]
  simp only [hReal]

theorem leadsForm_of_isWritable {x : Form} (h : x.IsWritable) : LeadsForm x := by
  induction h with
  | @int n hLength =>
      intro s ts text hs hText
      have hToken : ofToken (toString n).toList = .int n := by
        rw [ofToken, Numeral.integer?_toString hLength]
      refine leads_first hText (mode_add s _) fun rest hRest => ?_
      have hSome : (toString n).toList ≠ [] := by
        rw [Numeral.toList_toString]
        split
        · exact List.cons_ne_nil _ _
        · exact Nat.toDigits_ne_nil
      rw [text_number, Form.datum, ← hToken]
      exact leads_word hs hSome (fun c hc _ => (not_mem_marked_of_numeral hc).2) (hRest rfl)
  | @sym name hSome hBlank hInt hReal =>
      intro s ts text hs hText
      have hToken : ofToken name.toList = .sym name := by
        rw [ofToken_of_not_numeral hInt hReal, String.ofList_toList]
      have hPlain : IsPlain name.toList := by
        intro c hc hMark
        rw [← Bool.not_eq_true, isAsciiBlank_iff, List.mem_cons, not_or]
        exact ⟨fun hSpace => hMark (hSpace ▸ by decide), fun hControl => hBlank c hControl hc⟩
      refine leads_first hText (mode_add s _) fun rest hRest => ?_
      rw [Form.datum, ← hToken]
      exact leads_word hs (by simpa using hSome) hPlain (hRest rfl)
  | @str content =>
      intro s ts text hs hText
      refine leads_first hText (mode_add s _) fun rest _ => ?_
      rw [Form.datum, ← String.ofList_toList (s := content), String.toList_ofList]
      exact leads_quotation hs
  | list _ ih => exact leads_list ih

end Reader

/-- A text that shows a form is read as that form, however its tokens are set apart. -/
theorem Form.read_of_isShownBy {form : Form} {text : String} (hForm : form.IsWritable)
    (hText : form.IsShownBy text) :
    ∃ datum, Datum.read text = .ok datum ∧ datum.form? = some form := by
  obtain ⟨gap, rest, hSplit, hGap, hSpaced⟩ := hText
  have hStart : Reader.Leads .start (gap ++ rest) .start rest := Reader.leads_gap hGap rfl
  rw [← List.append_nil form.tokens] at hSpaced
  obtain ⟨last, hLast, hLeads⟩ :=
    Reader.leadsForm_of_isWritable hForm Reader.State.start [] rest rfl hSpaced
  cases hLast
  obtain ⟨position, hRun⟩ := (hStart.trans hLeads) 0
  refine ⟨form.datum, ?_, form.form?_datum⟩
  rw [Datum.read, hSplit, hRun]
  rfl

/-- A symbol and a string that look alike, a symbol with a blank and a semicolon, a negative number
and an empty list. -/
def likenesses : Form := .list [.sym "nil", .str "nil\"\\", .sym "x; y", .int (-70), .list []]

/-- Comments stand around the whole and right after atoms, and some gaps are empty. -/
def likenessesText : String := ";top\n( nil;nil\n\"nil\\\"\\\\\"x\\;\\ y\t-70;)\n()); end\n"

theorem isWritable_likenesses : likenesses.IsWritable := by
  have hNil : Form.IsWritable (.sym "nil") :=
    .sym (by decide) (by simp) (by decide +kernel) (by decide +kernel)
  have hBlank : Form.IsWritable (.sym "x; y") :=
    .sym (by decide) (by simp) (by decide +kernel) (by decide +kernel)
  refine .list ?_
  simp only [List.forall_mem_cons]
  exact ⟨hNil, .str, hBlank, .int (by decide), .list (by simp), by simp⟩

theorem isShownBy_likenessesText : likenesses.IsShownBy likenessesText := by
  have hBlank (c : Char) (h : c ∈ [' ', '\t', '\n', '\r', '\x0b', '\x0c']) : IsGap [c] :=
    .blank h .nil
  have hComment (note : List Char) (h : '\n' ∉ note) : IsGap (';' :: (note ++ ['\n'])) :=
    .comment h .nil
  have hInner := IsSpaced.cons (t := .opening) .nil (by simp [Token.isAtom]) <|
    .cons (t := .closing) .nil (by simp [Token.isAtom]) <|
    .cons (t := .closing) (hComment " end".toList (by decide)) (by simp [Token.isAtom]) .nil
  have hWords := IsSpaced.cons (t := .quotation "nil\"\\".toList) .nil (by simp [Token.isAtom]) <|
    .cons (t := .word "x; y".toList) (hBlank '\t' (by decide)) (by simp) <|
    .cons (t := .number (-70)) (hComment [')'] (by decide)) (by simp) hInner
  have hAll := IsSpaced.cons (t := .opening) (hBlank ' ' (by decide)) (by simp [Token.isAtom]) <|
    .cons (t := .word "nil".toList) (hComment "nil".toList (by decide)) (by simp) hWords
  exact ⟨_, _, by decide +kernel, hComment "top".toList (by decide), hAll⟩

/-- The string is read as a string and the symbols as symbols. -/
theorem Form.read_of_isShownBy_likenesses :
    likenesses.IsWritable ∧ likenesses.IsShownBy likenessesText ∧
    ∃ datum, Datum.read likenessesText = .ok datum ∧ datum.form? = some likenesses :=
  ⟨isWritable_likenesses, isShownBy_likenessesText,
    Form.read_of_isShownBy isWritable_likenesses isShownBy_likenessesText⟩

end NilGuard
