import Mathlib
import NilGuard.Proofs.Decimal
import NilGuard.Target.Spec
/-! The language of target specifications. A text is one exactly if it can be cut into blanks, a
path, a colon, a dotted name, a position or none, and blanks. There is only one way to cut it, and
the text of a target is read as that target. -/
namespace NilGuard

/-- A prefix of characters from a class is all that is taken, if what follows does not go on in
that class. -/
theorem takeWhile_append_of_stop {α : Type} {p : α → Bool} {xs ys : List α}
    (hxs : ∀ x ∈ xs, p x = true) (hys : ∀ y ∈ ys.head?, p y = false) :
    (xs ++ ys).takeWhile p = xs := by
  rw [List.takeWhile_append_of_pos hxs]
  cases ys with
  | nil => simp
  | cons y ys => simp [hys y rfl]

theorem dropWhile_append_of_stop {α : Type} {p : α → Bool} {xs ys : List α}
    (hxs : ∀ x ∈ xs, p x = true) (hys : ∀ y ∈ ys.head?, p y = false) :
    (xs ++ ys).dropWhile p = ys := by
  rw [List.dropWhile_append_of_pos hxs]
  cases ys with
  | nil => rfl
  | cons y ys => simp [hys y rfl]

namespace Target

open NilGuard.Text

/-- A letter or an underscore, and then letters, digits and underscores. -/
def IsIdent : List Char → Prop
  | [] => False
  | c :: cs => (c.isAlpha = true ∨ c = '_') ∧ ∀ d ∈ cs, d.isAlphanum = true ∨ d = '_'

/-- Identifiers with one dot between two of them. -/
def IsDotted (name : List Char) : Prop :=
  ∃ parts : List (List Char), parts ≠ [] ∧ (∀ part ∈ parts, IsIdent part) ∧
    name = ['.'].intercalate parts

namespace Spec

/-- What stands after the name. -/
def ending (after : List Char) : Option (List Char) → List Char
  | none => after
  | some ds => ':' :: (ds ++ after)

def chars (s : Spec) : List Char :=
  s.before ++ (s.path ++ ':' :: (s.name ++ ending s.after s.digits))

/-- The target that is spelled. A position that is left out is zero. -/
def target (s : Spec) : Target where
  package := String.ofList s.path
  function := String.ofList s.name
  position := Nat.ofDigitChars 10 (s.digits.getD []) 0

/-- Each part has the form that its rule asks for. -/
structure IsCut (s : Spec) : Prop where
  before : ∀ c ∈ s.before, isBlank c = true
  path : s.path ≠ [] ∧ ∀ c ∈ s.path, c ≠ ':' ∧ isBlank c = false
  name : IsDotted s.name
  digits : ∀ ds, s.digits = some ds → ds ≠ [] ∧ ∀ c ∈ ds, c.isDigit = true
  after : ∀ c ∈ s.after, isBlank c = true

/-- The position has no more digits than can be read as a number. -/
structure IsProper (s : Spec) : Prop extends IsCut s where
  short : ∀ ds, s.digits = some ds → ds.length ≤ 4300

end Spec

section Characters

variable {c : Char}

theorem toNat_of_isIdentRest (h : isIdentRest c = true) : 48 ≤ c.toNat ∧ c.toNat ≤ 122 := by
  simp only [isIdentRest, Char.isAlphanum, Char.isAlpha, Char.isUpper, Char.isLower, Char.isDigit,
    Bool.or_eq_true, Bool.and_eq_true, decide_eq_true_eq, beq_iff_eq, UInt32.le_iff_toNat_le,
    ge_iff_le] at h
  rcases h with ((⟨hLow, hHigh⟩ | ⟨hLow, hHigh⟩) | ⟨hLow, hHigh⟩) | rfl
  · exact ⟨le_trans (by decide) hLow, le_trans hHigh (by decide)⟩
  · exact ⟨le_trans (by decide) hLow, hHigh⟩
  · exact ⟨hLow, le_trans hHigh (by decide)⟩
  · decide

theorem isIdentRest_of_isBlank (h : isBlank c = true) : isIdentRest c = false := by
  rw [Bool.eq_false_iff]
  intro hRest
  have hRange := toNat_of_isIdentRest hRest
  simp [isBlank] at h
  omega

theorem isDigit_of_isBlank (h : isBlank c = true) : c.isDigit = false := by
  rw [Bool.eq_false_iff]
  intro hDigit
  rw [not_isBlank_of_isDigit hDigit] at h
  cases h

theorem isPathChar_iff : isPathChar c = true ↔ c ≠ ':' ∧ isBlank c = false := by
  simp [isPathChar]

end Characters

/-- What an identifier and its dots are followed by: nothing, or a character that is neither part
of an identifier nor a dot. -/
def EndsName (cs : List Char) : Prop := ∀ c ∈ cs.head?, isIdentRest c = false ∧ c ≠ '.'

theorem Spec.IsCut.endsName {s : Spec} (h : s.IsCut) : EndsName (Spec.ending s.after s.digits) := by
  intro c hc
  cases hDigits : s.digits with
  | some ds =>
      rw [hDigits] at hc
      cases hc
      decide
  | none =>
      rw [hDigits] at hc
      have hBlank := h.after c (List.mem_of_mem_head? hc)
      refine ⟨isIdentRest_of_isBlank hBlank, ?_⟩
      rintro rfl
      exact absurd hBlank (by decide)

section Names

variable {cs rest : List Char}

theorem ident?_append {part : List Char} (h : IsIdent part)
    (hRest : ∀ c ∈ rest.head?, isIdentRest c = false) :
    ident? (part ++ rest) = some (part, rest) := by
  cases part with
  | nil => cases h
  | cons c cs =>
      have hStart : isIdentStart c = true := by simpa [isIdentStart] using h.1
      have hMore : ∀ d ∈ cs, isIdentRest d = true := by simpa [isIdentRest] using h.2
      rw [List.cons_append, ident?, if_pos hStart, takeWhile_append_of_stop hMore hRest,
        dropWhile_append_of_stop hMore hRest]

theorem ident?_eq_some {part : List Char} (h : ident? cs = some (part, rest)) :
    IsIdent part ∧ cs = part ++ rest := by
  cases cs with
  | nil => cases h
  | cons c cs =>
      by_cases hStart : isIdentStart c = true
      · rw [ident?, if_pos hStart] at h
        cases h
        refine ⟨⟨by simpa [isIdentStart] using hStart, fun d hd => ?_⟩, ?_⟩
        · simpa [isIdentRest] using List.mem_takeWhile_imp hd
        · rw [List.cons_append, List.takeWhile_append_dropWhile]
      · rw [ident?, if_neg hStart] at h
        cases h

/-- Parts of a name, each after a dot. -/
def dots (parts : List (List Char)) : List Char := parts.flatMap ('.' :: ·)

theorem intercalate_cons (part : List Char) (parts : List (List Char)) :
    ['.'].intercalate (part :: parts) = part ++ dots parts := by
  induction parts generalizing part with
  | nil => simp [dots]
  | cons next parts ih =>
      rw [List.intercalate_cons_cons, ih]
      simp [dots]

theorem length_le_dots (parts : List (List Char)) : parts.length ≤ (dots parts).length := by
  induction parts with
  | nil => simp
  | cons part parts ih =>
      simp only [dots, List.flatMap_cons, List.length_append, List.length_cons] at ih ⊢
      omega

theorem head?_dots (parts : List (List Char)) (hRest : EndsName rest) :
    ∀ c ∈ (dots parts ++ rest).head?, isIdentRest c = false := by
  cases parts with
  | nil => exact fun c hc => (hRest c hc).1
  | cons part parts =>
      intro c hc
      cases hc
      decide

theorem dottedRest_of_ne_dot {n : Nat} (h : ∀ c ∈ cs.head?, c ≠ '.') :
    dottedRest n cs = ([], cs) := by
  cases n with
  | zero => rfl
  | succ n =>
      cases cs with
      | nil => rfl
      | cons c cs =>
          rw [dottedRest]
          intro _ hDot
          exact h c rfl (List.cons.inj hDot).1

theorem dottedRest_dots {n : Nat} {parts : List (List Char)} (hParts : ∀ part ∈ parts, IsIdent part)
    (hRest : EndsName rest) (hn : parts.length ≤ n) :
    dottedRest n (dots parts ++ rest) = (dots parts, rest) := by
  induction parts generalizing n with
  | nil => exact dottedRest_of_ne_dot fun c hc => (hRest c hc).2
  | cons part parts ih =>
      cases n with
      | zero => simp at hn
      | succ n =>
          have hFirst := ident?_append (hParts part List.mem_cons_self) (head?_dots parts hRest)
          have hMore := ih (fun p hp => hParts p (List.mem_cons_of_mem part hp))
            (Nat.le_of_succ_le_succ hn)
          have hDots : dots (part :: parts) = '.' :: (part ++ dots parts) := rfl
          rw [hDots, List.cons_append, List.append_assoc, dottedRest, hFirst]
          simp only [hMore, List.cons_append]

theorem dottedRest_eq {n : Nat} {more : List Char} (h : dottedRest n cs = (more, rest)) :
    ∃ parts, (∀ part ∈ parts, IsIdent part) ∧ more = dots parts ∧ cs = more ++ rest := by
  induction n generalizing cs more with
  | zero =>
      cases h
      exact ⟨[], by simp, rfl, rfl⟩
  | succ n ih =>
      unfold dottedRest at h
      split at h
      case h_1 hZero => cases hZero
      case h_2 n' ds hn =>
        cases hn
        cases hIdent : ident? ds with
        | none =>
            rw [hIdent] at h
            cases h
            exact ⟨[], by simp, rfl, rfl⟩
        | some p =>
            obtain ⟨part, after⟩ := p
            obtain ⟨hPart, rfl⟩ := ident?_eq_some hIdent
            rw [hIdent] at h
            cases hMore : dottedRest n after with
            | mk more' rest' =>
                simp only [hMore] at h
                cases h
                obtain ⟨parts, hParts, rfl, rfl⟩ := ih hMore
                refine ⟨part :: parts, List.forall_mem_cons.mpr ⟨hPart, hParts⟩, ?_, ?_⟩
                · simp [dots]
                · simp
      case h_3 =>
        cases h
        exact ⟨[], by simp, rfl, rfl⟩

theorem dotted?_append {name : List Char} (hName : IsDotted name) (hRest : EndsName rest) :
    dotted? (name ++ rest) = some (name, rest) := by
  obtain ⟨parts, hSome, hParts, rfl⟩ := hName
  cases parts with
  | nil => exact absurd rfl hSome
  | cons part parts =>
      rw [List.forall_mem_cons] at hParts
      have hLength : parts.length ≤ (dots parts ++ rest).length := by
        rw [List.length_append]
        exact Nat.le_add_right_of_le (length_le_dots parts)
      rw [intercalate_cons, List.append_assoc, dotted?,
        ident?_append hParts.1 (head?_dots parts hRest)]
      simp only [Option.bind_eq_bind, Option.bind_some, dottedRest_dots hParts.2 hRest hLength]
      rfl

theorem dotted?_eq_some {name : List Char} (h : dotted? cs = some (name, rest)) :
    IsDotted name ∧ cs = name ++ rest := by
  obtain ⟨⟨part, after⟩, hIdent, hParts⟩ := Option.bind_eq_some_iff.mp h
  obtain ⟨hPart, rfl⟩ := ident?_eq_some hIdent
  cases hMore : dottedRest after.length after with
  | mk more rest' =>
      change some (part ++ (dottedRest after.length after).1, (dottedRest after.length after).2) =
        some (name, rest) at hParts
      rw [hMore] at hParts
      cases hParts
      obtain ⟨parts, hParts, rfl, rfl⟩ := dottedRest_eq hMore
      refine ⟨⟨part :: parts, by simp, List.forall_mem_cons.mpr ⟨hPart, hParts⟩, ?_⟩, ?_⟩
      · rw [intercalate_cons]
      · rw [List.append_assoc]

end Names

section Pieces

variable {p : Char → Bool} {cs part rest : List Char}

theorem piece?_append (hSome : part ≠ []) (hPart : ∀ c ∈ part, p c = true)
    (hRest : ∀ c ∈ rest.head?, p c = false) : piece? p (part ++ rest) = some (part, rest) := by
  rw [piece?, takeWhile_append_of_stop hPart hRest, if_neg hSome,
    dropWhile_append_of_stop hPart hRest]

theorem piece?_eq_some (h : piece? p cs = some (part, rest)) :
    part ≠ [] ∧ (∀ c ∈ part, p c = true) ∧ cs = part ++ rest := by
  rw [piece?] at h
  split at h
  case isTrue => cases h
  case isFalse hSome =>
    cases h
    exact ⟨hSome, fun c hc => List.mem_takeWhile_imp hc, List.takeWhile_append_dropWhile.symm⟩

theorem blanks_append (hPart : ∀ c ∈ part, isBlank c = true)
    (hRest : ∀ c ∈ rest.head?, isBlank c = false) : blanks (part ++ rest) = (part, rest) := by
  rw [blanks, takeWhile_append_of_stop hPart hRest, dropWhile_append_of_stop hPart hRest]

theorem blanks_eq (h : blanks cs = (part, rest)) :
    (∀ c ∈ part, isBlank c = true) ∧ cs = part ++ rest := by
  cases h
  exact ⟨fun c hc => List.mem_takeWhile_imp hc, List.takeWhile_append_dropWhile.symm⟩

theorem colon?_eq_some (h : colon? cs = some rest) : cs = ':' :: rest := by
  unfold colon? at h
  split at h
  case h_1 =>
    cases h
    rfl
  case h_2 => cases h

theorem position?_eq_some (h : position? cs = some (part, rest)) :
    part ≠ [] ∧ (∀ c ∈ part, c.isDigit = true) ∧ cs = ':' :: (part ++ rest) := by
  unfold position? at h
  split at h
  case h_1 =>
    obtain ⟨hSome, hPart, rfl⟩ := piece?_eq_some h
    exact ⟨hSome, hPart, rfl⟩
  case h_2 => cases h

/-- An optional position is either there with its colon or leaves the text as it is. -/
theorem optional_position?_eq {digits : Option (List Char)}
    (h : optional position? cs = (digits, rest)) :
    cs = Spec.ending rest digits ∧
      ∀ ds, digits = some ds → ds ≠ [] ∧ ∀ c ∈ ds, c.isDigit = true := by
  unfold optional at h
  split at h
  case h_1 part rest' hPosition =>
    cases h
    obtain ⟨hSome, hPart, rfl⟩ := position?_eq_some hPosition
    refine ⟨rfl, ?_⟩
    rintro _ ⟨⟩
    exact ⟨hSome, hPart⟩
  case h_2 =>
    cases h
    exact ⟨rfl, by simp⟩

end Pieces

namespace Spec

variable {s s' : Spec} {cs : List Char}

theorem IsCut.blanks_chars (h : s.IsCut) :
    blanks s.chars = (s.before, s.path ++ ':' :: (s.name ++ ending s.after s.digits)) := by
  refine blanks_append h.before fun c hc => ?_
  rw [List.head?_append_of_ne_nil _ h.path.1] at hc
  exact (h.path.2 c (List.mem_of_mem_head? hc)).2

theorem IsCut.path? (h : s.IsCut) (rest : List Char) :
    path? (s.path ++ ':' :: rest) = some (s.path, ':' :: rest) := by
  refine piece?_append h.path.1 (fun c hc => isPathChar_iff.mpr (h.path.2 c hc)) ?_
  rintro _ ⟨⟩
  decide

theorem IsCut.optional_position? (h : s.IsCut) :
    optional position? (ending s.after s.digits) = (s.digits, s.after) := by
  cases hDigits : s.digits with
  | none =>
      have hNone : position? s.after = none := by
        unfold position?
        split
        case h_1 cs hColon => exact absurd (h.after ':' (hColon ▸ List.mem_cons_self)) (by decide)
        case h_2 => rfl
      rw [ending, optional, hNone]
  | some ds =>
      obtain ⟨hSome, hAll⟩ := h.digits ds hDigits
      have hStop : ∀ c ∈ s.after.head?, c.isDigit = false := fun c hc =>
        isDigit_of_isBlank (h.after c (List.mem_of_mem_head? hc))
      rw [ending, optional, position?, piece?_append hSome hAll hStop]

theorem IsCut.blanks_after (h : s.IsCut) : blanks s.after = (s.after, []) := by
  have hBlanks : blanks (s.after ++ []) = (s.after, []) := blanks_append h.after (by simp)
  rwa [List.append_nil] at hBlanks

/-- The rules find the parts of a text that is put together from such parts, and only of such a
text. -/
theorem cut?_eq_some_iff : cut? cs = some s ↔ s.IsCut ∧ s.chars = cs := by
  constructor
  · intro h
    obtain ⟨before, front, hBefore⟩ : ∃ before front, blanks cs = (before, front) := ⟨_, _, rfl⟩
    simp only [cut?, hBefore, Option.bind_eq_bind, Option.bind_eq_some_iff] at h
    obtain ⟨⟨path, afterPath⟩, hPath, afterColon, hColon, ⟨name, afterName⟩, hName, h⟩ := h
    obtain ⟨digits, tail, hDigits⟩ : ∃ digits rest, optional position? afterName = (digits, rest) :=
      ⟨_, _, rfl⟩
    obtain ⟨after, rest, hAfter⟩ : ∃ after rest, blanks tail = (after, rest) := ⟨_, _, rfl⟩
    simp only [hDigits, hAfter] at h
    split at h
    case isFalse => cases h
    case isTrue hRest =>
      cases h
      subst hRest
      obtain ⟨hBeforeBlank, rfl⟩ := blanks_eq hBefore
      obtain ⟨hSome, hChars, rfl⟩ := piece?_eq_some hPath
      obtain rfl := colon?_eq_some hColon
      obtain ⟨hDotted, rfl⟩ := dotted?_eq_some hName
      obtain ⟨rfl, hAllDigits⟩ := optional_position?_eq hDigits
      obtain ⟨hAfterBlank, rfl⟩ := blanks_eq hAfter
      refine ⟨⟨hBeforeBlank, ⟨hSome, fun c hc => isPathChar_iff.mp (hChars c hc)⟩, hDotted,
        hAllDigits, hAfterBlank⟩, ?_⟩
      rw [chars, List.append_nil]
  · rintro ⟨hCut, rfl⟩
    simp only [cut?, hCut.blanks_chars, hCut.path?, colon?, dotted?_append hCut.name hCut.endsName,
      hCut.optional_position?, hCut.blanks_after, Option.bind_eq_bind, Option.bind_some, if_true]

/-- A text can be cut in one way only. -/
theorem IsCut.eq_of_chars_eq (h : s.IsCut) (h' : s'.IsCut) (hChars : s.chars = s'.chars) :
    s = s' := by
  have hOne : cut? s.chars = some s := cut?_eq_some_iff.mpr ⟨h, rfl⟩
  have hOther : cut? s.chars = some s' := cut?_eq_some_iff.mpr ⟨h', hChars.symm⟩
  exact Option.some.inj (hOne.symm.trans hOther)

theorem IsCut.isDigit (h : s.IsCut) : ∀ c ∈ s.digits.getD [], c.isDigit = true := by
  cases hDigits : s.digits with
  | none => simp
  | some ds => exact (h.digits ds hDigits).2

theorem read_eq_ok_iff (h : s.IsCut) {t : Target} :
    s.read = .ok t ↔ s.IsProper ∧ s.target = t := by
  have hShort : (s.digits.getD []).length ≤ Numeral.digitLimit ↔
      ∀ ds, s.digits = some ds → ds.length ≤ 4300 := by
    cases s.digits <;> simp [Numeral.digitLimit]
  rw [read, ofDigits_filterMap_asciiDigit? h.isDigit]
  split
  case isTrue hLength =>
    rw [Except.ok.injEq]
    exact (and_iff_right ⟨h, hShort.mp hLength⟩).symm
  case isFalse hLength =>
    constructor
    · intro hRead
      cases hRead
    · rintro ⟨hProper, -⟩
      exact absurd (hShort.mpr hProper.short) hLength

end Spec

/-- The targets that are read are those that a text spells whose position is short enough. -/
theorem parseChars_eq_ok_iff {cs : List Char} {t : Target} :
    parseChars cs = .ok t ↔ ∃ s : Spec, s.IsProper ∧ s.chars = cs ∧ s.target = t := by
  rw [parseChars]
  split
  case h_1 s hCut =>
    obtain ⟨hIsCut, hChars⟩ := Spec.cut?_eq_some_iff.mp hCut
    rw [Spec.read_eq_ok_iff hIsCut]
    constructor
    · rintro ⟨hProper, hTarget⟩
      exact ⟨s, hProper, hChars, hTarget⟩
    · rintro ⟨s', hProper, hChars', hTarget⟩
      obtain rfl := hProper.toIsCut.eq_of_chars_eq hIsCut (hChars'.trans hChars.symm)
      exact ⟨hProper, hTarget⟩
  case h_2 hCut =>
    constructor
    · intro h
      cases h
    · rintro ⟨s, hProper, hChars, -⟩
      rw [Spec.cut?_eq_some_iff.mpr ⟨hProper.toIsCut, hChars⟩] at hCut
      cases hCut

theorem parse_eq_ok_iff {text : String} {t : Target} :
    parse text = .ok t ↔ ∃ s : Spec, s.IsProper ∧ s.chars = text.toList ∧ s.target = t := by
  rw [← parseChars_eq_ok_iff, parse]
  cases parseChars text.toList with
  | ok t' => simp [Except.mapError]
  | error fault => simp [Except.mapError]

/-- The package, the function and the position have the forms that a specification asks for. -/
structure IsSpellable (t : Target) : Prop where
  package : t.package ≠ "" ∧ ∀ c ∈ t.package.toList, c ≠ ':' ∧ isBlank c = false
  function : IsDotted t.function.toList
  position : 0 ≤ t.position ∧ t.position < 10 ^ 4300

/-- The text of a target, cut into its parts. -/
def spelling (t : Target) : Spec where
  before := []
  path := t.package.toList
  name := t.function.toList
  digits := some (Nat.toDigits 10 t.position.toNat)
  after := []

section Spellable

variable {t : Target} (h : t.IsSpellable)
include h

theorem IsSpellable.natAbs : t.position.natAbs = t.position.toNat := by
  have hNonneg := h.position.1
  omega

theorem IsSpellable.chars_spelling : t.spelling.chars = t.text.toList := by
  have hPosition : (toString t.position).toList = Nat.toDigits 10 t.position.toNat := by
    rw [Numeral.toList_toString, if_neg (not_lt.mpr h.position.1), h.natAbs]
  rw [Target.text, String.toList_append, hPosition]
  simp [Spec.chars, Spec.ending, spelling]

theorem IsSpellable.target_spelling : t.spelling.target = t := by
  have hValue := Nat.ofDigitChars_toDigits (b := 10) (n := t.position.toNat) (by decide) (by decide)
  have hPosition := Int.toNat_of_nonneg h.position.1
  simp [Spec.target, spelling, hValue, hPosition]

theorem IsSpellable.isProper_spelling : t.spelling.IsProper := by
  have hBound : t.position.toNat < 10 ^ 4300 := by
    rw [Int.toNat_lt h.position.1, Nat.cast_pow, Nat.cast_ofNat]
    exact h.position.2
  refine ⟨⟨by simp [spelling], ⟨?_, h.package.2⟩, h.function, ?_, by simp [spelling]⟩, ?_⟩
  · simpa [spelling] using h.package.1
  · rintro _ ⟨⟩
    exact ⟨Nat.toDigits_ne_nil, fun c => Numeral.isDigit_of_mem_toDigits⟩
  · rintro _ ⟨⟩
    exact Nat.toDigits_length 10 _ 4300 (by decide) hBound

end Spellable

/-- The texts that are read as a target are those that can be cut into the parts of a
specification, which can be done in one way only. Every other text is refused, and the text of a
target is read as that target. -/
theorem parse_eq_ok_iff_spelled :
    (∀ text t, parse text = .ok t ↔
      ∃ s : Spec, s.IsProper ∧ s.chars = text.toList ∧ s.target = t) ∧
    (∀ s s' : Spec, s.IsProper → s'.IsProper → s.chars = s'.chars → s = s') ∧
    (∀ text : String, (¬ ∃ s : Spec, s.IsProper ∧ s.chars = text.toList) →
      ∃ fault, parse text = .error (.spec text fault)) ∧
    ∀ t : Target, t.IsSpellable → parse t.text = .ok t := by
  refine ⟨fun text t => parse_eq_ok_iff, fun s s' h h' => h.toIsCut.eq_of_chars_eq h'.toIsCut,
    fun text hNone => ?_, fun t ht => ?_⟩
  · cases hParse : parseChars text.toList with
    | ok t =>
        obtain ⟨s, hProper, hChars, -⟩ := parseChars_eq_ok_iff.mp hParse
        exact absurd ⟨s, hProper, hChars⟩ hNone
    | error fault => exact ⟨fault, by rw [parse, hParse]; rfl⟩
  · exact parse_eq_ok_iff.mpr ⟨_, ht.isProper_spelling, ht.chars_spelling, ht.target_spelling⟩

/-- A method of a type with a position that has leading zeros, and blanks around it. -/
def clientSpelling : Spec where
  before := ['\t']
  path := "net/http".toList
  name := "Client.Do".toList
  digits := some ['0', '7']
  after := ['\n', ' ']

theorem isProper_clientSpelling : clientSpelling.IsProper where
  before := by simp [clientSpelling, isBlank]
  path := ⟨by decide, by simp [clientSpelling, isBlank]⟩
  name := by
    refine ⟨["Client".toList, "Do".toList], by decide, ?_, by decide +kernel⟩
    simp [IsIdent, Char.isAlphanum, Char.isAlpha]
  digits := by
    rintro _ ⟨⟩
    simp
  after := by simp [clientSpelling, isBlank]
  short := by
    rintro _ ⟨⟩
    simp

/-- A specification is read as its target, and so is the text of that target. -/
theorem parse_eq_ok_iff_spelled_client :
    parse "\tnet/http:Client.Do:07\n " = .ok ⟨"net/http", "Client.Do", 7⟩ ∧
    parse "net/http:Client.Do:7" = .ok ⟨"net/http", "Client.Do", 7⟩ ∧
    ∃ fault, parse "net/http:Client.:7" = .error (.spec "net/http:Client.:7" fault) := by
  obtain ⟨hRead, -, hRefused, hBack⟩ := parse_eq_ok_iff_spelled
  have hClient := isProper_clientSpelling
  have hSmall : (7 : Int) < 10 ^ 4300 :=
    lt_of_lt_of_le (by norm_num : (7 : Int) < 10 ^ 1) (pow_le_pow_right₀ (by decide) (by decide))
  refine ⟨(hRead _ _).mpr ⟨clientSpelling, hClient, by decide +kernel, by decide +kernel⟩, ?_, ?_⟩
  · exact hBack ⟨"net/http", "Client.Do", 7⟩
      ⟨⟨by decide, hClient.path.2⟩, hClient.name, by decide, hSmall⟩
  · refine hRefused _ fun ⟨s, hProper, hChars⟩ => ?_
    have hParse := (hRead "net/http:Client.:7" s.target).mpr ⟨s, hProper, hChars, rfl⟩
    have hNot : (parse "net/http:Client.:7").toOption = none := by decide +kernel
    rw [hParse] at hNot
    cases hNot

end Target

end NilGuard
