import Mathlib
import NilGuard.Check.Basic
import NilGuard.Json.Reader
import NilGuard.Proofs.Specification
import NilGuard.Text.Split
/-! Values on one line. A value is written in printable ASCII, so that a line holds no line end,
and what was written is read back, one character and one field after the other. The reader
refuses integers of too many digits, and nothing else that is written. -/
namespace NilGuard

namespace Json

open NilGuard.Text

section Strings

variable {start taken cs rest : List Char} {c x : Char} {n count : Nat}

theorem hexDigit?_digitChar (h : n < 16) : hexDigit? (Nat.digitChar n) = some n := by
  revert h n
  decide

/-- Four hexadecimal digits are read as the number that they were written for. -/
theorem unit?_hex (h : n < 0x10000) :
    ∃ a b c d, hex 4 n = [a, b, c, d] ∧ unit? a b c d = some n := by
  refine ⟨_, _, _, _, rfl, ?_⟩
  have hDigit : ∀ k, hexDigit? (Nat.digitChar (k % 16)) = some (k % 16) := fun k =>
    hexDigit?_digitChar (Nat.mod_lt k (by decide))
  simp only [unit?, hDigit, Option.bind_eq_bind, Option.bind_some, Option.pure_def,
    Option.some.injEq]
  omega

/-- The escape of a unit is read if anything follows it. -/
theorem string_unitEscape (h : n < 0x10000) (hRest : rest ≠ [])
    (hUnit : unitChar n rest = .ok (x, count)) :
    string start taken (unitEscape n ++ rest) = string start (x :: taken) (rest.drop count) := by
  obtain ⟨a, b, c, d, hHex, hRead⟩ := unit?_hex h
  obtain ⟨e, cs, rfl⟩ := List.exists_cons_of_ne_nil hRest
  rw [unitEscape, hHex]
  simp only [List.cons_append, List.nil_append]
  rw [string]
  simp only [hRead, hUnit]

theorem string_simpleEscape (h : simpleEscape? c = some x) :
    string start taken ('\\' :: c :: cs) = string start (x :: taken) cs := by
  have hMark : c ≠ 'u' := by
    rintro rfl
    have hNone : simpleEscape? 'u' = none := by decide
    rw [hNone] at h
    cases h
  rw [string, if_neg hMark, h]
  exact fun _ _ _ _ _ _ hEq => absurd hEq hMark

theorem string_plain (hQuote : c ≠ '"') (hSlash : c ≠ '\\') (hPrintable : 0x20 ≤ c.toNat) :
    string start taken (c :: cs) = string start (c :: taken) cs := by
  rw [string, if_neg (by omega)]
  · exact hQuote
  · exact fun hEq => absurd hEq hSlash
  · exact fun _ _ _ _ _ _ hEq => absurd hEq hSlash
  · exact fun _ _ hEq => absurd hEq hSlash

/-- A character is no half of a pair of units. -/
theorem not_surrogate (c : Char) : ¬ (0xD800 ≤ c.toNat ∧ c.toNat < 0xE000) := by
  have hValid : c.toNat.isValidChar := c.valid
  rw [Nat.isValidChar] at hValid
  omega

theorem unitChar_toNat : unitChar c.toNat rest = .ok (c, 0) := by
  have hWhole := not_surrogate c
  unfold unitChar
  rw [if_neg (by omega), if_neg (by omega), Char.ofNat_toNat]

theorem toNat_lt (c : Char) : c.toNat < 0x110000 := by
  have hValid : c.toNat.isValidChar := c.valid
  rw [Nat.isValidChar] at hValid
  omega

/-- The two units of a character beyond the first plane are joined again. -/
theorem unitChar_pair (hFar : 0x10000 ≤ c.toNat) (hRest : rest ≠ []) :
    unitChar (0xD800 + (c.toNat - 0x10000) / 0x400)
        (unitEscape (0xDC00 + (c.toNat - 0x10000) % 0x400) ++ rest) = .ok (c, 6) := by
  have hLt := toNat_lt c
  obtain ⟨h, i, j, k, hHex, hRead⟩ :=
    unit?_hex (n := 0xDC00 + (c.toNat - 0x10000) % 0x400) (by omega)
  obtain ⟨e, cs, rfl⟩ := List.exists_cons_of_ne_nil hRest
  rw [unitEscape, hHex]
  unfold unitChar
  rw [if_pos (by omega)]
  simp only [List.cons_append, List.nil_append, hRead]
  rw [if_pos (by omega)]
  have hJoined : 0x10000 + (0xD800 + (c.toNat - 0x10000) / 0x400 - 0xD800) * 0x400 +
      (0xDC00 + (c.toNat - 0x10000) % 0x400 - 0xDC00) = c.toNat := by omega
  rw [hJoined, Char.ofNat_toNat]

theorem string_escapedChar (hRest : rest ≠ []) :
    string start taken (escapedChar c ++ rest) = string start (c :: taken) rest := by
  unfold escapedChar
  simp only
  split_ifs with hMark hLine hReturn hTab hBack hFeed hPlain hNear
  · apply string_simpleEscape
    rcases hMark with rfl | rfl <;> rfl
  · subst hLine
    exact string_simpleEscape rfl
  · subst hReturn
    exact string_simpleEscape rfl
  · subst hTab
    exact string_simpleEscape rfl
  · subst hBack
    exact string_simpleEscape rfl
  · subst hFeed
    exact string_simpleEscape rfl
  · rw [not_or] at hMark
    exact string_plain hMark.1 hMark.2 hPlain.1
  · exact string_unitEscape hNear hRest unitChar_toNat
  · have hLt := toNat_lt c
    have hPair := unitChar_pair (Nat.le_of_not_lt hNear) hRest
    rw [List.append_assoc, string_unitEscape (by omega) (by simp [unitEscape]) hPair]
    rfl

/-- A string is read back up to its closing quote. -/
theorem string_flatMap_escapedChar (text : List Char) :
    string start taken (text.flatMap escapedChar ++ '"' :: rest) =
      .ok (String.ofList (taken.reverse ++ text), rest) := by
  induction text generalizing taken with
  | nil => rw [List.flatMap_nil, List.nil_append, List.append_nil, string]
  | cons c text ih =>
      rw [List.flatMap_cons, List.append_assoc, string_escapedChar (by simp), ih]
      simp

end Strings

section Numbers

/-- Nothing follows that could belong to a number. -/
def IsEnd (rest : List Char) : Prop := ∀ c ∈ rest.head?, c = ',' ∨ c = ']' ∨ c = '\x7d'

variable {rest : List Char}

theorem IsEnd.isDigit_eq_false (h : IsEnd rest) : ∀ c ∈ rest.head?, c.isDigit = false := by
  intro c hc
  rcases h c hc with rfl | rfl | rfl <;> rfl

theorem head?_toDigits {n : Nat} (h : n ≠ 0) : ∀ c ∈ (Nat.toDigits 10 n).head?, c ≠ '0' := by
  induction n using Nat.strongRecOn with
  | _ n ih =>
      by_cases hSmall : n < 10
      · rw [Nat.toDigits_of_lt_base hSmall]
        intro c hc
        obtain rfl : Nat.digitChar n = c := by simpa using hc
        interval_cases n <;> simp_all
      · rw [Nat.toDigits_of_base_le (by decide) (Nat.le_of_not_lt hSmall),
          List.head?_append_of_ne_nil _ Nat.toDigits_ne_nil]
        exact ih (n / 10) (by omega) (by omega)

/-- A numeral has no zero in front but that of zero itself, so the whole of it is taken. -/
theorem wholePart?_toDigits (n : Nat) (hRest : IsEnd rest) :
    wholePart? (Nat.toDigits 10 n ++ rest) = some (Nat.toDigits 10 n, rest) := by
  by_cases hZero : n = 0
  · rw [hZero]
    rfl
  · have hDigits : ∀ c ∈ Nat.toDigits 10 n, c.isDigit = true :=
      fun c => Numeral.isDigit_of_mem_toDigits
    have hTake := takeWhile_append_of_stop hDigits hRest.isDigit_eq_false
    have hDrop := dropWhile_append_of_stop hDigits hRest.isDigit_eq_false
    obtain ⟨c, cs, hList⟩ := List.exists_cons_of_ne_nil (Nat.toDigits_ne_nil (b := 10) (n := n))
    have hFirst : c ≠ '0' := head?_toDigits hZero c (by rw [hList]; rfl)
    rw [hList, List.cons_append] at hTake hDrop ⊢
    rw [wholePart?, hTake, hDrop, if_neg (List.cons_ne_nil c cs)]
    intro _ hEq
    exact hFirst (List.cons.inj hEq).1

theorem fraction_eq_nil (hRest : IsEnd rest) : fraction rest = ([], rest) := by
  cases rest with
  | nil => rfl
  | cons c cs =>
      have hPoint : c ≠ '.' := by
        rintro rfl
        exact absurd (hRest '.' rfl) (by decide)
      rw [fraction]
      intro _ hEq
      exact hPoint (List.cons.inj hEq).1

theorem exponent_eq_nil (hRest : IsEnd rest) : exponent rest = ([], rest) := by
  cases rest with
  | nil => rfl
  | cons c cs =>
      have hMark : ¬ (c = 'e' ∨ c = 'E') := by
        rintro (rfl | rfl)
        · exact absurd (hRest 'e' rfl) (by decide)
        · exact absurd (hRest 'E' rfl) (by decide)
      exact if_neg hMark

/-- The numeral of an integer starts with a digit, or with a minus and a digit. -/
theorem toString_eq_cons (n : Int) :
    ∃ c cs, (toString n).toList = c :: cs ∧
      (c.isDigit = true ∨ (c = '-' ∧ ∃ d ds, cs = d :: ds ∧ d.isDigit = true)) := by
  obtain ⟨c, cs, hList⟩ :=
    List.exists_cons_of_ne_nil (Nat.toDigits_ne_nil (b := 10) (n := n.natAbs))
  have hDigit : c.isDigit = true := Numeral.isDigit_of_mem_toDigits (hList ▸ List.mem_cons_self)
  rw [Numeral.toList_toString, hList]
  by_cases hNegative : n < 0
  · rw [if_pos hNegative]
    exact ⟨'-', c :: cs, rfl, Or.inr ⟨rfl, c, cs, rfl, hDigit⟩⟩
  · rw [if_neg hNegative]
    exact ⟨c, cs, rfl, Or.inl hDigit⟩

theorem ne_of_isDigit {c d : Char} (hc : c.isDigit = true) (hd : d.isDigit = false) : c ≠ d := by
  rintro rfl
  rw [hc] at hd
  cases hd

/-- The numeral of an integer is read as that integer, or refused when it has too many digits. -/
theorem number_toString (n : Int) (hRest : IsEnd rest) :
    number ((toString n).toList ++ rest) =
      if Numeral.IsShort n then .ok (.int n, rest)
      else .error ⟨.tooManyDigits (Nat.toDigits 10 n.natAbs).length,
        (toString n).toList ++ rest⟩ := by
  unfold Numeral.IsShort
  have hDigits : ∀ c ∈ Nat.toDigits 10 n.natAbs, c.isDigit = true :=
    fun c => Numeral.isDigit_of_mem_toDigits
  have hValue : ofDigits ((Nat.toDigits 10 n.natAbs).filterMap asciiDigit?) = n.natAbs := by
    rw [ofDigits_filterMap_asciiDigit? hDigits, Nat.ofDigitChars_toDigits (by decide) (by decide)]
  have hWhole := wholePart?_toDigits n.natAbs hRest
  have hFirst : ∀ r, Nat.toDigits 10 n.natAbs ++ rest ≠ '-' :: r := by
    obtain ⟨c, cs, hList⟩ :=
      List.exists_cons_of_ne_nil (Nat.toDigits_ne_nil (b := 10) (n := n.natAbs))
    intro r hEq
    rw [hList, List.cons_append] at hEq
    rw [hList, (List.cons.inj hEq).1] at hDigits
    exact absurd (hDigits '-' List.mem_cons_self) (by decide)
  rw [Numeral.toList_toString]
  by_cases hNegative : n < 0
  · have hSigned : -(n.natAbs : Int) = n := by omega
    simp only [hNegative, if_true, List.cons_append]
    unfold number
    simp only [hWhole, fraction_eq_nil hRest, exponent_eq_nil hRest, hValue, true_and, if_true,
      reduceCtorEq, if_false, hSigned]
  · have hUnsigned : (n.natAbs : Int) = n := by omega
    simp only [hNegative, if_false]
    unfold number
    split
    case h_1 sign unsigned hSign =>
      split at hSign
      case h_1 hMinus => exact absurd hMinus (hFirst _)
      case h_2 =>
        cases hSign
        simp only [hWhole, fraction_eq_nil hRest, exponent_eq_nil hRest, hValue, true_and,
          if_true, hUnsigned]

end Numbers

section Values

variable {rest : List Char} {n : Nat} {j : Json}

/-- Values whose numbers are all integers of not too many digits, and whose objects have no two
fields of one name. -/
inductive IsExact : Json → Prop where
  | null : IsExact .null
  | bool {value : Bool} : IsExact (.bool value)
  | int {n : Int} : Numeral.IsShort n → IsExact (.int n)
  | str {s : String} : IsExact (.str s)
  | arr {xs : List Json} : (∀ x ∈ xs, IsExact x) → IsExact (.arr xs)
  | obj {fs : List (String × Json)} : (fs.map (·.1)).Nodup → (∀ f ∈ fs, IsExact f.2) →
      IsExact (.obj fs)

/-- The value is read where it is written, whatever ends it. Every step of the reader takes a
character, so the characters of the value bound the steps. -/
def IsReadBack (j : Json) : Prop :=
  ∀ n rest, j.chars.length ≤ n → IsEnd rest → value (n + 1) (j.chars ++ rest) = .ok (j, rest)

@[simp] theorem skip_space (cs : List Char) : skip (' ' :: cs) = skip cs := rfl

theorem skip_cons {c : Char} {cs : List Char} (h : isBlank c = false) :
    skip (c :: cs) = c :: cs := by
  rw [skip, List.dropWhile_cons_of_neg (by simp [h])]

theorem isBlank_eq_false {c : Char} {p : Prop} (h : c.isDigit = true ∨ (c = '-' ∧ p)) :
    isBlank c = false := by
  rcases h with hDigit | ⟨rfl, -⟩
  · simp [isBlank, ne_of_isDigit hDigit]
  · rfl

/-- A value starts with no blank and with no mark that ends a list. -/
theorem IsExact.chars_eq_cons (h : j.IsExact) :
    ∃ c cs, j.chars = c :: cs ∧ isBlank c = false ∧ c ≠ ']' := by
  cases h with
  | null => exact ⟨_, _, rfl, rfl, by decide⟩
  | @bool value => cases value <;> exact ⟨_, _, rfl, rfl, by decide⟩
  | str => exact ⟨_, _, rfl, rfl, by decide⟩
  | arr _ => exact ⟨_, _, by rw [chars]; rfl, rfl, by decide⟩
  | obj _ _ => exact ⟨_, _, by rw [chars]; rfl, rfl, by decide⟩
  | @int n _ =>
      obtain ⟨c, cs, hList, hFirst⟩ := toString_eq_cons n
      refine ⟨c, cs, by rw [chars, hList], isBlank_eq_false hFirst, ?_⟩
      rcases hFirst with hDigit | ⟨rfl, -⟩
      · exact ne_of_isDigit hDigit rfl
      · decide

theorem skip_chars (h : j.IsExact) (rest : List Char) :
    skip (j.chars ++ rest) = j.chars ++ rest := by
  obtain ⟨c, cs, hList, hBlank, -⟩ := h.chars_eq_cons
  rw [hList, List.cons_append, skip_cons hBlank]

theorem skip_toString (k : Int) (rest : List Char) :
    skip ((toString k).toList ++ rest) = (toString k).toList ++ rest := by
  obtain ⟨c, cs, hList, hFirst⟩ := toString_eq_cons k
  rw [hList, List.cons_append, skip_cons (isBlank_eq_false hFirst)]

theorem isReadBack_str (s : String) : IsReadBack (.str s) := by
  intro n rest _ _
  rw [chars, stringChars, List.cons_append, List.cons_append, value, List.append_assoc,
    List.singleton_append, string_flatMap_escapedChar]
  simp [bind, Except.bind, pure, Except.pure]

/-- A numeral is none of the words. -/
theorem scalar_toString (k : Int) :
    scalar ((toString k).toList ++ rest) = number ((toString k).toList ++ rest) := by
  obtain ⟨c, cs, hList, hFirst⟩ := toString_eq_cons k
  rw [hList, scalar]
  rcases hFirst with hDigit | ⟨rfl, d, ds, rfl, hDigit⟩
  · simp [words, after?, (ne_of_isDigit hDigit _).symm]
  · simp [words, after?, (ne_of_isDigit hDigit _).symm]

theorem value_toString (k : Int) :
    value (n + 1) ((toString k).toList ++ rest) = number ((toString k).toList ++ rest) := by
  rw [← scalar_toString]
  obtain ⟨c, cs, hList, hFirst⟩ := toString_eq_cons k
  rw [hList, List.cons_append, value]
  all_goals
    intro _ hEq
    rw [(List.cons.inj hEq).1] at hFirst
    rcases hFirst with hDigit | ⟨hMinus, -⟩
    · cases hDigit
    · cases hMinus

theorem isReadBack_int {k : Int} (h : Numeral.IsShort k) : IsReadBack (.int k) := by
  intro n rest _ hRest
  rw [chars, value_toString, number_toString k hRest, if_pos h]

theorem isEnd_cons {c : Char} {cs : List Char} (h : c = ',' ∨ c = ']' ∨ c = '\x7d') :
    IsEnd (c :: cs) := by
  rintro d ⟨⟩
  exact h

section Lists

variable {x y : Json} {xs done : List Json}

theorem items_last (hx : x.IsReadBack) (hLength : x.chars.length ≤ n) :
    items (n + 2) done (x.chars ++ ']' :: rest) = .ok (.arr (done ++ [x]), rest) := by
  rw [items, hx n _ hLength (isEnd_cons (by simp))]
  rfl

theorem items_more (hx : x.IsReadBack) (hLength : x.chars.length ≤ n) :
    items (n + 2) done (x.chars ++ ',' :: ' ' :: rest) =
      items (n + 1) (done ++ [x]) (skip rest) := by
  rw [items, hx n _ hLength (isEnd_cons (by simp))]
  rfl

theorem exists_joined_itemChars (x : Json) (xs : List Json) :
    ∃ tail, joined (itemChars (x :: xs)) = x.chars ++ tail := by
  cases xs with
  | nil => exact ⟨[], by simp only [itemChars, joined, List.append_nil]⟩
  | cons y ys =>
      exact ⟨',' :: ' ' :: joined (itemChars (y :: ys)), by simp only [itemChars, joined]⟩

theorem items_joined (hExact : ∀ z ∈ x :: xs, z.IsExact) (hEach : ∀ z ∈ x :: xs, z.IsReadBack)
    (hLength : (joined (itemChars (x :: xs))).length ≤ n) :
    items (n + 2) done (joined (itemChars (x :: xs)) ++ ']' :: rest) =
      .ok (.arr (done ++ x :: xs), rest) := by
  induction xs generalizing x n done with
  | nil =>
      simp only [itemChars, joined] at hLength ⊢
      exact items_last (hEach x List.mem_cons_self) hLength
  | cons y ys ih =>
      have hMore : joined (itemChars (x :: y :: ys)) =
          x.chars ++ ',' :: ' ' :: joined (itemChars (y :: ys)) := by
        simp only [itemChars, joined]
      rw [hMore] at hLength ⊢
      simp only [List.length_append, List.length_cons] at hLength
      obtain ⟨k, rfl⟩ : ∃ k, n = k + 1 := ⟨n - 1, by omega⟩
      obtain ⟨tail, hTail⟩ := exists_joined_itemChars y ys
      have hSkip : skip (joined (itemChars (y :: ys)) ++ ']' :: rest) =
          joined (itemChars (y :: ys)) ++ ']' :: rest := by
        rw [hTail, List.append_assoc, skip_chars (hExact y (by simp)) _]
      rw [List.append_assoc, List.cons_append, List.cons_append,
        items_more (hEach x List.mem_cons_self) (by omega), hSkip,
        ih (fun z hz => hExact z (List.mem_cons_of_mem _ hz))
          (fun z hz => hEach z (List.mem_cons_of_mem _ hz)) (by omega)]
      simp

theorem value_bracket {r : List Char} (h : ∀ r', skip r ≠ ']' :: r') :
    value (n + 1) ('[' :: r) = items n [] (skip r) := by
  rw [value]
  split
  case h_1 r' hEq => exact absurd hEq (h r')
  case h_2 => rfl

theorem isReadBack_arr (hExact : ∀ z ∈ xs, z.IsExact) (hEach : ∀ z ∈ xs, z.IsReadBack) :
    IsReadBack (.arr xs) := by
  intro n rest hLength hRest
  cases xs with
  | nil => rfl
  | cons x xs =>
      simp only [chars, List.length_append, List.length_cons] at hLength
      obtain ⟨k, rfl⟩ : ∃ k, n = k + 2 := ⟨n - 2, by omega⟩
      obtain ⟨tail, hTail⟩ := exists_joined_itemChars x xs
      obtain ⟨c, cs, hFirst, hBlank, hClose⟩ := (hExact x List.mem_cons_self).chars_eq_cons
      have hSkip : skip (joined (itemChars (x :: xs)) ++ ']' :: rest) =
          joined (itemChars (x :: xs)) ++ ']' :: rest := by
        rw [hTail, List.append_assoc, skip_chars (hExact x List.mem_cons_self)]
      rw [chars, List.cons_append, List.cons_append, List.append_assoc, List.singleton_append,
        value_bracket, hSkip, items_joined hExact hEach (by omega), List.nil_append]
      intro r' hEq
      rw [hSkip, hTail, hFirst] at hEq
      exact hClose (List.cons.inj hEq).1

end Lists

section Objects

variable {x : Json} {k : String} {fs done : List (String × Json)}

theorem putField_of_nodup {f : String × Json} (h : ((done ++ f :: fs).map (·.1)).Nodup) :
    putField done f.1 f.2 = done ++ [f] := by
  have hNew : f.1 ∉ done.map (·.1) := by
    rw [List.map_append, List.map_cons, List.nodup_middle, List.nodup_cons, List.mem_append] at h
    exact fun hMem => h.1 (Or.inl hMem)
  rw [putField, if_neg]
  simpa using hNew

section Field

variable {e : FaultAt} {r : List Char}

theorem string_field (k : String) (rest : List Char) :
    string ('"' :: (k.toList.flatMap escapedChar ++ '"' :: rest)) []
      (k.toList.flatMap escapedChar ++ '"' :: rest) = .ok (k, rest) := by
  rw [string_flatMap_escapedChar, List.reverse_nil, List.nil_append, String.ofList_toList]

theorem fieldChars_eq (k : String) (rest : List Char) :
    stringChars k ++ rest = '"' :: (k.toList.flatMap escapedChar ++ '"' :: rest) := by
  rw [stringChars, List.append_assoc, List.cons_append, List.singleton_append]

theorem skip_colon (rest : List Char) : skip (':' :: rest) = ':' :: rest := rfl

/-- A field whose value cannot be read stops the reader with the same fault. -/
theorem fields_error (hStart : skip rest = rest) (hValue : value n rest = .error e) :
    fields (n + 1) done (stringChars k ++ ':' :: ' ' :: rest) = .error e := by
  rw [fieldChars_eq, fields, string_field]
  simp only [bind, Except.bind, skip_colon, skip_space, hStart, hValue]

theorem fields_last (hStart : skip rest = rest) (hValue : value n rest = .ok (x, '\x7d' :: r)) :
    fields (n + 1) done (stringChars k ++ ':' :: ' ' :: rest) =
      .ok (.obj (putField done k x), r) := by
  rw [fieldChars_eq, fields, string_field]
  simp only [bind, Except.bind, skip_colon, skip_space, hStart, hValue]
  rfl

theorem fields_more (hStart : skip rest = rest)
    (hValue : value n rest = .ok (x, ',' :: ' ' :: r)) :
    fields (n + 1) done (stringChars k ++ ':' :: ' ' :: rest) =
      fields n (putField done k x) (skip r) := by
  rw [fieldChars_eq, fields, string_field]
  simp only [bind, Except.bind, skip_colon, skip_space, hStart, hValue]
  rfl

end Field

theorem exists_joined_fieldChars (k : String) (x : Json) (fs : List (String × Json)) :
    ∃ tail, joined (fieldChars ((k, x) :: fs)) =
      stringChars k ++ ':' :: ' ' :: (x.chars ++ tail) ∧ ∀ c ∈ tail.head?, c = ',' := by
  cases fs with
  | nil => exact ⟨[], by simp only [fieldChars, joined, List.append_nil], by simp⟩
  | cons f fs =>
      exact ⟨',' :: ' ' :: joined (fieldChars (f :: fs)), by simp [fieldChars, joined], by simp⟩

theorem joined_fieldChars_more (f g : String × Json) (fs : List (String × Json)) :
    joined (fieldChars (f :: g :: fs)) = stringChars f.1 ++
      ':' :: ' ' :: (f.2.chars ++ ',' :: ' ' :: joined (fieldChars (g :: fs))) := by
  simp [fieldChars, joined]

theorem skip_joined_fieldChars (f : String × Json) :
    skip (joined (fieldChars (f :: fs)) ++ rest) = joined (fieldChars (f :: fs)) ++ rest := by
  obtain ⟨tail, hTail, -⟩ := exists_joined_fieldChars f.1 f.2 fs
  rw [hTail]
  rfl

theorem fields_joined {f : String × Json} (hExact : ∀ g ∈ f :: fs, g.2.IsExact)
    (hEach : ∀ g ∈ f :: fs, g.2.IsReadBack) (hNew : ((done ++ f :: fs).map (·.1)).Nodup)
    (hLength : (joined (fieldChars (f :: fs))).length ≤ n) :
    fields (n + 2) done (joined (fieldChars (f :: fs)) ++ '\x7d' :: rest) =
      .ok (.obj (done ++ f :: fs), rest) := by
  induction fs generalizing f n done with
  | nil =>
      simp only [fieldChars, joined, List.length_append, List.length_cons] at hLength ⊢
      have hx := hEach f List.mem_cons_self
      rw [List.append_assoc, List.cons_append, List.cons_append,
        fields_last (skip_chars (hExact f List.mem_cons_self) _)
          (hx n _ (by omega) (isEnd_cons (by simp))), putField_of_nodup hNew]
  | cons g gs ih =>
      rw [joined_fieldChars_more] at hLength ⊢
      simp only [List.length_append, List.length_cons] at hLength
      obtain ⟨m, rfl⟩ : ∃ m, n = m + 1 := ⟨n - 1, by omega⟩
      have hx := hEach f List.mem_cons_self
      have hRest : ((done ++ [f] ++ g :: gs).map (·.1)).Nodup := by simpa using hNew
      simp only [List.append_assoc, List.cons_append]
      rw [fields_more (skip_chars (hExact f List.mem_cons_self) _)
          (hx (m + 1) _ (by omega) (isEnd_cons (by simp))), putField_of_nodup hNew,
        skip_joined_fieldChars, ih (fun z hz => hExact z (List.mem_cons_of_mem _ hz))
          (fun z hz => hEach z (List.mem_cons_of_mem _ hz)) hRest (by omega)]
      simp

theorem value_brace {r : List Char} (h : ∀ r', skip r ≠ '\x7d' :: r') :
    value (n + 1) ('\x7b' :: r) = fields n [] (skip r) := by
  rw [value]
  split
  case h_1 r' hEq => exact absurd hEq (h r')
  case h_2 => rfl

theorem isReadBack_obj (hNew : (fs.map (·.1)).Nodup) (hExact : ∀ f ∈ fs, f.2.IsExact)
    (hEach : ∀ f ∈ fs, f.2.IsReadBack) : IsReadBack (.obj fs) := by
  intro n rest hLength _
  cases fs with
  | nil => rfl
  | cons f fs =>
      simp only [chars, List.length_append, List.length_cons] at hLength
      obtain ⟨k, rfl⟩ : ∃ k, n = k + 2 := ⟨n - 2, by omega⟩
      rw [chars, List.cons_append, List.cons_append, List.append_assoc, List.singleton_append,
        value_brace, skip_joined_fieldChars, fields_joined hExact hEach hNew (by omega),
        List.nil_append]
      intro r' hEq
      obtain ⟨tail, hTail, -⟩ := exists_joined_fieldChars f.1 f.2 fs
      rw [skip_joined_fieldChars, hTail] at hEq
      cases hEq

end Objects

theorem IsExact.isReadBack (h : j.IsExact) : j.IsReadBack := by
  induction h with
  | null => exact fun n rest _ _ => rfl
  | @bool value =>
      intro n rest _ _
      cases value <;> rfl
  | int hShort => exact isReadBack_int hShort
  | str => exact isReadBack_str _
  | arr hExact ih => exact isReadBack_arr hExact ih
  | obj hNew hExact ih => exact isReadBack_obj hNew hExact ih

/-- A printable character of ASCII. -/
def IsInLine (c : Char) : Prop := 0x20 ≤ c.toNat ∧ c.toNat ≤ 0x7E

instance (c : Char) : Decidable (IsInLine c) := inferInstanceAs (Decidable (_ ∧ _))

theorem isInLine_of_mem_hex {c : Char} (width n : Nat) (h : c ∈ hex width n) : IsInLine c := by
  have hDigit : ∀ d < 16, IsInLine (Nat.digitChar d) := by decide
  induction width generalizing n with
  | zero => exact absurd h List.not_mem_nil
  | succ width ih =>
      rcases List.mem_append.mp h with h | h
      · exact ih (n / 16) h
      · rw [List.mem_singleton.mp h]
        exact hDigit (n % 16) (Nat.mod_lt n (by decide))

theorem isInLine_of_mem_unitEscape {c : Char} {n : Nat} (h : c ∈ unitEscape n) : IsInLine c := by
  rcases List.mem_cons.mp h with rfl | h
  · decide
  rcases List.mem_cons.mp h with rfl | h
  · decide
  · exact isInLine_of_mem_hex 4 n h

theorem isInLine_of_mem_escapedChar {c d : Char} (h : d ∈ escapedChar c) : IsInLine d := by
  unfold escapedChar at h
  simp only at h
  split_ifs at h with hMark hLine hReturn hTab hBack hFeed hPlain hNear
  · rcases hMark with rfl | rfl
    all_goals
      rcases List.mem_cons.mp h with rfl | h
      · decide
      · rw [List.mem_singleton.mp h]
        decide
  iterate 5
    rcases List.mem_cons.mp h with rfl | h
    · decide
    · rw [List.mem_singleton.mp h]
      decide
  · rw [List.mem_singleton.mp h]
    exact ⟨hPlain.1, by omega⟩
  · exact isInLine_of_mem_unitEscape h
  · rcases List.mem_append.mp h with h | h
    · exact isInLine_of_mem_unitEscape h
    · exact isInLine_of_mem_unitEscape h

theorem isInLine_of_mem_stringChars {s : String} {c : Char} (h : c ∈ stringChars s) :
    IsInLine c := by
  rw [stringChars, List.mem_append, List.mem_cons, List.mem_flatMap, List.mem_singleton] at h
  rcases h with (rfl | ⟨d, -, h⟩) | rfl
  · decide
  · exact isInLine_of_mem_escapedChar h
  · decide

theorem isInLine_of_mem_joined {pieces : List (List Char)} {c : Char} (h : c ∈ joined pieces)
    (hEach : ∀ piece ∈ pieces, ∀ d ∈ piece, IsInLine d) : IsInLine c := by
  fun_induction joined pieces with
  | case1 => exact absurd h List.not_mem_nil
  | case2 piece => exact hEach piece List.mem_cons_self c h
  | case3 piece pieces _ ih =>
      rw [List.mem_append, List.mem_cons, List.mem_cons] at h
      rcases h with h | rfl | rfl | h
      · exact hEach piece List.mem_cons_self c h
      · decide
      · decide
      · exact ih h fun other hOther => hEach other (List.mem_cons_of_mem _ hOther)

theorem itemChars_eq_map (xs : List Json) : itemChars xs = xs.map chars := by
  induction xs with
  | nil => rfl
  | cons x xs ih => rw [itemChars, ih, List.map_cons]

theorem fieldChars_eq_map (fs : List (String × Json)) :
    fieldChars fs = fs.map fun f => stringChars f.1 ++ ':' :: ' ' :: f.2.chars := by
  induction fs with
  | nil => rfl
  | cons f fs ih => rw [fieldChars, ih, List.map_cons]

/-- A value is written in printable ASCII, so that nothing in it ends a line. -/
theorem IsExact.isInLine (h : j.IsExact) : ∀ c ∈ j.chars, IsInLine c := by
  induction h with
  | null => simp [chars, IsInLine]
  | @bool value => cases value <;> simp [chars, IsInLine]
  | @int n _ =>
      intro c hc
      rw [chars, Numeral.toList_toString] at hc
      have hDigit : ∀ d ∈ Nat.toDigits 10 n.natAbs, IsInLine d := by
        intro d hd
        have hRange := toNat_of_isDigit (Numeral.isDigit_of_mem_toDigits hd)
        exact ⟨by omega, by omega⟩
      split_ifs at hc
      · rcases List.mem_cons.mp hc with rfl | hc
        · decide
        · exact hDigit c hc
      · exact hDigit c hc
  | str => exact fun c => isInLine_of_mem_stringChars
  | arr _ ih =>
      intro c hc
      rw [chars, List.mem_append, List.mem_cons, List.mem_singleton, itemChars_eq_map] at hc
      rcases hc with (rfl | hc) | rfl
      · decide
      · apply isInLine_of_mem_joined hc
        intro piece hPiece d hd
        obtain ⟨x, hx, rfl⟩ := List.mem_map.mp hPiece
        exact ih x hx d hd
      · decide
  | obj _ _ ih =>
      intro c hc
      rw [chars, List.mem_append, List.mem_cons, List.mem_singleton, fieldChars_eq_map] at hc
      rcases hc with (rfl | hc) | rfl
      · decide
      · apply isInLine_of_mem_joined hc
        intro piece hPiece d hd
        obtain ⟨f, hf, rfl⟩ := List.mem_map.mp hPiece
        rw [List.mem_append, List.mem_cons, List.mem_cons] at hd
        rcases hd with hd | rfl | rfl | hd
        · exact isInLine_of_mem_stringChars hd
        · decide
        · decide
        · exact ih f hf d hd
      · decide

section Whole

variable {c : Char} {cs : List Char} (hFirst : j.chars = c :: cs) (hBlank : isBlank c = false)
  (hMark : c ≠ '\ufeff')
include hFirst hBlank hMark

/-- A line is read from the start of its value, and a value that takes all of it is the result. -/
theorem read_of_ok (hValue : value (2 * j.chars.length + 2) j.chars = .ok (j, [])) :
    read (String.ofList j.chars) = .ok j := by
  have hSkip : skip j.chars = j.chars := by rw [hFirst, skip_cons hBlank]
  rw [read, String.toList_ofList, readChars, hSkip, hValue]
  · rfl
  · intro _ hEq
    rw [hFirst] at hEq
    exact hMark (List.cons.inj hEq).1

theorem read_of_error {e : FaultAt}
    (hValue : value (2 * j.chars.length + 2) j.chars = .error e) :
    read (String.ofList j.chars) = .error (e.locate j.chars) := by
  have hSkip : skip j.chars = j.chars := by rw [hFirst, skip_cons hBlank]
  rw [read, String.toList_ofList, readChars, hSkip, hValue]
  · rfl
  · intro _ hEq
    rw [hFirst] at hEq
    exact hMark (List.cons.inj hEq).1

end Whole

theorem mem_integers_arr {xs : List Json} {k : Int} :
    k ∈ (Json.arr xs).integers ↔ ∃ x ∈ xs, k ∈ x.integers := by
  rw [integers]
  induction xs with
  | nil => simp [itemIntegers]
  | cons x xs ih => simp [itemIntegers, ih]

theorem mem_integers_obj {fs : List (String × Json)} {k : Int} :
    k ∈ (Json.obj fs).integers ↔ ∃ f ∈ fs, k ∈ f.2.integers := by
  rw [integers]
  induction fs with
  | nil => simp [fieldIntegers]
  | cons f fs ih => simp [fieldIntegers, ih]

/-- Reading undoes writing. -/
theorem read_ofList_chars (h : j.IsExact) : read (String.ofList j.chars) = .ok j := by
  obtain ⟨c, cs, hFirst, hBlank, -⟩ := h.chars_eq_cons
  have hMark : c ≠ '\ufeff' := by
    rintro rfl
    exact absurd (h.isInLine '\ufeff' (hFirst ▸ List.mem_cons_self)) (by decide)
  have hBack := h.isReadBack (2 * j.chars.length + 1) [] (by omega) (by rintro c ⟨⟩)
  rw [List.append_nil] at hBack
  exact read_of_ok hFirst hBlank hMark hBack

/-- An integer of too many digits is refused wherever it stands after a first field. -/
theorem read_of_long {k l s : String} {m : Int} {fs : List (String × Json)}
    (h : ¬ Numeral.IsShort m) :
    ∃ e, read (String.ofList (chars (.obj ((k, .str s) :: (l, .int m) :: fs)))) = .error e ∧
      e.fault = .tooManyDigits (Nat.toDigits 10 m.natAbs).length := by
  obtain ⟨tail, hTail, hEnd⟩ := exists_joined_fieldChars l (.int m) fs
  have hRest : IsEnd (tail ++ ['\x7d']) := by
    cases tail with
    | nil => exact isEnd_cons (by simp)
    | cons c cs => exact isEnd_cons (Or.inl (hEnd c rfl))
  have hChars : (Json.obj ((k, .str s) :: (l, .int m) :: fs)).chars =
      '\x7b' :: (stringChars k ++ ':' :: ' ' :: ((Json.str s).chars ++ ',' :: ' ' ::
        (stringChars l ++ ':' :: ' ' :: ((Json.int m).chars ++ (tail ++ ['\x7d']))))) := by
    conv_lhs => rw [chars, joined_fieldChars_more, hTail]
    simp
  have hLength : (Json.str s).chars.length + 2 ≤
      (Json.obj ((k, .str s) :: (l, .int m) :: fs)).chars.length := by
    rw [hChars]
    simp only [List.length_cons, List.length_append]
    omega
  have hSteps : 4 ≤ 2 * (Json.obj ((k, .str s) :: (l, .int m) :: fs)).chars.length + 2 := by omega
  obtain ⟨q, hSteps⟩ := Nat.exists_eq_add_of_le' hSteps
  have hNumber : value (q + 1) ((Json.int m).chars ++ (tail ++ ['\x7d'])) =
      .error ⟨.tooManyDigits (Nat.toDigits 10 m.natAbs).length,
        (toString m).toList ++ (tail ++ ['\x7d'])⟩ := by
    rw [chars, value_toString, number_toString m hRest, if_neg h]
  have hStart : skip ((Json.int m).chars ++ (tail ++ ['\x7d'])) =
      (Json.int m).chars ++ (tail ++ ['\x7d']) := skip_toString m _
  have hObject : value (2 * (Json.obj ((k, .str s) :: (l, .int m) :: fs)).chars.length + 2)
      (Json.obj ((k, .str s) :: (l, .int m) :: fs)).chars =
      .error ⟨.tooManyDigits (Nat.toDigits 10 m.natAbs).length,
        (toString m).toList ++ (tail ++ ['\x7d'])⟩ := by
    have hBrace : ∀ r, skip (stringChars k ++ r) = stringChars k ++ r := fun r => rfl
    have hNext : ∀ r, skip (stringChars l ++ r) = stringChars l ++ r := fun r => rfl
    rw [hSteps, hChars, value_brace, hBrace,
      fields_more (skip_chars IsExact.str _)
        (isReadBack_str s (q + 1) _ (by omega) (isEnd_cons (by simp))),
      hNext, fields_error hStart hNumber]
    rintro r' ⟨⟩
  exact ⟨_, read_of_error hChars rfl (by decide) hObject, rfl⟩

end Values

end Json

end NilGuard
