import Mathlib
import NilGuard.Numeral.Integer
/-! Decimal numerals of ASCII digits. Their value is the one that the digits have in the library,
and the numeral of an integer is read as that integer. -/
namespace NilGuard

namespace Text

theorem toNat_of_isDigit {c : Char} (h : c.isDigit = true) : 48 ≤ c.toNat ∧ c.toNat ≤ 57 := by
  simpa [Char.isDigit, UInt32.le_iff_toNat_le] using h

theorem digit?_of_isDigit {c : Char} (h : c.isDigit = true) : digit? c = some (c.toNat - 48) := by
  simp [digit?, toNat_of_isDigit h]

theorem asciiDigit?_of_isDigit {c : Char} (h : c.isDigit = true) :
    asciiDigit? c = some (c.toNat - 48) := if_pos h

theorem ofDigits_map_toNat (cs : List Char) :
    ofDigits (cs.map fun c => c.toNat - 48) = Nat.ofDigitChars 10 cs 0 := by
  rw [ofDigits, List.foldl_map]
  rfl

theorem ofDigits_filterMap_asciiDigit? {cs : List Char} (h : ∀ c ∈ cs, c.isDigit = true) :
    ofDigits (cs.filterMap asciiDigit?) = Nat.ofDigitChars 10 cs 0 := by
  have hDigits : cs.filterMap asciiDigit? = cs.map fun c => c.toNat - 48 := by
    rw [← List.filterMap_eq_map]
    exact List.filterMap_congr fun c hc => asciiDigit?_of_isDigit (h c hc)
  rw [hDigits, ofDigits_map_toNat]

theorem not_isBlank_of_isDigit {c : Char} (h : c.isDigit = true) : isBlank c = false := by
  have hRange := toNat_of_isDigit h
  simp [isBlank]
  omega

/-- A text that neither starts nor ends in a blank is not trimmed. -/
theorem trim_eq_self {cs : List Char} (hFirst : ∀ c ∈ cs.head?, isBlank c = false)
    (hLast : ∀ c ∈ cs.getLast?, isBlank c = false) : trim cs = cs := by
  have hDrop {ds : List Char} (h : ∀ c ∈ ds.head?, isBlank c = false) :
      ds.dropWhile isBlank = ds := by
    cases ds with
    | nil => rfl
    | cons d ds => simp [h d rfl]
  rw [trim, hDrop hFirst, hDrop, List.reverse_reverse]
  rwa [List.head?_reverse]

end Text

namespace Numeral

open NilGuard.Text

theorem digits?_cons {c d : Char} {cs : List Char} (hd : d ≠ '_') :
    digits? (c :: d :: cs) = (digit? c).bind fun n => (digits? (d :: cs)).map (n :: ·) := by
  rw [digits?]
  · cases digit? c <;> cases digits? (d :: cs) <;> rfl
  · simp
  · intro _ hMark
    exact hd (List.cons.inj hMark).1

theorem digits?_of_isDigit {cs : List Char} (hSome : cs ≠ []) (h : ∀ c ∈ cs, c.isDigit = true) :
    digits? cs = some (cs.map fun c => c.toNat - 48) := by
  induction cs with
  | nil => exact absurd rfl hSome
  | cons c cs ih =>
      have hFirst := digit?_of_isDigit (h c List.mem_cons_self)
      cases cs with
      | nil => simp [digits?, hFirst]
      | cons d cs =>
          have hRest : ∀ e ∈ d :: cs, e.isDigit = true :=
            fun e he => h e (List.mem_cons_of_mem c he)
          have hMark : d ≠ '_' := by
            intro hEq
            have hDigit := hRest d List.mem_cons_self
            rw [hEq] at hDigit
            exact absurd hDigit (by decide)
          rw [digits?_cons hMark, hFirst, ih (by simp) hRest]
          rfl

theorem splitSign_of_isDigit {cs : List Char} (h : ∀ c ∈ cs.head?, c.isDigit = true) :
    splitSign cs = (false, cs) := by
  unfold splitSign
  split
  case h_1 => exact absurd (h '-' rfl) (by decide)
  case h_2 => exact absurd (h '+' rfl) (by decide)
  case h_3 => rfl

/-- The numeral of an integer, with a minus in front if it is negative. -/
theorem toList_toString (n : Int) :
    (toString n).toList =
      if n < 0 then '-' :: Nat.toDigits 10 n.natAbs else Nat.toDigits 10 n.natAbs := by
  cases n with
  | ofNat m =>
      rw [if_neg (by simp)]
      exact Nat.toList_repr
  | negSucc m =>
      rw [if_pos (Int.negSucc_lt_zero m)]
      change ("-" ++ Nat.repr (m + 1)).toList = _
      rw [String.toList_append, Nat.toList_repr]
      rfl

theorem isDigit_of_mem_toDigits {n : Nat} {c : Char} (h : c ∈ Nat.toDigits 10 n) :
    c.isDigit = true :=
  Nat.isDigit_of_mem_toDigits (by decide) (by decide) h

/-- The numeral of an integer with not too many digits is read as that integer. -/
theorem integer?_toString {n : Int} (h : IsShort n) :
    integer? (toString n).toList = some n := by
  have hLength : (Nat.toDigits 10 n.natAbs).length ≤ digitLimit := h
  have hDigits := digits?_of_isDigit Nat.toDigits_ne_nil fun c => isDigit_of_mem_toDigits
    (n := n.natAbs) (c := c)
  have hValue : ofDigits ((Nat.toDigits 10 n.natAbs).map fun c => c.toNat - 48) = n.natAbs := by
    rw [ofDigits_map_toNat, Nat.ofDigitChars_toDigits (by decide) (by decide)]
  have hLast : ∀ c ∈ (Nat.toDigits 10 n.natAbs).getLast?, isBlank c = false := fun c hc =>
    not_isBlank_of_isDigit (isDigit_of_mem_toDigits (List.mem_of_mem_getLast? hc))
  have hHead : ∀ c ∈ (Nat.toDigits 10 n.natAbs).head?, c.isDigit = true := fun c hc =>
    isDigit_of_mem_toDigits (List.mem_of_mem_head? hc)
  rw [toList_toString, integer?]
  by_cases hn : n < 0
  · rw [if_pos hn, trim_eq_self (by simp [isBlank]) ?_]
    · simp only [splitSign, hDigits, Option.bind_eq_bind, Option.bind_some, List.length_map,
        if_pos hLength, hValue, if_true]
      congr 1
      omega
    · rwa [List.getLast?_cons_of_ne_nil Nat.toDigits_ne_nil]
  · rw [if_neg hn, trim_eq_self (fun c hc => not_isBlank_of_isDigit (hHead c hc)) hLast,
      splitSign_of_isDigit hHead]
    simp only [hDigits, Option.bind_eq_bind, Option.bind_some, List.length_map, if_pos hLength,
      hValue, Bool.false_eq_true, if_false]
    congr 1
    omega

end Numeral

end NilGuard
