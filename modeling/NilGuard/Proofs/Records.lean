import Mathlib
import NilGuard.Check.Basic
import NilGuard.Proofs.JsonLine
/-! Diagnostics as records, one on each line. What is written about a diagnostic is read back as
it was, whatever characters its names are made of, as long as its integers have no more digits
than the reader takes. -/
namespace NilGuard

theorem mapM_eq_some_of_forall {α β : Type} {f : α → Option β} {g : α → β} {xs : List α}
    (h : ∀ x ∈ xs, f x = some (g x)) : xs.mapM f = some (xs.map g) := by
  induction xs with
  | nil => rfl
  | cons x xs ih =>
      rw [List.forall_mem_cons] at h
      rw [List.mapM_cons, h.1, ih h.2]
      rfl

namespace Diagnostic

/-- A diagnostic about an argument or about a condition. -/
inductive IsBuilt : Diagnostic → Prop where
  | nilArgument {location : Location} {callee function : String} {position : Int}
      {d : Diagnostic} (h : nilArgument? location callee position function = some d) : IsBuilt d
  | condition (location : Location) (adjective : String) (x : Nilness) (operator : String)
      (y : Nilness) (function : String) :
      IsBuilt (.condition location adjective x operator y function)

theorem isBuilt_nilArgument {location : Location} {callee function : String} {position : Int}
    (h : Numeral.IsShort position) : (nilArgument location callee position function).IsBuilt :=
  .nilArgument (if_pos h)

/-- All integers in the record of a diagnostic have numerals. -/
def HasShortIntegers (d : Diagnostic) : Prop := ∀ n ∈ d.json.integers, Numeral.IsShort n

instance (d : Diagnostic) : Decidable d.HasShortIntegers :=
  inferInstanceAs (Decidable (∀ n ∈ d.json.integers, _))

variable {d : Diagnostic}

/-- The integers of a record are the line, the column and those of the evidence. -/
theorem mem_integers_json {n : Int} : n ∈ d.json.integers ↔
    n = d.location.line ∨ n = d.location.column ∨ n ∈ (Json.obj d.evidence).integers := by
  rw [json]
  cases hEmpty : d.evidence.isEmpty with
  | true =>
      rw [List.isEmpty_iff.mp hEmpty]
      simp [Json.integers, Json.fieldIntegers]
  | false => simp [Json.integers, Json.fieldIntegers]

theorem IsBuilt.evidence (h : d.IsBuilt) : (d.evidence.map (·.1)).Nodup ∧
    ∀ f ∈ d.evidence, (∃ s, f.2 = .str s) ∨ ∃ n, f.2 = .int n := by
  cases h with
  | nilArgument h =>
      rw [nilArgument?, Option.ite_none_right_eq_some] at h
      cases h.2
      simp [Diagnostic.nilArgument]
  | condition => simp [Diagnostic.condition]

theorem isExact_evidence (hBuilt : d.IsBuilt) (hShort : d.HasShortIntegers) :
    (Json.obj d.evidence).IsExact := by
  obtain ⟨hNames, hValues⟩ := hBuilt.evidence
  refine .obj hNames fun f hf => ?_
  rcases hValues f hf with ⟨s, hStr⟩ | ⟨n, hInt⟩
  · rw [hStr]
    exact .str
  · rw [hInt]
    have hMem : n ∈ (Json.obj d.evidence).integers :=
      Json.mem_integers_obj.mpr ⟨f, hf, by simp [hInt, Json.integers]⟩
    exact .int (hShort n (mem_integers_json.mpr (.inr (.inr hMem))))

theorem isExact_json (hBuilt : d.IsBuilt) (hShort : d.HasShortIntegers) : d.json.IsExact := by
  have hLine := hShort d.location.line (mem_integers_json.mpr (.inl rfl))
  have hColumn := hShort d.location.column (mem_integers_json.mpr (.inr (.inl rfl)))
  have hEvidence := isExact_evidence hBuilt hShort
  rw [json]
  cases d.evidence.isEmpty with
  | true =>
      apply Json.IsExact.obj
      · simp
      · simp [Json.IsExact.str, Json.IsExact.int hLine, Json.IsExact.int hColumn]
  | false =>
      apply Json.IsExact.obj
      · simp
      · simp [Json.IsExact.str, Json.IsExact.int hLine, Json.IsExact.int hColumn, hEvidence]

theorem jsonLine?_eq (h : d.HasShortIntegers) :
    d.jsonLine? = some (String.ofList d.json.chars) :=
  if_pos h

/-- There is no record exactly if an integer in it has no numeral. -/
theorem jsonLine?_eq_none_iff : d.jsonLine? = none ↔ ¬ d.HasShortIntegers := by
  by_cases h : d.HasShortIntegers
  · simp [h, jsonLine?_eq h]
  · have hNone : d.jsonLine? = none := if_neg h
    simp [h, hNone]

/-- A line shows a diagnostic: it is printable ASCII and is read as the record that was
written. -/
structure IsShownBy (d : Diagnostic) (line : String) : Prop where
  written : d.jsonLine? = some line
  isInLine : ∀ c ∈ line.toList, Json.IsInLine c
  read : Json.read line = .ok d.json

theorem isShownBy_ofList (hBuilt : d.IsBuilt) (hShort : d.HasShortIntegers) :
    d.IsShownBy (String.ofList d.json.chars) := by
  have hExact := isExact_json hBuilt hShort
  refine ⟨jsonLine?_eq hShort, ?_, Json.read_ofList_chars hExact⟩
  rw [String.toList_ofList]
  exact hExact.isInLine

end Diagnostic

/-- A diagnostic has a record unless an integer in it has too many digits. Where all diagnostics
have one, each record is a line of printable ASCII, cutting the report at the line ends gives
one line for each diagnostic in order, and each line is read back as the record that was
written. -/
theorem json_lines_read_back (r : Results) (hBuilt : ∀ d ∈ r.diagnostics, d.IsBuilt) :
    (∀ d ∈ r.diagnostics, d.jsonLine? = none ↔ ¬ d.HasShortIntegers) ∧
      ((∀ d ∈ r.diagnostics, d.HasShortIntegers) → ∃ report lines,
        r.jsonLines? = some report ∧ List.Forall₂ Diagnostic.IsShownBy r.diagnostics lines ∧
          (r.diagnostics ≠ [] → report.toList.splitOn '\n' = lines.map String.toList)) := by
  refine ⟨fun d _ => Diagnostic.jsonLine?_eq_none_iff, fun hShort => ?_⟩
  let line := fun d : Diagnostic => String.ofList d.json.chars
  have hShown : ∀ d ∈ r.diagnostics, d.IsShownBy (line d) := fun d hd =>
    Diagnostic.isShownBy_ofList (hBuilt d hd) (hShort d hd)
  have hLines : r.diagnostics.mapM Diagnostic.jsonLine? = some (r.diagnostics.map line) :=
    mapM_eq_some_of_forall fun d hd => (hShown d hd).written
  refine ⟨"\n".intercalate (r.diagnostics.map line), r.diagnostics.map line, ?_, ?_, ?_⟩
  · rw [Results.jsonLines?, hLines]
    rfl
  · exact List.forall₂_map_right_iff.mpr (List.forall₂_same.mpr hShown)
  · intro hSome
    rw [String.toList_intercalate]
    apply List.splitOn_intercalate
    · intro chars hMem hBreak
      obtain ⟨text, hText, rfl⟩ := List.mem_map.mp hMem
      obtain ⟨d, hd, rfl⟩ := List.mem_map.mp hText
      exact absurd ((hShown d hd).isInLine '\n' hBreak) (by decide)
    · simpa using hSome

/-- Names of many scripts, with quotes, line ends and other control characters in them. -/
def foreignReport : Results :=
  { diagnostics :=
      [.nilArgument { file := "a\"b\\c\né\u2028.go", line := 5, column := -2 } "😀.Wrap" 12
          "p\x7f.f",
        .condition { file := "\t\r\x08\x0c\x00", line := 7 } "tautological" .nil "==" .nil "p.g"]
    checked := 2 }

theorem json_lines_read_back_foreignReport :
    (∀ d ∈ foreignReport.diagnostics, d.IsBuilt ∧ d.HasShortIntegers) ∧
      ∃ report lines, foreignReport.jsonLines? = some report ∧
        List.Forall₂ Diagnostic.IsShownBy foreignReport.diagnostics lines ∧
        report.toList.splitOn '\n' = lines.map String.toList := by
  have hBuilt : ∀ d ∈ foreignReport.diagnostics, d.IsBuilt := by
    intro d hd
    simp only [foreignReport, List.mem_cons, List.not_mem_nil, or_false] at hd
    obtain rfl | rfl := hd
    · exact Diagnostic.isBuilt_nilArgument (by decide)
    · exact .condition ..
  have hShort : ∀ d ∈ foreignReport.diagnostics, d.HasShortIntegers := by decide
  obtain ⟨report, lines, hReport, hShown, hSplit⟩ :=
    (json_lines_read_back foreignReport hBuilt).2 hShort
  exact ⟨fun d hd => ⟨hBuilt d hd, hShort d hd⟩, report, lines, hReport, hShown,
    hSplit (by simp [foreignReport])⟩

theorem length_toDigits_pow (k : Nat) : (Nat.toDigits 10 (10 ^ k)).length = k + 1 := by
  apply Nat.le_antisymm
  · rw [Nat.length_toDigits_le_iff (by decide) (Nat.succ_pos k)]
    exact Nat.pow_lt_pow_right (by decide) (Nat.lt_succ_self k)
  · rcases Nat.eq_zero_or_pos k with rfl | hPos
    · decide
    · rw [← Nat.not_lt, Nat.lt_succ_iff, Nat.length_toDigits_le_iff (by decide) hPos]
      exact Nat.lt_irrefl _

/-- A nil argument on a line whose number has one digit too many. -/
def farArgument : Diagnostic :=
  .nilArgument { file := "a.go", line := (10 ^ Numeral.digitLimit : Nat), column := 1 } "Wrap" 0
    "a.f"

/-- Not every diagnostic has a record that is read back: one with an integer of too many digits
has none, and the text that the record would have is refused. -/
theorem jsonLine?_farArgument : farArgument.IsBuilt ∧ farArgument.jsonLine? = none ∧
    ∃ e, Json.read (String.ofList farArgument.json.chars) = .error e ∧
      e.fault = .tooManyDigits 4301 := by
  have hDigits := length_toDigits_pow Numeral.digitLimit
  have hLong : ¬ Numeral.IsShort ((10 ^ Numeral.digitLimit : Nat) : Int) := by
    rw [Numeral.IsShort, Int.natAbs_natCast, hDigits]
    exact Nat.not_succ_le_self _
  refine ⟨Diagnostic.isBuilt_nilArgument (by decide), ?_, ?_⟩
  · rw [Diagnostic.jsonLine?_eq_none_iff]
    intro hShort
    exact hLong (hShort _ (Diagnostic.mem_integers_json.mpr (.inl rfl)))
  · obtain ⟨e, hRead, hFault⟩ := Json.read_of_long (k := "file") (s := "a.go") (l := "linenr") hLong
    rw [Int.natAbs_natCast, hDigits] at hFault
    exact ⟨e, hRead, hFault⟩

end NilGuard
