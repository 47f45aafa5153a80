import Mathlib
import NilGuard.Cli.Run
import NilGuard.Proofs.Numerals
import NilGuard.Proofs.Pool
import NilGuard.Proofs.Records
/-! What is written about a program. The places of its diagnostics come from dumps and their
positions from targets, so their integers have numerals and each of them has a record. The
summary counts every diagnostic once. -/
namespace NilGuard

namespace Location

/-- A place with its numbers in full. -/
def shown (l : Location) : String :=
  if l.line ≤ 0 then if l.file = "" then "-" else l.file
  else l.file ++ ":" ++ toString l.line ++ if l.column = 0 then "" else ":" ++ toString l.column

theorem HasNumerals.text?_eq {l : Location} (h : l.HasNumerals) : l.text? = some l.shown := by
  have hLine : Numeral.text? l.line = some (toString l.line) := if_pos h.1
  have hColumn : Numeral.text? l.column = some (toString l.column) := if_pos h.2
  by_cases hKnown : l.line ≤ 0
  · simp [text?, shown, isKnown, hKnown, not_lt.mpr hKnown]
  · by_cases hZero : l.column = 0
    · simp [text?, shown, isKnown, hKnown, not_le.mp hKnown, hLine, hZero]
    · simp [text?, shown, isKnown, hKnown, not_le.mp hKnown, hLine, hColumn, hZero,
        String.append_assoc]

end Location

namespace Diagnostic

/-- The diagnostic is about an argument or a condition, and its integers have numerals. -/
structure IsWritable (d : Diagnostic) : Prop where
  built : d.IsBuilt
  short : d.HasShortIntegers

theorem isWritable_nilArgument {location : Location} (hLocation : location.HasNumerals)
    {position : Int} (hPosition : Numeral.IsShort position) (callee function : String) :
    (nilArgument location callee position function).IsWritable := by
  refine ⟨isBuilt_nilArgument hPosition, fun n hn => ?_⟩
  rcases mem_integers_json.mp hn with rfl | rfl | hn
  · exact hLocation.1
  · exact hLocation.2
  · obtain rfl : n = position := by simpa [nilArgument, Json.integers, Json.fieldIntegers] using hn
    exact hPosition

theorem isWritable_condition {location : Location} (hLocation : location.HasNumerals)
    (adjective : String) (x : Nilness) (operator : String) (y : Nilness) (function : String) :
    (condition location adjective x operator y function).IsWritable := by
  refine ⟨.condition .., fun n hn => ?_⟩
  rcases mem_integers_json.mp hn with rfl | rfl | hn
  · exact hLocation.1
  · exact hLocation.2
  · simp [condition, Json.integers, Json.fieldIntegers] at hn

theorem IsWritable.hasNumerals {d : Diagnostic} (h : d.IsWritable) : d.location.HasNumerals :=
  ⟨h.short _ (mem_integers_json.mpr (.inl rfl)),
    h.short _ (mem_integers_json.mpr (.inr (.inl rfl)))⟩

end Diagnostic

/-- Findings stand at the places of instructions, and their positions are those of targets. -/
theorem Function.isWritable_of_mem_findings {fn : Function} {targets : List ResolvedTarget}
    {reportConditions : Bool} (hLinked : fn.IsLinked)
    (hPlaces : ∀ block ∈ fn.blocks, ∀ i ∈ block.instrs, i.location.HasNumerals)
    (hTargets : ∀ t ∈ targets, Numeral.IsShort t.position) {d : Diagnostic}
    (hd : d ∈ fn.findings (.ofTargets targets reportConditions)) : d.IsWritable := by
  obtain ⟨f, hf, rfl⟩ := List.mem_map.mp ((fn.findings_prefix _ (walk_complete hLinked)).subset hd)
  obtain ⟨v, hv, -, hSource⟩ := mem_located hf
  rcases hSource with ⟨i, hi, result, c, args, t, u, -, ht, -, -, -, hText⟩ |
    ⟨c, x, y, hComparison, -, -, hText⟩
  · have hLt := lt_size_of_mem_visits hLinked hv
    rw [instrs_eq hLt] at hi
    rw [Settings.ofTargets, Validator.group_ofTargets, List.mem_filter] at ht
    rw [hText]
    exact Diagnostic.isWritable_nilArgument (hPlaces _ (Array.getElem_mem hLt) i hi)
      (hTargets t ht.1) _ _
  · obtain ⟨condition, b, _, _, -, hBinary, -, rfl, -⟩ := comparison?_eq_some hComparison
    obtain ⟨block, hBlock, i, hi, hEq⟩ := exists_instr_of_binaryOf? hBinary
    rw [hText]
    have hPlace := hPlaces block hBlock i hi
    rw [Instr.binary?] at hEq
    split at hEq
    case h_1 =>
      obtain ⟨hLocation, -⟩ := Binary.mk.inj (Option.some.inj hEq)
      rw [hLocation] at hPlace
      exact Diagnostic.isWritable_condition hPlace _ _ _ _ _
    case h_2 => cases hEq

/-- All diagnostics about a loaded program can be written, whatever its workers do. -/
theorem isWritable_of_mem_checkBy {texts : List String} {p : Program}
    (hLoaded : Program.loadAll? {} texts = some p) {resolved : List ResolvedTarget}
    (hNonneg : ∀ t ∈ resolved, 0 ≤ t.argIndex)
    (hShort : ∀ t ∈ resolved, Numeral.IsShort t.position) (reportConditions : Bool) (jobs : Int)
    (choices : List Nat) :
    ∀ d ∈ (checkBy (.ofTargets resolved reportConditions) jobs choices p.functions).diagnostics,
      d.IsWritable := by
  intro d hd
  have hSame := isRearranged_checkBy (.ofTargets resolved reportConditions) jobs choices p.functions
  have hReported := (List.mergeSort_perm _ _).mem_iff.mp (hSame.perm.mem_iff.mp hd)
  obtain ⟨fn, hfn, hd⟩ := List.mem_flatMap.mp hReported
  have hFn : fn ∈ p.allFunctions := (List.mem_filter.mp (List.mem_filter.mp hfn).1).1
  have hSound := Program.isSound_empty.loadAll? hLoaded fn hFn
  rw [Function.reports, hSound.crash_eq_none hNonneg, List.append_nil] at hd
  refine Function.isWritable_of_mem_findings hSound.linked (fun block hBlock i hi => ?_) hShort hd
  rw [← Program.loadEach_of_loadAll? hLoaded] at hFn
  exact Program.hasNumerals_loadEach hFn hBlock hi

section Counts

variable {d : Diagnostic} {r : Results}

theorem Diagnostic.IsBuilt.isInternal (h : d.IsBuilt) : Results.isInternal d = false := by
  cases h with
  | nilArgument h =>
      cases (Option.ite_none_right_eq_some.mp h).2
      rfl
  | condition => rfl

/-- The identifier of a diagnostic tells its category. -/
theorem Diagnostic.IsBuilt.category (h : d.IsBuilt) :
    (d.category == argumentCategory) = decide (d.errorId = "nilPassed") ∧
      (d.category == conditionCategory) = decide (d.errorId ≠ "nilPassed") := by
  cases h with
  | nilArgument h =>
      cases (Option.ite_none_right_eq_some.mp h).2
      exact ⟨rfl, rfl⟩
  | condition location adjective x operator y function =>
      by_cases hTrue : adjective = "tautological" <;>
        simp [Diagnostic.condition, hTrue, argumentCategory, conditionCategory]

namespace Results

/-- The counts of a summary: all diagnostics, those about arguments and the others. -/
def counts (r : Results) (tenths : Nat) : String :=
  "nilnop: " ++ toString r.diagnostics.length ++ " finding(s) in " ++ toString r.checked ++
    " function(s) (" ++ toString (tenths / 10) ++ "." ++ toString (tenths % 10) ++ "ms)" ++ "\n" ++
    "  nil arguments:         " ++
    toString (r.diagnostics.countP (·.errorId = "nilPassed")) ++ "\n" ++
    "  degenerate conditions: " ++
    toString (r.diagnostics.countP (·.errorId ≠ "nilPassed"))

theorem internalErrors_of_isBuilt (h : ∀ d ∈ r.diagnostics, d.IsBuilt) : r.internalErrors = [] := by
  rw [internalErrors, List.filter_eq_nil_iff]
  intro d hd
  simp [(h d hd).isInternal]

theorem findings_of_internalErrors_eq_nil (h : r.internalErrors = []) :
    r.findings = r.diagnostics := by
  rw [findings, List.filter_eq_self]
  intro d hd
  simpa using List.filter_eq_nil_iff.mp h d hd

theorem summary_eq_counts (h : ∀ d ∈ r.diagnostics, d.IsBuilt) (tenths : Nat) :
    r.summary tenths = r.counts tenths := by
  have hArguments : (r.byCategory Diagnostic.argumentCategory).length =
      r.diagnostics.countP (·.errorId = "nilPassed") := by
    rw [byCategory, ← List.countP_eq_length_filter]
    exact List.countP_congr fun d hd => by rw [(h d hd).category.1]
  have hConditions : (r.byCategory Diagnostic.conditionCategory).length =
      r.diagnostics.countP (·.errorId ≠ "nilPassed") := by
    rw [byCategory, ← List.countP_eq_length_filter]
    exact List.countP_congr fun d hd => by rw [(h d hd).category.2]
  have hInternal := internalErrors_of_isBuilt h
  rw [summary, total, findings_of_internalErrors_eq_nil hInternal, hInternal, hArguments,
    hConditions]
  simp only [List.isEmpty_nil, if_true, List.append_nil, String.intercalate_cons_cons,
    String.intercalate_singleton]
  unfold counts
  simp only [String.append_assoc]

end Results

end Counts

namespace Cli

/-- What a record says about a diagnostic. In the plain formats it is the place, the severity,
the message and the identifier; in the other one it is read back as it was written. -/
def Format.Shows : Format → Diagnostic → String → Prop
  | .json, d, record => d.IsShownBy record
  | _, d, record => record = d.location.shown ++ ": " ++ d.severity.text ++ ": " ++ d.message ++
      " [" ++ d.errorId ++ "]"

section Records

variable (format : Format) {d : Diagnostic} {ds : List Diagnostic}

theorem exists_record (h : d.IsWritable) :
    ∃ record, format.record? d = some record ∧ format.Shows d record := by
  have hPlain : d.text? = some (d.location.shown ++ ": " ++ d.severity.text ++ ": " ++ d.message ++
      " [" ++ d.errorId ++ "]") := by
    rw [Diagnostic.text?, h.hasNumerals.text?_eq]
    rfl
  cases format with
  | json => exact ⟨_, Diagnostic.jsonLine?_eq h.short, Diagnostic.isShownBy_ofList h.built h.short⟩
  | gcc => exact ⟨_, hPlain, rfl⟩
  | summary => exact ⟨_, hPlain, rfl⟩

/-- Each diagnostic gets one line, and none is left out. -/
theorem exists_records (h : ∀ d ∈ ds, d.IsWritable) :
    ∃ records, List.Forall₂ format.Shows ds records ∧
      format.records ds = { text := String.join (records.map (· ++ "\n")) } := by
  induction ds with
  | nil => exact ⟨[], .nil, rfl⟩
  | cons d ds ih =>
      rw [List.forall_mem_cons] at h
      obtain ⟨record, hRecord, hShows⟩ := exists_record format h.1
      obtain ⟨records, hAll, hText⟩ := ih h.2
      refine ⟨record :: records, .cons hShows hAll, ?_⟩
      rw [Format.records, hRecord, hText]
      simp

/-- What stands after the records. -/
def Format.closing (format : Format) (r : Results) (tenths : Nat) : String :=
  if format = .summary then "\n" ++ r.counts tenths ++ "\n" else ""

theorem exists_render {r : Results} (h : ∀ d ∈ r.diagnostics, d.IsWritable) (tenths : Nat) :
    ∃ records, List.Forall₂ format.Shows r.diagnostics records ∧
      render r tenths format =
        { text := String.join (records.map (· ++ "\n")) ++ format.closing r tenths } := by
  obtain ⟨records, hShows, hRecords⟩ := exists_records format h
  refine ⟨records, hShows, ?_⟩
  rw [render, hRecords, Format.closing, Results.summary_eq_counts fun d hd => (h d hd).built]
  cases format <;> simp [String.append_assoc]

end Records

end Cli

end NilGuard
