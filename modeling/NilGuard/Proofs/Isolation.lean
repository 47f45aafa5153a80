import NilGuard.Check.Basic
import NilGuard.Proofs.Analysis
import NilGuard.Proofs.Sort
/-! Checks of functions that may break off. All functions report to one list, and what one of
them adds to it does not depend on the others, so a check of several is put together from the
checks of each. -/
namespace NilGuard

namespace Diagnostic

/-- A list is another one put in order, with what is tied in the order that it had. -/
structure IsStableSort (sorted ds : List Diagnostic) : Prop where
  perm : sorted.Perm ds
  ordered : sorted.Pairwise (·.le ·)
  stable : ∀ key, tied key sorted = tied key ds

theorem isStableSort_sort (ds : List Diagnostic) : IsStableSort (sort ds) ds :=
  ⟨sort_perm ds, pairwise_sort ds, fun key => tied_sort key ds⟩

/-- Sorting parts before they are joined changes nothing. -/
theorem isStableSort_sort_append (as bs : List Diagnostic) :
    IsStableSort (sort (as ++ bs)) (sort as ++ sort bs) where
  perm := (sort_perm (as ++ bs)).trans ((sort_perm as).append (sort_perm bs)).symm
  ordered := pairwise_sort (as ++ bs)
  stable key := by rw [tied_sort, tied_append, tied_append, tied_sort, tied_sort]

end Diagnostic

namespace Function

/-- What is reported when an analysis broke off. -/
def breakdown (fn : Function) (crash : Option Crash) : List Diagnostic :=
  (crash.map fun k => Diagnostic.internal fn.location fn.name k.message).toList

theorem reports_eq (fn : Function) (settings : Settings) : fn.reports settings =
    (fn.analyse settings []).diagnostics ++ fn.breakdown (fn.analyse settings []).crash := by
  obtain ⟨hDiagnostics, hCrash⟩ := fn.tells_analyse settings
  rw [reports, breakdown, hDiagnostics, hCrash]
  cases (fn.events settings).crash <;> rfl

end Function

/-- Checks functions one after the other. All report to one list, to which it is also reported
that a function broke off. -/
def reportAll (settings : Settings) : List Function → List Report → List Report
  | [], reports => reports
  | fn :: fns, reports =>
    if fn.hasBody then
      let a := fn.analyse settings reports
      reportAll settings fns (a.reports ++ (fn.breakdown a.crash).map (⟨.function, ·⟩))
    else reportAll settings fns reports

theorem diagnostics_reportAll (settings : Settings) (fns : List Function) (reports : List Report) :
    (reportAll settings fns reports).map Report.diagnostic = reports.map Report.diagnostic ++
      (fns.filter Function.hasBody).flatMap (·.reports settings) := by
  induction fns generalizing reports with
  | nil => simp [reportAll]
  | cons fn fns ih =>
      rw [reportAll]
      by_cases hBody : fn.hasBody = true
      · have hOwn := fn.analyse_eq_append settings reports
        rw [Analysis.append_of_no_crash rfl, ← Function.analyse_eq] at hOwn
        rw [if_pos hBody, ih, List.filter_cons_of_pos hBody, List.flatMap_cons,
          Function.reports_eq, hOwn]
        simp [Analysis.diagnostics, Function.comp_def]
      · rw [if_neg hBody, ih, List.filter_cons_of_neg hBody]

namespace Results

theorem isInternal_of_mem_diagnostics {fn : Function} {settings : Settings} {d : Diagnostic}
    (hd : d ∈ (fn.analyse settings []).diagnostics) : isInternal d = false := by
  obtain ⟨r, hr, rfl⟩ := List.mem_map.mp hd
  rw [isInternal]
  rcases Function.category_of_mem_reports hr with hCategory | hCategory
  · rw [hCategory]
    decide
  · rw [hCategory]
    decide

/-- A function is reported to have broken off once, and only if it did. -/
theorem filter_isInternal_reports (fn : Function) (settings : Settings) :
    (fn.reports settings).filter isInternal = fn.breakdown (fn.analyse settings []).crash := by
  have hOwn : (fn.analyse settings []).diagnostics.filter isInternal = [] := by
    rw [List.filter_eq_nil_iff]
    intro d hd
    rw [isInternal_of_mem_diagnostics hd]
    decide
  rw [Function.reports_eq, List.filter_append, hOwn, List.nil_append, Function.breakdown]
  cases (fn.analyse settings []).crash <;> rfl

/-- As many functions are reported to have broken off as did. -/
theorem length_internalErrors (settings : Settings) (fns : List Function) :
    (check settings fns).internalErrors.length =
      (fns.filter fun fn => fn.hasBody && (fn.analyse settings []).crash.isSome).length := by
  rw [internalErrors, check, ((Diagnostic.sort_perm _).filter isInternal).length_eq,
    List.filter_flatMap]
  simp only [filter_isInternal_reports]
  induction fns with
  | nil => rfl
  | cons fn fns ih =>
      cases hBody : fn.hasBody with
      | false => simpa [hBody] using ih
      | true =>
          rw [List.filter_cons_of_pos hBody, List.flatMap_cons, List.length_append, ih]
          cases hCrash : (fn.analyse settings []).crash with
          | none => simp [Function.breakdown, hCrash]
          | some k =>
              simp [Function.breakdown, hBody, hCrash]
              omega

end Results

section Split

variable (settings : Settings) (fs gs : List Function)

theorem isStableSort_check_append :
    Diagnostic.IsStableSort (check settings (fs ++ gs)).diagnostics
      ((check settings fs).diagnostics ++ (check settings gs).diagnostics) := by
  simp only [check, List.filter_append, List.flatMap_append]
  exact Diagnostic.isStableSort_sort_append _ _

theorem total_check_append : (check settings (fs ++ gs)).total =
    (check settings fs).total + (check settings gs).total := by
  have hPerm := (isStableSort_check_append settings fs gs).perm
  rw [Results.total, Results.findings, (hPerm.filter _).length_eq, List.filter_append,
    List.length_append]
  rfl

end Split

/-- No function affects what is reported about another. All functions with a body report to
one list, each what the loop of its analysis alone reports until it ends, and then that it
broke off, if it did; the result is this list, sorted. So a check of a list in two parts is
put together from the checks of the parts. -/
theorem check_isolates_functions (settings : Settings) :
    (∀ fns : List Function,
      Diagnostic.IsStableSort (check settings fns).diagnostics
        ((reportAll settings fns []).map Report.diagnostic) ∧
      (reportAll settings fns []).map Report.diagnostic =
        (fns.filter Function.hasBody).flatMap (fun fn =>
          (fn.analyse settings []).diagnostics ++ fn.breakdown (fn.analyse settings []).crash) ∧
      (check settings fns).checked = (fns.filter Function.hasBody).length ∧
      (check settings fns).internalErrors.length =
        (fns.filter fun fn => fn.hasBody && (fn.analyse settings []).crash.isSome).length) ∧
    ∀ fs gs : List Function,
      Diagnostic.IsStableSort (check settings (fs ++ gs)).diagnostics
        ((check settings fs).diagnostics ++ (check settings gs).diagnostics) ∧
      (check settings (fs ++ gs)).checked =
        (check settings fs).checked + (check settings gs).checked ∧
      (check settings (fs ++ gs)).total =
        (check settings fs).total + (check settings gs).total := by
  refine ⟨fun fns => ⟨?_, ?_, rfl, Results.length_internalErrors settings fns⟩, fun fs gs => ?_⟩
  · rw [diagnostics_reportAll, List.map_nil, List.nil_append]
    exact Diagnostic.isStableSort_sort _
  · rw [diagnostics_reportAll, List.map_nil, List.nil_append]
    simp only [Function.reports_eq]
  · refine ⟨isStableSort_check_append settings fs gs, ?_, total_check_append settings fs gs⟩
    simp only [check, List.filter_append, List.length_append]

/-- Passes nil on and then calls a function with an argument too few for a target that counts
from the end. -/
def halfway : Function :=
  let null : Value := .leaf { id := 0, name := "" } (.const true "nil")
  let result : Value := .leaf { id := 1, name := "" } .other
  { callee := { package := "guards", name := "halfway" }
    blocks := #[
      { index := 0
        instrs := [{ op := .call result (some { package := "guards", name := "use" }) [some null] },
          { op := .call result (some { package := "guards", name := "stop" }) [] },
          { op := .ret [] }] }] }

example : (reportAll (.ofTargets [⟨{ package := "guards", name := "use" }, 0⟩,
    ⟨{ package := "guards", name := "stop" }, -1⟩] true) [halfway, halfway] []).map
      (·.diagnostic.errorId) =
        ["nilPassed", "checkerInternalError", "nilPassed", "checkerInternalError"] := by
  cbv

end NilGuard
