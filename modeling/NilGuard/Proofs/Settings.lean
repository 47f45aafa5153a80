import Mathlib
import NilGuard.Proofs.Analysis
import NilGuard.Proofs.Checked
/-! Settings do not steer an analysis. Targets and the choice to report conditions decide what is
reported at a visit, but not which visits are made, unless a call cannot be judged. -/
namespace NilGuard

/-- The callee that an instruction calls by its name. -/
def Instr.callee? (i : Instr) : Option Callee :=
  match i.op with
  | .call _ callee _ => callee
  | _ => none

namespace Report

def isCondition (r : Report) : Bool := r.diagnostic.category == Diagnostic.conditionCategory

/-- Whether a report is about a call to a callee. -/
def isAt (c : Callee) (r : Report) : Bool :=
  match r.topic with
  | .call _ i => i.callee? = some c
  | _ => false

end Report

namespace Analysis

/-- The reports of one kind. -/
def only (p : Report → Bool) (a : Analysis) : List Report := a.reports.filter p

/-- Two analyses agree on what is seen of them: if the second does not break off, what is seen
of the first is the first part of it, and all of it if the first does not break off either. -/
def AgreeOn {α : Type} (seen : Analysis → List α) (a b : Analysis) : Prop :=
  b.crash = none → seen a <+: seen b ∧ (a.crash = none → seen a = seen b)

/-- An analysis breaks off where another does not, and neither its visits nor its reports about
conditions are those of the other. -/
def StopsShortOf (a : Analysis) (k : Crash) (b : Analysis) : Prop :=
  a.crash = some k ∧ b.crash = none ∧ a.visits ≠ b.visits ∧
    a.only Report.isCondition ≠ b.only Report.isCondition

theorem stopsShortOf_of_length {a b : Analysis} {k : Crash}
    (hCounts : a.crash = some k ∧ b.crash = none ∧ a.visits.length < b.visits.length ∧
      (a.only Report.isCondition).length < (b.only Report.isCondition).length) :
    a.StopsShortOf k b := by
  obtain ⟨hCrash, hNone, hVisits, hReports⟩ := hCounts
  exact ⟨hCrash, hNone, fun hSame => by simp [hSame] at hVisits,
    fun hSame => by simp [hSame] at hReports⟩

/-- The analysis with its reports about conditions left out. -/
def withoutConditions (a : Analysis) : Analysis :=
  { a with reports := a.reports.filter (!·.isCondition) }

theorem withoutConditions_append (a b : Analysis) :
    (a.append b).withoutConditions = a.withoutConditions.append b.withoutConditions := by
  cases hCrash : a.crash with
  | some k => simp [append, withoutConditions, hCrash]
  | none => simp [append, withoutConditions, hCrash]

theorem withoutConditions_concat {α : Type} {f g : α → Analysis}
    (hEach : ∀ x, (f x).withoutConditions = g x) (xs : List α) :
    (concat (xs.map f)).withoutConditions = concat (xs.map g) := by
  induction xs with
  | nil => rfl
  | cons x xs ih =>
      rw [List.map_cons, concat, withoutConditions_append, hEach, ih, List.map_cons, concat]

end Analysis

namespace Function

variable {fn : Function} {settings : Settings} {v : Visit}

theorem isCondition_of_call {i : Instr} {r : Report}
    (hr : r ∈ (fn.callAnalysis settings v i).reports) : r.isCondition = false := by
  rw [Report.isCondition, (category_of_mem_callAnalysis hr).2]
  decide

theorem isCondition_of_lesson {r : Report} (hr : r ∈ (fn.lessonAnalysis settings v).reports) :
    r.isCondition = true := by
  rw [Report.isCondition, (category_of_mem_lessonAnalysis hr).2]
  exact beq_self_eq_true _

section Conditions

variable {targets : List ResolvedTarget}

/-- Calls are judged the same whether conditions are reported or not. -/
theorem withoutConditions_callAnalysis (v : Visit) (i : Instr) :
    (fn.callAnalysis (.ofTargets targets true) v i).withoutConditions =
      fn.callAnalysis (.ofTargets targets false) v i := by
  have hAll : (fn.callAnalysis (.ofTargets targets true) v i).reports.filter (!·.isCondition) =
      (fn.callAnalysis (.ofTargets targets true) v i).reports :=
    List.filter_eq_self.mpr fun r hr => by rw [isCondition_of_call hr]; rfl
  rw [Analysis.withoutConditions, hAll]
  rfl

/-- A comparison is looked at the same whether it is to be reported or not. -/
theorem withoutConditions_lessonAnalysis (v : Visit) :
    (fn.lessonAnalysis (.ofTargets targets true) v).withoutConditions =
      fn.lessonAnalysis (.ofTargets targets false) v := by
  have hOff : (fn.lessonEvents (.ofTargets targets false) v).filterMap Event.diagnostic? = [] := by
    rw [diagnostics_lessonEvents, lessonFinding?]
    cases fn.lesson v <;> rfl
  have hOn : (fn.lessonAnalysis (.ofTargets targets true) v).reports.filter (!·.isCondition) = [] :=
    List.filter_eq_nil_iff.mpr fun r hr => by rw [isCondition_of_lesson hr]; decide
  rw [Analysis.withoutConditions, hOn]
  simp only [lessonAnalysis, Analysis.ofEvents, Events.diagnostics, hOff, List.map_nil]

theorem withoutConditions_visitAnalysis (v : Visit) :
    (fn.visitAnalysis (.ofTargets targets true) v).withoutConditions =
      fn.visitAnalysis (.ofTargets targets false) v := by
  rw [visitAnalysis, Analysis.withoutConditions_append, Analysis.withoutConditions_append,
    Analysis.withoutConditions_concat (withoutConditions_callAnalysis v),
    withoutConditions_lessonAnalysis]
  rfl

/-- Not to report conditions leaves them out of the reports and changes nothing else. -/
theorem withoutConditions_analyse (fn : Function) (targets : List ResolvedTarget) :
    (fn.analyse (.ofTargets targets true) []).withoutConditions =
      fn.analyse (.ofTargets targets false) [] := by
  rw [analyse_eq, analyse_eq, trailAnalysis, Analysis.withoutConditions_append,
    Analysis.withoutConditions_concat withoutConditions_visitAnalysis]
  rfl

end Conditions

section Reports

theorem filter_isCondition_visitReports (v : Visit) :
    (fn.visitReports settings v).filter Report.isCondition =
      (fn.lessonAnalysis settings v).reports := by
  have hCalls : ((fn.instrs v.block).flatMap fun i =>
      (fn.callAnalysis settings v i).reports).filter Report.isCondition = [] := by
    rw [List.filter_eq_nil_iff]
    intro r hr
    obtain ⟨i, -, hr⟩ := List.mem_flatMap.mp hr
    rw [isCondition_of_call hr]
    decide
  have hLesson : (fn.lessonAnalysis settings v).reports.filter Report.isCondition =
      (fn.lessonAnalysis settings v).reports :=
    List.filter_eq_self.mpr fun r hr => isCondition_of_lesson hr
  rw [visitReports, List.filter_append, hCalls, hLesson, List.nil_append]

theorem filter_isAt_visitReports (c : Callee) (v : Visit) :
    (fn.visitReports settings v).filter (Report.isAt c) =
      (fn.instrs v.block).flatMap fun i =>
        (fn.callAnalysis settings v i).reports.filter (Report.isAt c) := by
  have hLesson : (fn.lessonAnalysis settings v).reports.filter (Report.isAt c) = [] := by
    rw [List.filter_eq_nil_iff]
    intro r hr
    simp [Report.isAt, (category_of_mem_lessonAnalysis hr).1]
  rw [visitReports, List.filter_append, hLesson, List.append_nil, List.filter_flatMap]

section Callee

variable {targets targets' : List ResolvedTarget} {c : Callee}
  (hTargets : targets.filter (·.callee = c) = targets'.filter (·.callee = c))
  (reportConditions reportConditions' : Bool)
include hTargets

/-- Targets of other callees do not matter to a call. -/
theorem callAnalysis_congr (v : Visit) {i : Instr} (hCallee : i.callee? = some c) :
    fn.callAnalysis (.ofTargets targets reportConditions) v i =
      fn.callAnalysis (.ofTargets targets' reportConditions') v i := by
  obtain ⟨location, op⟩ := i
  cases op with
  | call result callee args =>
      obtain rfl : callee = some c := hCallee
      simp only [callAnalysis, callEvents, Settings.ofTargets, Validator.validate,
        Validator.group_ofTargets, hTargets]
  | _ => rfl

theorem filter_isAt_callAnalysis (v : Visit) (i : Instr) :
    (fn.callAnalysis (.ofTargets targets reportConditions) v i).reports.filter (Report.isAt c) =
      (fn.callAnalysis (.ofTargets targets' reportConditions') v i).reports.filter
        (Report.isAt c) := by
  by_cases hCallee : i.callee? = some c
  · rw [callAnalysis_congr hTargets reportConditions reportConditions' v hCallee]
  · have hOther : ∀ settings : Settings,
        (fn.callAnalysis settings v i).reports.filter (Report.isAt c) = [] := by
      intro settings
      rw [List.filter_eq_nil_iff]
      intro r hr
      simpa [Report.isAt, (category_of_mem_callAnalysis hr).1] using hCallee
    rw [hOther, hOther]

end Callee

/-- Where the settings show the same of each visit, they show the same of the analysis. -/
theorem agreeOn_filter {settings' : Settings} {p : Report → Bool} (hSame : ∀ v,
      (fn.visitReports settings v).filter p = (fn.visitReports settings' v).filter p) :
    Analysis.AgreeOn (Analysis.only p) (fn.analyse settings []) (fn.analyse settings' []) := by
  have hAll : (fn.walk.visits.flatMap (fn.visitReports settings)).filter p =
      (fn.walk.visits.flatMap (fn.visitReports settings')).filter p := by
    simp only [List.filter_flatMap, hSame]
  intro hCrash
  have hStart := fn.isStartOf_analyse settings
  rw [Analysis.only, Analysis.only, ((fn.isStartOf_analyse settings').whole hCrash).2, ← hAll]
  exact ⟨hStart.reports.filter p, fun hNone => by rw [(hStart.whole hNone).2]⟩

end Reports

/-- A target for a callee that the loop does not call. -/
def guardedOther : ResolvedTarget := ⟨{ package := "guards", name := "other" }, 0⟩

/-- A target for what would stand two places before the end of the arguments. -/
def guardedBefore : ResolvedTarget := ⟨{ package := "guards", name := "use" }, -2⟩

/-- Settings do not steer an analysis. With any targets, and whether conditions are reported or
not, the visits are those of the walk; the reports about conditions do not depend on the targets,
and those about calls to a callee only on the targets that name it; not to report conditions
leaves them out and changes nothing else. An analysis that breaks off comes to the first part of
this. None does with targets that count arguments from the front, if no argument is open. -/
theorem settings_do_not_steer (fn : Function) (targets targets' : List ResolvedTarget)
    (reportConditions reportConditions' : Bool) :
    let a := fn.analyse (.ofTargets targets reportConditions) []
    let a' := fn.analyse (.ofTargets targets' reportConditions') []
    a.Tells (fn.events (.ofTargets targets reportConditions)) ∧
      Analysis.AgreeOn Analysis.visits a a' ∧
      (a.crash = none → a.visits = fn.walk.visits) ∧
      (reportConditions = reportConditions' →
        Analysis.AgreeOn (Analysis.only Report.isCondition) a a') ∧
      (∀ c, targets.filter (·.callee = c) = targets'.filter (·.callee = c) →
        Analysis.AgreeOn (Analysis.only (Report.isAt c)) a a') ∧
      (fn.analyse (.ofTargets targets true) []).withoutConditions =
        fn.analyse (.ofTargets targets false) [] ∧
      (fn.IsLinked → (∀ b < fn.blocks.size, ∀ i ∈ fn.instrs b, ∀ x ∈ i.op.args, x.isSome) →
        (∀ t ∈ targets, 0 ≤ t.argIndex) → a.crash = none) := by
  intro a a'
  have hStart := fn.isStartOf_analyse (.ofTargets targets reportConditions)
  have hStart' := fn.isStartOf_analyse (.ofTargets targets' reportConditions')
  have hTells := fn.tells_analyse (.ofTargets targets reportConditions)
  refine ⟨hTells, fun hCrash => ?_, fun hCrash => (hStart.whole hCrash).1, fun hSame => ?_,
    fun c hTargets => ?_, fn.withoutConditions_analyse targets, fun hLinked hArgs hTargets => ?_⟩
  · rw [(hStart'.whole hCrash).1]
    exact ⟨hStart.visits, fun hNone => (hStart.whole hNone).1⟩
  · subst hSame
    refine agreeOn_filter fun v => ?_
    rw [filter_isCondition_visitReports, filter_isCondition_visitReports]
    rfl
  · refine agreeOn_filter fun v => ?_
    simp only [filter_isAt_visitReports,
      filter_isAt_callAnalysis hTargets reportConditions reportConditions']
  · rw [hTells.2]
    exact crash_eq_none_of_isSome_args hLinked hArgs hTargets

/-- The call of the loop is reported with a target for it, and not with one for another callee;
the second test is reported with both. -/
theorem settings_do_not_steer_guardedLoop :
    guardedLoop.IsLinked ∧
      (guardedLoop.analyse (.ofTargets [guardedTarget] true) []).crash = none ∧
      (guardedLoop.analyse (.ofTargets [guardedOther] true) []).crash = none ∧
      (guardedLoop.analyse (.ofTargets [guardedTarget] true) []).visits =
        (guardedLoop.analyse (.ofTargets [guardedOther] true) []).visits ∧
      (guardedLoop.analyse (.ofTargets [guardedTarget] true) []).only Report.isCondition =
        (guardedLoop.analyse (.ofTargets [guardedOther] true) []).only Report.isCondition := by
  have hArgs : ∀ b < guardedLoop.blocks.size, ∀ i ∈ guardedLoop.instrs b, ∀ x ∈ i.op.args,
      x.isSome := by decide
  have hOther := settings_do_not_steer guardedLoop [guardedOther] [guardedTarget] true true
  have hUse := settings_do_not_steer guardedLoop [guardedTarget] [guardedOther] true true
  have hCrash' := hOther.2.2.2.2.2.2 isLinked_guardedLoop hArgs (by decide)
  obtain ⟨-, hVisits, -, hConditions, -, -, hSound⟩ := hUse
  have hCrash := hSound isLinked_guardedLoop hArgs (by decide)
  exact ⟨isLinked_guardedLoop, hCrash, hCrash', (hVisits hCrash').2 hCrash,
    (hConditions rfl hCrash').2 hCrash⟩

/-- The loop with the argument of its call left open. -/
def openLoop : Function :=
  let result : Value := .leaf { id := 4, name := "result" } .other
  let use : Callee := { package := "guards", name := "use" }
  { guardedLoop with
    blocks := guardedLoop.blocks.modify 2 fun b =>
      { b with instrs := [{ op := .call result (some use) [none] }, { op := .jump }] } }

theorem isLinked_openLoop : openLoop.IsLinked := by
  have hWell : openLoop.IsWellFormed := ⟨by decide, by decide⟩
  have hOrder : openLoop.withPreds.graph.order = [0, 1, 3, 4, 2] := by cbv
  have hTree : openLoop.withPreds.graph.domTree =
      ⟨#[some 0, some 0, some 1, some 1, some 3]⟩ := by
    rw [Graph.domTree, hOrder]
    decide
  have hSame : openLoop.withPreds.withTree ⟨#[some 0, some 0, some 1, some 1, some 3]⟩ =
      openLoop := by decide
  exact ⟨openLoop, _, hWell, by rw [link_eq hWell, hTree, hSame]⟩

/-- A call that cannot be judged breaks off the analysis: one whose argument is open, with a
target for it, and one with a target for an argument before the first. The block with the second
test is then not visited, and the test is not reported. -/
theorem unjudged_call_steers :
    openLoop.IsLinked ∧
      (openLoop.analyse (.ofTargets [guardedTarget] true) []).StopsShortOf .openArgument
        (openLoop.analyse (.ofTargets [guardedOther] true) []) ∧
      guardedLoop.IsLinked ∧
      (guardedLoop.analyse (.ofTargets [guardedBefore] true) []).StopsShortOf .argumentOutOfRange
        (guardedLoop.analyse (.ofTargets [guardedOther] true) []) := by
  refine ⟨isLinked_openLoop, ?_, isLinked_guardedLoop, ?_⟩
  · apply Analysis.stopsShortOf_of_length
    cbv
  · apply Analysis.stopsShortOf_of_length
    cbv

end Function

end NilGuard
