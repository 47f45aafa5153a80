import NilGuard.Proofs.Preorder
/-! The loop of an analysis with everything that it does at a visit: the calls are validated, what
is found is reported to a list that may be shared, and a call that cannot be judged ends the
loop. It makes the visits of the walk and has the events of the function. -/
namespace NilGuard

/-- What a report is about: a call in a block, the comparison at the end of a block, or a
function as a whole. -/
inductive Topic where
  | call (block : Nat) (instr : Instr)
  | test (block : Nat)
  | function

structure Report where
  topic : Topic
  diagnostic : Diagnostic

/-- An analysis under way: the visits that were begun, what was reported, and why it broke
off. -/
structure Analysis where
  visits : List Visit := []
  reports : List Report := []
  crash : Option Crash := none

namespace Analysis

/-- What comes after a crash is lost. -/
def append (a b : Analysis) : Analysis :=
  match a.crash with
  | some _ => a
  | none => { visits := a.visits ++ b.visits, reports := a.reports ++ b.reports, crash := b.crash }

def concat : List Analysis → Analysis
  | [] => {}
  | a :: as => a.append (concat as)

/-- Reports the events that came up about a topic. -/
def ofEvents (topic : Topic) (e : Events) : Analysis :=
  { reports := e.diagnostics.map (⟨topic, ·⟩), crash := e.crash }

def diagnostics (a : Analysis) : List Diagnostic := a.reports.map Report.diagnostic

section Append

variable {a b : Analysis}

theorem append_of_crash (h : a.crash.isSome = true) (b : Analysis) : a.append b = a := by
  obtain ⟨k, hCrash⟩ := Option.isSome_iff_exists.mp h
  simp only [append, hCrash]

theorem append_of_no_crash (h : a.crash = none) (b : Analysis) : a.append b =
    { visits := a.visits ++ b.visits, reports := a.reports ++ b.reports, crash := b.crash } := by
  simp only [append, h]

theorem append_empty (a : Analysis) : a.append {} = a := by
  cases hCrash : a.crash with
  | some k => exact append_of_crash (by rw [hCrash]; rfl) {}
  | none =>
      rw [append_of_no_crash hCrash, List.append_nil, List.append_nil]
      exact congrArg (Analysis.mk a.visits a.reports) hCrash.symm

theorem append_assoc (a b c : Analysis) : (a.append b).append c = a.append (b.append c) := by
  cases hCrash : a.crash with
  | some k =>
      have hSome : a.crash.isSome = true := by rw [hCrash]; rfl
      simp only [append_of_crash hSome]
  | none =>
      rw [append_of_no_crash hCrash, append_of_no_crash hCrash]
      cases hNext : b.crash with
      | some k => simp [append, hNext]
      | none => simp [append, hNext]

end Append

section Tells

/-- The analysis reports the diagnostics of the events, and breaks off as they do. -/
def Tells (a : Analysis) (e : Events) : Prop := a.diagnostics = e.diagnostics ∧ a.crash = e.crash

theorem tells_ofEvents (topic : Topic) (e : Events) : (ofEvents topic e).Tells e := by
  constructor
  · simp [ofEvents, diagnostics, Function.comp_def]
  · rfl

theorem Tells.append {a b : Analysis} {e f : Events} (ha : a.Tells e) (hb : b.Tells f) :
    (a.append b).Tells (e.append f) := by
  obtain ⟨haReports, haCrash⟩ := ha
  obtain ⟨hbReports, hbCrash⟩ := hb
  unfold Analysis.append Events.append
  rw [haCrash]
  cases hCrash : e.crash with
  | some k => exact ⟨haReports, haCrash⟩
  | none =>
      refine ⟨?_, hbCrash⟩
      rw [Events.diagnostics, List.filterMap_append]
      simp only [diagnostics, Events.diagnostics] at haReports hbReports ⊢
      rw [List.map_append, haReports, hbReports]

theorem tells_concat {α : Type} {f : α → Analysis} {g : α → Events} (hEach : ∀ x, (f x).Tells (g x))
    (xs : List α) : (concat (xs.map f)).Tells (Events.concat (xs.map g)) := by
  induction xs with
  | nil => exact ⟨rfl, rfl⟩
  | cons x xs ih => exact (hEach x).append ih

end Tells

section Start

/-- The analysis makes the first of some visits and reports the first of some reports, and all of
them when it does not break off. -/
structure IsStartOf (a : Analysis) (vs : List Visit) (rs : List Report) : Prop where
  visits : a.visits <+: vs
  reports : a.reports <+: rs
  whole : a.crash = none → a.visits = vs ∧ a.reports = rs

theorem isStartOf_self (a : Analysis) : a.IsStartOf a.visits a.reports :=
  ⟨List.prefix_rfl, List.prefix_rfl, fun _ => ⟨rfl, rfl⟩⟩

theorem IsStartOf.append {a b : Analysis} {vs vs' : List Visit} {rs rs' : List Report}
    (ha : a.IsStartOf vs rs) (hb : b.IsStartOf vs' rs') :
    (a.append b).IsStartOf (vs ++ vs') (rs ++ rs') := by
  cases hCrash : a.crash with
  | some k =>
      rw [append_of_crash (by rw [hCrash]; rfl)]
      refine ⟨ha.visits.trans (List.prefix_append _ _), ha.reports.trans (List.prefix_append _ _),
        fun hNone => ?_⟩
      rw [hCrash] at hNone
      cases hNone
  | none =>
      obtain ⟨rfl, rfl⟩ := ha.whole hCrash
      rw [append_of_no_crash hCrash]
      refine ⟨(List.prefix_append_right_inj _).mpr hb.visits,
        (List.prefix_append_right_inj _).mpr hb.reports, fun hNone => ?_⟩
      obtain ⟨hVisits, hReports⟩ := hb.whole hNone
      exact ⟨by rw [hVisits], by rw [hReports]⟩

theorem isStartOf_concat {α : Type} {f : α → Analysis} {vs : α → List Visit}
    {rs : α → List Report} (hEach : ∀ x, (f x).IsStartOf (vs x) (rs x)) (xs : List α) :
    (concat (xs.map f)).IsStartOf (xs.flatMap vs) (xs.flatMap rs) := by
  induction xs with
  | nil => exact isStartOf_self {}
  | cons x xs ih => exact (hEach x).append ih

end Start

end Analysis

namespace Function

variable (fn : Function) (settings : Settings)

/-- What a call adds to an analysis. -/
def callAnalysis (v : Visit) (i : Instr) : Analysis :=
  .ofEvents (.call v.block i) (fn.callEvents settings v.facts i)

/-- What the comparison at the end of a visit adds to an analysis. -/
def lessonAnalysis (v : Visit) : Analysis :=
  .ofEvents (.test v.block) { events := fn.lessonEvents settings v }

/-- Validates calls one after the other. -/
def analyseCalls (v : Visit) : List Instr → Analysis → Analysis
  | [], a => a
  | i :: calls, a => analyseCalls v calls (a.append (fn.callAnalysis settings v i))

/-- One visit: its calls are validated, and then the comparison at its end is looked at. -/
def analyseVisit (v : Visit) (a : Analysis) : Analysis :=
  (fn.analyseCalls settings v (fn.instrs v.block) (a.append { visits := [v] })).append
    (fn.lessonAnalysis settings v)

/-- Continues an analysis. The first of the visits ahead is made next, no place is visited
twice, and after a crash nothing is. -/
def analyseFrom : List Visit → Marks → Analysis → Analysis
  | [], _, a => a
  | v :: ahead, m, a =>
    if fn.blocks.size ≤ fn.markOf v.block then a.append { crash := some .blockOutOfRange }
    else if _h : m.isFree (fn.markOf v.block) then
      let a' := fn.analyseVisit settings v a
      if a'.crash.isSome then a'
      else analyseFrom (fn.below v ++ ahead) (m.mark (fn.markOf v.block)) a'
    else analyseFrom ahead m a
termination_by ahead m => (m.free, ahead.length)
decreasing_by
  · exact Prod.Lex.left _ _ (Marks.free_mark_lt _h)
  · exact Prod.Lex.right _ (by simp)

/-- Analyses the function from its entry, after others have reported. -/
def analyse (reports : List Report) : Analysis :=
  if fn.hasBody then
    fn.analyseFrom settings [⟨0, []⟩] (Marks.clear fn.blocks.size) { reports }
  else { reports }

/-- What a visit adds to an analysis. -/
def visitAnalysis (v : Visit) : Analysis :=
  ({ visits := [v] } : Analysis).append
    ((Analysis.concat ((fn.instrs v.block).map (fn.callAnalysis settings v))).append
      (fn.lessonAnalysis settings v))

/-- What the visits of a trail add to an analysis, and that it could not be followed to its
end. -/
def trailAnalysis (trail : Trail) : Analysis :=
  (Analysis.concat (trail.visits.map (fn.visitAnalysis settings))).append
    { crash := if trail.complete then none else some .blockOutOfRange }

variable {fn settings}

section Adding

open Analysis

theorem analyseCalls_eq (v : Visit) (calls : List Instr) (a : Analysis) :
    fn.analyseCalls settings v calls a =
      a.append (concat (calls.map (fn.callAnalysis settings v))) := by
  induction calls generalizing a with
  | nil => exact a.append_empty.symm
  | cons i calls ih => rw [analyseCalls, ih, append_assoc, List.map_cons, concat]

theorem analyseVisit_eq (v : Visit) (a : Analysis) :
    fn.analyseVisit settings v a = a.append (fn.visitAnalysis settings v) := by
  rw [analyseVisit, analyseCalls_eq, append_assoc, append_assoc, visitAnalysis]

/-- The loop makes the visits of the walk, and what each adds does not depend on what was there
before. -/
theorem analyseFrom_eq (ahead : List Visit) (m : Marks) (a : Analysis) :
    fn.analyseFrom settings ahead m a =
      a.append (fn.trailAnalysis settings (fn.walkFrom ahead m)) := by
  induction ahead, m using walkFrom.induct fn generalizing a with
  | case1 m =>
      rw [analyseFrom, walkFrom]
      exact a.append_empty.symm
  | case2 v ahead m hOut =>
      rw [analyseFrom, if_pos hOut, walkFrom, if_pos hOut]
      rfl
  | case3 v ahead m hIn hFree ih =>
      rw [analyseFrom, if_neg hIn, dif_pos hFree, walkFrom, if_neg hIn, dif_pos hFree,
        trailAnalysis, List.map_cons, concat, append_assoc, ← append_assoc, ← analyseVisit_eq]
      simp only
      -- after a crash the loop stops, and appending has no effect
      split
      case isTrue hCrash => exact (append_of_crash hCrash _).symm
      case isFalse => exact ih _
  | case4 v ahead m hIn hFree ih =>
      rw [analyseFrom, if_neg hIn, dif_neg hFree, walkFrom, if_neg hIn, dif_neg hFree]
      exact ih a

theorem analyse_eq_append (fn : Function) (settings : Settings) (reports : List Report) :
    fn.analyse settings reports =
      ({ reports } : Analysis).append (fn.trailAnalysis settings fn.walk) := by
  rw [analyse, walk]
  split
  case isTrue => exact analyseFrom_eq _ _ _
  case isFalse => exact (append_empty _).symm

theorem analyse_eq (fn : Function) (settings : Settings) :
    fn.analyse settings [] = fn.trailAnalysis settings fn.walk :=
  fn.analyse_eq_append settings []

end Adding

section Telling

theorem tells_visitAnalysis (fn : Function) (settings : Settings) (v : Visit) :
    (fn.visitAnalysis settings v).Tells (fn.visitEvents settings v) := by
  have hBegun : ({ visits := [v] } : Analysis).Tells {} := ⟨rfl, rfl⟩
  have hCalls := Analysis.tells_concat
    (fun i => Analysis.tells_ofEvents (.call v.block i) (fn.callEvents settings v.facts i))
    (fn.instrs v.block)
  exact hBegun.append (hCalls.append (Analysis.tells_ofEvents _ _))

/-- The loop reports what the function is found to have, and breaks off where its events do. -/
theorem tells_analyse (fn : Function) (settings : Settings) :
    (fn.analyse settings []).Tells (fn.events settings) := by
  rw [analyse_eq]
  exact (Analysis.tells_concat (fn.tells_visitAnalysis settings) _).append ⟨rfl, rfl⟩

end Telling

section Reports

variable (fn settings)

/-- All that a visit comes to, also after a call that cannot be judged. -/
def visitReports (v : Visit) : List Report :=
  (fn.instrs v.block).flatMap (fun i => (fn.callAnalysis settings v i).reports) ++
    (fn.lessonAnalysis settings v).reports

variable {fn settings}

theorem isStartOf_visitAnalysis (fn : Function) (settings : Settings) (v : Visit) :
    (fn.visitAnalysis settings v).IsStartOf [v] (fn.visitReports settings v) := by
  have hCalls := Analysis.isStartOf_concat
    (fun i => Analysis.isStartOf_self (fn.callAnalysis settings v i)) (fn.instrs v.block)
  have hNone : (fn.instrs v.block).flatMap (fun i => (fn.callAnalysis settings v i).visits) = [] :=
    List.flatMap_eq_nil_iff.mpr fun _ _ => rfl
  rw [hNone] at hCalls
  exact (Analysis.isStartOf_self { visits := [v] }).append
    (hCalls.append (Analysis.isStartOf_self (fn.lessonAnalysis settings v)))

/-- An analysis makes the visits of the walk and reports what each comes to, up to the call that
it breaks off at. -/
theorem isStartOf_analyse (fn : Function) (settings : Settings) :
    (fn.analyse settings []).IsStartOf fn.walk.visits
      (fn.walk.visits.flatMap (fn.visitReports settings)) := by
  have hVisits :=
    Analysis.isStartOf_concat (fn.isStartOf_visitAnalysis settings) fn.walk.visits
  have hEnd := hVisits.append (Analysis.isStartOf_self
    { crash := if fn.walk.complete then none else some .blockOutOfRange })
  rw [List.append_nil, List.append_nil, List.flatMap_singleton'] at hEnd
  rw [analyse_eq]
  exact hEnd

theorem category_of_mem_callAnalysis {v : Visit} {i : Instr} {r : Report}
    (hr : r ∈ (fn.callAnalysis settings v i).reports) :
    r.topic = .call v.block i ∧ r.diagnostic.category = Diagnostic.argumentCategory := by
  obtain ⟨d, hd, rfl⟩ := List.mem_map.mp hr
  rw [Events.diagnostics, fn.diagnostics_callEvents settings v i] at hd
  obtain ⟨f, hf, rfl⟩ := List.mem_map.mp hd
  rw [Option.mem_toList, callFinding?] at hf
  split at hf
  case h_1 =>
    obtain ⟨_, -, rfl⟩ := Option.map_eq_some_iff.mp hf
    exact ⟨rfl, rfl⟩
  case h_2 => cases hf

theorem category_of_mem_lessonAnalysis {v : Visit} {r : Report}
    (hr : r ∈ (fn.lessonAnalysis settings v).reports) :
    r.topic = .test v.block ∧ r.diagnostic.category = Diagnostic.conditionCategory := by
  obtain ⟨d, hd, rfl⟩ := List.mem_map.mp hr
  rw [Events.diagnostics, fn.diagnostics_lessonEvents settings v] at hd
  obtain ⟨f, hf, rfl⟩ := List.mem_map.mp hd
  rw [Option.mem_toList, lessonFinding?] at hf
  split at hf
  case h_1 =>
    split at hf
    case isTrue =>
      cases hf
      exact ⟨rfl, rfl⟩
    case isFalse => cases hf
  case h_2 => cases hf

/-- Only calls and comparisons are reported. -/
theorem category_of_mem_reports {r : Report} (hr : r ∈ (fn.analyse settings []).reports) :
    r.diagnostic.category = Diagnostic.argumentCategory ∨
      r.diagnostic.category = Diagnostic.conditionCategory := by
  obtain ⟨v, -, hr⟩ := List.mem_flatMap.mp ((fn.isStartOf_analyse settings).reports.subset hr)
  rcases List.mem_append.mp hr with hr | hr
  · obtain ⟨i, -, hr⟩ := List.mem_flatMap.mp hr
    exact Or.inl (category_of_mem_callAnalysis hr).2
  · exact Or.inr (category_of_mem_lessonAnalysis hr).2

end Reports

end Function

end NilGuard
