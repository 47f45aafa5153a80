import NilGuard.Walk.Report
import NilGuard.Proofs.History
import NilGuard.Proofs.Validator
/-! What findings are about. Every finding of a walk belongs to a block and to an argument or
a comparison in it, and says what is true there in every history. -/
namespace NilGuard

namespace Events

/-- The events are the first of a list, and all of it when nothing crashed. -/
def IsStartOf (e : Events) (all : List Event) : Prop :=
  e.events <+: all ∧ (e.crash = none → e.events = all)

theorem isStartOf_self (e : Events) : e.IsStartOf e.events := ⟨List.prefix_rfl, fun _ => rfl⟩

theorem IsStartOf.append {a b : Events} {l m : List Event} (ha : a.IsStartOf l)
    (hb : b.IsStartOf m) : (a.append b).IsStartOf (l ++ m) := by
  rw [Events.append]
  cases hCrash : a.crash with
  | some k =>
      refine ⟨ha.1.trans (List.prefix_append l m), fun hNone => ?_⟩
      rw [hCrash] at hNone
      cases hNone
  | none =>
      rw [ha.2 hCrash]
      exact ⟨(List.prefix_append_right_inj l).mpr hb.1, fun hNone => by rw [hb.2 hNone]⟩

theorem isStartOf_concat {α : Type} {f : α → Events} {g : α → List Event} {xs : List α}
    (hEach : ∀ x ∈ xs, (f x).IsStartOf (g x)) :
    (concat (xs.map f)).IsStartOf (xs.flatMap g) := by
  induction xs with
  | nil => exact isStartOf_self {}
  | cons x xs ih =>
      exact (hEach x List.mem_cons_self).append
        (ih fun y hy => hEach y (List.mem_cons_of_mem _ hy))

theorem crash_append {a b : Events} {k : Crash} (h : (a.append b).crash = some k) :
    a.crash = some k ∨ b.crash = some k := by
  rw [append] at h
  cases hCrash : a.crash with
  | some k => exact Or.inl (by simpa [hCrash] using h)
  | none => exact Or.inr (by simpa [hCrash] using h)

theorem crash_concat {es : List Events} {k : Crash} (h : (concat es).crash = some k) :
    ∃ e ∈ es, e.crash = some k := by
  induction es with
  | nil => cases h
  | cons e es ih =>
      rcases crash_append h with h | h
      · exact ⟨e, List.mem_cons_self, h⟩
      · obtain ⟨e, he, hCrash⟩ := ih h
        exact ⟨e, List.mem_cons_of_mem _ he, hCrash⟩

theorem crash_append_eq_none_iff {a b : Events} :
    (a.append b).crash = none ↔ a.crash = none ∧ b.crash = none := by
  rw [append]
  cases hCrash : a.crash with
  | some k => simp [hCrash]
  | none => simp

theorem crash_concat_eq_none_iff {es : List Events} :
    (concat es).crash = none ↔ ∀ e ∈ es, e.crash = none := by
  induction es with
  | nil => simp [concat]
  | cons e es ih => rw [concat, crash_append_eq_none_iff, ih, List.forall_mem_cons]

end Events

def Settings.ofTargets (targets : List ResolvedTarget) (reportConditions : Bool) : Settings :=
  { validator := .ofTargets targets, reportConditions }

/-- What a finding is about. -/
inductive Subject where
  | argument (value : Value)
  | comparison (comparison : Comparison)

/-- A diagnostic with the block that it comes from. -/
structure Finding where
  block : Nat
  subject : Subject
  diagnostic : Diagnostic

/-- Whether the tested condition is true, if that follows from what is nil. -/
def Comparison.truth? (c : Comparison) (s : Valuation) : Option Bool :=
  let equal? :=
    match s c.left, s c.right with
    | true, true => some true
    | false, false => none
    | _, _ => some false
  if c.operator = "==" then equal? else equal?.map (!·)

/-- When the outcome is fixed, the adjective of the condition says what it is. -/
theorem Comparison.truth?_of_fixed {c : Comparison} {facts : Facts} {s : Valuation}
    {x y : Nilness} (hOperator : c.operator = "==" ∨ c.operator = "!=")
    (hLesson : c.lesson facts = .fixed c x y)
    (hLeft : (facts.classify c.left).admits (s c.left) = true)
    (hRight : (facts.classify c.right).admits (s c.right) = true) :
    c.truth? s = some (c.adjective x y == "tautological") := by
  rw [truth?, adjective]
  rcases eq_iff_of_fixed hLesson hLeft hRight with ⟨rfl, hLeftNil, hRightNil⟩ | ⟨hNe, hDiffer⟩
  · rcases hOperator with hOperator | hOperator <;> simp [hOperator, hLeftNil, hRightNil]
  · have hOne : (s c.left = true ∧ s c.right = false) ∨ (s c.left = false ∧ s c.right = true) := by
      revert hDiffer
      cases s c.left <;> cases s c.right <;> simp
    rcases hOperator with hOperator | hOperator <;> rcases hOne with ⟨hl, hr⟩ | ⟨hl, hr⟩ <;>
      simp [hOperator, hl, hr, hNe]

/-- The argument is nil, or the comparison comes out as the diagnostic says. -/
def Finding.HoldsIn (f : Finding) (s : Valuation) : Prop :=
  match f.subject with
  | .argument v => f.diagnostic.errorId = "nilPassed" ∧ s v = true
  | .comparison c =>
    (f.diagnostic.errorId = "condTautological" ∧ c.truth? s = some true) ∨
      (f.diagnostic.errorId = "condImpossible" ∧ c.truth? s = some false)

namespace Function

/-- All that a walk comes upon, also after a crash. -/
def raised (fn : Function) (settings : Settings) : List Event :=
  fn.walk.visits.flatMap fun v =>
    ((fn.instrs v.block).flatMap fun i => (fn.callEvents settings v.facts i).events) ++
      fn.lessonEvents settings v

def callFinding? (fn : Function) (settings : Settings) (v : Visit) (i : Instr) :
    Option Finding :=
  match i.op with
  | .call _ (some c) args =>
    (Validator.nilArgument? v.facts args (settings.validator.group c)).map fun (t, u) =>
      { block := v.block
        subject := .argument u
        diagnostic := Diagnostic.nilArgument i.location c.display t.position fn.name }
  | _ => none

def lessonFinding? (fn : Function) (settings : Settings) (v : Visit) : Option Finding :=
  match fn.lesson v with
  | .fixed c x y =>
    if settings.reportConditions && c.location.isKnown then
      some
        { block := v.block
          subject := .comparison c
          diagnostic :=
            Diagnostic.condition c.location (c.adjective x y) x c.operator y fn.name }
    else none
  | _ => none

/-- The findings of a walk with their blocks and subjects, also those after a crash. -/
def located (fn : Function) (settings : Settings) : List Finding :=
  fn.walk.visits.flatMap fun v =>
    ((fn.instrs v.block).flatMap fun i => (fn.callFinding? settings v i).toList) ++
      (fn.lessonFinding? settings v).toList

/-- What the validator says about a call under the facts of a visit is among the events. -/
def IsValidated (fn : Function) (settings : Settings) (v : Visit) (i : Instr) : Prop :=
  ∀ result c args, i.op = .call result (some c) args →
    (∀ t ∈ (settings.validator.validate v.facts (some c) args).skipped,
      .tooFewArguments i.location c args.length t.argIndex ∈ (fn.events settings).events) ∧
    ∀ position, (settings.validator.validate v.facts (some c) args).found = .ok (some position) →
      .nilArgument (Diagnostic.nilArgument i.location c.display position fn.name) ∈
        (fn.events settings).events

/-- The finding is about an argument that a target names in a call of its block, or about the
comparison at the end of its block. -/
def Concerns (fn : Function) (targets : List ResolvedTarget) (f : Finding) : Prop :=
  match f.subject with
  | .argument v => ∃ i ∈ fn.instrs f.block, ∃ result c args, i.op = .call result (some c) args ∧
      ∃ t ∈ targets, t.callee = c ∧ Validator.argument? args t.argIndex = some (some v) ∧
        f.diagnostic = Diagnostic.nilArgument i.location c.display t.position fn.name
  | .comparison c => fn.comparison? f.block = some c ∧ ∃ x y, f.diagnostic =
      Diagnostic.condition c.location (c.adjective x y) x c.operator y fn.name

section Sources

variable (fn : Function) (settings : Settings)

theorem isStartOf_raised (hComplete : fn.walk.complete = true) :
    (fn.events settings).IsStartOf (fn.raised settings) := by
  have hVisit : ∀ v, (fn.visitEvents settings v).IsStartOf
      (((fn.instrs v.block).flatMap fun i => (fn.callEvents settings v.facts i).events) ++
        fn.lessonEvents settings v) := by
    intro v
    apply Events.IsStartOf.append
    · exact Events.isStartOf_concat fun i _ => Events.isStartOf_self _
    · exact Events.isStartOf_self { events := fn.lessonEvents settings v }
  have hEnd : (fn.events settings).IsStartOf (fn.raised settings ++ []) := by
    rw [events, hComplete]
    apply Events.IsStartOf.append
    · exact Events.isStartOf_concat fun v _ => hVisit v
    · exact Events.isStartOf_self {}
  rwa [List.append_nil] at hEnd

/-- Only a call that cannot be judged breaks a walk off. -/
theorem exists_crash (hComplete : fn.walk.complete = true) {k : Crash}
    (hCrash : (fn.events settings).crash = some k) : ∃ v ∈ fn.walk.visits,
      ∃ i ∈ fn.instrs v.block, (fn.callEvents settings v.facts i).crash = some k := by
  rw [events, hComplete] at hCrash
  rcases Events.crash_append hCrash with hCrash | hCrash
  · obtain ⟨e, he, hCrash⟩ := Events.crash_concat hCrash
    obtain ⟨v, hv, rfl⟩ := List.mem_map.mp he
    rcases Events.crash_append hCrash with hCrash | hCrash
    · obtain ⟨e, he, hCrash⟩ := Events.crash_concat hCrash
      obtain ⟨i, hi, rfl⟩ := List.mem_map.mp he
      exact ⟨v, hv, i, hi, hCrash⟩
    · cases hCrash
  · cases hCrash

theorem crash_eq_none_iff (hComplete : fn.walk.complete = true) :
    (fn.events settings).crash = none ↔ ∀ v ∈ fn.walk.visits, ∀ i ∈ fn.instrs v.block,
      (fn.callEvents settings v.facts i).crash = none := by
  rw [events, hComplete]
  simp [Events.crash_append_eq_none_iff, Events.crash_concat_eq_none_iff, visitEvents]

theorem diagnostics_callEvents (v : Visit) (i : Instr) :
    (fn.callEvents settings v.facts i).events.filterMap Event.diagnostic? =
      (fn.callFinding? settings v i).toList.map Finding.diagnostic := by
  obtain ⟨location, op⟩ := i
  cases op with
  | call result callee args =>
      cases callee with
      | none => rfl
      | some c =>
          have hSkipped : ∀ ts : List ResolvedTarget,
              (ts.map fun t => Event.tooFewArguments location c args.length t.argIndex).filterMap
                Event.diagnostic? = [] := by
            intro ts
            simp [List.filterMap_map, Event.diagnostic?]
          have hFound := Validator.judge_found v.facts args (settings.validator.group c)
          simp only [callEvents, callFinding?, Validator.validate]
          cases hCase : (Validator.judge v.facts args (settings.validator.group c)).found with
          | error k =>
              rw [hCase] at hFound
              rw [Option.map_eq_none_iff.mp hFound.symm]
              exact hSkipped _
          | ok position? =>
              rw [hCase] at hFound
              cases position? with
              | none =>
                  rw [Option.map_eq_none_iff.mp hFound.symm]
                  exact hSkipped _
              | some position =>
                  obtain ⟨⟨t, u⟩, hEq, rfl⟩ := Option.map_eq_some_iff.mp hFound.symm
                  rw [hEq, List.filterMap_append, hSkipped]
                  rfl
  | _ => rfl

theorem diagnostics_lessonEvents (v : Visit) :
    (fn.lessonEvents settings v).filterMap Event.diagnostic? =
      (fn.lessonFinding? settings v).toList.map Finding.diagnostic := by
  rw [lessonEvents, lessonFinding?]
  cases fn.lesson v with
  | nothing => rfl
  | learned c other => rfl
  | fixed c x y =>
      simp only
      split <;> rfl

theorem diagnostics_raised : (fn.raised settings).filterMap Event.diagnostic? =
    (fn.located settings).map Finding.diagnostic := by
  rw [raised, located, List.filterMap_flatMap, List.map_flatMap]
  congr 1
  funext v
  rw [List.filterMap_append, List.map_append, diagnostics_lessonEvents, List.filterMap_flatMap,
    List.map_flatMap]
  simp only [diagnostics_callEvents]

theorem findings_prefix (hComplete : fn.walk.complete = true) :
    fn.findings settings <+: (fn.located settings).map Finding.diagnostic := by
  rw [findings, Events.diagnostics, ← diagnostics_raised]
  exact (fn.isStartOf_raised settings hComplete).1.filterMap _

theorem findings_eq (hComplete : fn.walk.complete = true)
    (hCrash : (fn.events settings).crash = none) :
    fn.findings settings = (fn.located settings).map Finding.diagnostic := by
  rw [findings, Events.diagnostics, ← diagnostics_raised,
    (fn.isStartOf_raised settings hComplete).2 hCrash]

variable {fn settings}

/-- A finding is about an argument of a call that the facts say is nil, or about a
comparison whose outcome is fixed. -/
theorem mem_located {f : Finding} (hf : f ∈ fn.located settings) :
    ∃ v ∈ fn.walk.visits, f.block = v.block ∧
      ((∃ i ∈ fn.instrs v.block, ∃ result c args t u, i.op = .call result (some c) args ∧
          t ∈ settings.validator.group c ∧ Validator.argument? args t.argIndex = some (some u) ∧
          v.facts.classify u = .nil ∧ f.subject = .argument u ∧
          f.diagnostic = Diagnostic.nilArgument i.location c.display t.position fn.name) ∨
        ∃ c x y, fn.comparison? v.block = some c ∧ c.lesson v.facts = .fixed c x y ∧
          f.subject = .comparison c ∧ f.diagnostic =
            Diagnostic.condition c.location (c.adjective x y) x c.operator y fn.name) := by
  obtain ⟨v, hv, hf⟩ := List.mem_flatMap.mp hf
  rcases List.mem_append.mp hf with hCall | hLesson
  · obtain ⟨i, hi, hf⟩ := List.mem_flatMap.mp hCall
    rw [Option.mem_toList, callFinding?] at hf
    split at hf
    case h_1 result c args hOp =>
      obtain ⟨⟨t, u⟩, hNil, rfl⟩ := Option.map_eq_some_iff.mp hf
      obtain ⟨ht, hArgument, hClassify⟩ := Validator.nilArgument?_eq_some hNil
      exact ⟨v, hv, rfl, Or.inl ⟨i, hi, result, c, args, t, u, hOp, ht, hArgument, hClassify,
        rfl, rfl⟩⟩
    case h_2 => cases hf
  · rw [Option.mem_toList, lessonFinding?] at hLesson
    split at hLesson
    case h_1 c x y hFixed =>
      split at hLesson
      case isTrue =>
        cases hLesson
        obtain ⟨hComparison, hFixed⟩ := lesson_eq_fixed hFixed
        exact ⟨v, hv, rfl, Or.inr ⟨c, x, y, hComparison, hFixed, rfl, rfl⟩⟩
      case isFalse => cases hLesson
    case h_2 => cases hLesson

theorem isValidated_of_visit (hComplete : fn.walk.complete = true)
    (hCrash : (fn.events settings).crash = none) {v : Visit} (hv : v ∈ fn.walk.visits) {i : Instr}
    (hi : i ∈ fn.instrs v.block) : fn.IsValidated settings v i := by
  have hAll := (fn.isStartOf_raised settings hComplete).2 hCrash
  have hCall : ∀ e ∈ (fn.callEvents settings v.facts i).events,
      e ∈ (fn.events settings).events := by
    intro e he
    rw [hAll]
    exact List.mem_flatMap.mpr ⟨v, hv, List.mem_append_left _ (List.mem_flatMap.mpr ⟨i, hi, he⟩)⟩
  intro result c args hOp
  constructor
  · intro t ht
    apply hCall
    simp only [callEvents, hOp]
    have hMem := List.mem_map_of_mem
      (f := fun t : ResolvedTarget => Event.tooFewArguments i.location c args.length t.argIndex) ht
    split
    · exact hMem
    · exact hMem
    · exact List.mem_append_left _ hMem
  · intro position hFound
    apply hCall
    simp only [callEvents, hOp, hFound]
    exact List.mem_append_right _ (List.mem_singleton.mpr rfl)

theorem concerns_of_located {targets : List ResolvedTarget} {reportConditions : Bool}
    {f : Finding} (hf : f ∈ fn.located (.ofTargets targets reportConditions)) :
    fn.Concerns targets f := by
  obtain ⟨v, hv, hBlock, hSource⟩ := mem_located hf
  rw [← hBlock] at hSource
  rcases hSource with ⟨i, hi, result, c, args, t, u, hOp, ht, hArgument, -, hSubject, hText⟩ |
    ⟨c, x, y, hComparison, -, hSubject, hText⟩
  · rw [Settings.ofTargets, Validator.group_ofTargets, List.mem_filter, decide_eq_true_eq] at ht
    rw [Concerns, hSubject]
    exact ⟨i, hi, result, c, args, hOp, t, ht.1, ht.2, hArgument, hText⟩
  · rw [Concerns, hSubject]
    exact ⟨hComparison, x, y, hText⟩

end Sources

/-- Whenever a history comes to the block of a finding, the finding is right. -/
theorem History.holdsIn_of_located {fn : Function} {scope : fn.Scope} (hLinked : fn.IsLinked)
    {z : Moment} {older : List Moment} (history : fn.History scope (z :: older))
    {settings : Settings} {f : Finding} (hf : f ∈ fn.located settings)
    (hBlock : f.block = z.block) : f.HoldsIn z.isNil := by
  have hCovered := history.isCovered hLinked z List.mem_cons_self
  obtain ⟨v, hv, hSame, hSource⟩ := mem_located hf
  have hAt : v.block = z.block := hSame.symm.trans hBlock
  rw [hAt] at hSource
  rcases hSource with ⟨i, hi, result, c, args, t, u, hOp, -, hArgument, hNil, hSubject, hText⟩ |
    ⟨c, x, y, hComparison, hLesson, hSubject, hText⟩
  · have hAvailable := scope.call history.reaches hi hOp (Validator.mem_of_argument? hArgument)
    have hAdmits := history.classify_admits (hCovered.facts v hv hAt) hAvailable
    rw [hNil] at hAdmits
    rw [Finding.HoldsIn, hSubject, hText]
    exact ⟨rfl, hAdmits⟩
  · obtain ⟨hLeft, hRight⟩ := history.operands_admit hCovered hv hAt hComparison
    have hTruth :=
      Comparison.truth?_of_fixed (operator_of_comparison hComparison) hLesson hLeft hRight
    rw [Finding.HoldsIn, hSubject, hText]
    simp only [Diagnostic.condition, hTruth]
    by_cases hAdjective : c.adjective x y = "tautological" <;> simp [hAdjective]

end Function

end NilGuard
