import Mathlib
import NilGuard.Proofs.Checked
/-! Targets without groups. The groups of a validator keep the order of the targets, so a call is
answered as by a scan of the whole list, in which the first target that names the callee and an
argument of the call decides. -/
namespace NilGuard

/-- What is reported, or why nothing could be. -/
def Events.outcome (e : Events) : Except Crash (List Diagnostic) :=
  match e.crash with
  | some k => .error k
  | none => .ok e.diagnostics

namespace ResolvedTarget

variable (facts : Facts) (callee : Option Callee) (args : List (Option Value))

/-- The target itself when the argument that it names is nil. -/
def verdict (t : ResolvedTarget) : Except Crash (Option ResolvedTarget) :=
  match Validator.argument? args t.argIndex with
  | none => .error .argumentOutOfRange
  | some none => .error .openArgument
  | some (some v) => .ok (if facts.classify v = .nil then some t else none)

/-- Scans a list of targets for a call. Targets of other callees are passed over, all of them
for a dynamic call, and so are targets of arguments that the call does not have. The first one
that is left decides. -/
def scan : List ResolvedTarget → Except Crash (Option ResolvedTarget)
  | [] => .ok none
  | t :: ts =>
    if callee ≠ some t.callee ∨ (args.length : Int) ≤ t.argIndex then scan ts
    else t.verdict facts args

/-- The report that a target was violated. -/
def report (t : ResolvedTarget) (location : Location) (function : String) : Diagnostic :=
  .nilArgument location t.callee.display t.position function

variable {facts callee args}

theorem scan_none (ts : List ResolvedTarget) : scan facts none args ts = .ok none := by
  induction ts with
  | nil => rfl
  | cons t ts ih => rw [scan, if_pos (Or.inl (by simp)), ih]

/-- A target that a scan comes to is one of the list that names the callee. -/
theorem mem_of_scan {ts : List ResolvedTarget} {t : ResolvedTarget}
    (h : scan facts callee args ts = .ok (some t)) : t ∈ ts ∧ callee = some t.callee := by
  induction ts with
  | nil => cases h
  | cons u ts ih =>
      rw [scan] at h
      split at h
      case isTrue => exact (ih h).imp_left (List.mem_cons_of_mem u)
      case isFalse hNamed =>
        rw [not_or, not_not] at hNamed
        have hSame : t = u := by
          unfold verdict at h
          split at h
          case h_1 => cases h
          case h_2 => cases h
          case h_3 =>
            split at h
            · cases h
              rfl
            · cases h
        rw [hSame]
        exact ⟨List.mem_cons_self, hNamed.1⟩

/-- An argument that is counted from the front is the one that the index says. -/
theorem argument?_of_nonneg {index : Int} (h : 0 ≤ index) :
    Validator.argument? args index = args[index.toNat]? := if_pos h

theorem verdict_ne_argumentOutOfRange {t : ResolvedTarget} (hNonneg : 0 ≤ t.argIndex)
    (hLt : t.argIndex < args.length) : t.verdict facts args ≠ .error .argumentOutOfRange := by
  have hIn : t.argIndex.toNat < args.length := by omega
  rw [verdict, argument?_of_nonneg hNonneg, List.getElem?_eq_getElem hIn]
  cases args[t.argIndex.toNat] <;> simp

/-- A scan for targets that count from the front finds the argument that it looks for. -/
theorem scan_ne_argumentOutOfRange {ts : List ResolvedTarget} (h : ∀ t ∈ ts, 0 ≤ t.argIndex) :
    scan facts callee args ts ≠ .error .argumentOutOfRange := by
  induction ts with
  | nil => simp [scan]
  | cons t ts ih =>
      rw [scan]
      split
      case isTrue => exact ih fun u hu => h u (List.mem_cons_of_mem t hu)
      case isFalse hDecides =>
        exact verdict_ne_argumentOutOfRange (h t List.mem_cons_self) (by omega)

end ResolvedTarget

namespace Validator

open ResolvedTarget

variable (facts : Facts) (args : List (Option Value)) (targets : List ResolvedTarget)

/-- Judging the targets of one callee is scanning all targets for it. -/
theorem judge_filter (c : Callee) : (judge facts args (targets.filter (·.callee = c))).found =
    (scan facts (some c) args targets).map (Option.map ResolvedTarget.position) := by
  induction targets with
  | nil => rfl
  | cons t ts ih =>
      rw [scan]
      by_cases hSame : t.callee = c
      · rw [List.filter_cons_of_pos (by simpa using hSame), judge]
        by_cases hFew : (args.length : Int) ≤ t.argIndex
        · rw [if_pos hFew, if_pos (Or.inr hFew), ← ih]
        · rw [if_neg hFew, if_neg (by simp [hSame, hFew]), verdict]
          cases argument? args t.argIndex with
          | none => rfl
          | some a =>
              cases a with
              | none => rfl
              | some v =>
                  simp only [Except.map]
                  split <;> rfl
      · have hOther : some c ≠ some t.callee := by simpa using Ne.symm hSame
        rw [List.filter_cons_of_neg (by simpa using hSame), if_pos (Or.inl hOther), ih]

theorem found_validate (callee : Option Callee) :
    ((ofTargets targets).validate facts callee args).found =
      (scan facts callee args targets).map (Option.map ResolvedTarget.position) := by
  cases callee with
  | none => rw [scan_none, validate]; rfl
  | some c => rw [validate, group_ofTargets, judge_filter]

end Validator

namespace Function

open ResolvedTarget

/-- Targets that were passed over for want of arguments are not reported. -/
theorem diagnostics_tooFewArguments (location : Location) (c : Callee) (count : Nat)
    (skipped : List ResolvedTarget) :
    (skipped.map fun t => Event.tooFewArguments location c count t.argIndex).filterMap
      Event.diagnostic? = [] := by
  simp [List.filterMap_map, Event.diagnostic?]

theorem outcome_callEvents (fn : Function) (targets : List ResolvedTarget)
    (reportConditions : Bool) (facts : Facts) (location : Location) (result : Value)
    (callee : Option Callee) (args : List (Option Value)) :
    (fn.callEvents (.ofTargets targets reportConditions) facts
        ⟨location, .call result callee args⟩).outcome =
      (scan facts callee args targets).map fun t? =>
        (t?.map (·.report location fn.name)).toList := by
  cases callee with
  | none =>
      rw [scan_none]
      rfl
  | some c =>
      have hFound := Validator.found_validate facts args targets (some c)
      simp only [callEvents, Settings.ofTargets]
      cases hScan : scan facts (some c) args targets with
      | error k =>
          rw [hScan] at hFound
          simp only [hFound, Except.map, Events.outcome]
      | ok t? =>
          rw [hScan] at hFound
          cases t? with
          | none =>
              simp only [hFound, Except.map, Option.map_none, Option.toList_none, Events.outcome,
                Events.diagnostics, diagnostics_tooFewArguments]
          | some t =>
              obtain ⟨-, hCallee⟩ := mem_of_scan hScan
              obtain rfl := Option.some.inj hCallee
              simp only [hFound, Except.map, Option.map_some, Option.toList_some, Events.outcome,
                Events.diagnostics, List.filterMap_append, diagnostics_tooFewArguments]
              rfl

end Function

namespace Validator

open ResolvedTarget

/-- The grouped targets answer as the list does. For every call, a scan of all targets in their
order gives the nil argument that the validator finds, and the report about it. Targets that
were resolved count arguments from the front: the index that is looked up is never negative, so
it is that of an argument of the call. -/
theorem validate_is_plain_scan (targets : List ResolvedTarget) (facts : Facts)
    (callee : Option Callee) (args : List (Option Value)) :
    ((ofTargets targets).validate facts callee args).found =
        (scan facts callee args targets).map (Option.map ResolvedTarget.position) ∧
      (∀ (fn : Function) (reportConditions : Bool) (location : Location) (result : Value),
        (fn.callEvents (.ofTargets targets reportConditions) facts
            ⟨location, .call result callee args⟩).outcome =
          (scan facts callee args targets).map fun t? =>
            (t?.map (·.report location fn.name)).toList) ∧
      ∀ (p : Program) (named : List Target), Target.resolveAll p named = .ok targets →
        (∀ t ∈ targets, 0 ≤ t.argIndex ∧ argument? args t.argIndex = args[t.argIndex.toNat]?) ∧
        scan facts callee args targets ≠ .error .argumentOutOfRange := by
  refine ⟨found_validate facts args targets callee, ?_, ?_⟩
  · intro fn reportConditions location result
    exact fn.outcome_callEvents targets reportConditions facts location result callee args
  · intro p named hResolved
    have hNonneg := Target.nonneg_of_resolveAll hResolved
    refine ⟨fun t ht => ⟨hNonneg t ht, ?_⟩, scan_ne_argumentOutOfRange hNonneg⟩
    exact argument?_of_nonneg (hNonneg t ht)

def guardedUse : Callee := { package := "guards", name := "use" }

def guardedPut : Callee := { package := "guards", name := "Put", receiver := some "Box" }

/-- A function and a method of a type. -/
def guardedBox : Program :=
  { packages := ⟨[("guards",
      { path := "guards"
        functions := ⟨[("use", { callee := guardedUse })]⟩
        types := ⟨[("Box", ⟨[("Put", { callee := guardedPut })]⟩)]⟩ })]⟩ }

/-- A box and nil, to be put into it. -/
def guardedPutArgs : List (Option Value) :=
  [some (.leaf { id := 0, name := "box" } .alloc),
    some (.leaf { id := 1, name := "" } (.const true "nil"))]

def guardedTargets : List ResolvedTarget := [⟨guardedPut, 1⟩, ⟨guardedUse, 0⟩, ⟨guardedPut, 0⟩]

/-- The first target names an argument that the call does not have, the second another callee;
the third decides, about the argument after the receiver. -/
theorem validate_is_plain_scan_guardedBox :
    Target.resolveAll guardedBox [⟨"guards", "Box.Put", 1⟩, ⟨"guards", "use", 0⟩,
        ⟨"guards", "Box.Put", 0⟩] = .ok guardedTargets ∧
      ((ofTargets guardedTargets).validate [] (some guardedPut) guardedPutArgs).found =
        .ok (some 0) ∧
      (∀ t ∈ guardedTargets, 0 ≤ t.argIndex) ∧
      scan [] (some guardedPut) guardedPutArgs guardedTargets ≠ .error .argumentOutOfRange := by
  have hResolved : Target.resolveAll guardedBox [⟨"guards", "Box.Put", 1⟩, ⟨"guards", "use", 0⟩,
      ⟨"guards", "Box.Put", 0⟩] = .ok guardedTargets := by rfl
  obtain ⟨hFound, -, hFront⟩ :=
    validate_is_plain_scan guardedTargets [] (some guardedPut) guardedPutArgs
  obtain ⟨hIndices, hInside⟩ := hFront guardedBox _ hResolved
  exact ⟨hResolved, hFound.trans (by rfl), fun t ht => (hIndices t ht).1, hInside⟩

end Validator

end NilGuard
