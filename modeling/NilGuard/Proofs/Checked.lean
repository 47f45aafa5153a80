import Mathlib
import NilGuard.Check.Basic
import NilGuard.Proofs.Loaded
/-! Checks of programs that dumps were loaded into. Accepted targets count arguments from the
front and no argument of a sound function is open, so every call can be judged and no check
breaks off. -/
namespace NilGuard

theorem exists_of_bind_eq_ok {ε α β : Type} {x : Except ε α} {f : α → Except ε β} {b : β}
    (h : x >>= f = .ok b) : ∃ a, x = .ok a ∧ f a = .ok b := by
  cases x with
  | error e => cases h
  | ok a => exact ⟨a, rfl, h⟩

theorem exists_of_mapM_eq_ok {ε α β : Type} {f : α → Except ε β} {xs : List α} {ys : List β}
    (h : xs.mapM f = .ok ys) : ∀ y ∈ ys, ∃ x ∈ xs, f x = .ok y := by
  induction xs generalizing ys with
  | nil =>
      cases h
      simp
  | cons x xs ih =>
      rw [List.mapM_cons] at h
      obtain ⟨y, hy, h⟩ := exists_of_bind_eq_ok h
      obtain ⟨rest, hRest, h⟩ := exists_of_bind_eq_ok h
      cases h
      refine List.forall_mem_cons.mpr ⟨⟨x, List.mem_cons_self, hy⟩, fun z hz => ?_⟩
      obtain ⟨w, hw, hz⟩ := ih hRest z hz
      exact ⟨w, List.mem_cons_of_mem x hw, hz⟩

namespace Target

theorem position_of_resolve {p : Program} {t : Target} {s : ResolvedTarget}
    (h : t.resolve p = .ok (.found s)) : s.position = t.position ∧ 0 ≤ t.position := by
  unfold resolve at h
  split at h
  case isTrue => cases h
  case isFalse hNonneg =>
    split at h
    case h_1 =>
      split at h
      case h_1 => cases h
      case h_2 =>
        cases h
        exact ⟨rfl, by omega⟩
      case h_3 => cases h
    case h_2 =>
      split at h
      case h_1 => cases h
      case h_2 =>
        split at h
        case h_1 => cases h
        case h_2 =>
          cases h
          exact ⟨rfl, by omega⟩
    case h_3 => cases h

theorem exists_of_resolveAll {p : Program} {ts : List Target} {resolved : List ResolvedTarget}
    (h : resolveAll p ts = .ok resolved) :
    ∀ s ∈ resolved, ∃ t ∈ ts, t.resolve p = .ok (.found s) := by
  obtain ⟨rs, hAll, hFound⟩ := exists_of_bind_eq_ok h
  cases hFound
  intro s hs
  obtain ⟨r, hr, hTarget⟩ := List.mem_filterMap.mp hs
  obtain ⟨t, ht, hResolve⟩ := exists_of_mapM_eq_ok hAll r hr
  cases r with
  | found u =>
      cases hTarget
      exact ⟨t, ht, hResolve⟩
  | _ => cases hTarget

/-- Targets that are accepted count arguments from the front. -/
theorem nonneg_of_resolveAll {p : Program} {ts : List Target} {resolved : List ResolvedTarget}
    (h : resolveAll p ts = .ok resolved) : ∀ s ∈ resolved, 0 ≤ s.argIndex := by
  intro s hs
  obtain ⟨t, -, hResolve⟩ := exists_of_resolveAll h s hs
  have hPosition := position_of_resolve hResolve
  unfold ResolvedTarget.argIndex
  split <;> omega

end Target

namespace Validator

/-- A call with all its arguments is judged, whatever the targets that count from the front. -/
theorem exists_found (facts : Facts) {args : List (Option Value)} {ts : List ResolvedTarget}
    (hArgs : ∀ a ∈ args, a.isSome) (hTargets : ∀ t ∈ ts, 0 ≤ t.argIndex) :
    ∃ r, (judge facts args ts).found = .ok r := by
  induction ts with
  | nil => exact ⟨none, rfl⟩
  | cons t ts ih =>
      rw [judge]
      split
      case isTrue => exact ih fun u hu => hTargets u (List.mem_cons_of_mem t hu)
      case isFalse hEnough =>
        have hNonneg := hTargets t List.mem_cons_self
        have hLt : t.argIndex.toNat < args.length := by omega
        have hArgument : argument? args t.argIndex = some args[t.argIndex.toNat] := by
          rw [argument?, if_pos hNonneg]
          simp [hLt]
        obtain ⟨v, hv⟩ := Option.isSome_iff_exists.mp (hArgs _ (List.getElem_mem hLt))
        rw [hArgument, hv]
        exact ⟨_, rfl⟩

end Validator

/-- What is passed on by a call. -/
def Op.args : Op → List (Option Value)
  | .call _ _ args => args
  | _ => []

theorem Op.IsFilled.isSome_of_mem_args {op : Op} (h : op.IsFilled) : ∀ a ∈ op.args, a.isSome := by
  cases op with
  | call => exact h
  | _ => simp [args]

namespace Function

variable {fn : Function} {targets : List ResolvedTarget} {reportConditions : Bool}

theorem crash_callEvents {facts : Facts} {i : Instr} (hTargets : ∀ t ∈ targets, 0 ≤ t.argIndex)
    (hArgs : ∀ a ∈ i.op.args, a.isSome) :
    (fn.callEvents (.ofTargets targets reportConditions) facts i).crash = none := by
  obtain ⟨location, op⟩ := i
  cases op with
  | call result callee args =>
      cases callee with
      | none => rfl
      | some c =>
          have hGroup : ∀ t ∈ (Validator.ofTargets targets).group c, 0 ≤ t.argIndex := by
            rw [Validator.group_ofTargets]
            exact fun t ht => hTargets t (List.mem_filter.mp ht).1
          obtain ⟨r, hFound⟩ :=
            Validator.exists_found facts (show ∀ a ∈ args, a.isSome from hArgs) hGroup
          simp only [callEvents, Validator.validate, Settings.ofTargets, hFound]
          cases r <;> rfl
  | _ => rfl

/-- An analysis of a function without open arguments does not break off. -/
theorem crash_eq_none_of_isSome_args (hLinked : fn.IsLinked)
    (hArgs : ∀ b < fn.blocks.size, ∀ i ∈ fn.instrs b, ∀ a ∈ i.op.args, a.isSome)
    (hTargets : ∀ t ∈ targets, 0 ≤ t.argIndex) :
    (fn.events (.ofTargets targets reportConditions)).crash = none := by
  rw [crash_eq_none_iff _ _ (walk_complete hLinked)]
  intro v hv i hi
  exact crash_callEvents hTargets (hArgs _ (lt_size_of_mem_visits hLinked hv) i hi)

theorem IsSound.crash_eq_none (hSound : fn.IsSound) (hTargets : ∀ t ∈ targets, 0 ≤ t.argIndex) :
    (fn.events (.ofTargets targets reportConditions)).crash = none :=
  crash_eq_none_of_isSome_args hSound.linked
    (fun b hb i hi => (hSound.filled b hb i hi).isSome_of_mem_args) hTargets

theorem not_isInternal_of_mem_findings {settings : Settings} {d : Diagnostic}
    (hComplete : fn.walk.complete = true) (hd : d ∈ fn.findings settings) :
    Results.isInternal d = false := by
  obtain ⟨f, hf, rfl⟩ := List.mem_map.mp ((fn.findings_prefix settings hComplete).subset hd)
  obtain ⟨v, -, -, hCases⟩ := mem_located hf
  rcases hCases with ⟨i, -, result, c, args, t, u, -, -, -, -, -, hd⟩ | ⟨c, x, y, -, -, -, hd⟩
  · rw [hd]
    rfl
  · rw [hd]
    rfl

end Function

/-- A check of functions that are sound has nothing to say but findings. -/
theorem internalErrors_check {fns : List Function} {targets : List ResolvedTarget}
    (reportConditions : Bool) (hSound : ∀ fn ∈ fns, fn.IsSound)
    (hTargets : ∀ t ∈ targets, 0 ≤ t.argIndex) :
    (check (.ofTargets targets reportConditions) fns).internalErrors = [] := by
  rw [Results.internalErrors, List.filter_eq_nil_iff]
  intro d hd
  have hReported := (List.mergeSort_perm _ _).mem_iff.mp hd
  obtain ⟨fn, hfn, hd⟩ := List.mem_flatMap.mp hReported
  have hFn := hSound fn (List.mem_filter.mp hfn).1
  rw [Function.reports, hFn.crash_eq_none hTargets, List.append_nil] at hd
  rw [Function.not_isInternal_of_mem_findings (Function.walk_complete hFn.linked) hd]
  decide

/-- Dumps that load make programs that can be checked. In every function a block stands at its
index, its edges and the blocks that it dominates are inside, a branch has two successors and
no operand is open; so with targets that are accepted, every function that has a body is
checked to its end. -/
theorem check_loaded (texts : List String) (p : Program) (targets : List Target)
    (resolved : List ResolvedTarget) (reportConditions : Bool)
    (hLoaded : Program.loadAll? {} texts = some p)
    (hResolved : Target.resolveAll p targets = .ok resolved) :
    (∀ fn ∈ p.allFunctions, ∀ b < fn.blocks.size, fn.indexAt b = b ∧
      (∀ c ∈ fn.succs b, c < fn.blocks.size) ∧ (∀ d ∈ fn.dominees b, d < fn.blocks.size) ∧
      (∀ location condition, (fn.instrs b).getLast? = some ⟨location, .branch condition⟩ →
        (fn.succs b).length = 2) ∧
      ∀ i ∈ fn.instrs b, i.op.IsFilled) ∧
    (∀ fn ∈ p.functions, (fn.events (.ofTargets resolved reportConditions)).crash = none) ∧
    ∃ r, p.check targets reportConditions = .ok r ∧ r.internalErrors = [] ∧
      r.checked = (p.allFunctions.filter Function.hasBody).length := by
  have hSound := Program.isSound_empty.loadAll? hLoaded
  have hTargets := Target.nonneg_of_resolveAll hResolved
  have hBodies : ∀ fn ∈ p.functions, fn.IsSound := fun fn hfn =>
    hSound fn (List.mem_filter.mp hfn).1
  refine ⟨fun fn hfn b hb => ?_, fun fn hfn => (hBodies fn hfn).crash_eq_none hTargets, ?_⟩
  · -- also functions that are only declared: they have no blocks
    obtain ⟨hLinked, hBranches, hFilled⟩ := hSound fn hfn
    have hWell := hLinked.isWellFormed
    refine ⟨hWell.index b hb, hWell.inside b hb, fun d hd => ?_, hBranches b hb, hFilled b hb⟩
    exact hWell.lt_size ((hLinked.mem_dominees_iff hb).mp hd).1
  · refine ⟨check (.ofTargets resolved reportConditions) p.functions, ?_,
      internalErrors_check reportConditions hBodies hTargets, ?_⟩
    · rw [Program.check, hResolved]
      rfl
    · rw [check, Program.functions_eq, List.filter_filter]
      simp

/-- A loop without an end that passes a converted value on in every round. The phi at its start
names the conversion, which is bound only after it. -/
def watchText : String :=
  "(program (package guards (func use (params x)) (func watch (block 0 (succs 0 0) " ++
    "(let p (phi nil q)) (let q (change-interface p)) (call guards use q) " ++
    "(if (binop == q nil))))))"

/-- What the text loads to. -/
def watchProgram : Program :=
  let param : Value := .leaf { id := 0, name := "x" } .other
  let p : Value := .leaf { id := 1, name := "p" } .other
  let q : Value := .converted { id := 2, name := "q" } .changeInterface p
  let result : Value := .leaf { id := 3, name := "" } .other
  let null (id : Nat) : Value := .leaf { id, name := "nil" } (.const true "nil")
  let isNull : Value := .leaf { id := 5, name := "" } .other
  let use : Function := { callee := { package := "guards", name := "use" }, params := [param] }
  let watch : Function :=
    { callee := { package := "guards", name := "watch" }
      blocks := #[
        { index := 0
          instrs := [{ op := .define p [some (null 6), some q] }, { op := .define q [some p] },
            { op := .call result (some use.callee) [some q] },
            { op := .binary isNull "==" (some q) (some (null 4)) },
            { op := .branch (some isNull) }]
          succs := [0, 0]
          preds := [0, 0] }] }
  { packages := ⟨[("guards",
      { path := "guards", functions := ⟨[("use", use), ("watch", watch)]⟩ })]⟩
    nextId := 7 }

theorem loadAll?_watchText : Program.loadAll? {} [watchText] = some watchProgram := by cbv

/-- The one function with a body is checked to its end. -/
theorem check_loaded_watchText :
    Program.loadAll? {} [watchText] = some watchProgram ∧
      Target.resolveAll watchProgram [{ package := "guards", function := "use" }] =
        .ok [⟨{ package := "guards", name := "use" }, 0⟩] ∧
      ∃ r, watchProgram.check [{ package := "guards", function := "use" }] true = .ok r ∧
        r.internalErrors = [] ∧ r.checked = 1 := by
  have hResolved : Target.resolveAll watchProgram [{ package := "guards", function := "use" }] =
      .ok [⟨{ package := "guards", name := "use" }, 0⟩] := by rfl
  exact ⟨loadAll?_watchText, hResolved,
    (check_loaded _ _ _ _ true loadAll?_watchText hResolved).2.2⟩

end NilGuard
