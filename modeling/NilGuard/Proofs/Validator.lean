import NilGuard.Target.Validator
/-! What a check of one call comes to: the group of a callee holds its targets in order, and
the first one whose argument the call has decides. -/
namespace NilGuard.Validator

theorem lookup_addToGroup (t : ResolvedTarget) (gs : List (Callee × List ResolvedTarget))
    (c : Callee) : ((addToGroup t gs).lookup c).getD [] =
      (gs.lookup c).getD [] ++ if t.callee = c then [t] else [] := by
  induction gs with
  | nil =>
      rw [addToGroup, List.lookup_cons]
      by_cases hSame : c = t.callee
      · simp [hSame]
      · simp [beq_false_of_ne hSame, Ne.symm hSame]
  | cons g gs ih =>
      obtain ⟨name, ts⟩ := g
      rw [addToGroup]
      split
      case isTrue hName =>
        rw [List.lookup_cons, List.lookup_cons]
        by_cases hSame : c = name
        · simp [hSame, hName]
        · simp [beq_false_of_ne hSame, ← hName, Ne.symm hSame]
      case isFalse hName =>
        rw [List.lookup_cons, List.lookup_cons]
        by_cases hSame : c = name
        · simp [hSame, Ne.symm hName]
        · simpa [beq_false_of_ne hSame] using ih

theorem group_ofTargets (ts : List ResolvedTarget) (c : Callee) :
    (ofTargets ts).group c = ts.filter (·.callee = c) := by
  have hFold : ∀ gs : List (Callee × List ResolvedTarget),
      ((ts.foldl (fun gs t => addToGroup t gs) gs).lookup c).getD [] =
        (gs.lookup c).getD [] ++ ts.filter (·.callee = c) := by
    induction ts with
    | nil => simp
    | cons t ts ih =>
        intro gs
        rw [List.foldl_cons, ih, lookup_addToGroup, List.append_assoc]
        by_cases hSame : t.callee = c <;> simp [hSame]
  exact hFold []

/-- The target that decides a call and the argument that it names, if that is nil. -/
def nilArgument? (facts : Facts) (args : List (Option Value)) (ts : List ResolvedTarget) :
    Option (ResolvedTarget × Value) := do
  let t ← ts.find? (·.argIndex < (args.length : Int))
  let v ← (argument? args t.argIndex).join
  if facts.classify v = .nil then some (t, v) else none

theorem judge_found (facts : Facts) (args : List (Option Value)) (ts : List ResolvedTarget) :
    (judge facts args ts).found.toOption.join =
      (nilArgument? facts args ts).map (·.1.position) := by
  induction ts with
  | nil => rfl
  | cons t ts ih =>
      rw [judge]
      split
      case isTrue hFew =>
        have hFind : (t :: ts).find? (·.argIndex < (args.length : Int)) =
            ts.find? (·.argIndex < (args.length : Int)) :=
          List.find?_cons_of_neg (by simpa using hFew)
        simp only [nilArgument?, hFind]
        exact ih
      case isFalse hEnough =>
        have hFind : (t :: ts).find? (·.argIndex < (args.length : Int)) = some t :=
          List.find?_cons_of_pos (by simpa using hEnough)
        simp only [nilArgument?, hFind, Option.bind_eq_bind, Option.bind_some]
        cases argument? args t.argIndex with
        | none => rfl
        | some a =>
            cases a with
            | none => rfl
            | some v =>
                by_cases hNil : facts.classify v = .nil <;> simp [hNil, Except.toOption]

/-- What is reported about a call is about an argument that the facts say is nil. -/
theorem nilArgument?_eq_some {facts : Facts} {args : List (Option Value)}
    {ts : List ResolvedTarget} {t : ResolvedTarget} {v : Value}
    (h : nilArgument? facts args ts = some (t, v)) :
    t ∈ ts ∧ argument? args t.argIndex = some (some v) ∧ facts.classify v = .nil := by
  obtain ⟨u, hFind, h⟩ := Option.bind_eq_some_iff.mp h
  obtain ⟨w, hArgument, h⟩ := Option.bind_eq_some_iff.mp h
  split at h
  case isTrue hNil =>
    cases h
    exact ⟨List.mem_of_find?_eq_some hFind, Option.join_eq_some_iff.mp hArgument, hNil⟩
  case isFalse => cases h

theorem mem_of_argument? {args : List (Option Value)} {index : Int} {a : Option Value}
    (h : argument? args index = some a) : a ∈ args := by
  unfold argument? at h
  split at h
  case isTrue => exact List.mem_of_getElem? h
  case isFalse =>
    split at h
    case isTrue => exact List.mem_of_getElem? h
    case isFalse => cases h

end NilGuard.Validator
