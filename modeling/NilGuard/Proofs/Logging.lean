import Mathlib.Data.List.Forall2
import NilGuard.Cli.Log
/-! Steps that log as they go, taken for every element of a list. A failure is that of the first
element at which there is one, and a step that logs no error adds none to the others. -/
namespace NilGuard.Cli

/-- The first element of a list of which something holds. -/
def First {α β : Type} (P : α → β → Prop) (xs : List α) (b : β) : Prop :=
  ∃ before x after, xs = before ++ x :: after ∧ (∀ y ∈ before, ∀ c, ¬ P y c) ∧ P x b

theorem first_cons_iff {α β : Type} {P : α → β → Prop} {x : α} {xs : List α} {b : β} :
    First P (x :: xs) b ↔ P x b ∨ (∀ c, ¬ P x c) ∧ First P xs b := by
  constructor
  · rintro ⟨before, y, after, hSplit, hBefore, hy⟩
    cases before with
    | nil =>
        obtain ⟨rfl, -⟩ := List.cons.inj hSplit
        exact .inl hy
    | cons z before =>
        obtain ⟨rfl, hRest⟩ := List.cons.inj hSplit
        obtain ⟨hz, hBefore⟩ := List.forall_mem_cons.mp hBefore
        exact .inr ⟨hz, before, y, after, hRest, hBefore, hy⟩
  · rintro (hx | ⟨hx, before, y, after, rfl, hBefore, hy⟩)
    · exact ⟨[], x, xs, rfl, by simp, hx⟩
    · exact ⟨x :: before, y, after, rfl, List.forall_mem_cons.mpr ⟨hx, hBefore⟩, hy⟩

namespace Logged

variable {ε α β : Type}

@[simp] theorem lines_pure (a : α) : (pure a : Logged ε α).lines = [] := rfl

theorem bind_of_error {x : Logged ε α} {f : α → Logged ε β} {e : ε} (h : x.result = .error e) :
    x >>= f = ⟨x.lines, .error e⟩ := by
  change x.bind f = _
  rw [bind, h]

theorem bind_of_ok {x : Logged ε α} {f : α → Logged ε β} {a : α} (h : x.result = .ok a) :
    x >>= f = ⟨x.lines ++ (f a).lines, (f a).result⟩ := by
  change x.bind f = _
  rw [bind, h]

instance : LawfulMonad (Logged ε) := by
  refine LawfulMonad.mk' _ ?_ ?_ ?_
  · intro α x
    change x.bind (fun a => ofExcept (.ok (id a))) = x
    obtain ⟨lines, result⟩ := x
    cases result <;> simp [bind, ofExcept]
  · intro α β a f
    rw [bind_of_ok (result_pure a)]
    rfl
  · intro α β γ x f g
    cases hx : x.result with
    | error e => simp [bind_of_error, hx]
    | ok a =>
        rw [bind_of_ok hx, bind_of_ok hx]
        cases hf : (f a).result with
        | error e => simp [bind_of_error, hf]
        | ok b => simp [bind_of_ok, hf]

section Results

variable {s : α → Logged ε β} {xs : List α} {e : ε}

theorem result_bind_eq_error_iff {x : Logged ε α} :
    (x >>= s).result = .error e ↔
      x.result = .error e ∨ ∃ a, x.result = .ok a ∧ (s a).result = .error e := by
  cases hx : x.result with
  | error e' => simp [bind_of_error hx]
  | ok a => simp [bind_of_ok hx]

theorem result_bind_eq_ok_iff {x : Logged ε α} {b : β} :
    (x >>= s).result = .ok b ↔ ∃ a, x.result = .ok a ∧ (s a).result = .ok b := by
  cases hx : x.result with
  | error e => simp [bind_of_error hx]
  | ok a => simp [bind_of_ok hx]

/-- What holds exactly of the results of a step holds of one thing at most. -/
theorem eq_of_result_eq_ok_iff {x : Logged ε α} {Q : α → Prop} {a b : α}
    (hOk : ∀ {c}, x.result = .ok c ↔ Q c) (ha : Q a) (hb : Q b) : a = b :=
  Except.ok.inj ((hOk.mpr ha).symm.trans (hOk.mpr hb))

theorem eq_of_result_eq_error_iff {x : Logged ε α} {P : ε → Prop} {d e : ε}
    (hError : ∀ {c}, x.result = .error c ↔ P c) (hd : P d) (he : P e) : d = e :=
  Except.error.inj ((hError.mpr hd).symm.trans (hError.mpr he))

/-- What is logged about the result of a step does not change it. -/
theorem result_bind_log (x : Logged ε α) (lines : α → List Line) :
    (x >>= fun a => log (lines a) >>= fun _ => pure a).result = x.result := by
  cases hx : x.result with
  | error e => rw [bind_of_error hx]
  | ok a =>
      rw [bind_of_ok hx]
      rfl

theorem result_mapM_eq_error_iff {P : α → ε → Prop}
    (hError : ∀ x e, (s x).result = .error e ↔ P x e) :
    (xs.mapM s).result = .error e ↔ First P xs e := by
  induction xs with
  | nil => simp [First]
  | cons x xs ih =>
      have hFine : (∃ b, (s x).result = .ok b) ↔ ∀ c, ¬ P x c := by
        cases hx : (s x).result with
        | error e => simpa using ⟨e, (hError x e).mp hx⟩
        | ok b => simp [← hError, hx]
      rw [List.mapM_cons, first_cons_iff, ← ih, ← hError, ← hFine]
      simp only [result_bind_eq_error_iff, result_pure, reduceCtorEq, and_false, exists_false,
        or_false, exists_and_right]

theorem result_mapM_eq_ok_iff {Q : α → β → Prop} {bs : List β}
    (hOk : ∀ x b, (s x).result = .ok b ↔ Q x b) :
    (xs.mapM s).result = .ok bs ↔ List.Forall₂ Q xs bs := by
  induction xs generalizing bs with
  | nil => simp [eq_comm]
  | cons x xs ih =>
      rw [List.mapM_cons, List.forall₂_cons_left_iff]
      simp only [result_bind_eq_ok_iff, hOk, ih, result_pure, Except.ok.injEq]
      constructor
      · rintro ⟨b, hb, rest, hRest, rfl⟩
        exact ⟨b, rest, hb, hRest, rfl⟩
      · rintro ⟨b, rest, hb, hRest, rfl⟩
        exact ⟨b, hb, rest, hRest, rfl⟩

theorem result_foldlM_eq_error_iff {s : β → α → Logged ε β} {b : β} :
    (xs.foldlM s b).result = .error e ↔ ∃ before x after c, xs = before ++ x :: after ∧
      (before.foldlM s b).result = .ok c ∧ (s c x).result = .error e := by
  induction xs generalizing b with
  | nil => simp
  | cons x xs ih =>
      rw [List.foldlM_cons, result_bind_eq_error_iff]
      constructor
      · rintro (hx | ⟨c, hc, hRest⟩)
        · exact ⟨[], x, xs, b, rfl, rfl, hx⟩
        · obtain ⟨before, y, after, d, rfl, hBefore, hy⟩ := ih.mp hRest
          refine ⟨x :: before, y, after, d, rfl, ?_, hy⟩
          rw [List.foldlM_cons, result_bind_eq_ok_iff]
          exact ⟨c, hc, hBefore⟩
      · rintro ⟨before, y, after, d, hSplit, hBefore, hy⟩
        cases before with
        | nil =>
            obtain ⟨rfl, rfl⟩ := List.cons.inj hSplit
            cases hBefore
            exact .inl hy
        | cons z before =>
            obtain ⟨rfl, rfl⟩ := List.cons.inj hSplit
            rw [List.foldlM_cons, result_bind_eq_ok_iff] at hBefore
            obtain ⟨c, hc, hBefore⟩ := hBefore
            exact .inr ⟨c, hc, ih.mpr ⟨before, y, after, d, rfl, hBefore, hy⟩⟩

end Results

/-- A step that logs no error. -/
def IsQuiet (x : Logged ε α) : Prop := ∀ l ∈ x.lines, l.level ≠ .error

section Quiet

theorem isQuiet_pure (a : α) : (pure a : Logged ε α).IsQuiet := fun _ h => absurd h List.not_mem_nil

theorem isQuiet_throw (e : ε) : (throw e : Logged ε α).IsQuiet :=
  fun _ h => absurd h List.not_mem_nil

theorem isQuiet_ofExcept (x : Except ε α) : (ofExcept x).IsQuiet :=
  fun _ h => absurd h List.not_mem_nil

theorem IsQuiet.bind {x : Logged ε α} {f : α → Logged ε β} (hx : x.IsQuiet)
    (hf : ∀ a, (f a).IsQuiet) : (x >>= f).IsQuiet := by
  cases hResult : x.result with
  | error e =>
      rw [bind_of_error hResult]
      exact hx
  | ok a =>
      rw [bind_of_ok hResult]
      exact fun l hl => (List.mem_append.mp hl).elim (hx l) (hf a l)

theorem isQuiet_mapM {s : α → Logged ε β} (hs : ∀ x, (s x).IsQuiet) (xs : List α) :
    (xs.mapM s).IsQuiet := by
  induction xs with
  | nil => exact isQuiet_pure []
  | cons x xs ih =>
      rw [List.mapM_cons]
      exact (hs x).bind fun b => ih.bind fun bs => isQuiet_pure (b :: bs)

theorem isQuiet_foldlM {s : β → α → Logged ε β} (hs : ∀ b x, (s b x).IsQuiet) (xs : List α)
    (b : β) : (xs.foldlM s b).IsQuiet := by
  induction xs generalizing b with
  | nil => exact isQuiet_pure b
  | cons x xs ih =>
      rw [List.foldlM_cons]
      exact (hs b x).bind ih

end Quiet

end Logged

end NilGuard.Cli
