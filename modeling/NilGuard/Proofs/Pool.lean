import Mathlib.Logic.Relation
import NilGuard.Check.Pool
import NilGuard.Proofs.Sort
/-! Checks by several workers. The reports of a function arrive in their order, those of
functions that are checked at the same time in any. What is sorted then has the keys of the
check by one worker, and it is the same list in every order of arrival exactly if no two
functions have different reports that are tied. -/
namespace NilGuard

open Diagnostic Relation

namespace Pool

/-- A worker that is free takes the work that waits longest, hands over one thing, or is done
with its work. There is one worker at least. -/
inductive Step {α : Type} (jobs : Int) : Pool α → Pool α → Prop where
  | start {work : List α} {waiting running : List (List α)} {arrived : List α}
      (hFree : (running.length : Int) < max 1 jobs) :
      Step jobs ⟨work :: waiting, running, arrived⟩ ⟨waiting, running ++ [work], arrived⟩
  | report (waiting before after : List (List α)) (x : α) (rest arrived : List α) :
      Step jobs ⟨waiting, before ++ (x :: rest) :: after, arrived⟩
        ⟨waiting, before ++ rest :: after, arrived ++ [x]⟩
  | finish {waiting before after : List (List α)} {arrived : List α} :
      Step jobs ⟨waiting, before ++ [] :: after, arrived⟩ ⟨waiting, before ++ after, arrived⟩

/-- What the work gives can arrive in this order when all of it is done. -/
def Arrives {α : Type} (jobs : Int) (work : List (List α)) (arrived : List α) : Prop :=
  ReflTransGen (Step jobs) ⟨work, [], []⟩ ⟨[], [], arrived⟩

section Order

variable {α β : Type} {jobs : Int} {p q : Pool α}

theorem Step.order_perm (h : Step jobs p q) : q.order.Perm p.order := by
  cases h with
  | start hFree => simp [order]
  | finish => simp [order]
  | report =>
      simp only [order, List.flatten_append, List.flatten_cons, List.append_assoc,
        List.cons_append, List.nil_append]
      exact (List.perm_middle.symm).append_left _

theorem order_perm_of_run (h : ReflTransGen (Step jobs) p q) : q.order.Perm p.order := by
  induction h with
  | refl => exact .refl _
  | tail _ last ih => exact last.order_perm.trans ih

theorem Arrives.perm {work : List (List α)} {arrived : List α} (h : Arrives jobs work arrived) :
    arrived.Perm work.flatten := by
  simpa [order] using order_perm_of_run h

end Order

/-- Reports of two functions that are tied are the same. -/
def Apart (r s : List Diagnostic) : Prop := ∀ d ∈ r, ∀ e ∈ s, d.sortKey = e.sortKey → d = e

variable {jobs : Int} {p q : Pool Diagnostic}

/-- A report that is the same as all that are tied with it may as well come first. -/
theorem tied_append_cons (key : Location × String × String) {d : Diagnostic}
    {ds : List Diagnostic} (h : ∀ e ∈ ds, e.sortKey = d.sortKey → e = d)
    (rest : List Diagnostic) : tied key (ds ++ d :: rest) = tied key (d :: (ds ++ rest)) := by
  induction ds with
  | nil => rfl
  | cons e ds ih =>
      have hRest := ih fun c hc => h c (List.mem_cons_of_mem e hc)
      by_cases hKey : d.sortKey = key
      · subst hKey
        by_cases hTied : e.sortKey = d.sortKey
        · cases h e List.mem_cons_self hTied
          rw [List.cons_append, List.cons_append, tied_cons_of_eq, hRest, tied_cons_of_eq,
            tied_cons_of_eq, tied_cons_of_eq]
        · rw [List.cons_append, List.cons_append, tied_cons_of_ne hTied, hRest, tied_cons_of_eq,
            tied_cons_of_eq, tied_cons_of_ne hTied]
      · simp only [tied_append, tied_cons_of_ne hKey]

/-- A step changes no group of tied reports if the functions being checked are apart. -/
theorem Step.tied_order (h : Step jobs p q) (hApart : p.running.Pairwise Apart)
    (key : Location × String × String) : tied key q.order = tied key p.order := by
  cases h with
  | start hFree => simp [order]
  | finish => simp [order]
  | report waiting before after d rest arrived =>
      -- the report overtakes what the functions before its own have still to give
      have hBefore : ∀ e ∈ before.flatten, e.sortKey = d.sortKey → e = d := by
        intro e he
        obtain ⟨r, hr, he⟩ := List.mem_flatten.mp he
        have hAll := (List.pairwise_append.mp hApart).2.2 r hr (d :: rest) (by simp)
        exact hAll e he d (by simp)
      have hSwap := tied_append_cons key hBefore (rest ++ (after.flatten ++ waiting.flatten))
      simpa [order, tied_append] using hSwap.symm

/-- What keeps tied reports in order: there is one worker, or the functions are apart. -/
structure IsOrdered (jobs : Int) (p : Pool Diagnostic) : Prop where
  length_le : (p.running.length : Int) ≤ max 1 jobs
  apart : 1 < jobs → (p.running ++ p.waiting).Pairwise Apart

theorem IsOrdered.pairwise_running (h : IsOrdered jobs p) : p.running.Pairwise Apart := by
  by_cases hMany : 1 < jobs
  · exact (List.pairwise_append.mp (h.apart hMany)).1
  · have hOne : p.running.length ≤ 1 := by
      have hLength := h.length_le
      omega
    match hRunning : p.running with
    | [] => exact .nil
    | [r] => exact List.pairwise_singleton Apart r
    | r :: s :: rest => simp [hRunning] at hOne

theorem Step.pairwise_apart (h : Step jobs p q)
    (hApart : (p.running ++ p.waiting).Pairwise Apart) :
    (q.running ++ q.waiting).Pairwise Apart := by
  cases h with
  | start hFree => simpa using hApart
  | finish => exact hApart.sublist (by simp)
  | report waiting before after d rest arrived =>
      simp only [List.append_assoc, List.cons_append, List.pairwise_append,
        List.pairwise_cons] at hApart ⊢
      obtain ⟨hBefore, ⟨hHead, hAfter⟩, hCross⟩ := hApart
      have hRest : ∀ s ∈ after ++ waiting, Apart rest s := fun s hs e he =>
        hHead s hs e (List.mem_cons_of_mem d he)
      refine ⟨hBefore, ⟨hRest, hAfter⟩, fun r hr s hs => ?_⟩
      rcases List.mem_cons.mp hs with rfl | hs
      · exact fun c hc e he => hCross r hr (d :: s) List.mem_cons_self c hc e
          (List.mem_cons_of_mem d he)
      · exact hCross r hr s (List.mem_cons_of_mem _ hs)

theorem Step.isOrdered (h : Step jobs p q) (hOrdered : IsOrdered jobs p) : IsOrdered jobs q := by
  refine ⟨?_, fun hMany => h.pairwise_apart (hOrdered.apart hMany)⟩
  have hLength := hOrdered.length_le
  cases h with
  | start hFree =>
      simp only [List.length_append, List.length_singleton]
      omega
  | report => simpa using hLength
  | finish =>
      simp only [List.length_append, List.length_cons] at hLength ⊢
      omega

theorem tied_order_of_run (h : ReflTransGen (Step jobs) p q) (hOrdered : IsOrdered jobs p)
    (key : Location × String × String) :
    IsOrdered jobs q ∧ tied key q.order = tied key p.order := by
  induction h with
  | refl => exact ⟨hOrdered, rfl⟩
  | tail _ last ih =>
      obtain ⟨hMiddle, hTied⟩ := ih
      exact ⟨last.isOrdered hMiddle, (last.tied_order hMiddle.pairwise_running key).trans hTied⟩

/-- One worker, or any number on functions that are apart: the sorted reports do not depend
on the order of arrival. -/
theorem Arrives.sort_eq {reports : List (List Diagnostic)} {arrived : List Diagnostic}
    (h : Arrives jobs reports arrived) (hApart : 1 < jobs → reports.Pairwise Apart) :
    sort arrived = sort reports.flatten := by
  refine (sort_eq_sort_iff _ _).mpr fun key => ?_
  have hStart : IsOrdered jobs ⟨reports, [], []⟩ := by
    refine ⟨?_, by simpa using hApart⟩
    simp only [List.length_nil]
    omega
  simpa [order] using (tied_order_of_run h hStart key).2

section Runs

variable {α : Type} (jobs)

/-- Work that has been taken up gives the first of what it has. -/
theorem run_reports (waiting before after : List (List α)) (xs rest arrived : List α) :
    ReflTransGen (Step jobs) ⟨waiting, before ++ (xs ++ rest) :: after, arrived⟩
      ⟨waiting, before ++ rest :: after, arrived ++ xs⟩ := by
  induction xs generalizing arrived with
  | nil => simpa using ReflTransGen.refl
  | cons x xs ih =>
      have hRest := ih (arrived ++ [x])
      rw [List.append_assoc, List.singleton_append] at hRest
      exact .head (.report ..) hRest

/-- Work that has been taken up gives all that it has left, and is done. -/
theorem run_rest (waiting before after : List (List α)) (xs arrived : List α) :
    ReflTransGen (Step jobs) ⟨waiting, before ++ xs :: after, arrived⟩
      ⟨waiting, before ++ after, arrived ++ xs⟩ := by
  have hAll := run_reports jobs waiting before after xs [] arrived
  rw [List.append_nil] at hAll
  exact hAll.tail .finish

/-- With a worker free, what waits first is done one after the other. -/
theorem run_waiting {running : List (List α)} (hFree : (running.length : Int) < max 1 jobs)
    (first waiting : List (List α)) (arrived : List α) :
    ReflTransGen (Step jobs) ⟨first ++ waiting, running, arrived⟩
      ⟨waiting, running, arrived ++ first.flatten⟩ := by
  induction first generalizing arrived with
  | nil => simpa using ReflTransGen.refl
  | cons work first ih =>
      have hReports := run_rest jobs (first ++ waiting) running [] work arrived
      rw [List.append_nil] at hReports
      have hRest := ih (arrived ++ work)
      rw [List.append_assoc, ← List.flatten_cons] at hRest
      exact .head (.start hFree) (hReports.trans hRest)

/-- What has been taken up is finished one after the other. -/
theorem run_running (waiting running : List (List α)) (arrived : List α) :
    ReflTransGen (Step jobs) ⟨waiting, running, arrived⟩
      ⟨waiting, [], arrived ++ running.flatten⟩ := by
  induction running generalizing arrived with
  | nil => simpa using ReflTransGen.refl
  | cons work running ih =>
      have hRest := ih (arrived ++ work)
      rw [List.append_assoc, ← List.flatten_cons] at hRest
      exact (run_rest jobs waiting [] running work arrived).trans hRest

theorem exists_worker : ((([] : List (List α)).length : Nat) : Int) < max 1 jobs := by
  simp only [List.length_nil]
  omega

theorem run_all (p : Pool α) : ReflTransGen (Step jobs) p ⟨[], [], p.order⟩ := by
  have hWaiting := run_waiting jobs (exists_worker jobs) p.waiting []
    (p.arrived ++ p.running.flatten)
  rw [List.append_nil] at hWaiting
  exact (run_running jobs p.waiting p.running p.arrived).trans hWaiting

/-- The order of one worker is among the orders of many. -/
theorem arrives_flatten (work : List (List α)) : Arrives jobs work work.flatten := by
  simpa [Arrives, order] using run_all jobs (⟨work, [], []⟩ : Pool α)

end Runs

section Choices

variable {α β : Type} {p q : Pool α} {work : List (List α)} {arrived : List α}

theorem exists_append_of_getElem? {β : Type} {xs : List β} {i : Nat} {x : β}
    (h : xs[i]? = some x) : ∃ before after, xs = before ++ x :: after ∧ before.length = i := by
  obtain ⟨hLt, rfl⟩ := List.getElem?_eq_some_iff.mp h
  refine ⟨xs.take i, xs.drop (i + 1), ?_, List.length_take_of_le (Nat.le_of_lt hLt)⟩
  rw [List.getElem_cons_drop, List.take_append_drop]

/-- A turn is a step, or it does nothing where nobody can move. -/
theorem step_advance (jobs : Int) (p : Pool α) (choice : Nat) :
    p.advance jobs choice = p ∨ Step jobs p (p.advance jobs choice) := by
  obtain ⟨waiting, running, arrived⟩ := p
  unfold advance
  split
  case h_1 x rest hChosen =>
    obtain ⟨before, after, rfl, rfl⟩ := exists_append_of_getElem? hChosen
    right
    simpa using Step.report waiting before after x rest arrived
  case h_2 hChosen =>
    obtain ⟨before, after, rfl, rfl⟩ := exists_append_of_getElem? hChosen
    right
    simpa [List.eraseIdx_append_of_length_le] using Step.finish
  case h_3 =>
    cases waiting with
    | nil => exact .inl rfl
    | cons work waiting =>
        dsimp only
        split
        case isTrue hFree => exact .inr (.start hFree)
        case isFalse => exact .inl rfl

/-- Every step is the turn of some choice. -/
theorem exists_choice (h : Step jobs p q) : ∃ choice, p.advance jobs choice = q := by
  cases h with
  | @start work waiting running arrived hFree =>
      refine ⟨running.length, ?_⟩
      simp [advance, hFree]
  | report waiting before after x rest arrived =>
      refine ⟨before.length, ?_⟩
      simp [advance]
  | @finish waiting before after arrived =>
      refine ⟨before.length, ?_⟩
      simp [advance, List.eraseIdx_append_of_length_le]

theorem run_foldl_advance (jobs : Int) (choices : List Nat) (p : Pool α) :
    ReflTransGen (Step jobs) p (choices.foldl (advance jobs) p) := by
  induction choices generalizing p with
  | nil => exact .refl
  | cons choice choices ih =>
      rcases step_advance jobs p choice with hSame | hStep
      · rw [List.foldl_cons, hSame]
        exact ih p
      · exact .head hStep (ih _)

theorem exists_choices (h : ReflTransGen (Step jobs) p q) :
    ∃ choices : List Nat, choices.foldl (advance jobs) p = q := by
  induction h with
  | refl => exact ⟨[], rfl⟩
  | tail _ last ih =>
      obtain ⟨choices, rfl⟩ := ih
      obtain ⟨choice, rfl⟩ := exists_choice last
      exact ⟨choices ++ [choice], by simp⟩

/-- What arrives by some choices is what can arrive. -/
theorem arrives_iff :
    Arrives jobs work arrived ↔ ∃ choices, arrange jobs choices work = arrived := by
  constructor
  · intro h
    obtain ⟨choices, hEnd⟩ := exists_choices h
    exact ⟨choices, by rw [arrange, hEnd]; simp [order]⟩
  · rintro ⟨choices, rfl⟩
    exact (run_foldl_advance jobs choices _).trans (run_all jobs _)

theorem arrives_collect (jobs : Int) (choices : List Nat) (work : List (List α)) :
    Arrives jobs work (collect jobs choices work) := by
  unfold collect
  split
  case isTrue => exact arrives_iff.mpr ⟨choices, rfl⟩
  case isFalse => exact arrives_flatten jobs work

/-- What is picked from each piece of work arrives like the whole. -/
def filterMap (f : α → Option β) (p : Pool α) : Pool β :=
  ⟨p.waiting.map (List.filterMap f), p.running.map (List.filterMap f), p.arrived.filterMap f⟩

theorem Step.filterMap (f : α → Option β) (h : Step jobs p q) :
    ReflTransGen (Step jobs) (p.filterMap f) (q.filterMap f) := by
  cases h with
  | start hFree =>
      refine .single ?_
      simpa [Pool.filterMap] using Step.start (by simpa using hFree)
  | finish =>
      refine .single ?_
      simpa [Pool.filterMap] using Step.finish
  | report waiting before after x rest arrived =>
      cases hx : f x with
      | none => simpa [Pool.filterMap, hx] using ReflTransGen.refl
      | some y =>
          refine .single ?_
          simpa [Pool.filterMap, hx] using Step.report _ _ _ y _ _

theorem Arrives.filterMap (f : α → Option β) (h : Arrives jobs work arrived) :
    Arrives jobs (work.map (List.filterMap f)) (arrived.filterMap f) :=
  ReflTransGen.lift' (p := Step jobs) (Pool.filterMap f) (fun _ _ hStep => hStep.filterMap f) _ _ h

/-- What is picked from all that is collected could have been collected by itself. -/
theorem exists_collect_filterMap (f : α → Option β) (jobs : Int) (choices : List Nat)
    (work : List (List α)) : ∃ choices', collect jobs choices' (work.map (List.filterMap f)) =
      (collect jobs choices work).filterMap f := by
  by_cases hMany : 1 < jobs ∧ 2 ≤ work.length
  · have hArrives := (arrives_collect jobs choices work).filterMap f
    obtain ⟨choices', hSame⟩ := arrives_iff.mp hArrives
    exact ⟨choices', by rw [← hSame, collect, List.length_map, if_pos hMany]⟩
  · refine ⟨[], ?_⟩
    rw [collect, collect, List.length_map, if_neg hMany, if_neg hMany, List.filterMap_flatten]

end Choices

/-- Two workers can have one report each of two functions to give at the same time. -/
theorem run_to_race (hMany : 1 < jobs) {r s : List Diagnostic} {reports : List (List Diagnostic)}
    (hSub : [r, s].Sublist reports) {d e : Diagnostic} (hd : d ∈ r) (he : e ∈ s) :
    ∃ waiting rest rest' before, ReflTransGen (Step jobs) ⟨reports, [], []⟩
      ⟨waiting, [d :: rest, e :: rest'], before⟩ := by
  obtain ⟨_, _, rfl, hr, hs⟩ := List.cons_sublist_iff.mp hSub
  obtain ⟨as, bs, rfl⟩ := List.append_of_mem hr
  obtain ⟨cs, waiting, rfl⟩ := List.append_of_mem (List.singleton_sublist.mp hs)
  obtain ⟨first, rest, rfl⟩ := List.append_of_mem hd
  obtain ⟨first', rest', rfl⟩ := List.append_of_mem he
  have hTwo : (([d :: rest].length : Nat) : Int) < max 1 jobs := by
    simp only [List.length_singleton]
    omega
  -- the first worker stops before its report while the second does all that comes between
  refine ⟨waiting, rest, rest', as.flatten ++ first ++ (bs ++ cs).flatten ++ first', ?_⟩
  have hAs := run_waiting jobs (exists_worker jobs) as
    ((first ++ d :: rest) :: (bs ++ cs) ++ (first' ++ e :: rest') :: waiting) []
  have hFirst := run_reports jobs (bs ++ cs ++ (first' ++ e :: rest') :: waiting) [] [] first
    (d :: rest) as.flatten
  have hBetween := run_waiting jobs hTwo (bs ++ cs) ((first' ++ e :: rest') :: waiting)
    (as.flatten ++ first)
  have hSecond := run_reports jobs waiting [d :: rest] [] first' (e :: rest')
    (as.flatten ++ first ++ (bs ++ cs).flatten)
  have hStart := (hAs.tail (.start (exists_worker jobs))).trans (hFirst.trans hBetween)
  simpa using (hStart.tail (.start hTwo)).trans hSecond

/-- Such two reports can arrive in both orders. -/
theorem exists_race (hMany : 1 < jobs) {r s : List Diagnostic} {reports : List (List Diagnostic)}
    (hSub : [r, s].Sublist reports) {d e : Diagnostic} (hd : d ∈ r) (he : e ∈ s) :
    ∃ before after, Arrives jobs reports (before ++ [d, e] ++ after) ∧
      Arrives jobs reports (before ++ [e, d] ++ after) := by
  obtain ⟨waiting, rest, rest', before, hRun⟩ := run_to_race hMany hSub hd he
  have hEnd := fun arrived => run_all jobs ⟨waiting, [rest, rest'], arrived⟩
  refine ⟨before, [rest, rest'].flatten ++ waiting.flatten, ?_, ?_⟩
  · have hFirst : Step jobs ⟨waiting, [d :: rest, e :: rest'], before⟩
        ⟨waiting, [rest, e :: rest'], before ++ [d]⟩ :=
      .report waiting [] _ _ _ _
    have hSecond : Step jobs ⟨waiting, [rest, e :: rest'], before ++ [d]⟩
        ⟨waiting, [rest, rest'], before ++ [d] ++ [e]⟩ :=
      .report waiting [rest] [] _ _ _
    simpa [Arrives, order] using ((hRun.tail hFirst).tail hSecond).trans (hEnd _)
  · have hFirst : Step jobs ⟨waiting, [d :: rest, e :: rest'], before⟩
        ⟨waiting, [d :: rest, rest'], before ++ [e]⟩ :=
      .report waiting [d :: rest] [] _ _ _
    have hSecond : Step jobs ⟨waiting, [d :: rest, rest'], before ++ [e]⟩
        ⟨waiting, [rest, rest'], before ++ [e] ++ [d]⟩ :=
      .report waiting [] _ _ _ _
    simpa [Arrives, order] using ((hRun.tail hFirst).tail hSecond).trans (hEnd _)

/-- Functions are apart if the sorted reports never depend on the order of arrival. -/
theorem pairwise_apart_of_sort_eq (hMany : 1 < jobs) {reports : List (List Diagnostic)}
    {sorted : List Diagnostic}
    (h : ∀ arrived, Arrives jobs reports arrived → sort arrived = sorted) :
    reports.Pairwise Apart := by
  refine List.pairwise_iff_forall_sublist.mpr fun {r s} hSub d hd e he hKey => ?_
  obtain ⟨before, after, hThere, hBack⟩ := exists_race hMany hSub hd he
  have hTied := (sort_eq_sort_iff _ _).mp ((h _ hThere).trans (h _ hBack).symm) d.sortKey
  have hPair : tied d.sortKey [d, e] = tied d.sortKey [e, d] := by
    simpa only [tied_append, List.append_cancel_left_eq, List.append_cancel_right_eq] using hTied
  simp only [tied, List.filter_cons, hKey, decide_true, if_true] at hPair
  exact (List.cons.inj hPair).1

end Pool

/-- The reports of a check can arrive in this order. -/
def CheckArrives (settings : Settings) (jobs : Int) (fns : List Function)
    (arrived : List Diagnostic) : Prop :=
  Pool.Arrives jobs ((fns.filter Function.hasBody).map (·.reports settings)) arrived

theorem diagnostics_check (settings : Settings) (fns : List Function) :
    (check settings fns).diagnostics =
      sort ((fns.filter Function.hasBody).map (·.reports settings)).flatten := by
  rw [check, List.flatMap_def]

theorem CheckArrives.perm_sort {settings : Settings} {jobs : Int} {fns : List Function}
    {arrived : List Diagnostic} (h : CheckArrives settings jobs fns arrived) :
    (sort arrived).Perm (check settings fns).diagnostics := by
  rw [diagnostics_check]
  exact ((sort_perm _).trans h.perm).trans (sort_perm _).symm

theorem CheckArrives.map_sortKey {settings : Settings} {jobs : Int} {fns : List Function}
    {arrived : List Diagnostic} (h : CheckArrives settings jobs fns arrived) :
    (sort arrived).map sortKey = (check settings fns).diagnostics.map sortKey := by
  rw [diagnostics_check]
  exact map_sortKey_sort h.perm

theorem checkArrives_collect (settings : Settings) (jobs : Int) (choices : List Nat)
    (fns : List Function) : CheckArrives settings jobs fns
      (Pool.collect jobs choices ((fns.filter Function.hasBody).map (·.reports settings))) :=
  Pool.arrives_collect jobs choices _

/-- The same results up to the order of diagnostics that are tied. -/
structure Results.IsRearranged (r s : Results) : Prop where
  perm : r.diagnostics.Perm s.diagnostics
  keys : r.diagnostics.map sortKey = s.diagnostics.map sortKey
  checked : r.checked = s.checked

theorem isRearranged_checkBy (settings : Settings) (jobs : Int) (choices : List Nat)
    (fns : List Function) : (checkBy settings jobs choices fns).IsRearranged (check settings fns) :=
  have hArrives := checkArrives_collect settings jobs choices fns
  ⟨hArrives.perm_sort, hArrives.map_sortKey, rfl⟩

/-- Several workers give what one worker gives, up to the order of diagnostics that are tied.
They give the same list in every order of arrival exactly if there is one worker only or no
two functions have different reports with one key. -/
theorem sort_checkArrives (settings : Settings) (jobs : Int) (fns : List Function) :
    CheckArrives settings jobs fns
        ((fns.filter Function.hasBody).flatMap (·.reports settings)) ∧
      (∀ arrived, CheckArrives settings jobs fns arrived →
        (sort arrived).Perm (check settings fns).diagnostics ∧
        (sort arrived).map sortKey = (check settings fns).diagnostics.map sortKey) ∧
      ((∀ arrived, CheckArrives settings jobs fns arrived →
          sort arrived = (check settings fns).diagnostics) ↔
        jobs ≤ 1 ∨ (fns.filter Function.hasBody).Pairwise fun f g =>
          ∀ d ∈ f.reports settings, ∀ e ∈ g.reports settings, d.sortKey = e.sortKey → d = e) := by
  refine ⟨?_, fun arrived h => ?_, fun h => ?_, fun h arrived hArrives => ?_⟩
  · rw [List.flatMap_def]
    exact Pool.arrives_flatten jobs _
  · exact ⟨h.perm_sort, h.map_sortKey⟩
  · by_cases hMany : 1 < jobs
    · exact .inr (List.pairwise_map.mp (Pool.pairwise_apart_of_sort_eq hMany h))
    · exact .inl (by omega)
  · rw [diagnostics_check]
    refine hArrives.sort_eq fun hMany => ?_
    rcases h with hOne | hApart
    · omega
    · exact List.pairwise_map.mpr hApart

/-- Passes nil on, at a place that is not known. -/
def carelessCaller (name : String) : Function :=
  { callee := { package := "guards", name }
    blocks := #[
      { index := 0
        instrs := [
          { op := .call (.leaf { id := 1, name := "result" } .other)
              (some { package := "guards", name := "use" })
              [some (.leaf { id := 0, name := "" } (.const true "nil"))] },
          { op := .ret [] }] }] }

def carelessSettings : Settings :=
  { validator := .ofTargets [⟨{ package := "guards", name := "use" }, 0⟩] }

theorem walk_carelessCaller (name : String) : (carelessCaller name).walk = ⟨[⟨0, []⟩], true⟩ := by
  have hBelow : (carelessCaller name).below ⟨0, []⟩ = [] := rfl
  have hSize : (carelessCaller name).blocks.size = 1 := rfl
  have hMark : (carelessCaller name).markOf 0 = 0 := rfl
  simp [Function.walk, Function.walkFrom, Function.hasBody, hMark, hBelow, hSize]

theorem filter_carelessCaller (first second : String) :
    [carelessCaller first, carelessCaller second].filter Function.hasBody =
      [carelessCaller first, carelessCaller second] :=
  rfl

theorem reports_carelessCaller (name : String) :
    (carelessCaller name).reports carelessSettings =
      [.nilArgument {} "use" 0 (carelessCaller name).name] := by
  rw [Function.reports, Function.events, walk_carelessCaller]
  rfl

theorem checkArrives_carelessCaller (first second : String) :
    CheckArrives carelessSettings 2 [carelessCaller first, carelessCaller second]
      [.nilArgument {} "use" 0 (carelessCaller second).name,
        .nilArgument {} "use" 0 (carelessCaller first).name] := by
  simp only [CheckArrives, filter_carelessCaller, List.map_cons, List.map_nil,
    reports_carelessCaller]
  refine .head (.start (Pool.exists_worker 2)) (.head (.start ?_) ?_)
  · simp only [List.nil_append, List.length_singleton]
    omega
  · exact (Pool.run_rest 2 [] [[Diagnostic.nilArgument {} "use" 0 (carelessCaller first).name]] []
      _ []).trans (Pool.run_rest 2 [] [] [] _ _)

/-- Two workers on two functions that pass nil to the same callee at the same place: the
second function can be reported first, and stays first. -/
theorem sort_checkArrives_ne :
    ∃ arrived,
      CheckArrives carelessSettings 2 [carelessCaller "first", carelessCaller "second"] arrived ∧
      sort arrived ≠
        (check carelessSettings [carelessCaller "first", carelessCaller "second"]).diagnostics := by
  refine ⟨_, checkArrives_carelessCaller "first" "second", fun hSame => ?_⟩
  have hTied := (sort_eq_sort_iff _ _).mp (hSame.trans (diagnostics_check ..))
    (Diagnostic.nilArgument {} "use" 0 "").sortKey
  have hPair (a b : String) : tied (Diagnostic.nilArgument {} "use" 0 "").sortKey
      [.nilArgument {} "use" 0 a, .nilArgument {} "use" 0 b] =
        [.nilArgument {} "use" 0 a, .nilArgument {} "use" 0 b] := by
    simp [tied, sortKey, Diagnostic.nilArgument]
  simp only [filter_carelessCaller, List.map_cons, List.map_nil, reports_carelessCaller,
    List.flatten_cons, List.flatten_nil, List.singleton_append, List.append_nil, hPair] at hTied
  have hNames := congrArg (List.map (·.function)) hTied
  revert hNames
  decide

end NilGuard
