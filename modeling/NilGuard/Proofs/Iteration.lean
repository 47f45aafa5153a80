import NilGuard.Proofs.DomTree
/-! The iteration that finds immediate dominators, step by step. Two fingers climb the table
as far as it is known, and the table is passed over again until nothing changes. No
finger ever leaves the table, because every entry leads to a smaller number. -/
namespace NilGuard

namespace Graph

/-- The number of a place in reverse postorder, if it can be reached. -/
def number? (g : Graph) (b : Nat) : Option Nat := g.order.idxOf? b

/-- The predecessors of a place that have a number and an entry. -/
def knownPreds (g : Graph) (idom : Nat → Option Nat) (b : Nat) : List Nat :=
  (g.preds b).filter fun p => (g.number? p).isSome && (idom p).isSome

/-- A place has a smaller number than another one. -/
def IsBefore (g : Graph) (a b : Nat) : Prop :=
  ∃ i j, g.number? a = some i ∧ g.number? b = some j ∧ i < j

theorem IsBefore.trans {g : Graph} {a b c : Nat} (hFirst : g.IsBefore a b)
    (hSecond : g.IsBefore b c) : g.IsBefore a c := by
  obtain ⟨i, j, hi, hj, hLt⟩ := hFirst
  obtain ⟨j', k, hj', hk, hLt'⟩ := hSecond
  rw [hj] at hj'
  cases hj'
  exact ⟨i, k, hi, hk, Nat.lt_trans hLt hLt'⟩

end Graph

/-- Where the iteration is: at the places still ahead in this pass, at the predecessors of a
place still to be met with what was found so far, or at two fingers that climb. -/
inductive Stage where
  | scan (ahead : List Nat)
  | fold (b : Nat) (ahead : List Nat) (found : Nat) (left : List Nat)
  | climb (b : Nat) (ahead : List Nat) (first second : Option Nat) (left : List Nat)

/-- The places that a stage is going to look up. -/
def Stage.fingers : Stage → List (Option Nat)
  | .scan _ => []
  | .fold _ _ found left => some found :: left.map some
  | .climb _ _ first second left => first :: second :: left.map some

structure Iteration where
  idom : Nat → Option Nat
  changed : Bool
  stage : Stage

namespace Iteration

def start (g : Graph) : Iteration :=
  ⟨fun b => if b = 0 then some 0 else none, false, .scan g.order⟩

def IsDone (s : Iteration) : Prop := s.stage = .scan [] ∧ s.changed = false

/-- The finger with the larger number moves up. There is no step when a finger is lost or
has no number, or when neither number is larger. -/
def climb (g : Graph) (s : Iteration) (b : Nat) (ahead : List Nat) (left : List Nat) :
    Option Nat → Option Nat → Option Iteration
  | some x, some y =>
    if x = y then some { s with stage := .fold b ahead x left }
    else
      match g.number? x, g.number? y with
      | some i, some j =>
        if j < i then some { s with stage := .climb b ahead (s.idom x) (some y) left }
        else if i < j then some { s with stage := .climb b ahead (some x) (s.idom y) left }
        else none
      | _, _ => none
  | _, _ => none

/-- One step of the iteration. -/
def step (g : Graph) (s : Iteration) : Option Iteration :=
  match s.stage with
  | .scan [] => if s.changed then some { s with changed := false, stage := .scan g.order } else none
  | .scan (b :: ahead) =>
    if b = 0 then some { s with stage := .scan ahead }
    else
      match g.knownPreds s.idom b with
      | [] => some { s with stage := .scan ahead }
      | p :: ps => some { s with stage := .fold b ahead p ps }
  | .fold b ahead found [] =>
    if s.idom b = some found then some { s with stage := .scan ahead }
    else some ⟨fun c => if c = b then some found else s.idom c, true, .scan ahead⟩
  | .fold b ahead found (p :: ps) =>
    some { s with stage := .climb b ahead (some found) (some p) ps }
  | .climb b ahead first second left => s.climb g b ahead left first second

section Climb

variable {g : Graph} {s : Iteration} {b x y i j : Nat} {ahead left : List Nat}

theorem climb_eq (hEq : x = y) : s.climb g b ahead left (some x) (some y) =
    some { s with stage := .fold b ahead x left } := by
  simp [climb, hEq]

theorem climb_first (hi : g.number? x = some i) (hj : g.number? y = some j) (hLt : j < i) :
    s.climb g b ahead left (some x) (some y) =
      some { s with stage := .climb b ahead (s.idom x) (some y) left } := by
  have hNe : x ≠ y := by
    rintro rfl
    rw [hi] at hj
    cases hj
    omega
  simp [climb, hNe, hi, hj, hLt]

theorem climb_second (hi : g.number? x = some i) (hj : g.number? y = some j) (hLt : i < j) :
    s.climb g b ahead left (some x) (some y) =
      some { s with stage := .climb b ahead (some x) (s.idom y) left } := by
  have hNe : x ≠ y := by
    rintro rfl
    rw [hi] at hj
    cases hj
    omega
  simp [climb, hNe, hi, hj, hLt, Nat.not_lt_of_gt hLt]

end Climb

/-- A number of steps one after another. -/
inductive Steps (g : Graph) : Nat → Iteration → Iteration → Prop where
  | none {s : Iteration} : Steps g 0 s s
  | more {n : Nat} {s t u : Iteration} (first : s.step g = some t) (rest : Steps g n t u) :
      Steps g (n + 1) s u

namespace Steps

variable {g : Graph} {n m : Nat} {s t u : Iteration}

theorem one (first : s.step g = some t) : Steps g 1 s t := more first none

theorem trans (left : Steps g n s t) (right : Steps g m t u) : Steps g (n + m) s u := by
  induction left with
  | none => rwa [Nat.zero_add]
  | more first rest ih =>
      rw [Nat.add_right_comm]
      exact more first (ih right)

/-- What a step keeps is kept by all steps. -/
theorem keeps {P : Iteration → Prop} (hStep : ∀ {s t}, P s → s.step g = some t → P t)
    (hs : P s) (steps : Steps g n s t) : P t := by
  induction steps with
  | none => exact hs
  | more first rest ih => exact ih (hStep hs first)

/-- No run is longer than one that has come to its end. -/
theorem le_of_end (steps : Steps g n s t) (hEnd : t.step g = Option.none)
    (other : Steps g m s u) : m ≤ n := by
  induction steps generalizing m with
  | none =>
      cases other with
      | none => exact Nat.le_refl _
      | more first rest =>
          rw [hEnd] at first
          cases first
  | more first rest ih =>
      cases other with
      | none => exact Nat.zero_le _
      | more first' rest' =>
          rw [first] at first'
          cases first'
          exact Nat.succ_le_succ (ih hEnd rest')

end Steps

/-- The table is a tree as far as it goes: parents have entries and smaller numbers. -/
structure IsRooted (g : Graph) (idom : Nat → Option Nat) : Prop where
  root : idom 0 = some 0
  lower : ∀ b d, idom b = some d → b ≠ 0 → g.IsBefore d b
  known : ∀ b d, idom b = some d → (idom d).isSome

/-- The places up to `b` have entries, and so have all that are to be met for `b`, one of
which has a smaller number. -/
structure IsFolding (g : Graph) (idom : Nat → Option Nat) (b : Nat) (ahead fingers : List Nat) :
    Prop where
  ne_zero : b ≠ 0
  split : ∃ done, g.order = done ++ b :: ahead ∧ ∀ c ∈ done, (idom c).isSome
  known : ∀ p ∈ fingers, (idom p).isSome
  before : ∃ p ∈ fingers, g.IsBefore p b

/-- What holds at each stage. -/
def IsSoundAt (g : Graph) (idom : Nat → Option Nat) : Stage → Prop
  | .scan ahead => ∃ done, g.order = done ++ ahead ∧ ∀ c ∈ done, (idom c).isSome
  | .fold b ahead found left => IsFolding g idom b ahead (found :: left)
  | .climb b ahead first second left => ∃ x y, first = some x ∧ second = some y ∧
      IsFolding g idom b ahead (x :: y :: left)

structure IsSound (g : Graph) (s : Iteration) : Prop where
  rooted : IsRooted g s.idom
  stage : IsSoundAt g s.idom s.stage

section Sound

variable {g : Graph} {idom : Nat → Option Nat} {b d x y : Nat} {ahead left : List Nat}
  (hClosed : g.IsClosed)
include hClosed

theorem number?_zero : g.number? 0 = some 0 :=
  (Graph.idxOf?_eq_some_iff hClosed).mpr ⟨Graph.order_length_pos hClosed, Graph.place_zero hClosed⟩

theorem IsRooted.exists_number (hRooted : IsRooted g idom) (hKnown : (idom b).isSome) :
    ∃ i, g.number? b = some i := by
  by_cases hZero : b = 0
  · exact ⟨0, hZero ▸ number?_zero hClosed⟩
  · obtain ⟨d, hd⟩ := Option.isSome_iff_exists.mp hKnown
    obtain ⟨-, i, -, hi, -⟩ := hRooted.lower b d hd hZero
    exact ⟨i, hi⟩

omit hClosed in
/-- A finger that moves up stays before what it was before. -/
theorem IsFolding.move (hFold : IsFolding g idom b ahead (x :: left)) (hd : (idom d).isSome)
    (hLower : g.IsBefore d x) : IsFolding g idom b ahead (d :: left) := by
  refine ⟨hFold.ne_zero, hFold.split, ?_, ?_⟩
  · intro p hp
    rcases List.mem_cons.mp hp with rfl | hp
    · exact hd
    · exact hFold.known p (List.mem_cons_of_mem _ hp)
  · obtain ⟨p, hp, hBefore⟩ := hFold.before
    rcases List.mem_cons.mp hp with rfl | hp
    · exact ⟨d, List.mem_cons_self, hLower.trans hBefore⟩
    · exact ⟨p, List.mem_cons_of_mem _ hp, hBefore⟩

omit hClosed in
theorem IsFolding.subset {fingers fingers' : List Nat} (hFold : IsFolding g idom b ahead fingers)
    (hMem : ∀ p, p ∈ fingers' ↔ p ∈ fingers) : IsFolding g idom b ahead fingers' := by
  refine ⟨hFold.ne_zero, hFold.split, fun p hp => hFold.known p ((hMem p).mp hp), ?_⟩
  obtain ⟨p, hp, hBefore⟩ := hFold.before
  exact ⟨p, (hMem p).mpr hp, hBefore⟩

theorem number?_inj {i : Nat} (ha : g.number? x = some i) (hb : g.number? y = some i) : x = y := by
  rw [← ((Graph.idxOf?_eq_some_iff hClosed).mp ha).2,
    ← ((Graph.idxOf?_eq_some_iff hClosed).mp hb).2]

theorem isBefore_of_split {done : List Nat} (hSplit : g.order = done ++ b :: ahead)
    (hx : x ∈ done) : g.IsBefore x b := by
  obtain ⟨i, hi, hGet⟩ := List.mem_iff_getElem.mp hx
  have hLength : g.order.length = done.length + (ahead.length + 1) := by
    rw [hSplit, List.length_append, List.length_cons]
  refine ⟨i, done.length, (Graph.idxOf?_eq_some_iff hClosed).mpr ⟨by omega, ?_⟩,
    (Graph.idxOf?_eq_some_iff hClosed).mpr ⟨by omega, ?_⟩, hi⟩
  · simp [Graph.place, hSplit, List.getElem?_append_left hi, List.getElem?_eq_getElem hi, hGet]
  · simp [Graph.place, hSplit]

/-- The finger with the larger number goes up, and the other one stays. -/
theorem IsRooted.exists_parent (hRooted : IsRooted g idom) (hKnown : (idom x).isSome) {i j : Nat}
    (hi : g.number? x = some i) (hLt : j < i) :
    ∃ d, idom x = some d ∧ (idom d).isSome ∧ g.IsBefore d x := by
  obtain ⟨d, hd⟩ := Option.isSome_iff_exists.mp hKnown
  have hNe : x ≠ 0 := by
    rintro rfl
    rw [number?_zero hClosed] at hi
    cases hi
    omega
  exact ⟨d, hd, hRooted.known x d hd, hRooted.lower x d hd hNe⟩

theorem IsSound.climb {s : Iteration} (hRooted : IsRooted g s.idom)
    (hFold : IsFolding g s.idom b ahead (x :: y :: left)) :
    ∃ t, s.climb g b ahead left (some x) (some y) = some t ∧ IsSound g t := by
  by_cases hEq : x = y
  · exact ⟨_, climb_eq hEq, hRooted, hFold.subset (by simp [hEq])⟩
  · have hx := hFold.known x (by simp)
    have hy := hFold.known y (by simp)
    obtain ⟨i, hi⟩ := hRooted.exists_number hClosed hx
    obtain ⟨j, hj⟩ := hRooted.exists_number hClosed hy
    rcases Nat.lt_trichotomy i j with hLt | hSame | hLt
    · obtain ⟨d, hd, hKnown, hLower⟩ := hRooted.exists_parent hClosed hy hj hLt
      have hSwap : IsFolding g s.idom b ahead (y :: x :: left) :=
        hFold.subset fun _ => (List.Perm.swap x y left).mem_iff
      refine ⟨_, climb_second hi hj hLt, hRooted, x, d, rfl, hd, ?_⟩
      exact (hSwap.move hKnown hLower).subset fun _ => (List.Perm.swap d x left).mem_iff
    · exact absurd (number?_inj hClosed hi (hSame ▸ hj)) hEq
    · obtain ⟨d, hd, hKnown, hLower⟩ := hRooted.exists_parent hClosed hx hi hLt
      exact ⟨_, climb_first hi hj hLt, hRooted, d, y, hd, rfl, hFold.move hKnown hLower⟩

omit hClosed in
/-- A new entry that comes before its place keeps the tree. -/
theorem IsRooted.set (hRooted : IsRooted g idom) (hb : b ≠ 0) (hd : (idom d).isSome)
    (hBefore : g.IsBefore d b) : IsRooted g fun c => if c = b then some d else idom c := by
  have hKnown : ∀ c, (idom c).isSome → (if c = b then some d else idom c).isSome := by
    intro c hc
    split
    · rfl
    · exact hc
  constructor
  case root => rw [if_neg (Ne.symm hb), hRooted.root]
  case lower =>
    intro c e hGet hc
    by_cases hEq : c = b
    · rw [if_pos hEq] at hGet
      cases hGet
      exact hEq ▸ hBefore
    · rw [if_neg hEq] at hGet
      exact hRooted.lower c e hGet hc
  case known =>
    intro c e hGet
    apply hKnown
    by_cases hEq : c = b
    · rw [if_pos hEq] at hGet
      cases hGet
      exact hd
    · rw [if_neg hEq] at hGet
      exact hRooted.known c e hGet

omit hClosed in
theorem isSoundAt_scan {done : List Nat} (hOrder : g.order = done ++ b :: ahead)
    (hDone : ∀ c ∈ done, (idom c).isSome) (hb : (idom b).isSome) :
    IsSoundAt g idom (.scan ahead) := by
  refine ⟨done ++ [b], by simp [hOrder], fun c hc => ?_⟩
  rcases List.mem_append.mp hc with hc | hc
  · exact hDone c hc
  · rwa [List.mem_singleton.mp hc]

variable (hPreds : g.HasReachedPreds)
include hPreds

/-- A place other than the first has a predecessor that comes before it, so there is
something to find its entry from. -/
theorem isFolding_of_scan (hb : b ≠ 0)
    (hSplit : ∃ done, g.order = done ++ b :: ahead ∧ ∀ c ∈ done, (idom c).isSome) :
    ∃ p ps, g.knownPreds idom b = p :: ps ∧ IsFolding g idom b ahead (p :: ps) := by
  obtain ⟨done, hOrder, hDone⟩ := hSplit
  obtain ⟨q, hq, hEdge⟩ := Graph.exists_pred_before hClosed hOrder hb
  have hReach : ∀ c ∈ g.order, Reachable g.Edge c := fun c => (Graph.mem_order_iff hClosed).mp
  have hqReach := hReach q (by simp [hOrder, hq])
  have hbLt := hClosed.lt_size (hReach b (by simp [hOrder]))
  have hBefore := isBefore_of_split hClosed hOrder hq
  have ⟨i, _, hi, _⟩ := hBefore
  have hMem : q ∈ g.knownPreds idom b := by
    refine List.mem_filter.mpr ⟨hPreds b hbLt q hqReach hEdge, ?_⟩
    simp [hi, hDone q hq]
  have hFold : IsFolding g idom b ahead (g.knownPreds idom b) := by
    refine ⟨hb, ⟨done, hOrder, hDone⟩, fun p hp => ?_, q, hMem, hBefore⟩
    exact (Bool.and_eq_true_iff.mp (List.mem_filter.mp hp).2).2
  cases hList : g.knownPreds idom b with
  | nil =>
      rw [hList] at hMem
      exact absurd hMem List.not_mem_nil
  | cons p ps => exact ⟨p, ps, rfl, hList ▸ hFold⟩

/-- As long as the iteration is not done it takes a step, and nothing it relies on is lost. -/
theorem IsSound.step {s : Iteration} (hs : IsSound g s) :
    s.IsDone ∨ ∃ t, s.step g = some t ∧ IsSound g t := by
  obtain ⟨idom, changed, stage⟩ := s
  have hRooted : IsRooted g idom := hs.rooted
  have hStage : IsSoundAt g idom stage := hs.stage
  cases stage with
  | scan ahead =>
      cases ahead with
      | nil =>
          cases changed with
          | false => exact Or.inl ⟨rfl, rfl⟩
          | true => exact Or.inr ⟨_, rfl, hRooted, [], rfl, by simp⟩
      | cons b ahead =>
          right
          by_cases hb : b = 0
          · obtain ⟨done, hOrder, hDone⟩ := hStage
            have hKnown : (idom b).isSome := by simp [hb, hRooted.root]
            exact ⟨⟨idom, changed, .scan ahead⟩, by simp [Iteration.step, hb], hRooted,
              isSoundAt_scan hOrder hDone hKnown⟩
          · obtain ⟨p, ps, hList, hFold⟩ := isFolding_of_scan hClosed hPreds hb hStage
            exact ⟨⟨idom, changed, .fold b ahead p ps⟩, by simp [Iteration.step, hb, hList],
              hRooted, hFold⟩
  | fold b ahead found left =>
      cases left with
      | cons p ps => exact Or.inr ⟨_, rfl, hRooted, found, p, rfl, rfl, hStage⟩
      | nil =>
          right
          have hFound : g.IsBefore found b := by
            obtain ⟨p, hp, hBefore⟩ := hStage.before
            rwa [List.mem_singleton.mp hp] at hBefore
          obtain ⟨done, hOrder, hDone⟩ := hStage.split
          by_cases hSame : idom b = some found
          · have hKnown : (idom b).isSome := by simp [hSame]
            exact ⟨⟨idom, changed, .scan ahead⟩, by simp [Iteration.step, hSame], hRooted,
              isSoundAt_scan hOrder hDone hKnown⟩
          · refine ⟨⟨fun c => if c = b then some found else idom c, true, .scan ahead⟩,
              by simp [Iteration.step, hSame],
              hRooted.set hStage.ne_zero (hStage.known found (by simp)) hFound,
              isSoundAt_scan hOrder (fun c hc => ?_) (by simp)⟩
            by_cases hEq : c = b
            · simp [hEq]
            · simpa [hEq] using hDone c hc
  | climb b ahead first second left =>
      obtain ⟨x, y, rfl, rfl, hFold⟩ := hStage
      exact Or.inr (IsSound.climb hClosed (s := ⟨idom, changed, .climb b ahead (some x) (some y) left⟩)
        hRooted hFold)

end Sound

section Runs

variable {g : Graph} {s : Iteration}

theorem IsDone.step_eq_none (hDone : s.IsDone) : s.step g = none := by
  obtain ⟨hStage, hChanged⟩ := hDone
  simp [step, hStage, hChanged]

/-- What a finger points at has a number and an entry. -/
theorem IsSound.exists_of_mem_fingers (hClosed : g.IsClosed) (hs : IsSound g s) :
    ∀ finger ∈ s.stage.fingers, ∃ b i, finger = some b ∧ g.number? b = some i ∧
      (s.idom b).isSome := by
  have hPoint : ∀ {places : List Nat}, (∀ p ∈ places, (s.idom p).isSome) →
      ∀ finger ∈ places.map some, ∃ b i, finger = some b ∧ g.number? b = some i ∧
        (s.idom b).isSome := by
    intro places hKnown finger hFinger
    obtain ⟨p, hp, rfl⟩ := List.mem_map.mp hFinger
    obtain ⟨i, hi⟩ := hs.rooted.exists_number hClosed (hKnown p hp)
    exact ⟨p, i, rfl, hi, hKnown p hp⟩
  have hStage := hs.stage
  cases h : s.stage with
  | scan ahead => simp [Stage.fingers]
  | fold b ahead found left =>
      rw [h] at hStage
      exact hPoint hStage.known
  | climb b ahead first second left =>
      rw [h] at hStage
      obtain ⟨x, y, rfl, rfl, hFold⟩ := hStage
      exact hPoint hFold.known

/-- Going up along the table ends, because the numbers get smaller. -/
theorem IsRooted.wellFounded {idom : Nat → Option Nat} (hRooted : IsRooted g idom) :
    WellFounded fun d b => idom b = some d ∧ d ≠ b := by
  apply Subrelation.wf (r := InvImage (· < ·) fun b => (g.number? b).getD 0) ?_
    (InvImage.wf _ Nat.lt_wfRel.wf)
  rintro d b ⟨hEntry, hNe⟩
  have hb : b ≠ 0 := by
    rintro rfl
    rw [hRooted.root] at hEntry
    exact hNe (Option.some.inj hEntry).symm
  obtain ⟨i, j, hi, hj, hLt⟩ := hRooted.lower b d hEntry hb
  simpa [InvImage, hi, hj] using hLt

/-- The way up from a place is no longer than its number. -/
theorem IsRooted.onWayUp_eq {tree : DomTree} (hRooted : IsRooted g tree.get) {a b i m n : Nat}
    (hi : g.number? b = some i) (hm : i < m) (hn : i < n) :
    tree.onWayUp a m b = tree.onWayUp a n b := by
  induction m generalizing b i n with
  | zero => omega
  | succ m ih =>
      obtain ⟨n, rfl⟩ : ∃ k, n = k + 1 := ⟨n - 1, by omega⟩
      rw [DomTree.onWayUp, DomTree.onWayUp]
      split
      case isTrue => rfl
      case isFalse hNe =>
        cases hGet : tree.get b with
        | none => rfl
        | some d =>
            by_cases hSame : d = b
            · simp [hSame]
            · have hb : b ≠ 0 := by
                rintro rfl
                rw [hRooted.root] at hGet
                exact hSame (Option.some.inj hGet).symm
              obtain ⟨j, i', hj, hi', hLt⟩ := hRooted.lower b d hGet hb
              rw [hi] at hi'
              cases hi'
              simp only [if_neg hSame]
              exact ih hj (by omega) (by omega)

theorem isSound_start (g : Graph) : IsSound g (start g) := by
  refine ⟨⟨rfl, ?_, ?_⟩, [], rfl, by simp⟩
  · intro b d hd hb
    simp [start, hb] at hd
  · intro b d hd
    by_cases hb : b = 0
    · simp only [start, hb, if_true, Option.some.injEq] at hd
      simp [start, ← hd]
    · simp [start, hb] at hd

theorem isSound_of_steps (hClosed : g.IsClosed) (hPreds : g.HasReachedPreds) {n : Nat}
    (steps : Steps g n (start g) s) : IsSound g s := by
  refine steps.keeps ?_ (isSound_start g)
  intro s t hs hStep
  rcases hs.step hClosed hPreds with hDone | ⟨u, hStep', hu⟩
  · rw [hDone.step_eq_none] at hStep
    cases hStep
  · rw [hStep] at hStep'
    cases hStep'
    exact hu

end Runs

end Iteration

end NilGuard
