import NilGuard.Proofs.Iteration
import NilGuard.Proofs.Link
/-! The iteration that finds immediate dominators ends, and with the dominator tree. Place by
place it does what the passes over the numbered table do, and after as many passes as
there are numbers nothing changes any more. -/
namespace NilGuard

namespace Idoms

variable {preds : Array (List Nat)} {t u : Idoms} {a c k : Nat}

theorem ext (hSize : t.size = u.size) (hGet : ∀ a < t.size, t.get a = u.get a) : t = u := by
  apply Array.ext hSize
  intro a ht hu
  simpa [get, ht, hu] using hGet a ht

theorem size_improve (t : Idoms) (ps : List Nat) (a : Nat) : (t.improve ps a).size = t.size := by
  unfold improve
  split <;> simp

theorem get_improve_of_ne (ps : List Nat) (hNe : c ≠ a) : (t.improve ps a).get c = t.get c := by
  unfold improve
  split
  · rfl
  · simp [get, Ne.symm hNe]

/-- Improves the entries of some numbers in turn. -/
def improveAll (preds : Array (List Nat)) (as : List Nat) (t : Idoms) : Idoms :=
  as.foldl (fun t a => t.improve (preds[a]?.getD []) a) t

theorem improveAll_cons (a : Nat) (as : List Nat) (t : Idoms) :
    improveAll preds (a :: as) t = improveAll preds as (t.improve (preds[a]?.getD []) a) := rfl

theorem get_improveAll {as : List Nat} (t : Idoms) (hc : c ∉ as) :
    (improveAll preds as t).get c = t.get c := by
  induction as generalizing t with
  | nil => rfl
  | cons a as ih =>
      rw [List.mem_cons, not_or] at hc
      rw [improveAll_cons, ih _ hc.2, get_improve_of_ne _ hc.1]

/-- When each number has its turn once and the table is the same in the end, nothing has
changed on the way. -/
theorem improveAll_cons_eq_iff {as : List Nat} (ha : a ∉ as) :
    improveAll preds (a :: as) t = t ↔ t.improve (preds[a]?.getD []) a = t ∧
      improveAll preds as (t.improve (preds[a]?.getD []) a) =
        t.improve (preds[a]?.getD []) a := by
  rw [improveAll_cons]
  constructor
  · intro hSame
    have hFirst : t.improve (preds[a]?.getD []) a = t := by
      apply ext (size_improve _ _ _)
      intro c _
      by_cases hEq : c = a
      · rw [hEq, ← get_improveAll (t.improve (preds[a]?.getD []) a) ha, hSame]
      · exact get_improve_of_ne _ hEq
    exact ⟨hFirst, hSame.trans hFirst.symm⟩
  · rintro ⟨hFirst, hRest⟩
    exact hRest.trans hFirst

/-- After enough passes a pass changes nothing. -/
theorem Settled.pass_eq (hNum : IsNumbering preds) (hSettled : Settled preds k t)
    (hSize : preds.size ≤ k) : t.pass preds = t := by
  have hNext := hSettled.pass hNum
  apply ext (by rw [hNext.size, hSettled.size])
  intro a ha
  rw [hNext.size] at ha
  obtain ⟨d, hGet, hFirst, hRest⟩ := hSettled.get_eq hNum hSize ha
  obtain ⟨d', hGet', hFirst', hRest'⟩ := hNext.get_eq hNum (by omega) ha
  rw [hGet, hGet']
  rcases Nat.eq_zero_or_pos a with hZero | hPos
  · rw [hFirst hZero, hFirst' hZero]
  · obtain ⟨path, route, -⟩ := hNum.exists_forward_route a ha
    rw [(hRest hPos).2.unique ⟨path, route⟩ (hRest' hPos).2]

end Idoms

namespace Iteration

/-- The table by place says what a table by number says. -/
structure Reads (g : Graph) (idom : Nat → Option Nat) (t : Idoms) : Prop where
  place : ∀ a < g.order.length, idom (g.place a) = (t.get a).map g.place
  outside : ∀ b, b ∉ g.order → idom b = none

section Simulation

variable {g : Graph} {idom : Nat → Option Nat} {t : Idoms} {a b i j k : Nat} {ahead left : List Nat}
  {changed : Bool} (hClosed : g.IsClosed)
include hClosed

theorem number?_place (ha : a < g.order.length) : g.number? (g.place a) = some a :=
  (Graph.idxOf?_eq_some_iff hClosed).mpr ⟨ha, rfl⟩

section Partial

variable (hReads : Reads g idom t) (hPart : Idoms.IsPartial (g.numberedPreds g.order) t)
include hReads hPart

omit hClosed hReads in
theorem lt_length_of_isSome (ha : (t.get a).isSome) : a < g.order.length := by
  rw [← g.size_numberedPreds]
  exact hPart.lt_size ha

/-- Two fingers climb to where the ways up of their numbers meet. -/
theorem steps_climb {fuel : Nat} (hi : (t.get i).isSome) (hj : (t.get j).isSome)
    (hFuel : i + j ≤ fuel) :
    ∃ n, Steps g n ⟨idom, changed, .climb b ahead (some (g.place i)) (some (g.place j)) left⟩
      ⟨idom, changed, .fold b ahead (g.place (t.meet fuel i j)) left⟩ := by
  induction fuel generalizing i j with
  | zero =>
      obtain ⟨rfl, rfl⟩ : i = 0 ∧ j = 0 := by omega
      exact ⟨1, Steps.one (climb_eq rfl)⟩
  | succ fuel ih =>
      have hiLt := lt_length_of_isSome hPart hi
      have hjLt := lt_length_of_isSome hPart hj
      have hiNum := number?_place hClosed hiLt
      have hjNum := number?_place hClosed hjLt
      rw [Idoms.meet]
      split
      case isTrue hEq => exact ⟨1, Steps.one (climb_eq (by rw [hEq]))⟩
      case isFalse hNe =>
        split
        case isTrue hLt =>
          obtain ⟨d, hGet⟩ := Option.isSome_iff_exists.mp hi
          have hLower : d < i := hPart.lower i d (by omega) hGet
          have hUp : idom (g.place i) = some (g.place d) := by
            rw [hReads.place i hiLt, hGet]
            rfl
          obtain ⟨n, rest⟩ := ih (hPart.known i d hGet) hj (by omega)
          rw [Idoms.up_eq hGet]
          rw [← hUp] at rest
          exact ⟨n + 1, Steps.more (climb_first hiNum hjNum hLt) rest⟩
        case isFalse hGe =>
          obtain ⟨d, hGet⟩ := Option.isSome_iff_exists.mp hj
          have hLower : d < j := hPart.lower j d (by omega) hGet
          have hUp : idom (g.place j) = some (g.place d) := by
            rw [hReads.place j hjLt, hGet]
            rfl
          obtain ⟨n, rest⟩ := ih hi (hPart.known j d hGet) (by omega)
          rw [Idoms.up_eq hGet]
          rw [← hUp] at rest
          exact ⟨n + 1, Steps.more (climb_second hiNum hjNum (by omega)) rest⟩

theorem steps_fold (hNum : Idoms.IsNumbering (g.numberedPreds g.order)) {qs : List Nat}
    (hKnown : ∀ q ∈ i :: qs, (t.get q).isSome) :
    ∃ n, Steps g n ⟨idom, changed, .fold b ahead (g.place i) (qs.map g.place)⟩
      ⟨idom, changed, .fold b ahead (g.place (qs.foldl (t.meet t.meetSteps) i)) []⟩ := by
  induction qs generalizing i with
  | nil => exact ⟨0, Steps.none⟩
  | cons q qs ih =>
      have hi := hKnown i (by simp)
      have hq := hKnown q (by simp)
      have hFuel : i + q ≤ t.meetSteps := by
        have hiLt := Idoms.lt_size_of_isSome hi
        have hqLt := Idoms.lt_size_of_isSome hq
        unfold Idoms.meetSteps
        omega
      have hRest : ∀ r ∈ t.meet t.meetSteps i q :: qs, (t.get r).isSome := by
        intro r hr
        rcases List.mem_cons.mp hr with rfl | hr
        · exact (Idoms.isMeet_meet hNum hPart hi hq hFuel).known
        · exact hKnown r (by simp [hr])
      obtain ⟨m, rest⟩ := ih hRest
      obtain ⟨n, climbing⟩ := steps_climb hClosed hReads hPart hi hq hFuel
      exact ⟨n + 1 + m, (Steps.more rfl climbing).trans rest⟩

end Partial

/-- The predecessors that are known by place are those that are known by number. -/
theorem knownPreds_place (hReads : Reads g idom t) (ha : a < g.order.length) :
    g.knownPreds idom (g.place a) = (((g.numberedPreds g.order)[a]?.getD []).filter
      fun p => (t.get p).isSome).map g.place := by
  rw [Graph.getD_numberedPreds ha, Graph.knownPreds]
  induction g.preds (g.place a) with
  | nil => rfl
  | cons p ps ih =>
      rw [List.filter_cons, List.filterMap_cons]
      cases hp : g.order.idxOf? p with
      | none =>
          rw [Graph.number?, hp]
          exact ih
      | some i =>
          obtain ⟨hi, rfl⟩ := (Graph.idxOf?_eq_some_iff hClosed).mp hp
          have hSome : (idom (g.place i)).isSome = (t.get i).isSome := by
            rw [hReads.place i hi, Option.isSome_map]
          simp only [Graph.number?, hp, Option.isSome_some, Bool.true_and, hSome, List.filter_cons]
          cases (t.get i).isSome with
          | false => exact ih
          | true => exact congrArg (g.place i :: ·) ih

theorem Reads.set (hReads : Reads g idom t) (ha : a < g.order.length) (hSize : a < t.size)
    (m : Nat) :
    Reads g (fun b => if b = g.place a then some (g.place m) else idom b)
      (t.setIfInBounds a (some m)) := by
  constructor
  case place =>
    intro c hc
    rw [Idoms.get_set hSize]
    by_cases hEq : c = a
    · rw [if_pos (by rw [hEq]), if_pos hEq]
      rfl
    · rw [if_neg fun hPlace => hEq (Graph.place_inj hClosed hc ha hPlace), if_neg hEq]
      exact hReads.place c hc
  case outside =>
    intro b hb
    have hNe : b ≠ g.place a := fun hEq => hb (hEq ▸ Graph.place_mem_order ha)
    rw [if_neg hNe]
    exact hReads.outside b hb

/-- What was found becomes the entry of the place. -/
theorem steps_set (hReads : Reads g idom t)
    (hPart : Idoms.IsPartial (g.numberedPreds g.order) t) (ha : a < g.order.length) {m : Nat}
    (hm : m < g.order.length) :
    ∃ idom', Steps g 1 ⟨idom, changed, .fold (g.place a) ahead (g.place m) []⟩
        ⟨idom', changed || decide (t.setIfInBounds a (some m) ≠ t), .scan ahead⟩ ∧
      Reads g idom' (t.setIfInBounds a (some m)) := by
  have hSize : a < t.size := by
    rw [hPart.size, Graph.size_numberedPreds]
    exact ha
  by_cases hSame : t.get a = some m
  · have hSet : t.setIfInBounds a (some m) = t := by
      apply Idoms.ext (by simp)
      intro c _
      rw [Idoms.get_set hSize]
      by_cases hEq : c = a
      · rw [if_pos hEq, hEq, hSame]
      · rw [if_neg hEq]
    have hEntry : idom (g.place a) = some (g.place m) := by
      rw [hReads.place a ha, hSame]
      rfl
    rw [hSet]
    refine ⟨idom, Steps.one ?_, hReads⟩
    simp [step, hEntry]
  · have hSet : t.setIfInBounds a (some m) ≠ t := by
      intro hEq
      apply hSame
      rw [← hEq, Idoms.get_set hSize, if_pos rfl]
    have hEntry : ¬ idom (g.place a) = some (g.place m) := by
      rw [hReads.place a ha, Option.map_eq_some_iff]
      rintro ⟨d, hGet, hPlace⟩
      have hd := lt_length_of_isSome hPart (hPart.known a d hGet)
      exact hSame (Graph.place_inj hClosed hd hm hPlace ▸ hGet)
    refine ⟨_, Steps.one ?_, hReads.set hClosed ha hSize m⟩
    simp [step, hEntry, hSet]

/-- One place has its turn. -/
theorem steps_improve (hNum : Idoms.IsNumbering (g.numberedPreds g.order))
    (hReads : Reads g idom t) (hPass : Idoms.Passing (g.numberedPreds g.order) k a t)
    (hPos : 0 < a) (ha : a < g.order.length) :
    ∃ n idom', Steps g n ⟨idom, changed, .scan (g.place a :: ahead)⟩ ⟨idom', changed ||
        decide (t.improve ((g.numberedPreds g.order)[a]?.getD []) a ≠ t), .scan ahead⟩ ∧
      Reads g idom' (t.improve ((g.numberedPreds g.order)[a]?.getD []) a) := by
  have hZero : g.place a ≠ 0 := by
    intro hEq
    rw [← Graph.place_zero hClosed] at hEq
    have hSame := Graph.place_inj hClosed ha (Graph.order_length_pos hClosed) hEq
    omega
  have haNum : a < (g.numberedPreds g.order).size := by rwa [g.size_numberedPreds]
  have hPreds := knownPreds_place hClosed hReads ha
  obtain ⟨p, hEdge, hp⟩ := hNum.forward a hPos haNum
  have hMem : p ∈ ((g.numberedPreds g.order)[a]?.getD []).filter fun p => (t.get p).isSome :=
    List.mem_filter.mpr ⟨hEdge, hPass.filled p hp⟩
  rw [Idoms.improve]
  cases hList : ((g.numberedPreds g.order)[a]?.getD []).filter fun p => (t.get p).isSome with
  | nil =>
      rw [hList] at hMem
      exact absurd hMem List.not_mem_nil
  | cons q qs =>
      have hKnown : ∀ r ∈ q :: qs, (t.get r).isSome := fun r hr =>
        (List.mem_filter.mp (hList.symm ▸ hr : r ∈ List.filter _ _)).2
      have hMeet := Idoms.isMeet_foldl hNum hPass.toIsPartial hKnown
      obtain ⟨n, folding⟩ := steps_fold hClosed hReads hPass.toIsPartial hNum hKnown
      obtain ⟨idom', last, hReads'⟩ := steps_set hClosed hReads hPass.toIsPartial ha
        (lt_length_of_isSome hPass.toIsPartial hMeet.known)
      refine ⟨n + 1 + 1, idom', (Steps.more ?_ folding).trans last, hReads'⟩
      simp [step, hZero, hPreds, hList]

/-- The places that are left in a pass have their turns. -/
theorem steps_improveAll (hNum : Idoms.IsNumbering (g.numberedPreds g.order)) {n : Nat}
    (changed : Bool) (hReads : Reads g idom t)
    (hPass : Idoms.Passing (g.numberedPreds g.order) k a t) (hPos : 0 < a)
    (hSize : a + n ≤ g.order.length) :
    ∃ m idom', Steps g m ⟨idom, changed, .scan ((List.range' a n).map g.place)⟩
        ⟨idom',
          changed || decide (Idoms.improveAll (g.numberedPreds g.order) (List.range' a n) t ≠ t),
          .scan []⟩ ∧
      Reads g idom' (Idoms.improveAll (g.numberedPreds g.order) (List.range' a n) t) := by
  induction n generalizing a t idom changed with
  | zero => exact ⟨0, idom, by simpa [Idoms.improveAll] using Steps.none, hReads⟩
  | succ n ih =>
      obtain ⟨m, idom', first, hReads'⟩ := steps_improve hClosed hNum hReads hPass hPos (by omega)
      have hNext := hPass.improve hNum hPos (by rw [g.size_numberedPreds]; omega)
      obtain ⟨m', idom'', rest, hReads''⟩ := ih _ hReads' hNext (by omega) (by omega)
      have hFresh : a ∉ List.range' (a + 1) n := by
        rw [List.mem_range']
        omega
      refine ⟨m + m', idom'', ?_, hReads''⟩
      simp only [List.range'_succ, List.map_cons, ne_eq, Idoms.improveAll_cons_eq_iff hFresh,
        decide_not, Bool.decide_and, Bool.not_and, ← Bool.or_assoc] at first rest ⊢
      exact first.trans rest

omit hClosed in
theorem order_eq_map_place (g : Graph) : g.order = (List.range g.order.length).map g.place := by
  apply List.ext_getElem (by simp)
  intro a ha _
  simp [Graph.place, ha]

/-- A whole pass. -/
theorem steps_pass (hNum : Idoms.IsNumbering (g.numberedPreds g.order)) (hReads : Reads g idom t)
    (hSettled : Idoms.Settled (g.numberedPreds g.order) k t) :
    ∃ n idom', Steps g n ⟨idom, false, .scan g.order⟩
        ⟨idom', decide (t.pass (g.numberedPreds g.order) ≠ t), .scan []⟩ ∧
      Reads g idom' (t.pass (g.numberedPreds g.order)) := by
  have hPos := Graph.order_length_pos hClosed
  have hSize : t.size = g.order.length := hSettled.size.trans g.size_numberedPreds
  have hOrder : g.order = 0 :: (List.range' 1 (t.size - 1)).map g.place := by
    obtain ⟨n, hn⟩ : ∃ n, g.order.length = n + 1 := ⟨g.order.length - 1, by omega⟩
    refine (order_eq_map_place g).trans ?_
    rw [hSize, hn, List.range_eq_range', List.range'_succ, List.map_cons, Graph.place_zero hClosed]
    rfl
  obtain ⟨n, idom', steps, hReads'⟩ := steps_improveAll hClosed hNum (n := t.size - 1) false
    hReads hSettled.passing Nat.one_pos (by omega)
  refine ⟨n + 1, idom', Steps.more ?_ steps, hReads'⟩
  rw [hOrder]
  rfl

/-- The iteration passes over the table until nothing changes, as `settle` does, and it needs
no more passes than `settle` makes. -/
theorem steps_settle (hNum : Idoms.IsNumbering (g.numberedPreds g.order)) {passes : Nat}
    (hReads : Reads g idom t) (hSettled : Idoms.Settled (g.numberedPreds g.order) k t)
    (hPasses : g.order.length ≤ k + passes) :
    ∃ n s, Steps g n ⟨idom, false, .scan g.order⟩ s ∧ s.IsDone ∧
      Reads g s.idom (Idoms.settle (g.numberedPreds g.order) passes t) := by
  induction passes generalizing k t idom with
  | zero =>
      obtain ⟨n, idom', steps, hReads'⟩ := steps_pass hClosed hNum hReads hSettled
      have hFixed := hSettled.pass_eq hNum (by rw [g.size_numberedPreds]; omega)
      rw [hFixed] at steps hReads'
      exact ⟨n, _, steps, ⟨rfl, by simp⟩, hReads'⟩
  | succ passes ih =>
      obtain ⟨n, idom', steps, hReads'⟩ := steps_pass hClosed hNum hReads hSettled
      rw [Idoms.settle]
      by_cases hFixed : t.pass (g.numberedPreds g.order) = t
      · rw [hFixed] at steps hReads'
        rw [if_pos hFixed]
        exact ⟨n, _, steps, ⟨rfl, by simp⟩, hReads'⟩
      · rw [if_neg hFixed]
        obtain ⟨m, s, rest, hDone, hResult⟩ := ih hReads' (hSettled.pass hNum) (by omega)
        refine ⟨n + (m + 1), s, steps.trans (Steps.more ?_ rest), hDone, hResult⟩
        simp [step, hFixed]

theorem reads_start : Reads g (start g).idom (Idoms.start g.order.length) := by
  have hPos := Graph.order_length_pos hClosed
  constructor
  case place =>
    intro a ha
    rw [start, Idoms.get_start a hPos]
    by_cases hZero : a = 0
    · simp [hZero, Graph.place_zero hClosed]
    · have hPlace : g.place a ≠ 0 := by
        intro hEq
        rw [← Graph.place_zero hClosed] at hEq
        exact hZero (Graph.place_inj hClosed ha hPos hEq)
      simp [hZero, hPlace]
  case outside =>
    intro b hb
    have hZero : b ≠ 0 := by
      rintro rfl
      exact hb ((Graph.mem_order_iff hClosed).mpr Reachable.zero)
    simp [start, hZero]

/-- The table by place that the numbers end with is the dominator tree. -/
theorem Reads.eq_domTree (hReads : Reads g idom (g.idoms g.order))
    (hPart : Idoms.IsPartial (g.numberedPreds g.order) (g.idoms g.order)) :
    idom = g.domTree.get := by
  funext b
  by_cases hb : b ∈ g.order
  · obtain ⟨a, ha, rfl⟩ := Graph.exists_number hClosed ((Graph.mem_order_iff hClosed).mp hb)
    have hLt := hClosed.lt_size (Graph.reachable_place hClosed ha)
    have hIdx := (Graph.idxOf?_eq_some_iff hClosed).mpr ⟨ha, rfl⟩
    rw [hReads.place a ha]
    cases hGet : (g.idoms g.order).get a with
    | none => simp [Graph.domTree, DomTree.get, hLt, hIdx, hGet]
    | some d =>
        have hd := lt_length_of_isSome hPart (hPart.known a d hGet)
        have hPlace : g.order[d]? = some (g.place d) := by simp [Graph.place, hd]
        simp [Graph.domTree, DomTree.get, hLt, hIdx, hGet, hPlace]
  · rw [hReads.outside b hb]
    have hIdx : g.order.idxOf? b = none := List.idxOf?_eq_none_iff.mpr hb
    by_cases hLt : b < g.size <;> simp [Graph.domTree, DomTree.get, hLt, hIdx]

theorem steps_to_end (hPreds : g.HasReachedPreds) :
    ∃ n s, Steps g n (start g) s ∧ s.IsDone ∧ s.idom = g.domTree.get := by
  have hNum := Graph.isNumbering_of_hasReachedPreds hClosed hPreds
  have hStart : Idoms.Settled (g.numberedPreds g.order) 0 (Idoms.start g.order.length) := by
    rw [← g.size_numberedPreds]
    exact Idoms.settled_start hNum
  have hPasses : g.order.length ≤ 0 + Graph.passes g.order := by
    unfold Graph.passes
    omega
  obtain ⟨n, s, steps, hDone, hReads⟩ :=
    steps_settle hClosed hNum (reads_start hClosed) hStart hPasses
  have hResult : Idoms.Settled (g.numberedPreds g.order) _ (g.idoms g.order) := hStart.settle hNum
  exact ⟨n, s, steps, hDone, hReads.eq_domTree hClosed hResult.toIsPartial⟩

end Simulation

end Iteration

namespace Function

/-- Every edge from a block that can be reached is among the predecessors of its target, as
it is before and after the others are left out. -/
def HasReachedPreds (fn : Function) : Prop :=
  ∀ b < fn.blocks.size, ∀ a, fn.Reaches a → fn.Edge a b → a ∈ fn.preds b

section Preds

variable {fn : Function}

theorem hasReachedPreds_withPreds (hWell : fn.IsWellFormed) : fn.withPreds.HasReachedPreds := by
  intro b hb a hReach hEdge
  rw [size_withPreds] at hb
  have ha := hWell.withPreds.lt_size hReach
  rw [size_withPreds] at ha
  rw [Edge, succs_withPreds] at hEdge
  rw [preds_withPreds hb]
  exact mem_edgesInto_iff.mpr ⟨ha, hEdge⟩

theorem IsLinked.hasReachedPreds (hLinked : fn.IsLinked) : fn.HasReachedPreds := by
  intro b hb a hReach hEdge
  obtain ⟨tree, hTree⟩ := hLinked.exists_tree
  rw [← List.count_pos_iff, hTree.count_preds b hb a hReach, List.count_pos_iff]
  exact hEdge

variable (hWell : fn.IsWellFormed) (hBody : fn.hasBody = true)
include hWell hBody

theorem isClosed_graph : fn.graph.IsClosed := by
  constructor
  · simpa [graph, hasBody] using hBody
  · intro b hLt
    rw [graph_succs hWell hLt]
    exact hWell.inside b hLt

theorem hasReachedPreds_graph (hPreds : fn.HasReachedPreds) : fn.graph.HasReachedPreds := by
  intro b hb p hReach hEdge
  rw [reachable_eq_of_route_eq (route_graph hWell hBody)] at hReach
  have hp : p < fn.blocks.size := hWell.lt_size ⟨hBody, hReach⟩
  rw [Graph.Edge, graph_succs hWell hp] at hEdge
  exact List.mem_map.mpr ⟨p, hPreds b hb p ⟨hBody, hReach⟩ hEdge, slot_of_lt hp⟩

end Preds

/-- The iteration ends with the dominator tree. On the way no finger is lost, and every
entry leads to a smaller number, so going up from a block ends as well. -/
theorem idom_iteration_ends (fn : Function) (hWell : fn.IsWellFormed) (hBody : fn.hasBody = true)
    (hPreds : fn.HasReachedPreds) :
    ∃ tree total last, fn.domTree = .ok tree ∧
      Iteration.Steps fn.graph total (Iteration.start fn.graph) last ∧ last.IsDone ∧
      last.idom = tree.get ∧
      (∀ a b steps, fn.blocks.size ≤ steps →
        tree.dominates a b = (tree.reachable b && tree.onWayUp a steps b)) ∧
      ∀ n s, Iteration.Steps fn.graph n (Iteration.start fn.graph) s →
        n ≤ total ∧ (s.IsDone ∨ ∃ t, s.step fn.graph = some t) ∧
        (∀ finger ∈ s.stage.fingers, ∃ b i, finger = some b ∧ fn.graph.number? b = some i ∧
          (s.idom b).isSome) ∧
        (∀ b d, s.idom b = some d → b ≠ 0 → fn.graph.IsBefore d b) ∧
        WellFounded fun d b => s.idom b = some d ∧ d ≠ b := by
  have hClosed := isClosed_graph hWell hBody
  have hReached := hasReachedPreds_graph hWell hBody hPreds
  obtain ⟨total, last, steps, hDone, hTable⟩ := Iteration.steps_to_end hClosed hReached
  have hTree : fn.domTree = .ok fn.graph.domTree := by rw [domTree, missingIndex?_eq_none hWell]
  refine ⟨fn.graph.domTree, total, last, hTree, steps, hDone, hTable, ?_, ?_⟩
  · intro a b bound hBound
    have hRooted := (Iteration.isSound_of_steps hClosed hReached steps).rooted
    rw [hTable] at hRooted
    rw [DomTree.dominates, Graph.size_domTree_idom]
    cases hReach : fn.graph.domTree.reachable b with
    | false => rfl
    | true =>
        obtain ⟨i, hi⟩ := hRooted.exists_number hClosed hReach
        have hLt := ((Graph.idxOf?_eq_some_iff hClosed).mp hi).1
        have hLe : fn.graph.order.length ≤ fn.blocks.size := Graph.order_length_le hClosed
        exact hRooted.onWayUp_eq hi (Nat.lt_of_lt_of_le hLt hLe) (by omega)
  · intro n s run
    have hSound := Iteration.isSound_of_steps hClosed hReached run
    refine ⟨steps.le_of_end hDone.step_eq_none run, ?_, hSound.exists_of_mem_fingers hClosed,
      hSound.rooted.lower, hSound.rooted.wellFounded⟩
    rcases hSound.step hClosed hReached with hEnd | ⟨t, hStep, -⟩
    · exact .inl hEnd
    · exact .inr ⟨t, hStep⟩

theorem idom_iteration_ends_twoEntryLoop : twoEntryLoop.IsWellFormed ∧
    ∀ fn ∈ [twoEntryLoop.withPreds, twoEntryLoop.link.1], fn.IsWellFormed ∧ fn.hasBody = true ∧
      fn.HasReachedPreds ∧ ∃ n s, Iteration.Steps fn.graph n (Iteration.start fn.graph) s ∧
        s.IsDone := by
  have hWell : twoEntryLoop.IsWellFormed := ⟨by decide, by decide⟩
  have hLinked : twoEntryLoop.link.1.IsLinked := ⟨twoEntryLoop, _, hWell, by rw [link_eq hWell]⟩
  refine ⟨hWell, fun fn hMem => ?_⟩
  have hFn : fn.IsWellFormed ∧ fn.hasBody = true ∧ fn.HasReachedPreds := by
    obtain rfl | rfl : fn = twoEntryLoop.withPreds ∨ fn = twoEntryLoop.link.1 := by
      simpa using hMem
    · exact ⟨hWell.withPreds, by decide, hasReachedPreds_withPreds hWell⟩
    · exact ⟨hLinked.isWellFormed, by rw [link_eq hWell]; decide, hLinked.hasReachedPreds⟩
  obtain ⟨hWellFn, hBody, hPreds⟩ := hFn
  obtain ⟨-, n, s, -, steps, hDone, -⟩ := idom_iteration_ends fn hWellFn hBody hPreds
  exact ⟨hWellFn, hBody, hPreds, n, s, steps, hDone⟩

end Function

end NilGuard
