import Mathlib.Algebra.BigOperators.Group.Finset.Basic
import Mathlib.Algebra.Order.BigOperators.Group.Finset
import NilGuard.Walk.Report
import NilGuard.Proofs.Feasible
/-! The work list of a walk, turn by turn, and the recursive walk that it stands for. On a
linked function no turn meets a block that was visited before, so the work list gives
what the recursion gives. On any other function the marks alone end it. -/
namespace NilGuard

namespace Events

theorem append_assoc (a b c : Events) : (a.append b).append c = a.append (b.append c) := by
  unfold append
  cases ha : a.crash with
  | some k => simp [ha]
  | none =>
      cases hb : b.crash with
      | some k => simp [hb]
      | none => simp

@[simp] theorem append_empty (a : Events) : a.append {} = a := by
  unfold append
  cases ha : a.crash with
  | some k => rfl
  | none => simp [← ha]

theorem concat_append (es fs : List Events) :
    concat (es ++ fs) = (concat es).append (concat fs) := by
  induction es with
  | nil => rfl
  | cons e es ih => rw [List.cons_append, concat, ih, concat, append_assoc]

end Events

/-- All dominees are blocks of the function. They may form circles, and a block may be a
dominee of several blocks. -/
def Function.HasInnerDominees (fn : Function) : Prop :=
  ∀ b < fn.blocks.size, ∀ d ∈ fn.dominees b, d < fn.blocks.size

instance (fn : Function) : Decidable fn.HasInnerDominees :=
  inferInstanceAs (Decidable (∀ b < fn.blocks.size, ∀ d ∈ fn.dominees b, d < fn.blocks.size))

/-- The loop of a walk. The last entry of the work list is taken next. -/
structure Worklist where
  work : List Visit
  seen : Marks
  made : List Visit

namespace Worklist

variable {fn : Function}

def start (fn : Function) : Worklist :=
  ⟨if fn.hasBody then [⟨0, []⟩] else [], Marks.clear fn.blocks.size, []⟩

/-- One turn of the loop: an entry is visited, or dropped when its index was seen before.
There is no turn on an index that is not there. -/
inductive Turn (fn : Function) : Worklist → Worklist → Prop where
  | visit {work made : List Visit} {v : Visit} {seen : Marks}
      (hIn : fn.markOf v.block < fn.blocks.size) (hFree : seen.isFree (fn.markOf v.block) = true) :
      Turn fn ⟨work ++ [v], seen, made⟩
        ⟨work ++ (fn.below v).reverse, seen.mark (fn.markOf v.block), made ++ [v]⟩
  | drop {work made : List Visit} {v : Visit} {seen : Marks}
      (hIn : fn.markOf v.block < fn.blocks.size) (hSeen : seen.isFree (fn.markOf v.block) = false) :
      Turn fn ⟨work ++ [v], seen, made⟩ ⟨work, seen, made⟩

/-- A number of turns one after another. -/
inductive Turns (fn : Function) : Nat → Worklist → Worklist → Prop where
  | none {s : Worklist} : Turns fn 0 s s
  | more {n : Nat} {s t u : Worklist} (prior : Turns fn n s t) (last : Turn fn t u) :
      Turns fn (n + 1) s u

/-- What a turn keeps is kept by all turns. -/
theorem Turns.keeps {P : Worklist → Prop} (hTurn : ∀ {s t}, P s → Turn fn s t → P t)
    {n : Nat} {s t : Worklist} (hs : P s) (turns : Turns fn n s t) : P t := by
  induction turns with
  | none => exact hs
  | more prior last ih => exact hTurn (ih hs) last

/-- The visits made and those that the walk makes from the entries, the last one first. -/
theorem made_append_walkFrom_of_turn {s t : Worklist} (turn : Turn fn s t) :
    t.made ++ (fn.walkFrom t.work.reverse t.seen).visits =
      s.made ++ (fn.walkFrom s.work.reverse s.seen).visits := by
  cases turn with
  | @visit work made v seen hIn hFree =>
      rw [List.reverse_append, List.reverse_reverse, List.reverse_append, List.reverse_singleton,
        List.singleton_append, Function.walkFrom, if_neg (Nat.not_le.mpr hIn), dif_pos hFree,
        List.append_assoc, List.singleton_append]
  | @drop work made v seen hIn hSeen =>
      rw [List.reverse_append, List.reverse_singleton, List.singleton_append,
        Function.walkFrom, if_neg (Nat.not_le.mpr hIn), dif_neg (by rw [hSeen]; decide)]

/-- At every turn the visits made and those that the walk still makes are all of its visits. -/
theorem walk_eq_of_turns {n : Nat} {s : Worklist} (turns : Turns fn n (start fn) s) :
    fn.walk.visits = s.made ++ (fn.walkFrom s.work.reverse s.seen).visits := by
  refine Turns.keeps (P := fun s => fn.walk.visits =
    s.made ++ (fn.walkFrom s.work.reverse s.seen).visits) ?_ ?_ turns
  · exact fun hs turn => hs.trans (made_append_walkFrom_of_turn turn).symm
  · rw [Function.walk, start]
    cases fn.hasBody <;> simp [Function.walkFrom]

section Ends

/-- The blocks whose index has not been seen. -/
def unseen (fn : Function) (seen : Marks) : Finset Nat :=
  (Finset.range fn.blocks.size).filter fun b => seen.isFree (fn.markOf b) = true

/-- What the loop may still have to do: its entries, and the dominees of what it has not
seen. -/
def pending (fn : Function) (s : Worklist) : Nat :=
  s.work.length + ∑ b ∈ unseen fn s.seen, (fn.dominees b).length

def IsInside (fn : Function) (s : Worklist) : Prop := ∀ v ∈ s.work, v.block < fn.blocks.size

theorem isInside_start (fn : Function) : (start fn).IsInside fn := by
  intro v hv
  rw [start] at hv
  cases hBody : fn.hasBody with
  | false => simp [hBody] at hv
  | true =>
      have hv : v = ⟨0, []⟩ := by simpa [hBody] using hv
      rw [hv]
      simpa [Function.hasBody] using hBody

theorem pending_start_le (fn : Function) :
    (start fn).pending fn ≤ 1 + ∑ b ∈ Finset.range fn.blocks.size, (fn.dominees b).length := by
  refine Nat.add_le_add ?_ (Finset.sum_le_sum_of_subset (Finset.filter_subset _ _))
  rw [start]
  cases fn.hasBody <;> simp

theorem pending_lt_of_turn {s t : Worklist} (hs : s.IsInside fn) (turn : Turn fn s t) :
    t.pending fn < s.pending fn := by
  cases turn with
  | @visit work made v seen hIn hFree =>
      have hv : v.block < fn.blocks.size := hs v (by simp)
      have hBelow : (fn.below v).length ≤ (fn.dominees v.block).length := by
        rw [Function.below_eq_filterMap]
        exact List.length_filterMap_le _ _
      have hMem : v.block ∈ unseen fn seen := by simp [unseen, hv, hFree]
      -- blocks that share the index of the visited one are seen with it
      have hRest : unseen fn (seen.mark (fn.markOf v.block)) ⊆ (unseen fn seen).erase v.block := by
        intro b hb
        simp only [unseen, Finset.mem_filter, Marks.isFree_mark, Bool.and_eq_true,
          decide_eq_true_eq] at hb
        obtain ⟨hLt, hNe, hFree⟩ := hb
        refine Finset.mem_erase.mpr ⟨fun hEq => hNe (hEq ▸ rfl), ?_⟩
        exact Finset.mem_filter.mpr ⟨hLt, hFree⟩
      have hSum := Finset.add_sum_erase _ (fun b => (fn.dominees b).length) hMem
      have hLe := Finset.sum_le_sum_of_subset (f := fun b => (fn.dominees b).length) hRest
      simp only [pending, List.length_append, List.length_reverse, List.length_singleton]
      omega
  | @drop work made v seen hIn hSeen =>
      simp only [pending, List.length_append, List.length_singleton]
      omega

/-- The loop has come to an end, goes on, or breaks off at an index that is not there. -/
theorem exists_turn (fn : Function) (s : Worklist) : s.work = [] ∨ (∃ t, Turn fn s t) ∨
    ∃ v, s.work.getLast? = some v ∧ fn.blocks.size ≤ fn.markOf v.block := by
  obtain ⟨work, seen, made⟩ := s
  rcases List.eq_nil_or_concat work with rfl | ⟨work, v, rfl⟩
  · exact Or.inl rfl
  · right
    rw [List.concat_eq_append]
    rcases Nat.lt_or_ge (fn.markOf v.block) fn.blocks.size with hIn | hOut
    · left
      cases hFree : seen.isFree (fn.markOf v.block) with
      | true => exact ⟨_, Turn.visit hIn hFree⟩
      | false => exact ⟨_, Turn.drop hIn hFree⟩
    · exact Or.inr ⟨v, List.getLast?_concat, hOut⟩

variable (hDominees : fn.HasInnerDominees)
include hDominees

theorem IsInside.turn {s t : Worklist} (hs : s.IsInside fn) (turn : Turn fn s t) :
    t.IsInside fn := by
  cases turn with
  | @visit work made v seen hIn hFree =>
      intro w hw
      rcases List.mem_append.mp hw with hw | hw
      · exact hs w (List.mem_append_left _ hw)
      · have hv : v.block < fn.blocks.size := hs v (by simp)
        exact hDominees v.block hv w.block (Function.mem_below (List.mem_reverse.mp hw)).1
  | drop hIn hSeen => exact fun w hw => hs w (List.mem_append_left _ hw)

theorem isInside_of_turns {n : Nat} {s : Worklist} (turns : Turns fn n (start fn) s) :
    s.IsInside fn :=
  turns.keeps (fun hs => hs.turn hDominees) (isInside_start fn)

theorem add_pending_le_of_turns {n : Nat} {s : Worklist} (turns : Turns fn n (start fn) s) :
    n + s.pending fn ≤ (start fn).pending fn := by
  generalize hStart : start fn = first at turns
  induction turns with
  | none => omega
  | @more n s t u prior last ih =>
      subst hStart
      have hLt := pending_lt_of_turn (isInside_of_turns hDominees prior) last
      have hLe := ih rfl
      omega

/-- As long as there are entries there is a turn, and there are only so many turns. -/
theorem exists_turns_to_end (hMarks : fn.HasMarks) :
    ∃ n s, Turns fn n (start fn) s ∧ s.work = [] := by
  have hRest : ∀ k n s, s.pending fn = k → Turns fn n (start fn) s →
      ∃ n s, Turns fn n (start fn) s ∧ s.work = [] := by
    intro k
    induction k using Nat.strong_induction_on with
    | _ k ih =>
        intro n s hPending turns
        have hInside := isInside_of_turns hDominees turns
        rcases exists_turn fn s with hEnd | ⟨t, turn⟩ | ⟨v, hLast, hOut⟩
        · exact ⟨n, s, turns, hEnd⟩
        · exact ih _ (hPending ▸ pending_lt_of_turn hInside turn) (n + 1) t rfl (turns.more turn)
        · have hv := hMarks v.block (hInside v (List.mem_of_getLast? hLast))
          exact absurd hOut (Nat.not_le.mpr hv)
  exact hRest _ 0 (start fn) rfl Turns.none

omit hDominees in
theorem made_eq_of_end {n : Nat} {s : Worklist} (turns : Turns fn n (start fn) s)
    (hEnd : s.work = []) : s.made = fn.walk.visits := by
  have hWalk := walk_eq_of_turns turns
  rw [hEnd, List.reverse_nil, Function.walkFrom, List.append_nil] at hWalk
  exact hWalk.symm

end Ends

end Worklist

namespace Function

theorem nodup_blocks_walk (fn : Function) : (fn.walk.visits.map Visit.block).Nodup := by
  have hMarks : (fn.walk.visits.map (fn.markOf ·.block)).Nodup := by
    rw [walk]
    split
    case isTrue => exact nodup_marks.1
    case isFalse => simp
  apply List.Nodup.of_map fn.markOf
  rwa [List.map_map]

theorem blocks_below_sublist (fn : Function) (v : Visit) :
    ((fn.below v).map Visit.block).Sublist (fn.dominees v.block) := by
  unfold below
  split
  all_goals rw [List.map_map]
  case h_2 => exact (List.map_id _).symm ▸ List.filter_sublist
  all_goals exact (List.map_id _).symm ▸ List.Sublist.refl _

section Recursion

variable {fn : Function}

open Classical in
/-- How many blocks dominate a block. -/
noncomputable def depth (fn : Function) (b : Nat) : Nat :=
  ((Finset.range fn.blocks.size).filter (Dominates fn.Edge · b)).card

theorem depth_le (fn : Function) (b : Nat) : fn.depth b ≤ fn.blocks.size := by
  classical
  exact (Finset.card_filter_le _ _).trans_eq (Finset.card_range _)

/-- Every dominator of a block dominates its dominees, and each of those also itself. -/
theorem depth_lt_of_immediatelyDominates (hLinked : fn.IsLinked) {a b : Nat} (hb : fn.Reaches b)
    (hIdom : ImmediatelyDominates fn.Edge a b) : fn.depth a < fn.depth b := by
  classical
  apply Finset.card_lt_card
  refine (Finset.ssubset_iff_of_subset ?_).mpr ⟨b, ?_, ?_⟩
  · intro d hd
    rw [Finset.mem_filter] at hd ⊢
    exact ⟨hd.1, hd.2.trans hIdom.1.2⟩
  · rw [Finset.mem_filter, Finset.mem_range]
    exact ⟨hLinked.isWellFormed.lt_size hb, Dominates.refl b⟩
  · rw [Finset.mem_filter]
    rintro ⟨-, hBack⟩
    exact hIdom.1.1 (hIdom.1.2.antisymm hBack hb.2)

theorem depth_lt_of_mem_below (hLinked : fn.IsLinked) {u v : Visit}
    (hu : u.block < fn.blocks.size) (hv : v ∈ fn.below u) :
    fn.depth u.block < fn.depth v.block := by
  obtain ⟨hReach, hIdom⟩ := (hLinked.mem_dominees_iff hu).mp (mem_below hv).1
  exact depth_lt_of_immediatelyDominates hLinked hReach hIdom

/-- The recursive walk: what comes up at a visit, and then all that comes up at the visits
below it, one after another. -/
def recursiveEvents (hLinked : fn.IsLinked) (settings : Settings) (v : Visit)
    (hv : v.block < fn.blocks.size) : Events :=
  (fn.visitEvents settings v).append (Events.concat ((fn.below v).attach.map fun w =>
    recursiveEvents hLinked settings w.1 (lt_size_of_mem_below hLinked hv w.2)))
termination_by fn.blocks.size - fn.depth v.block
decreasing_by
  have hLt := depth_lt_of_mem_below hLinked hv w.2
  have hLe := fn.depth_le w.1.block
  omega

end Recursion

/-- A dominee that the walk leaves out, since the only edge into it belongs to an outcome
that never happens. -/
def IsPruned (fn : Function) (d : Nat) : Prop :=
  ∃ v ∈ fn.walk.visits, ∃ c x y, fn.lesson v = .fixed c x y ∧ d ∈ fn.dominees v.block ∧
    d = c.deadEnd x y ∧ fn.hasOneEdge d = true

section Visited

variable {fn : Function} {u v : Visit} {d : Nat}

theorem block_ne_of_mem_below {c : Comparison} {x y : Nilness}
    (hLesson : fn.lesson u = .fixed c x y) (hOne : fn.hasOneEdge (c.deadEnd x y) = true)
    (hv : v ∈ fn.below u) :
    v.block ≠ c.deadEnd x y := by
  rw [below, hLesson] at hv
  obtain ⟨d, hd, rfl⟩ := List.mem_map.mp hv
  intro hDead
  have hKept := (List.mem_filter.mp hd).2
  rw [show d = c.deadEnd x y from hDead, hOne] at hKept
  simp at hKept

/-- A dominee of a visit is visited, unless it is pruned there. -/
theorem mem_below_or_isPruned (hu : u ∈ fn.walk.visits) (hd : d ∈ fn.dominees u.block) :
    (∃ w ∈ fn.below u, w.block = d) ∨ fn.IsPruned d := by
  refine (exists_mem_below hd).imp_right ?_
  rintro ⟨c, x, y, hComparison, hFixed, hOne, hDead⟩
  have hLesson : fn.lesson u = .fixed c x y := by rw [lesson, hComparison]; exact hFixed
  exact ⟨u, hu, c, x, y, hLesson, hd, hDead, hOne⟩

variable (hLinked : fn.IsLinked)
include hLinked

theorem not_isPruned_of_mem_below (hu : u ∈ fn.walk.visits) (hv : v ∈ fn.below u) :
    ¬ fn.IsPruned v.block := by
  rintro ⟨w, hw, c, x, y, hLesson, hDominee, hDead, hOne⟩
  obtain ⟨hReach, hIdom⟩ :=
    (hLinked.mem_dominees_iff (lt_size_of_mem_visits hLinked hu)).mp (mem_below hv).1
  obtain ⟨-, hIdom'⟩ := (hLinked.mem_dominees_iff (lt_size_of_mem_visits hLinked hw)).mp hDominee
  -- a block has one immediate dominator, and that has one visit
  obtain rfl := eq_of_mem_visits hLinked hw hu (hIdom.unique hReach.2 hIdom')
  exact block_ne_of_mem_below hLesson (hDead ▸ hOne) hv hDead

theorem not_dominates_of_isPruned (hPruned : fn.IsPruned d) (hv : v ∈ fn.walk.visits) :
    ¬ Dominates fn.Edge d v.block := by
  have hWalk := walk_visits_induct hLinked
    (P := fun v => v ∈ fn.walk.visits ∧ ¬ Dominates fn.Edge d v.block) ?_ ?_ v hv
  · exact hWalk.2.2
  · intro hBody
    refine ⟨(mem_visits_iff hLinked).mpr (Or.inl ⟨hBody, rfl⟩), fun hDom => ?_⟩
    obtain ⟨w, hw, -, -, -, -, hDominee, -⟩ := hPruned
    have hIdom := ((hLinked.mem_dominees_iff (lt_size_of_mem_visits hLinked hw)).mp hDominee).2
    exact hIdom.ne_zero hDom.eq_zero
  · rintro u hLt ⟨hu, hNot⟩ w hw
    refine ⟨(mem_visits_iff hLinked).mpr (Or.inr ⟨u, hu, hw⟩), fun hDom => ?_⟩
    have hIdom := ((hLinked.mem_dominees_iff hLt).mp (mem_below hw).1).2
    by_cases hEq : d = w.block
    · exact not_isPruned_of_mem_below hLinked hu hw (hEq ▸ hPruned)
    · exact hNot (hIdom.2 d ⟨hEq, hDom⟩)

theorem exists_visit_of_not_pruned {b : Nat} (hReach : fn.Reaches b)
    (hKept : ∀ d, fn.IsPruned d → ¬ Dominates fn.Edge d b) : ∃ v ∈ fn.walk.visits, v.block = b := by
  -- down the tree, from the immediate dominator to the block
  induction hDepth : fn.depth b using Nat.strong_induction_on generalizing b with
  | _ k ih =>
      by_cases hZero : b = 0
      · exact ⟨⟨0, []⟩, (mem_visits_iff hLinked).mpr (Or.inl ⟨hReach.1, rfl⟩), hZero.symm⟩
      · obtain ⟨tree, hTree⟩ := hLinked.exists_tree
        obtain ⟨a, hIdom?, hIdom, -⟩ := hTree.idom_of_reaches b hReach hZero
        have ha : fn.Reaches a := ⟨hReach.1, hIdom.1.2.reachable hReach.2⟩
        have hLess : fn.depth a < k :=
          hDepth ▸ depth_lt_of_immediatelyDominates hLinked hReach hIdom
        obtain ⟨u, hu, rfl⟩ := ih _ hLess ha
          (fun d hd hDom => hKept d hd (hDom.trans hIdom.1.2)) rfl
        have hDominee := (hLinked.mem_dominees_iff (lt_size_of_mem_visits hLinked hu)).mpr
          ⟨hReach, hIdom⟩
        rcases mem_below_or_isPruned hu hDominee with ⟨w, hw, hBlock⟩ | hPruned
        · exact ⟨w, (mem_visits_iff hLinked).mpr (Or.inr ⟨u, hu, hw⟩), hBlock⟩
        · exact absurd (Dominates.refl b) (hKept b hPruned)

end Visited

end Function

namespace Worklist

section Linked

variable {fn : Function}

/-- No block has two entries, visits included, and each entry is that of a dominee of a block
that was visited. -/
structure IsFresh (fn : Function) (s : Worklist) : Prop where
  inside : ∀ v ∈ s.work ++ s.made, v.block < fn.blocks.size
  origin : ∀ v ∈ s.work ++ s.made, v.block = 0 ∨ ∃ u ∈ s.made, v ∈ fn.below u
  nodup : ((s.work ++ s.made).map Visit.block).Nodup
  free_iff : ∀ b < fn.blocks.size, s.seen.isFree b = true ↔ b ∉ s.made.map Visit.block

theorem isFresh_start (fn : Function) : (start fn).IsFresh fn := by
  refine ⟨?_, ?_, ?_, by simp [start]⟩
  · intro v hv
    exact isInside_start fn v (by simpa [start] using hv)
  all_goals
    rw [start]
    cases fn.hasBody <;> simp

variable (hLinked : fn.IsLinked)
include hLinked

/-- The entry that comes next has not been seen. -/
theorem IsFresh.isFree {s : Worklist} {v : Visit} (hs : s.IsFresh fn)
    (hNext : s.work.getLast? = some v) : s.seen.isFree (fn.markOf v.block) = true := by
  obtain ⟨work, hWork⟩ := List.getLast?_eq_some_iff.mp hNext
  have hv : v.block < fn.blocks.size := hs.inside v (by simp [hWork])
  rw [hLinked.isWellFormed.markOf_eq hv]
  apply (hs.free_iff v.block hv).mpr
  have hNodup := hs.nodup
  simp only [hWork, List.append_assoc, List.map_append, List.map_cons, List.singleton_append]
    at hNodup
  exact (List.nodup_cons.mp (List.nodup_append.mp hNodup).2.1).1

/-- Every turn on a linked function visits the entry that comes next. -/
theorem IsFresh.not_seen {work made : List Visit} {seen : Marks} {v : Visit}
    (hs : IsFresh fn ⟨work ++ [v], seen, made⟩) : ¬ seen.isFree (fn.markOf v.block) = false := by
  rw [hs.isFree hLinked List.getLast?_concat]
  decide

/-- A visit to a new block leads to blocks that have no entry yet. -/
theorem IsFresh.not_mem_of_mem_below {work made : List Visit} {seen : Marks} {v : Visit}
    (hs : IsFresh fn ⟨work ++ [v], seen, made⟩) (hNew : v.block ∉ made.map Visit.block)
    {w : Visit} (hw : w ∈ fn.below v) : w.block ∉ (work ++ [v] ++ made).map Visit.block := by
  have hv : v.block < fn.blocks.size := hs.inside v (by simp)
  intro hMem
  obtain ⟨x, hx, hEq⟩ := List.mem_map.mp hMem
  rcases hs.origin x hx with hZero | ⟨u, hu, hBelow⟩
  · exact Function.block_ne_zero_of_mem_below hLinked hv hw (hEq.symm.trans hZero)
  · have hSame := Function.block_eq_of_mem_below hLinked hv (hs.inside u (by simp [hu])) hw
      hBelow hEq
    exact hNew (hSame ▸ List.mem_map_of_mem hu)

theorem IsFresh.turn {s t : Worklist} (hs : s.IsFresh fn) (turn : Turn fn s t) : t.IsFresh fn := by
  cases turn with
  | drop hIn hSeen => exact absurd hSeen (hs.not_seen hLinked)
  | @visit work made v seen hIn hFree =>
      have hv : v.block < fn.blocks.size := hs.inside v (by simp)
      rw [hLinked.isWellFormed.markOf_eq hv] at hFree ⊢
      have hNew : v.block ∉ made.map Visit.block := (hs.free_iff v.block hv).mp hFree
      have hAll : ∀ w, w ∈ work ++ (fn.below v).reverse ++ (made ++ [v]) ↔
          w ∈ fn.below v ∨ w ∈ work ++ [v] ++ made := by
        intro w
        simp only [List.mem_append, List.mem_reverse]
        tauto
      constructor
      case inside =>
        intro w hw
        rcases (hAll w).mp hw with hw | hw
        · exact Function.lt_size_of_mem_below hLinked hv hw
        · exact hs.inside w hw
      case origin =>
        intro w hw
        rcases (hAll w).mp hw with hw | hw
        · exact Or.inr ⟨v, by simp, hw⟩
        · refine (hs.origin w hw).imp_right ?_
          rintro ⟨u, hu, hBelow⟩
          exact ⟨u, List.mem_append_left _ hu, hBelow⟩
      case nodup =>
        have hPerm : (work ++ (fn.below v).reverse ++ (made ++ [v])).Perm
            (fn.below v ++ (work ++ [v] ++ made)) := by
          refine List.perm_iff_count.mpr fun w => ?_
          simp only [List.count_append, List.count_reverse]
          omega
        rw [(hPerm.map _).nodup_iff, List.map_append, List.nodup_append]
        obtain ⟨tree, hTree⟩ := hLinked.exists_tree
        have hIncreasing := hTree.dominees_increasing v.block hv
        refine ⟨(fn.blocks_below_sublist v).nodup (hIncreasing.imp Nat.ne_of_lt), hs.nodup, ?_⟩
        rintro b hb c hc rfl
        obtain ⟨w, hw, rfl⟩ := List.mem_map.mp hb
        exact hs.not_mem_of_mem_below hLinked hNew hw hc
      case free_iff =>
        intro b hb
        rw [Marks.isFree_mark, Bool.and_eq_true, decide_eq_true_eq, hs.free_iff b hb]
        simp only [List.map_append, List.map_cons, List.map_nil, List.mem_append,
          List.mem_singleton, not_or]
        tauto

theorem isFresh_of_turns {n : Nat} {s : Worklist} (turns : Turns fn n (start fn) s) :
    s.IsFresh fn :=
  turns.keeps (fun hs => hs.turn hLinked) (isFresh_start fn)

/-- The events of the visits made and those of the entries by recursion. -/
def recursiveEvents (settings : Settings) (s : Worklist)
    (hInside : ∀ v ∈ s.work.reverse, v.block < fn.blocks.size) : Events :=
  (Events.concat (s.made.map (fn.visitEvents settings))).append
    (Events.concat (s.work.reverse.pmap (Function.recursiveEvents hLinked settings) hInside))

/-- A turn moves a visit from the entries to the visits made and puts what is below it in
front, which is how the recursion unfolds. -/
theorem recursiveEvents_turn (settings : Settings) {s t : Worklist} (hs : s.IsFresh fn)
    (turn : Turn fn s t) (hInside : ∀ v ∈ s.work.reverse, v.block < fn.blocks.size)
    (hInside' : ∀ v ∈ t.work.reverse, v.block < fn.blocks.size) :
    recursiveEvents hLinked settings t hInside' = recursiveEvents hLinked settings s hInside := by
  cases turn with
  | drop hIn hSeen => exact absurd hSeen (hs.not_seen hLinked)
  | @visit work made v seen hIn hFree =>
      simp only [recursiveEvents, List.reverse_append, List.reverse_reverse,
        List.reverse_singleton, List.singleton_append, List.map_append, List.map_cons,
        List.map_nil, List.pmap_append, List.pmap_cons, Events.concat_append, Events.concat,
        Events.append_empty]
      rw [Function.recursiveEvents, Events.append_assoc, Events.append_assoc,
        List.pmap_eq_map_attach]

theorem recursiveEvents_of_turns (settings : Settings) {n : Nat} {s : Worklist}
    (turns : Turns fn n (start fn) s) (hBody : 0 < fn.blocks.size)
    (hInside : ∀ v ∈ s.work.reverse, v.block < fn.blocks.size) :
    recursiveEvents hLinked settings s hInside =
      Function.recursiveEvents hLinked settings ⟨0, []⟩ hBody := by
  generalize hStart : start fn = first at turns
  induction turns with
  | none =>
      subst hStart
      have hHasBody : fn.hasBody = true := by simpa [Function.hasBody] using hBody
      simp only [recursiveEvents, start, hHasBody, if_true, List.reverse_singleton, List.map_nil,
        List.pmap_cons, List.pmap_nil, Events.concat, Events.append_empty]
      rfl
  | @more n s t u prior last ih =>
      subst hStart
      have hFresh := isFresh_of_turns hLinked prior
      have hBefore : ∀ v ∈ t.work.reverse, v.block < fn.blocks.size := fun v hv =>
        hFresh.inside v (List.mem_append_left _ (List.mem_reverse.mp hv))
      rw [recursiveEvents_turn hLinked settings hFresh last hBefore hInside, ih hBefore rfl]

theorem length_made_of_turns {n : Nat} {s : Worklist} (turns : Turns fn n (start fn) s) :
    s.made.length = n := by
  generalize hStart : start fn = first at turns
  induction turns with
  | none =>
      subst hStart
      rfl
  | @more n s t u prior last ih =>
      subst hStart
      have hFresh := isFresh_of_turns hLinked prior
      cases last with
      | drop hIn hSeen => exact absurd hSeen (hFresh.not_seen hLinked)
      | visit hIn hFree => rw [List.length_append, ih rfl, List.length_singleton]

end Linked

end Worklist

namespace Function

theorem IsLinked.hasInnerDominees {fn : Function} (hLinked : fn.IsLinked) :
    fn.HasInnerDominees := by
  intro b hb d hd
  exact hLinked.isWellFormed.lt_size ((hLinked.mem_dominees_iff hb).mp hd).1

theorem HasInnerDominees.walk_complete {fn : Function} (hInner : fn.HasInnerDominees)
    (hMarks : fn.HasMarks) :
    fn.walk.complete = true := by
  rw [walk]
  split
  case isTrue hBody =>
    apply walkFrom_complete hMarks
    · exact fun u hu v hv => hInner u.block hu v.block (mem_below hv).1
    · intro v hv
      obtain rfl := List.mem_singleton.mp hv
      simpa [hasBody] using hBody
  case isFalse => rfl

theorem events_eq_recursiveEvents {fn : Function} (hLinked : fn.IsLinked)
    (hBody : 0 < fn.blocks.size) (settings : Settings) :
    fn.events settings = recursiveEvents hLinked settings ⟨0, []⟩ hBody := by
  obtain ⟨n, s, turns, hEnd⟩ := Worklist.exists_turns_to_end hLinked.hasInnerDominees
    hLinked.isWellFormed.hasMarks
  have hRecursion := Worklist.recursiveEvents_of_turns hLinked settings turns hBody (by simp [hEnd])
  simp only [Worklist.recursiveEvents, hEnd, List.reverse_nil, List.pmap_nil, Events.concat,
    Events.append_empty, Worklist.made_eq_of_end turns hEnd] at hRecursion
  rw [← hRecursion]
  simp only [events, walk_complete hLinked, if_true]
  exact Events.append_empty _

/-- The work list of a linked function gives what the recursive walk gives. It visits the
blocks that can be reached and that no pruned block dominates, each once, and no turn
meets an index that was seen. Whatever the dominees are, no block is visited twice and the
loop ends, by breaking off only where a block has an index that is not there. -/
theorem walk_is_recursive_preorder (fn : Function) :
    (fn.walk.visits.map Visit.block).Nodup ∧
    (∀ hLinked : fn.IsLinked, fn.HasInnerDominees ∧
      (fn.hasBody = false → ∀ settings, fn.events settings = {}) ∧
      (∀ hBody : 0 < fn.blocks.size, ∀ settings,
        fn.events settings = recursiveEvents hLinked settings ⟨0, []⟩ hBody) ∧
      (∀ v ∈ fn.walk.visits, ((fn.below v).map Visit.block).Pairwise (· < ·)) ∧
      (∀ b, b ∈ fn.walk.visits.map Visit.block ↔
        fn.Reaches b ∧ ∀ d, fn.IsPruned d → ¬ Dominates fn.Edge d b) ∧
      ∀ n s, Worklist.Turns fn n (Worklist.start fn) s → s.made.length = n ∧
        ∀ v, s.work.getLast? = some v → s.seen.isFree (fn.markOf v.block) = true) ∧
    (fn.HasInnerDominees → (fn.HasMarks → fn.walk.complete = true) ∧
      ∀ n s, Worklist.Turns fn n (Worklist.start fn) s →
        n ≤ 1 + ∑ b ∈ Finset.range fn.blocks.size, (fn.dominees b).length ∧
        ((s.work = [] ∧ s.made = fn.walk.visits) ∨ (∃ t, Worklist.Turn fn s t) ∨
          ∃ v, s.work.getLast? = some v ∧ fn.blocks.size ≤ fn.markOf v.block)) := by
  refine ⟨fn.nodup_blocks_walk, fun hLinked => ⟨hLinked.hasInnerDominees, ?_, fun hBody settings =>
    events_eq_recursiveEvents hLinked hBody settings, ?_, ?_, ?_⟩, fun hInner => ⟨?_, ?_⟩⟩
  · intro hBody settings
    simp [events, walk, hBody, Events.concat, Events.append]
  · intro v hv
    obtain ⟨tree, hTree⟩ := hLinked.exists_tree
    exact (hTree.dominees_increasing v.block (lt_size_of_mem_visits hLinked hv)).sublist
      (fn.blocks_below_sublist v)
  · intro b
    rw [List.mem_map]
    constructor
    · rintro ⟨v, hv, rfl⟩
      exact ⟨reaches_of_mem_visits hLinked hv,
        fun d hPruned => not_dominates_of_isPruned hLinked hPruned hv⟩
    · rintro ⟨hReach, hKept⟩
      exact exists_visit_of_not_pruned hLinked hReach hKept
  · intro n s turns
    exact ⟨Worklist.length_made_of_turns hLinked turns,
      fun v hNext => (Worklist.isFresh_of_turns hLinked turns).isFree hLinked hNext⟩
  · exact hInner.walk_complete
  · intro n s turns
    have hBound := Worklist.add_pending_le_of_turns hInner turns
    have hStart := Worklist.pending_start_le fn
    refine ⟨by omega, (Worklist.exists_turn fn s).imp_left ?_⟩
    exact fun hEnd => ⟨hEnd, Worklist.made_eq_of_end turns hEnd⟩

/-- Each block of this function is below itself, and the second twice below the first. -/
def tangledBlocks : Function :=
  { callee := { package := "guards", name := "tangled" }
    blocks := #[{ index := 0, dominees := [1, 1, 0] }, { index := 1, dominees := [1, 0] }] }

theorem walk_is_recursive_preorder_guardedLoop :
    guardedLoop.IsLinked ∧ tangledBlocks.HasInnerDominees ∧
      (∀ settings, guardedLoop.events settings =
        recursiveEvents isLinked_guardedLoop settings ⟨0, []⟩ (by decide)) ∧
      (∀ b, b ∈ guardedLoop.walk.visits.map Visit.block ↔ guardedLoop.Reaches b ∧
        ∀ d, guardedLoop.IsPruned d → ¬ Dominates guardedLoop.Edge d b) ∧
      (tangledBlocks.walk.visits.map Visit.block).Nodup ∧
      ∀ n s, Worklist.Turns tangledBlocks n (Worklist.start tangledBlocks) s → n ≤ 6 := by
  have hInner : tangledBlocks.HasInnerDominees := by decide
  obtain ⟨-, -, hEvents, -, hVisited, -⟩ :=
    (walk_is_recursive_preorder guardedLoop).2.1 isLinked_guardedLoop
  obtain ⟨hNodup, -, hEnds⟩ := walk_is_recursive_preorder tangledBlocks
  exact ⟨isLinked_guardedLoop, hInner, hEvents (by decide), hVisited, hNodup,
    fun n s turns => ((hEnds hInner).2 n s turns).1⟩

end Function

end NilGuard
