import NilGuard.Flow.Dominator
import NilGuard.Proofs.Route
/-! The table of immediate dominators. While it is being improved it may still be wrong,
and improving one entry moves everything below it. Two facts survive this. A strict dominator
of a number always dominates its entry. And after so many passes, what is met on the way
up from a number lies on every route to it that retreats less often than that. A route
without repetition retreats less often than there are numbers, which ends the argument. -/
namespace NilGuard.Idoms

/-- The edges given by the predecessors of each number. -/
def Edge (preds : Array (List Nat)) (p a : Nat) : Prop := p ∈ preds[a]?.getD []

/-- Every number but the first has a smaller predecessor, as in a reverse postorder. -/
structure IsNumbering (preds : Array (List Nat)) : Prop where
  nonempty : 0 < preds.size
  forward : ∀ a, 0 < a → a < preds.size → ∃ p, Edge preds p a ∧ p < a

/-- The number `x` is met on the way up from a number. -/
inductive Above (t : Idoms) (x : Nat) : Nat → Prop where
  | self : Above t x x
  | up {a d : Nat} (entry : t.get a = some d) (rest : Above t x d) : Above t x a

theorem Above.trans {t : Idoms} {x y a : Nat} (hFirst : Above t x y) (hSecond : Above t y a) :
    Above t x a := by
  induction hSecond with
  | self => exact hFirst
  | up entry rest ih => exact Above.up entry ih

theorem lt_size_of_isSome {t : Idoms} {a : Nat} (hSome : (t.get a).isSome) : a < t.size := by
  apply Decidable.byContradiction
  intro hNot
  simp [get, Array.getElem?_eq_none (Nat.le_of_not_lt hNot)] at hSome

theorem get_set {t : Idoms} {a m : Nat} (hLt : a < t.size) (c : Nat) :
    get (t.setIfInBounds a (some m)) c = if c = a then some m else t.get c := by
  simp only [get, Array.getElem?_setIfInBounds]
  by_cases hEq : a = c
  · simp [← hEq, hLt]
  · simp [hEq, Ne.symm hEq]

theorem get_start {size : Nat} (a : Nat) (hSize : 0 < size) :
    (start size).get a = if a = 0 then some 0 else none := by
  rw [start, get_set (by simpa using hSize)]
  by_cases hZero : a = 0
  · simp [hZero]
  · by_cases hLt : a < size <;> simp [hZero, get, hLt]

variable {preds : Array (List Nat)} {t : Idoms} {a b c d m x k : Nat}

namespace IsNumbering

variable (hNum : IsNumbering preds)
include hNum

/-- Going back to a smaller predecessor again and again ends at the first number. -/
theorem exists_forward_route : ∀ a, a < preds.size →
    ∃ path, Route (Edge preds) (a :: path) ∧ ∀ y ∈ a :: path, y ≤ a := by
  intro a
  induction a using Nat.strongRecOn with
  | _ a ih =>
      intro hLt
      rcases Nat.eq_zero_or_pos a with rfl | hPos
      · exact ⟨[], Route.entry, by simp⟩
      · obtain ⟨p, hEdge, hp⟩ := hNum.forward a hPos hLt
        obtain ⟨path, route, hLe⟩ := ih p hp (Nat.lt_trans hp hLt)
        refine ⟨p :: path, route.step hEdge, ?_⟩
        intro y hy
        rcases List.mem_cons.mp hy with rfl | hy
        · exact Nat.le_refl _
        · exact Nat.le_trans (hLe y hy) (Nat.le_of_lt hp)

theorem le_of_dominates (hLt : a < preds.size) (hDom : Dominates (Edge preds) x a) : x ≤ a := by
  obtain ⟨path, route, hLe⟩ := hNum.exists_forward_route a hLt
  exact hLe x (hDom path route)

theorem lt_size_of_route {path : List Nat} (route : Route (Edge preds) path) :
    ∀ y ∈ path, y < preds.size := by
  induction route with
  | entry =>
      intro y hy
      obtain rfl := List.mem_singleton.mp hy
      exact hNum.nonempty
  | @step b c path prior last ih =>
      intro y hy
      rcases List.mem_cons.mp hy with rfl | hy
      · apply Decidable.byContradiction
        intro hNot
        simp [Edge, Array.getElem?_eq_none (Nat.le_of_not_lt hNot)] at last
      · exact ih y hy

end IsNumbering

/-- What holds of the table between any two improvements. -/
structure IsPartial (preds : Array (List Nat)) (t : Idoms) : Prop where
  size : t.size = preds.size
  root : t.get 0 = some 0
  lower : ∀ a d, 0 < a → t.get a = some d → d < a
  known : ∀ a d, t.get a = some d → (t.get d).isSome
  keeps : ∀ a d, t.get a = some d → ∀ x, StrictlyDominates (Edge preds) x a →
    Dominates (Edge preds) x d

namespace IsPartial

variable (hPart : IsPartial preds t)
include hPart

theorem lt_size (hSome : (t.get a).isSome) : a < preds.size := by
  rw [← hPart.size]
  exact lt_size_of_isSome hSome

theorem above_le (hAbove : Above t x a) : x ≤ a := by
  induction hAbove with
  | self => exact Nat.le_refl _
  | @up a d entry rest ih =>
      rcases Nat.eq_zero_or_pos a with rfl | hPos
      · rw [hPart.root] at entry
        cases entry
        exact ih
      · exact Nat.le_trans ih (Nat.le_of_lt (hPart.lower a d hPos entry))

end IsPartial

/-- The number `m` is where the ways up from some numbers meet, as far as the table
tells. -/
structure IsMeet (preds : Array (List Nat)) (t : Idoms) (ps : List Nat) (m : Nat) : Prop where
  known : (t.get m).isSome
  above : ∀ p ∈ ps, Above t m p
  keeps : ∀ x, (∀ p ∈ ps, Dominates (Edge preds) x p) → Dominates (Edge preds) x m

theorem up_eq (hGet : t.get a = some d) : t.up a = d := by
  simp [up, hGet]

/-- One step up from the larger of two numbers loses none of their common dominators. -/
theorem IsMeet.of_up (hNum : IsNumbering preds) (hPart : IsPartial preds t) (hb : b < preds.size)
    (hLt : b < a) (hGet : t.get a = some d) (hMeet : IsMeet preds t [d, b] m) :
    IsMeet preds t [a, b] m := by
  refine ⟨hMeet.known, ?_, ?_⟩
  · intro p hp
    rcases List.mem_cons.mp hp with rfl | hp
    · exact (hMeet.above d (by simp)).trans (Above.up hGet Above.self)
    · exact hMeet.above p (List.mem_cons_of_mem _ hp)
  · intro x hx
    have hxb : Dominates (Edge preds) x b := hx b (by simp)
    have hNe : x ≠ a := Nat.ne_of_lt (Nat.lt_of_le_of_lt (hNum.le_of_dominates hb hxb) hLt)
    have hxd : Dominates (Edge preds) x d := hPart.keeps a d hGet x ⟨hNe, hx a (by simp)⟩
    apply hMeet.keeps
    intro p hp
    rcases List.mem_cons.mp hp with rfl | hp
    · exact hxd
    · exact hx p (List.mem_cons_of_mem _ hp)

theorem IsMeet.swap (hMeet : IsMeet preds t [a, b] m) : IsMeet preds t [b, a] m where
  known := hMeet.known
  above p hp := hMeet.above p (by simpa [or_comm] using hp)
  keeps x hx := hMeet.keeps x fun p hp => hx p (by simpa [or_comm] using hp)

theorem IsMeet.of_eq (hSome : (t.get a).isSome) : IsMeet preds t [a, a] a := by
  refine ⟨hSome, ?_, fun x hx => hx a (by simp)⟩
  intro p hp
  obtain rfl : p = a := by simpa using hp
  exact Above.self

theorem isMeet_meet (hNum : IsNumbering preds) (hPart : IsPartial preds t) {steps : Nat}
    (ha : (t.get a).isSome) (hb : (t.get b).isSome) (hSteps : a + b ≤ steps) :
    IsMeet preds t [a, b] (t.meet steps a b) := by
  induction steps generalizing a b with
  | zero =>
      obtain ⟨rfl, rfl⟩ : a = 0 ∧ b = 0 := by omega
      exact IsMeet.of_eq ha
  | succ steps ih =>
      simp only [meet]
      split
      case isTrue hEq =>
        rw [← hEq]
        exact IsMeet.of_eq ha
      case isFalse hNe =>
        split
        case isTrue hLt =>
          obtain ⟨d, hGet⟩ := Option.isSome_iff_exists.mp ha
          have hLower : d < a := hPart.lower a d (by omega) hGet
          rw [up_eq hGet]
          exact (ih (hPart.known a d hGet) hb (by omega)).of_up hNum hPart
            (hPart.lt_size hb) hLt hGet
        case isFalse hGe =>
          obtain ⟨d, hGet⟩ := Option.isSome_iff_exists.mp hb
          have hLower : d < b := hPart.lower b d (by omega) hGet
          rw [up_eq hGet]
          have hMeet := ih ha (hPart.known b d hGet) (by omega)
          exact (hMeet.swap.of_up hNum hPart (hPart.lt_size ha) (by omega) hGet).swap

theorem isMeet_foldl (hNum : IsNumbering preds) (hPart : IsPartial preds t) {ps : List Nat}
    {p : Nat} (hKnown : ∀ q ∈ p :: ps, (t.get q).isSome) :
    IsMeet preds t (p :: ps) (ps.foldl (t.meet t.meetSteps) p) := by
  induction ps generalizing p with
  | nil =>
      have hMeet : IsMeet preds t [p, p] p := IsMeet.of_eq (hKnown p (by simp))
      exact ⟨hMeet.known, fun q hq => hMeet.above q (List.mem_cons_of_mem _ hq),
        fun x hx => hx p (by simp)⟩
  | cons q ps ih =>
      have hp := hKnown p (by simp)
      have hq := hKnown q (by simp)
      have hPair : IsMeet preds t [p, q] (t.meet t.meetSteps p q) := by
        have hpLt := lt_size_of_isSome hp
        have hqLt := lt_size_of_isSome hq
        exact isMeet_meet hNum hPart hp hq (by unfold meetSteps; omega)
      have hRest : IsMeet preds t (t.meet t.meetSteps p q :: ps)
          (ps.foldl (t.meet t.meetSteps) (t.meet t.meetSteps p q)) := by
        apply ih
        intro r hr
        rcases List.mem_cons.mp hr with rfl | hr
        · exact hPair.known
        · exact hKnown r (by simp [hr])
      refine ⟨hRest.known, ?_, ?_⟩
      · intro r hr
        have hHead := hRest.above _ List.mem_cons_self
        rcases List.mem_cons.mp hr with rfl | hr
        · exact hHead.trans (hPair.above r (by simp))
        rcases List.mem_cons.mp hr with rfl | hr
        · exact hHead.trans (hPair.above r (by simp))
        · exact hRest.above r (List.mem_cons_of_mem _ hr)
      · intro x hx
        apply hRest.keeps
        intro r hr
        rcases List.mem_cons.mp hr with rfl | hr
        · apply hPair.keeps
          intro s hs
          exact hx s (by simp at hs ⊢; omega)
        · exact hx r (by simp [hr])

/-- How often a route goes to a number that is not larger. -/
def retreats : List Nat → Nat
  | b :: a :: path => (if b ≤ a then 1 else 0) + retreats (a :: path)
  | _ => 0

theorem retreats_lt_length : ∀ path : List Nat, path ≠ [] → retreats path < path.length
  | [], hNe => absurd rfl hNe
  | [_], _ => by simp [retreats]
  | b :: a :: path, _ => by
      have ih := retreats_lt_length (a :: path) (by simp)
      simp only [retreats, List.length_cons] at ih ⊢
      split <;> omega

theorem retreats_le_append (newer : List Nat) (path : List Nat) :
    retreats path ≤ retreats (newer ++ path) := by
  induction newer with
  | nil => exact Nat.le_refl _
  | cons b newer ih =>
      cases hRest : newer ++ path with
      | nil => simp_all [retreats]
      | cons a rest =>
          rw [List.cons_append, hRest, retreats]
          rw [hRest] at ih
          exact Nat.le_trans ih (Nat.le_add_left _ _)

/-- What is met on the way up from `a` lies on every route to `a` that retreats less
than `k` times. -/
def Level (preds : Array (List Nat)) (t : Idoms) (k a : Nat) : Prop :=
  ∀ path, Route (Edge preds) (a :: path) → retreats (a :: path) < k →
    ∀ x, Above t x a → x ∈ a :: path

theorem level_of_get_eq_none (hNone : t.get a = none) : Level preds t k a := by
  intro path _ _ x hAbove
  cases hAbove with
  | self => exact List.mem_cons_self
  | up entry rest =>
      rw [hNone] at entry
      cases entry

/-- Once no route retreats more often, the way up from a number consists of its
dominators. -/
theorem Level.dominates (hNum : IsNumbering preds) (hLevel : Level preds t k a)
    (hSize : preds.size ≤ k) (hAbove : Above t x a) : Dominates (Edge preds) x a := by
  intro path route
  obtain ⟨rest, hRoute, hNodup, hSub⟩ := route.exists_nodup
  apply hSub
  refine hLevel rest hRoute ?_ x hAbove
  have hLength : (a :: rest).length ≤ preds.size := by
    have hSubset : a :: rest ⊆ List.range preds.size := fun y hy =>
      List.mem_range.mpr (hNum.lt_size_of_route hRoute y hy)
    simpa using hNodup.length_le_of_subset hSubset
  have hRetreats := retreats_lt_length (a :: rest) (by simp)
  omega

section Update

variable (hPart : IsPartial preds t) (hPos : 0 < b) (hLt : b < preds.size)
include hPart hPos hLt

theorem IsPartial.set (hLower : m < b) (hKnown : (t.get m).isSome)
    (hKeeps : ∀ x, StrictlyDominates (Edge preds) x b → Dominates (Edge preds) x m) :
    IsPartial preds (t.setIfInBounds b (some m)) := by
  have hb : b < t.size := hPart.size ▸ hLt
  constructor
  case size => rw [← hPart.size, Array.size_setIfInBounds]
  case root => rw [get_set hb, if_neg (Nat.ne_of_lt hPos), hPart.root]
  case lower =>
    intro a d ha hGet
    rw [get_set hb] at hGet
    split at hGet
    case isTrue hEq =>
      cases hGet
      omega
    case isFalse => exact hPart.lower a d ha hGet
  case known =>
    intro a d hGet
    rw [get_set hb] at hGet ⊢
    split
    case isTrue => rfl
    case isFalse hNe =>
      split at hGet
      case isTrue =>
        cases hGet
        exact hKnown
      case isFalse => exact hPart.known a d hGet
  case keeps =>
    intro a d hGet x hx
    rw [get_set hb] at hGet
    split at hGet
    case isTrue hEq =>
      cases hGet
      exact hKeeps x (hEq ▸ hx)
    case isFalse => exact hPart.keeps a d hGet x hx

/-- Below the changed number nothing changes. -/
theorem above_of_above_set_of_lt (ha : a < b)
    (hAbove : Above (t.setIfInBounds b (some m)) x a) : Above t x a := by
  have hb : b < t.size := hPart.size ▸ hLt
  induction hAbove with
  | self => exact Above.self
  | @up a d entry rest ih =>
      rw [get_set hb, if_neg (Nat.ne_of_lt ha)] at entry
      refine Above.up entry (ih ?_)
      rcases Nat.eq_zero_or_pos a with rfl | haPos
      · rw [hPart.root] at entry
        cases entry
        exact hPos
      · exact Nat.lt_trans (hPart.lower a d haPos entry) ha

omit hPos in
/-- A way up that changes goes through the changed number. -/
theorem above_of_above_set (hAbove : Above (t.setIfInBounds b (some m)) x a) :
    Above t x a ∨ Above t b a ∧ Above (t.setIfInBounds b (some m)) x b := by
  have hb : b < t.size := hPart.size ▸ hLt
  induction hAbove with
  | self => exact Or.inl Above.self
  | @up a d entry rest ih =>
      by_cases hEq : a = b
      · rw [hEq] at entry ⊢
        exact Or.inr ⟨Above.self, Above.up entry rest⟩
      · rw [get_set hb, if_neg hEq] at entry
        rcases ih with hSame | ⟨hThrough, hRest⟩
        · exact Or.inl (Above.up entry hSame)
        · exact Or.inr ⟨Above.up entry hThrough, hRest⟩

end Update

/-- The table in the pass with number `k`, when the numbers below `b` have been improved. -/
structure Passing (preds : Array (List Nat)) (k b : Nat) (t : Idoms) : Prop
    extends IsPartial preds t where
  filled : ∀ c < b, (t.get c).isSome
  full : 0 < k → ∀ c < preds.size, (t.get c).isSome
  level : ∀ c, Level preds t k c
  raised : ∀ c < b, Level preds t (k + 1) c

/-- The table after `k` passes. -/
structure Settled (preds : Array (List Nat)) (k : Nat) (t : Idoms) : Prop
    extends IsPartial preds t where
  full : 0 < k → ∀ c < preds.size, (t.get c).isSome
  level : ∀ c, Level preds t k c

namespace Passing

variable (hNum : IsNumbering preds) (hPass : Passing preds k b t) (hPos : 0 < b)
  (hLt : b < preds.size)
include hNum hPass hPos hLt

/-- There is always something to improve an entry from, because a smaller predecessor has
been improved before. The new entry is above all predecessors that have one. -/
theorem improve_eq : ∃ m, t.improve (preds[b]?.getD []) b = t.setIfInBounds b (some m) ∧
    m < b ∧ (t.get m).isSome ∧
    (∀ p, Edge preds p b → (t.get p).isSome → Above t m p) ∧
    ∀ x, StrictlyDominates (Edge preds) x b → Dominates (Edge preds) x m := by
  have hMem : ∀ p, p ∈ (preds[b]?.getD []).filter (fun p => (t.get p).isSome) ↔
      Edge preds p b ∧ (t.get p).isSome := fun p => List.mem_filter
  obtain ⟨p, hEdge, hp⟩ := hNum.forward b hPos hLt
  have hThere := (hMem p).mpr ⟨hEdge, hPass.filled p hp⟩
  simp only [Idoms.improve]
  cases hList : (preds[b]?.getD []).filter fun p => (t.get p).isSome with
  | nil =>
      rw [hList] at hThere
      exact absurd hThere List.not_mem_nil
  | cons q qs =>
      rw [hList] at hMem
      have hMeet := isMeet_foldl hNum hPass.toIsPartial fun r hr => ((hMem r).mp hr).2
      have hAbove := fun r hr hSome => hMeet.above r ((hMem r).mpr ⟨hr, hSome⟩)
      refine ⟨_, rfl, ?_, hMeet.known, hAbove, ?_⟩
      · exact Nat.lt_of_le_of_lt (hPass.above_le (hAbove p hEdge (hPass.filled p hp))) hp
      · intro x hx
        apply hMeet.keeps
        intro r hr
        exact hx.2.of_edge hx.1 ((hMem r).mp hr).1

/-- The new way up from the improved number lies on every route with one retreat more. -/
theorem level_set (hLower : m < b)
    (hMeet : ∀ p, Edge preds p b → (t.get p).isSome → Above t m p) :
    Level preds (t.setIfInBounds b (some m)) (k + 1) b := by
  intro path route hRetreats x hAbove
  cases hAbove with
  | self => exact List.mem_cons_self
  | @up _ d entry rest =>
      rw [get_set (hPass.size ▸ hLt), if_pos rfl] at entry
      cases entry
      have hOld : Above t x m := above_of_above_set_of_lt hPass.toIsPartial hPos hLt hLower rest
      cases route with
      | entry => exact absurd hPos (Nat.lt_irrefl 0)
      | @step p _ path prior last =>
          have hpLt : p < preds.size := hNum.lt_size_of_route prior p List.mem_cons_self
          apply List.mem_cons_of_mem
          simp only [retreats] at hRetreats
          by_cases hp : p < b
          · have hUp := hOld.trans (hMeet p last (hPass.filled p hp))
            exact hPass.raised p hp path prior (by omega) x hUp
          · rw [if_pos (Nat.le_of_not_lt hp)] at hRetreats
            have hUp := hOld.trans (hMeet p last (hPass.full (by omega) p hpLt))
            exact hPass.level p path prior (by omega) x hUp

theorem improve : Passing preds k (b + 1) (t.improve (preds[b]?.getD []) b) := by
  obtain ⟨m, hImprove, hLower, hKnown, hMeet, hKeeps⟩ := improve_eq hNum hPass hPos hLt
  have hLevel := level_set hNum hPass hPos hLt hLower hMeet
  have hSet : ∀ c, (t.get c).isSome → (get (t.setIfInBounds b (some m)) c).isSome := by
    intro c hSome
    rw [get_set (hPass.size ▸ hLt)]
    split
    · rfl
    · exact hSome
  have hSelf : (get (t.setIfInBounds b (some m)) b).isSome := by
    rw [get_set (hPass.size ▸ hLt), if_pos rfl]
    rfl
  rw [hImprove]
  constructor
  case toIsPartial => exact hPass.toIsPartial.set hPos hLt hLower hKnown hKeeps
  case filled =>
    intro c hc
    by_cases hEq : c = b
    · rw [hEq]
      exact hSelf
    · exact hSet c (hPass.filled c (by omega))
  case full => exact fun hk c hc => hSet c (hPass.full hk c hc)
  case level =>
    intro c path route hRetreats x hAbove
    rcases above_of_above_set hPass.toIsPartial hLt hAbove with hOld | ⟨hThrough, hNew⟩
    · exact hPass.level c path route hRetreats x hOld
    · -- The route to `c` goes through `b`, so what is above `b` now lies on its older part.
      obtain ⟨newer, older, hSplit⟩ :=
        List.append_of_mem (hPass.level c path route hRetreats b hThrough)
      rw [hSplit] at route hRetreats ⊢
      have hFewer := retreats_le_append newer (b :: older)
      exact List.mem_append_right _ (hLevel older route.of_append (by omega) x hNew)
  case raised =>
    intro c hc
    by_cases hEq : c = b
    · rw [hEq]
      exact hLevel
    · intro path route hRetreats x hAbove
      have hcLt : c < b := by omega
      exact hPass.raised c hcLt path route hRetreats x
        (above_of_above_set_of_lt hPass.toIsPartial hPos hLt hcLt hAbove)

end Passing

theorem Passing.foldl (hNum : IsNumbering preds) {n : Nat} (hPass : Passing preds k b t)
    (hPos : 0 < b) (hSize : b + n ≤ preds.size) :
    Passing preds k (b + n)
      ((List.range' b n).foldl (fun t a => t.improve (preds[a]?.getD []) a) t) := by
  induction n generalizing b t with
  | zero => exact hPass
  | succ n ih =>
      rw [List.range'_succ, List.foldl_cons, show b + (n + 1) = b + 1 + n by omega]
      exact ih (hPass.improve hNum hPos (by omega)) (by omega) (by omega)

theorem Settled.passing (hSettled : Settled preds k t) : Passing preds k 1 t := by
  refine { hSettled with filled := ?_, raised := ?_ }
  · intro c hc
    obtain rfl : c = 0 := by omega
    rw [hSettled.root]
    rfl
  · intro c hc path _ _ x hAbove
    obtain rfl : x = c := by
      have hLe := hSettled.above_le hAbove
      omega
    exact List.mem_cons_self

theorem Settled.pass (hNum : IsNumbering preds) (hSettled : Settled preds k t) :
    Settled preds (k + 1) (t.pass preds) := by
  have hSize : 1 + (t.size - 1) = preds.size := by
    have hPos := hNum.nonempty
    rw [hSettled.size]
    omega
  have hPass := hSettled.passing.foldl hNum Nat.one_pos (Nat.le_of_eq hSize)
  rw [hSize] at hPass
  refine { hPass with full := fun _ => hPass.filled, level := ?_ }
  intro c
  by_cases hc : c < preds.size
  · exact hPass.raised c hc
  · apply level_of_get_eq_none
    apply Decidable.byContradiction
    intro hNe
    exact hc (hPass.lt_size (Option.isSome_iff_ne_none.mpr hNe))

/-- A table that a pass does not change is as good as after any number of passes. -/
theorem Settled.of_pass_eq (hNum : IsNumbering preds) (hSettled : Settled preds k t)
    (hFixed : t.pass preds = t) (passes : Nat) : Settled preds (k + passes) t := by
  induction passes with
  | zero => exact hSettled
  | succ passes ih =>
      have hNext := ih.pass hNum
      rw [hFixed] at hNext
      exact hNext

theorem Settled.settle (hNum : IsNumbering preds) {passes : Nat} (hSettled : Settled preds k t) :
    Settled preds (k + passes) (settle preds passes t) := by
  induction passes generalizing k t with
  | zero => exact hSettled
  | succ passes ih =>
      simp only [Idoms.settle]
      split
      case isTrue hFixed => exact hSettled.of_pass_eq hNum hFixed (passes + 1)
      case isFalse =>
        rw [show k + (passes + 1) = k + 1 + passes by omega]
        exact ih (hSettled.pass hNum)

theorem settled_start (hNum : IsNumbering preds) : Settled preds 0 (start preds.size) := by
  have hGet := fun a => get_start a hNum.nonempty
  constructor
  case toIsPartial =>
    constructor
    case size => simp [start]
    case root => rw [hGet, if_pos rfl]
    case lower =>
      intro a d ha hSome
      rw [hGet, if_neg (Nat.ne_of_gt ha)] at hSome
      cases hSome
    case known =>
      intro a d hSome
      rw [hGet] at hSome ⊢
      split at hSome
      · cases hSome
        rfl
      · cases hSome
    case keeps =>
      intro a d hSome x hx
      rw [hGet] at hSome
      split at hSome
      case isTrue hZero =>
        cases hSome
        exact hZero ▸ hx.2
      case isFalse => cases hSome
  case full => exact fun hk => absurd hk (Nat.lt_irrefl 0)
  case level => exact fun c path _ hRetreats => absurd hRetreats (Nat.not_lt_zero _)

/-- After enough passes every number has an entry, the first one itself and every other one
its immediate dominator, which is smaller. -/
theorem Settled.get_eq (hNum : IsNumbering preds) (hSettled : Settled preds k t)
    (hSize : preds.size ≤ k) (hLt : a < preds.size) :
    ∃ d, t.get a = some d ∧ (a = 0 → d = 0) ∧
      (0 < a → d < a ∧ ImmediatelyDominates (Edge preds) d a) := by
  have hPos := hNum.nonempty
  obtain ⟨d, hGet⟩ := Option.isSome_iff_exists.mp (hSettled.full (by omega) a hLt)
  refine ⟨d, hGet, ?_, ?_⟩
  · rintro rfl
    rw [hSettled.root] at hGet
    exact (Option.some.inj hGet).symm
  · intro ha
    have hLower := hSettled.lower a d ha hGet
    have hDom := (hSettled.level a).dominates hNum hSize (Above.up hGet Above.self)
    exact ⟨hLower, ⟨Nat.ne_of_lt hLower, hDom⟩, hSettled.keeps a d hGet⟩

/-- The finished table. -/
theorem get_settle (hNum : IsNumbering preds) {passes : Nat} (hPasses : preds.size ≤ passes)
    (hLt : a < preds.size) :
    ∃ d, get (settle preds passes (start preds.size)) a = some d ∧
      (a = 0 → d = 0) ∧ (0 < a → d < a ∧ ImmediatelyDominates (Edge preds) d a) := by
  have hSettled : Settled preds (0 + passes) _ := (settled_start hNum).settle hNum
  exact hSettled.get_eq hNum (by omega) hLt

end NilGuard.Idoms
