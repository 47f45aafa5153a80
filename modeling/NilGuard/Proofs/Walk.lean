import NilGuard.Walk.Basic
import NilGuard.Proofs.Link
import NilGuard.Proofs.Valuation
/-! What a comparison teaches, what is below a visit, and which visits a walk makes. Each
visit comes from the start or from a visit before it, and nothing below a visit is left
out. -/
namespace NilGuard

namespace Comparison

variable {c c' : Comparison} {facts : Facts} {other : Value} {x y : Nilness}

/-- Something is learned exactly when one side is nil and nothing is known about the other. -/
theorem lesson_eq_learned_iff : c.lesson facts = .learned c' other ↔ c' = c ∧
    ((other = c.right ∧ facts.classify c.left = .nil ∧ facts.classify c.right = .unknown) ∨
      (other = c.left ∧ facts.classify c.right = .nil ∧ facts.classify c.left = .unknown)) := by
  rw [lesson]
  cases facts.classify c.left <;> cases facts.classify c.right <;>
    simp [eq_comm]

theorem lesson_eq_learned (h : c.lesson facts = .learned c' other) : c' = c ∧
    ((other = c.right ∧ facts.classify c.left = .nil) ∨
      (other = c.left ∧ facts.classify c.right = .nil)) := by
  obtain ⟨hSame, ⟨hOther, hNil, -⟩ | ⟨hOther, hNil, -⟩⟩ := lesson_eq_learned_iff.mp h
  · exact ⟨hSame, Or.inl ⟨hOther, hNil⟩⟩
  · exact ⟨hSame, Or.inr ⟨hOther, hNil⟩⟩

theorem classify_of_learned (h : c.lesson facts = .learned c' other) :
    facts.classify other = .unknown := by
  obtain ⟨-, ⟨rfl, -, hUnknown⟩ | ⟨rfl, -, hUnknown⟩⟩ := lesson_eq_learned_iff.mp h
  · exact hUnknown
  · exact hUnknown

/-- The outcome is fixed when both sides are known and one of them is nil. -/
theorem lesson_eq_fixed (h : c.lesson facts = .fixed c' x y) : c' = c ∧
    facts.classify c.left = x ∧ facts.classify c.right = y ∧
    ((x = .nil ∧ y ≠ .unknown) ∨ (y = .nil ∧ x ≠ .unknown)) := by
  unfold lesson at h
  split at h
  case h_3 _ _ hLeft hUnknown =>
    cases h
    exact ⟨rfl, hLeft, rfl, Or.inl ⟨rfl, hUnknown⟩⟩
  case h_4 _ _ hRight hUnknown _ =>
    cases h
    exact ⟨rfl, rfl, hRight, Or.inr ⟨rfl, hUnknown⟩⟩
  all_goals cases h

end Comparison

namespace Function

/-- Every block has an index that it can be marked by. -/
def HasMarks (fn : Function) : Prop := ∀ b < fn.blocks.size, fn.markOf b < fn.blocks.size

instance (fn : Function) : Decidable fn.HasMarks :=
  inferInstanceAs (Decidable (∀ b < fn.blocks.size, fn.markOf b < fn.blocks.size))

theorem IsWellFormed.markOf_eq {fn : Function} (hWell : fn.IsWellFormed) {b : Nat}
    (hb : b < fn.blocks.size) : fn.markOf b = b :=
  markOf_of_index (hWell.index b hb)

theorem IsWellFormed.hasMarks {fn : Function} (hWell : fn.IsWellFormed) : fn.HasMarks := by
  intro b hb
  rwa [hWell.markOf_eq hb]

theorem instrs_eq {fn : Function} {b : Nat} (hb : b < fn.blocks.size) :
    fn.instrs b = fn.blocks[b].instrs := by
  rw [instrs, block?_of_lt hb, Array.getElem?_eq_getElem hb]
  rfl

section Below

variable {fn : Function} {b d : Nat} {c : Comparison} {other : Value} {u v : Visit}

theorem exists_instr_of_binaryOf? {v : Value} {x : Binary} (h : fn.binaryOf? v = some x) :
    ∃ block ∈ fn.blocks, ∃ i ∈ block.instrs, i.binary? = some x := by
  have hMem := (List.mem_filter.mp (List.mem_of_getLast? h)).1
  obtain ⟨block, hBlock, hMem⟩ := List.mem_flatMap.mp hMem
  obtain ⟨i, hi, hx⟩ := List.mem_filterMap.mp hMem
  exact ⟨block, Array.mem_toList_iff.mp hBlock, i, hi, hx⟩

/-- A comparison is that of the operation which defines the condition of the branch. The
first successor is entered when the condition holds. -/
theorem comparison?_eq_some (h : fn.comparison? b = some c) :
    ∃ condition x onTrue onFalse, fn.branchCondition? b = some condition ∧
      fn.binaryOf? condition = some x ∧ fn.succs b = [onTrue, onFalse] ∧
      x = ⟨c.location, c.result, c.operator, some c.left, some c.right⟩ ∧
      ((c.operator = "==" ∧ c.onEqual = onTrue ∧ c.onDiffer = onFalse) ∨
        (c.operator = "!=" ∧ c.onEqual = onFalse ∧ c.onDiffer = onTrue)) := by
  simp only [comparison?, Option.bind_eq_bind, Option.bind_eq_some_iff] at h
  obtain ⟨condition, hCondition, h⟩ := h
  split at h
  case h_1 onTrue onFalse hSuccs =>
    obtain ⟨⟨location, result, operator, left, right⟩, hBinary, h⟩ := Option.bind_eq_some_iff.mp h
    obtain ⟨l, rfl, h⟩ := Option.bind_eq_some_iff.mp h
    obtain ⟨r, rfl, h⟩ := Option.bind_eq_some_iff.mp h
    refine ⟨condition, _, onTrue, onFalse, hCondition, hBinary, hSuccs, ?_⟩
    split at h
    case isTrue hEqual =>
      cases h
      exact ⟨rfl, Or.inl ⟨hEqual, rfl, rfl⟩⟩
    case isFalse =>
      split at h
      case isTrue hDiffer =>
        cases h
        exact ⟨rfl, Or.inr ⟨hDiffer, rfl, rfl⟩⟩
      case isFalse => cases h
  case h_2 => cases h

theorem lesson_eq_learned (h : fn.lesson v = .learned c other) :
    fn.comparison? v.block = some c ∧ c.lesson v.facts = .learned c other := by
  rw [lesson] at h
  split at h
  case h_1 => cases h
  case h_2 c' hComparison =>
    obtain ⟨rfl, -⟩ := Comparison.lesson_eq_learned h
    exact ⟨hComparison, h⟩

theorem lesson_eq_fixed {x y : Nilness} (h : fn.lesson v = .fixed c x y) :
    fn.comparison? v.block = some c ∧ c.lesson v.facts = .fixed c x y := by
  rw [lesson] at h
  split at h
  case h_1 => cases h
  case h_2 c' hComparison =>
    obtain ⟨rfl, -⟩ := Comparison.lesson_eq_fixed h
    exact ⟨hComparison, h⟩

theorem onEqual_ne_onDiffer (h : fn.comparison? b = some c) (hOne : (fn.succs b).count d = 1)
    (hd : d = c.onEqual ∨ d = c.onDiffer) : c.onEqual ≠ c.onDiffer := by
  obtain ⟨_, _, onTrue, onFalse, -, -, hSuccs, -, hOutcome⟩ := comparison?_eq_some h
  intro hSame
  rw [hSuccs] at hOne
  have hTwice : onTrue = d ∧ onFalse = d := by
    rcases hOutcome with ⟨-, hTrue, hFalse⟩ | ⟨-, hFalse, hTrue⟩ <;> omega
  rw [hTwice.1, hTwice.2] at hOne
  simp at hOne

theorem operator_of_comparison (h : fn.comparison? b = some c) :
    c.operator = "==" ∨ c.operator = "!=" := by
  obtain ⟨_, _, _, _, -, -, -, -, hOutcome⟩ := comparison?_eq_some h
  exact hOutcome.imp And.left And.left

theorem edge_of_comparison (h : fn.comparison? b = some c) :
    fn.Edge b c.onEqual ∧ fn.Edge b c.onDiffer := by
  obtain ⟨_, _, onTrue, onFalse, -, -, hSuccs, -, hOutcome⟩ := comparison?_eq_some h
  rw [Edge, Edge, hSuccs]
  rcases hOutcome with ⟨-, hTrue, hFalse⟩ | ⟨-, hFalse, hTrue⟩ <;> simp [hTrue, hFalse]

/-- A block below a visit keeps the facts of the visit. It gets new ones only when it is
entered through one outcome of a comparison alone. -/
theorem mem_below (hv : v ∈ fn.below u) : v.block ∈ fn.dominees u.block ∧
    (v.facts = u.facts ∨ ∃ c other n, fn.comparison? u.block = some c ∧
      c.lesson u.facts = .learned c other ∧ fn.hasOneEdge v.block = true ∧
      v.facts = u.facts.push (Fact.chain n other) ∧
      ((n = .nil ∧ v.block = c.onEqual) ∨ (n = .nonNil ∧ v.block = c.onDiffer))) := by
  unfold below at hv
  split at hv
  case h_1 =>
    obtain ⟨d, hd, rfl⟩ := List.mem_map.mp hv
    exact ⟨hd, Or.inl rfl⟩
  case h_2 =>
    obtain ⟨d, hd, rfl⟩ := List.mem_map.mp hv
    exact ⟨(List.mem_filter.mp hd).1, Or.inl rfl⟩
  case h_3 c other hLesson =>
    obtain ⟨d, hd, rfl⟩ := List.mem_map.mp hv
    refine ⟨hd, ?_⟩
    obtain ⟨hComparison, hLearned⟩ := lesson_eq_learned hLesson
    simp only [factsBelow, Fact.expand]
    split
    case isFalse => exact Or.inl rfl
    case isTrue hOne =>
      split
      case isTrue hEqual =>
        exact Or.inr ⟨c, other, .nil, hComparison, hLearned, hOne, rfl, Or.inl ⟨rfl, hEqual⟩⟩
      case isFalse =>
        split
        case isTrue hDiffer =>
          rw [Fact.map_negate_chain]
          exact Or.inr ⟨c, other, .nonNil, hComparison, hLearned, hOne, rfl, Or.inr ⟨rfl, hDiffer⟩⟩
        case isFalse => exact Or.inl rfl

/-- A dominee is left out only if it is entered through nothing but an outcome that never
happens. -/
theorem exists_mem_below (hd : d ∈ fn.dominees u.block) :
    (∃ w ∈ fn.below u, w.block = d) ∨ ∃ c x y, fn.comparison? u.block = some c ∧
      c.lesson u.facts = .fixed c x y ∧ fn.hasOneEdge d = true ∧ d = c.deadEnd x y := by
  unfold below
  split
  case h_1 => exact Or.inl ⟨_, List.mem_map_of_mem hd, rfl⟩
  case h_2 c x y hLesson =>
    obtain ⟨hComparison, hFixed⟩ := lesson_eq_fixed hLesson
    cases hDead : d == c.deadEnd x y && fn.hasOneEdge d with
    | true =>
        rw [Bool.and_eq_true, beq_iff_eq] at hDead
        exact Or.inr ⟨c, x, y, hComparison, hFixed, hDead.2, hDead.1⟩
    | false =>
        have hKept : (!(d == c.deadEnd x y && fn.hasOneEdge d)) = true := by rw [hDead]; rfl
        exact Or.inl ⟨_, List.mem_map_of_mem (List.mem_filter.mpr ⟨hd, hKept⟩), rfl⟩
  case h_3 => exact Or.inl ⟨_, List.mem_map_of_mem hd, rfl⟩

/-- The visit of a dominee of a visit, if it is not pruned. -/
def visitOf? (fn : Function) (u : Visit) (d : Nat) : Option Visit :=
  match fn.lesson u with
  | .nothing => some ⟨d, u.facts⟩
  | .fixed c x y => if d == c.deadEnd x y && fn.hasOneEdge d then none else some ⟨d, u.facts⟩
  | .learned c other => some ⟨d, fn.factsBelow u.facts c other d⟩

theorem below_eq_filterMap (fn : Function) (u : Visit) :
    fn.below u = (fn.dominees u.block).filterMap (fn.visitOf? u) := by
  unfold below visitOf?
  induction fn.dominees u.block with
  | nil => cases fn.lesson u <;> rfl
  | cons d ds ih =>
      cases hLesson : fn.lesson u with
      | nothing =>
          simp only [hLesson] at ih ⊢
          rw [List.map_cons, ih, List.filterMap_cons]
      | learned c other =>
          simp only [hLesson] at ih ⊢
          rw [List.map_cons, ih, List.filterMap_cons]
      | fixed c x y =>
          simp only [hLesson] at ih ⊢
          rw [List.filter_cons, List.filterMap_cons, ← ih]
          cases d == c.deadEnd x y && fn.hasOneEdge d <;> rfl

theorem block_of_visitOf? (h : fn.visitOf? u d = some v) : v.block = d := by
  unfold visitOf? at h
  split at h
  case h_2 =>
    split at h
    case isTrue => cases h
    case isFalse =>
      cases h
      rfl
  all_goals
    cases h
    rfl

theorem eq_of_mem_below {w : Visit} (hv : v ∈ fn.below u) (hw : w ∈ fn.below u)
    (hBlock : v.block = w.block) : v = w := by
  rw [below_eq_filterMap] at hv hw
  obtain ⟨d, -, hd⟩ := List.mem_filterMap.mp hv
  obtain ⟨e, -, he⟩ := List.mem_filterMap.mp hw
  rw [block_of_visitOf? hd, block_of_visitOf? he] at hBlock
  rw [hBlock, he] at hd
  exact (Option.some.inj hd).symm

end Below

section Steps

variable {fn : Function} {ahead : List Visit} {m : Marks}

theorem mem_visits : ∀ v ∈ (fn.walkFrom ahead m).visits,
    v ∈ ahead ∨ ∃ u ∈ (fn.walkFrom ahead m).visits, v ∈ fn.below u := by
  induction ahead, m using walkFrom.induct fn with
  | case1 m => simp [walkFrom]
  | case2 v ahead m hOut => simp [walkFrom, hOut]
  | case3 v ahead m hIn hFree ih =>
      rw [walkFrom, if_neg hIn, dif_pos hFree]
      intro w hw
      rcases List.mem_cons.mp hw with rfl | hw
      · exact Or.inl List.mem_cons_self
      · rcases ih w hw with hAhead | ⟨u, hu, hBelow⟩
        · rcases List.mem_append.mp hAhead with hBelow | hAhead
          · exact Or.inr ⟨v, List.mem_cons_self, hBelow⟩
          · exact Or.inl (List.mem_cons_of_mem _ hAhead)
        · exact Or.inr ⟨u, List.mem_cons_of_mem _ hu, hBelow⟩
  | case4 v ahead m hIn hFree ih =>
      rw [walkFrom, if_neg hIn, dif_neg hFree]
      intro w hw
      exact (ih w hw).imp_left (List.mem_cons_of_mem _)

/-- What holds of the visits ahead and is passed on to the visits below holds of all. -/
theorem visits_induct {P : Visit → Prop} (hBelow : ∀ u, P u → ∀ v ∈ fn.below u, P v)
    (hAhead : ∀ v ∈ ahead, P v) : ∀ v ∈ (fn.walkFrom ahead m).visits, P v := by
  induction ahead, m using walkFrom.induct fn with
  | case1 m => simp [walkFrom]
  | case2 v ahead m hOut => simp [walkFrom, hOut]
  | case3 v ahead m hIn hFree ih =>
      rw [walkFrom, if_neg hIn, dif_pos hFree]
      have hv := hAhead v List.mem_cons_self
      intro w hw
      rcases List.mem_cons.mp hw with rfl | hw
      · exact hv
      · apply ih ?_ w hw
        intro u hu
        rcases List.mem_append.mp hu with hu | hu
        · exact hBelow v hv u hu
        · exact hAhead u (List.mem_cons_of_mem _ hu)
  | case4 v ahead m hIn hFree ih =>
      rw [walkFrom, if_neg hIn, dif_neg hFree]
      exact ih fun u hu => hAhead u (List.mem_cons_of_mem _ hu)

theorem walkFrom_complete (hMarks : fn.HasMarks)
    (hBelow : ∀ u : Visit, u.block < fn.blocks.size → ∀ v ∈ fn.below u, v.block < fn.blocks.size)
    (hAhead : ∀ v ∈ ahead, v.block < fn.blocks.size) :
    (fn.walkFrom ahead m).complete = true := by
  induction ahead, m using walkFrom.induct fn with
  | case1 m => simp [walkFrom]
  | case2 v ahead m hOut =>
      exact absurd hOut (Nat.not_le.mpr (hMarks v.block (hAhead v List.mem_cons_self)))
  | case3 v ahead m hIn hFree ih =>
      rw [walkFrom, if_neg hIn, dif_pos hFree]
      apply ih
      intro u hu
      rcases List.mem_append.mp hu with hu | hu
      · exact hBelow v (hAhead v List.mem_cons_self) u hu
      · exact hAhead u (List.mem_cons_of_mem _ hu)
  | case4 v ahead m hIn hFree ih =>
      rw [walkFrom, if_neg hIn, dif_neg hFree]
      exact ih fun u hu => hAhead u (List.mem_cons_of_mem _ hu)

/-- What is ahead or below a visit is visited, if its index was not marked before. -/
theorem exists_visit (hComplete : (fn.walkFrom ahead m).complete = true) {w : Visit}
    (hw : w ∈ ahead ∨ ∃ u ∈ (fn.walkFrom ahead m).visits, w ∈ fn.below u) :
    m.isFree (fn.markOf w.block) = false ∨
      ∃ v ∈ (fn.walkFrom ahead m).visits, fn.markOf v.block = fn.markOf w.block := by
  induction ahead, m using walkFrom.induct fn with
  | case1 m => simp [walkFrom] at hw
  | case2 v ahead m hOut => simp [walkFrom, hOut] at hComplete
  | case3 v ahead m hIn hFree ih =>
      rw [walkFrom, if_neg hIn, dif_pos hFree] at hComplete hw ⊢
      by_cases hMark : fn.markOf v.block = fn.markOf w.block
      · exact Or.inr ⟨v, List.mem_cons_self, hMark⟩
      · have hRest : w ∈ fn.below v ++ ahead ∨
            ∃ u ∈ (fn.walkFrom (fn.below v ++ ahead) (m.mark (fn.markOf v.block))).visits,
              w ∈ fn.below u := by
          rcases hw with hw | ⟨u, hu, hBelow⟩
          · rcases List.mem_cons.mp hw with rfl | hw
            · exact absurd rfl hMark
            · exact Or.inl (List.mem_append_right _ hw)
          · rcases List.mem_cons.mp hu with rfl | hu
            · exact Or.inl (List.mem_append_left _ hBelow)
            · exact Or.inr ⟨u, hu, hBelow⟩
        rcases ih hComplete hRest with hMarked | ⟨x, hx, hEq⟩
        · rw [Marks.isFree_mark] at hMarked
          exact Or.inl (by simpa [hMark] using hMarked)
        · exact Or.inr ⟨x, List.mem_cons_of_mem _ hx, hEq⟩
  | case4 v ahead m hIn hFree ih =>
      rw [walkFrom, if_neg hIn, dif_neg hFree] at hComplete hw ⊢
      rcases hw with hw | hw
      · rcases List.mem_cons.mp hw with rfl | hw
        · exact Or.inl (Bool.eq_false_iff.mpr hFree)
        · exact ih hComplete (Or.inl hw)
      · exact ih hComplete (Or.inr hw)

/-- A walk visits only what is not marked, and nothing of one index twice. -/
theorem nodup_marks : ((fn.walkFrom ahead m).visits.map (fn.markOf ·.block)).Nodup ∧
    ∀ v ∈ (fn.walkFrom ahead m).visits, m.isFree (fn.markOf v.block) = true := by
  induction ahead, m using walkFrom.induct fn with
  | case1 m => simp [walkFrom]
  | case2 v ahead m hOut => simp [walkFrom, hOut]
  | case3 v ahead m hIn hFree ih =>
      rw [walkFrom, if_neg hIn, dif_pos hFree]
      obtain ⟨hNodup, hRest⟩ := ih
      simp only [Marks.isFree_mark, Bool.and_eq_true, decide_eq_true_eq] at hRest
      constructor
      · rw [List.map_cons, List.nodup_cons]
        refine ⟨fun hMem => ?_, hNodup⟩
        obtain ⟨w, hw, hMark⟩ := List.mem_map.mp hMem
        exact (hRest w hw).1 hMark.symm
      · intro w hw
        rcases List.mem_cons.mp hw with rfl | hw
        · exact hFree
        · exact (hRest w hw).2
  | case4 v ahead m hIn hFree ih =>
      rw [walkFrom, if_neg hIn, dif_neg hFree]
      exact ih

end Steps

section Linked

variable {fn : Function} (hLinked : fn.IsLinked)
include hLinked

theorem lt_size_of_mem_below {u v : Visit} (hu : u.block < fn.blocks.size) (hv : v ∈ fn.below u) :
    v.block < fn.blocks.size :=
  hLinked.isWellFormed.lt_size ((hLinked.mem_dominees_iff hu).mp (mem_below hv).1).1

theorem walk_visits_induct {P : Visit → Prop} (hStart : fn.hasBody = true → P ⟨0, []⟩)
    (hBelow : ∀ u, u.block < fn.blocks.size → P u → ∀ v ∈ fn.below u, P v) :
    ∀ v ∈ fn.walk.visits, v.block < fn.blocks.size ∧ P v := by
  rw [walk]
  split
  case isTrue hBody =>
    apply visits_induct
    · rintro u ⟨hu, hP⟩ v hv
      exact ⟨lt_size_of_mem_below hLinked hu hv, hBelow u hu hP v hv⟩
    · intro v hv
      obtain rfl := List.mem_singleton.mp hv
      exact ⟨by simpa [hasBody] using hBody, hStart hBody⟩
  case isFalse => simp

theorem lt_size_of_mem_visits {v : Visit} (hv : v ∈ fn.walk.visits) : v.block < fn.blocks.size :=
  (walk_visits_induct hLinked (P := fun _ => True) (fun _ => trivial)
    (fun _ _ _ _ _ => trivial) v hv).1

theorem walk_complete : fn.walk.complete = true := by
  rw [walk]
  split
  case isTrue hBody =>
    apply walkFrom_complete hLinked.isWellFormed.hasMarks
    · exact fun u hu v hv => lt_size_of_mem_below hLinked hu hv
    · intro v hv
      obtain rfl := List.mem_singleton.mp hv
      simpa [hasBody] using hBody
  case isFalse => rfl

omit hLinked in
theorem eq_start_or_mem_below {v : Visit} (hv : v ∈ fn.walk.visits) :
    v = ⟨0, []⟩ ∨ ∃ u ∈ fn.walk.visits, v ∈ fn.below u := by
  rw [walk] at hv ⊢
  split at hv
  case isTrue hBody =>
    rw [if_pos hBody]
    exact (mem_visits v hv).imp_left List.mem_singleton.mp
  case isFalse => exact absurd hv List.not_mem_nil

/-- The entry is visited, and so is every block below a visit. -/
theorem exists_visit_of_below (hBody : fn.hasBody = true) {w : Visit}
    (hw : w = ⟨0, []⟩ ∨ ∃ u ∈ fn.walk.visits, w ∈ fn.below u) :
    ∃ v ∈ fn.walk.visits, v.block = w.block := by
  have hInside := fun v => lt_size_of_mem_visits hLinked (v := v)
  have hOwn {b : Nat} := hLinked.isWellFormed.markOf_eq (b := b)
  have hComplete := walk_complete hLinked
  have hPos : 0 < fn.blocks.size := by simpa [hasBody] using hBody
  have hLt : w.block < fn.blocks.size := by
    rcases hw with rfl | ⟨u, hu, hBelow⟩
    · exact hPos
    · exact lt_size_of_mem_below hLinked (hInside u hu) hBelow
  rw [walk, if_pos hBody] at hw hInside hComplete ⊢
  rcases exists_visit hComplete (hw.imp_left List.mem_singleton.mpr) with hMarked | ⟨v, hv, hMark⟩
  · rw [hOwn hLt, Marks.isFree_clear, decide_eq_false_iff_not] at hMarked
    exact absurd hLt hMarked
  · rw [hOwn hLt, hOwn (hInside v hv)] at hMark
    exact ⟨v, hv, hMark⟩

theorem reaches_of_mem_visits {v : Visit} (hv : v ∈ fn.walk.visits) : fn.Reaches v.block :=
  (walk_visits_induct hLinked (P := fun v => fn.Reaches v.block)
    (fun hBody => ⟨hBody, Reachable.zero⟩)
    (fun _ hu _ _ hv => ((hLinked.mem_dominees_iff hu).mp (mem_below hv).1).1) v hv).2

theorem block_ne_zero_of_mem_below {u v : Visit} (hu : u.block < fn.blocks.size)
    (hv : v ∈ fn.below u) : v.block ≠ 0 :=
  ((hLinked.mem_dominees_iff hu).mp (mem_below hv).1).2.ne_zero

/-- A block is below visits of its immediate dominator only. -/
theorem block_eq_of_mem_below {u u' v w : Visit} (hu : u.block < fn.blocks.size)
    (hu' : u'.block < fn.blocks.size) (hv : v ∈ fn.below u) (hw : w ∈ fn.below u')
    (hBlock : w.block = v.block) : u'.block = u.block := by
  obtain ⟨hReach, hIdom⟩ := (hLinked.mem_dominees_iff hu).mp (mem_below hv).1
  obtain ⟨-, hIdom'⟩ := (hLinked.mem_dominees_iff hu').mp (mem_below hw).1
  rw [hBlock] at hIdom'
  exact hIdom'.unique hReach.2 hIdom

theorem eq_of_mem_visits {v w : Visit} (hv : v ∈ fn.walk.visits) (hw : w ∈ fn.walk.visits)
    (hBlock : w.block = v.block) : w = v := by
  have hInside := fun v => lt_size_of_mem_visits hLinked (v := v)
  apply (walk_visits_induct hLinked (P := fun v => ∀ w ∈ fn.walk.visits, w.block = v.block → w = v)
    ?_ ?_ v hv).2 w hw hBlock
  · intro _ w hw hZero
    rcases eq_start_or_mem_below hw with rfl | ⟨u, hu, hBelow⟩
    · rfl
    · exact absurd hZero (block_ne_zero_of_mem_below hLinked (hInside u hu) hBelow)
  · intro u hu hUnique v hv w hw hBlock
    rcases eq_start_or_mem_below hw with rfl | ⟨u', hu', hBelow⟩
    · exact absurd hBlock.symm (block_ne_zero_of_mem_below hLinked hu hv)
    · have hParent := block_eq_of_mem_below hLinked hu (hInside u' hu') hv hBelow hBlock
      obtain rfl := hUnique u' hu' hParent
      exact eq_of_mem_below hBelow hv hBlock

/-- The visits are the one of the entry and all below a visit. -/
theorem mem_visits_iff {v : Visit} : v ∈ fn.walk.visits ↔
    (fn.hasBody = true ∧ v = ⟨0, []⟩) ∨ ∃ u ∈ fn.walk.visits, v ∈ fn.below u := by
  have hInside := fun v => lt_size_of_mem_visits hLinked (v := v)
  constructor
  · intro hv
    exact (eq_start_or_mem_below hv).imp_left fun hStart =>
      ⟨(reaches_of_mem_visits hLinked hv).1, hStart⟩
  · rintro (⟨hBody, rfl⟩ | ⟨u, hu, hv⟩)
    · obtain ⟨w, hw, hZero⟩ := exists_visit_of_below hLinked hBody (Or.inl rfl)
      rcases eq_start_or_mem_below hw with rfl | ⟨u, hu, hBelow⟩
      · exact hw
      · exact absurd hZero (block_ne_zero_of_mem_below hLinked (hInside u hu) hBelow)
    · obtain ⟨w, hw, hBlock⟩ :=
        exists_visit_of_below hLinked (reaches_of_mem_visits hLinked hu).1 (Or.inr ⟨u, hu, hv⟩)
      rcases eq_start_or_mem_below hw with rfl | ⟨u', hu', hBelow⟩
      · exact absurd hBlock.symm (block_ne_zero_of_mem_below hLinked (hInside u hu) hv)
      · have hParent :=
          block_eq_of_mem_below hLinked (hInside u hu) (hInside u' hu') hv hBelow hBlock
        obtain rfl := eq_of_mem_visits hLinked hu hu' hParent
        rwa [← eq_of_mem_below hBelow hv hBlock]

theorem nodup_blocks : (fn.walk.visits.map Visit.block).Nodup := by
  have hMarks : (fn.walk.visits.map (fn.markOf ·.block)).Nodup := by
    rw [walk]
    split
    case isTrue => exact nodup_marks.1
    case isFalse => simp
  rwa [List.map_congr_left fun v hv =>
    hLinked.isWellFormed.markOf_eq (lt_size_of_mem_visits hLinked hv)] at hMarks

end Linked

end Function

end NilGuard
