import NilGuard.Proofs.Feasible
/-! Runs of functions in single-assignment form. In a loop a value is made again and again,
and may be nil one time and not nil the next. Facts stay true all the same: a run comes to
a block with a fact only after the fact was learned again. -/
namespace NilGuard

/-- The values that must be made before an instruction. What a loop brings back to its start
is read on the way in, so it does not count. -/
def Instr.uses (i : Instr) : List Value :=
  match i.op with
  | .call _ _ args => args.filterMap id
  | .binary _ operator left right =>
    if operator = "==" ∨ operator = "!=" then left.toList ++ right.toList else []
  | .branch condition => condition.toList
  | .define (.converted _ _ inner) _ => [inner]
  | _ => []

/-- An instruction that makes a conversion lists what it converts. -/
def Instr.listsInner (i : Instr) : Bool :=
  match i.op with
  | .define (.converted _ _ inner) operands => operands.contains (some inner)
  | .call (.converted ..) _ _ | .binary (.converted ..) _ _ _ => false
  | _ => true

/-- An instruction with its block and its place in it. -/
structure Site where
  block : Nat
  place : Nat
  instr : Instr
  deriving DecidableEq

namespace Function

section

variable (fn : Function)

def sites : List Site :=
  (List.range fn.blocks.size).flatMap fun b =>
    (fn.instrs b).zipIdx.map fun (i, k) => ⟨b, k, i⟩

/-- The values that a block makes. -/
def madeIn (b : Nat) : List Value :=
  (fn.sites.filter (·.block = b)).filterMap (·.instr.result?)

/-- Every value is made by one instruction at most, and conversions by one that converts
their operand. What is used is made before, in the same block or in one that dominates
it. -/
structure IsSingleAssignment : Prop where
  unique : ∀ p ∈ fn.sites, ∀ q ∈ fn.sites, p.instr.result? ≠ none →
    p.instr.result? = q.instr.result? → p = q
  converts : ∀ p ∈ fn.sites, p.instr.listsInner = true
  made : ∀ p ∈ fn.sites, ∀ v ∈ p.instr.uses, v.inner? ≠ none →
    ∃ q ∈ fn.sites, q.instr.result? = some v
  before : ∀ p ∈ fn.sites, ∀ v ∈ p.instr.uses, ∀ q ∈ fn.sites, q.instr.result? = some v →
    Dominates fn.Edge q.block p.block ∧ (q.block = p.block → q.place < p.place)

/-- Kinds that fix whether a value is nil always do. A conversion that is made in the block is
as nil as its operand lets it be. -/
structure Executes (z : Moment) : Prop where
  fixed : ∀ t o, z.isNil.RespectsAt (.leaf t o)
  conversions : ∀ v ∈ fn.madeIn z.block, z.isNil.RespectsAt v

/-- A run, the newest block first. A value changes only in the block that makes it, and a
branch goes by what its operation came to when it was last made. -/
inductive Run : List Moment → Prop where
  | start {s : Valuation} (body : fn.hasBody = true) (kinds : fn.Executes ⟨0, s⟩) : Run [⟨0, s⟩]
  | step {x y : Moment} {older : List Moment} (prior : Run (x :: older))
      (edge : fn.Edge x.block y.block)
      (branch : ∀ v op newer z oldest, fn.branchCondition? x.block = some v →
        fn.binaryOf? v = some op → x :: older = newer ++ z :: oldest →
        op.result ∈ fn.madeIn z.block → (∀ w ∈ newer, op.result ∉ fn.madeIn w.block) →
        op.Takes (fn.succs x.block) z.isNil y.block)
      (keeps : ∀ v, v ∉ fn.madeIn y.block → y.isNil v = x.isNil v)
      (kinds : fn.Executes y) : Run (y :: x :: older)

/-- The value and all that it is converted from are made in blocks that dominate the block.
Only a value that is no conversion need not be made at all. -/
def IsMadeAbove (b : Nat) : Value → Prop
  | .leaf t o => ∀ d, .leaf t o ∈ fn.madeIn d → Dominates fn.Edge d b
  | .converted t c v => (∃ d, .converted t c v ∈ fn.madeIn d) ∧
    (∀ d, .converted t c v ∈ fn.madeIn d → Dominates fn.Edge d b) ∧ IsMadeAbove b v

end

variable {fn : Function}

theorem mem_sites {b : Nat} {i : Instr} (hLt : b < fn.blocks.size) (hi : i ∈ fn.instrs b) :
    ∃ p ∈ fn.sites, p.block = b ∧ p.instr = i := by
  obtain ⟨k, hk⟩ := List.mem_iff_getElem?.mp hi
  refine ⟨⟨b, k, i⟩, List.mem_flatMap.mpr ⟨b, List.mem_range.mpr hLt, ?_⟩, rfl, rfl⟩
  exact List.mem_map.mpr ⟨(i, k), List.mk_mem_zipIdx_iff_getElem?.mpr hk, rfl⟩

theorem mem_madeIn {b : Nat} {v : Value} :
    v ∈ fn.madeIn b ↔ ∃ p ∈ fn.sites, p.block = b ∧ p.instr.result? = some v := by
  simp [madeIn, List.mem_filterMap, and_assoc]

namespace IsMadeAbove

variable {a b d : Nat} {v : Value}

theorem dominates (hv : fn.IsMadeAbove b v) (hMade : v ∈ fn.madeIn d) : Dominates fn.Edge d b := by
  cases v with
  | leaf t o => exact hv d hMade
  | converted t c v => exact hv.2.1 d hMade

theorem below (hv : fn.IsMadeAbove a v) (hDom : Dominates fn.Edge a b) : fn.IsMadeAbove b v := by
  induction v with
  | leaf t o => exact fun d hMade => (hv d hMade).trans hDom
  | converted t c v ih =>
      obtain ⟨hExists, hOwn, hInner⟩ := hv
      exact ⟨hExists, fun d hMade => (hOwn d hMade).trans hDom, ih hInner⟩

end IsMadeAbove

/-- The operation behind a comparison stands at some site. -/
theorem exists_binary {b : Nat} {c : Comparison} (h : fn.comparison? b = some c) :
    ∃ p ∈ fn.sites, p.instr.op = .binary c.result c.operator (some c.left) (some c.right) := by
  obtain ⟨condition, x, _, _, -, hBinary, -, rfl, -⟩ := comparison?_eq_some h
  obtain ⟨block, hBlock, i, hi, hEq⟩ := exists_instr_of_binaryOf? hBinary
  obtain ⟨d, hLt, rfl⟩ := Array.mem_iff_getElem.mp hBlock
  rw [← instrs_eq hLt] at hi
  obtain ⟨p, hp, -, rfl⟩ := mem_sites hLt hi
  refine ⟨p, hp, ?_⟩
  rw [Instr.binary?] at hEq
  split at hEq
  case h_1 result operator left right hOp =>
    obtain ⟨-, rfl, rfl, rfl, rfl⟩ := Binary.mk.inj (Option.some.inj hEq)
    exact hOp
  case h_2 => cases hEq

/-- The branch on a comparison tests its result. -/
theorem exists_branch {b : Nat} {c : Comparison} (hLt : b < fn.blocks.size)
    (h : fn.comparison? b = some c) :
    ∃ p ∈ fn.sites, p.block = b ∧ p.instr.op = .branch (some c.result) := by
  obtain ⟨condition, x, _, _, hCondition, hBinary, -, rfl, -⟩ := comparison?_eq_some h
  have hResult := (List.mem_filter.mp (List.mem_of_getLast? hBinary)).2
  rw [decide_eq_true_eq] at hResult
  rw [branchCondition?] at hCondition
  split at hCondition
  case h_1 location condition' hLast =>
    obtain ⟨p, hp, hBlock, hInstr⟩ := mem_sites hLt (List.mem_of_getLast? hLast)
    rw [hCondition, ← hResult] at hInstr
    exact ⟨p, hp, hBlock, by rw [hInstr]⟩
  case h_2 => cases hCondition

namespace IsSingleAssignment

variable (hSingle : fn.IsSingleAssignment)
include hSingle

theorem exists_uses_inner {d : Nat} {t : Tag} {c : Conversion} {v : Value}
    (hMade : .converted t c v ∈ fn.madeIn d) :
    ∃ p ∈ fn.sites, p.block = d ∧ v ∈ p.instr.uses := by
  obtain ⟨p, hp, hBlock, hResult⟩ := mem_madeIn.mp hMade
  have hConverts := hSingle.converts p hp
  refine ⟨p, hp, hBlock, ?_⟩
  rw [Instr.result?] at hResult
  rw [Instr.listsInner] at hConverts
  split at hResult
  case h_1 hOp =>
    cases hResult
    simp [Instr.uses, hOp]
  case h_2 hOp =>
    cases hResult
    simp [hOp] at hConverts
  case h_3 hOp =>
    cases hResult
    simp [hOp] at hConverts
  case h_4 => cases hResult

theorem eq_of_mem_madeIn {v : Value} {b d : Nat} (hb : v ∈ fn.madeIn b) (hd : v ∈ fn.madeIn d) :
    b = d := by
  obtain ⟨p, hp, rfl, hFirst⟩ := mem_madeIn.mp hb
  obtain ⟨q, hq, rfl, hSecond⟩ := mem_madeIn.mp hd
  rw [hSingle.unique p hp q hq (by simp [hFirst]) (hFirst.trans hSecond.symm)]

theorem dominates_of_uses {p : Site} (hp : p ∈ fn.sites) {v : Value} (hUses : v ∈ p.instr.uses)
    {d : Nat} (hMade : v ∈ fn.madeIn d) : Dominates fn.Edge d p.block := by
  obtain ⟨q, hq, rfl, hResult⟩ := mem_madeIn.mp hMade
  exact (hSingle.before p hp v hUses q hq hResult).1

theorem isMadeAbove_of_uses {p : Site} (hp : p ∈ fn.sites) {v : Value}
    (hUses : v ∈ p.instr.uses) : fn.IsMadeAbove p.block v := by
  induction v generalizing p with
  | leaf t o => exact fun d hMade => hSingle.dominates_of_uses hp hUses hMade
  | converted t c v ih =>
      obtain ⟨q, hq, hResult⟩ := hSingle.made p hp _ hUses (by simp [Value.inner?])
      have hMade := mem_madeIn.mpr ⟨q, hq, rfl, hResult⟩
      obtain ⟨r, hr, hBlock, hInner⟩ := hSingle.exists_uses_inner hMade
      refine ⟨⟨q.block, hMade⟩, fun d hd => hSingle.dominates_of_uses hp hUses hd, ?_⟩
      have hAbove := ih hr hInner
      rw [hBlock] at hAbove
      exact hAbove.below (hSingle.dominates_of_uses hp hUses hMade)

/-- Where a conversion is made, it and its operand are available. -/
theorem isMadeAbove_of_mem_madeIn {d : Nat} {t : Tag} {c : Conversion} {v : Value}
    (hMade : .converted t c v ∈ fn.madeIn d) :
    fn.IsMadeAbove d (.converted t c v) ∧ fn.IsMadeAbove d v := by
  obtain ⟨p, hp, rfl, hInner⟩ := hSingle.exists_uses_inner hMade
  have hAbove := hSingle.isMadeAbove_of_uses hp hInner
  refine ⟨⟨⟨p.block, hMade⟩, fun e he => ?_, hAbove⟩, hAbove⟩
  rw [hSingle.eq_of_mem_madeIn he hMade]
  exact Dominates.refl p.block

/-- A comparison is made in a block that dominates the branch on it, and its operands are made
above that block. -/
theorem exists_maker {b : Nat} {c : Comparison} (hLt : b < fn.blocks.size)
    (h : fn.comparison? b = some c) : ∃ d, c.result ∈ fn.madeIn d ∧ Dominates fn.Edge d b ∧
      fn.IsMadeAbove d c.left ∧ fn.IsMadeAbove d c.right := by
  obtain ⟨p, hp, hBinary⟩ := exists_binary h
  obtain ⟨q, hq, rfl, hBranch⟩ := exists_branch hLt h
  have hMade : c.result ∈ fn.madeIn p.block :=
    mem_madeIn.mpr ⟨p, hp, rfl, by simp [Instr.result?, hBinary]⟩
  have hTests : c.result ∈ q.instr.uses := by simp [Instr.uses, hBranch]
  have hCompares : p.instr.uses = [c.left, c.right] := by
    simp [Instr.uses, hBinary, operator_of_comparison h]
  exact ⟨p.block, hMade, hSingle.dominates_of_uses hq hTests hMade,
    hSingle.isMadeAbove_of_uses hp (by simp [hCompares]),
    hSingle.isMadeAbove_of_uses hp (by simp [hCompares])⟩

/-- The scope of a function in single-assignment form. -/
def scope (hLinked : fn.IsLinked) : fn.Scope where
  changes b v := v ∈ fn.madeIn b
  available := fn.IsMadeAbove
  inner hv := hv.2.2
  below := IsMadeAbove.below
  dominates := IsMadeAbove.dominates
  comparison hReach h := by
    obtain ⟨d, -, hDom, hLeft, hRight⟩ :=
      hSingle.exists_maker (hLinked.isWellFormed.lt_size hReach) h
    exact ⟨hLeft.below hDom, hRight.below hDom⟩
  call hReach hi hOp hv := by
    obtain ⟨p, hp, rfl, rfl⟩ := mem_sites (hLinked.isWellFormed.lt_size hReach) hi
    refine hSingle.isMadeAbove_of_uses hp ?_
    simpa [Instr.uses, hOp] using hv

end IsSingleAssignment

namespace Run

variable (hLinked : fn.IsLinked) (hSingle : fn.IsSingleAssignment)

/-- A conversion that is available is as nil as its kind dictates: it was when it was made,
and neither it nor its operand has been made again since. -/
theorem respectsAt {x y : Moment} {older : List Moment}
    (history : fn.History (hSingle.scope hLinked) (x :: older)) (edge : fn.Edge x.block y.block)
    (keeps : ∀ v, v ∉ fn.madeIn y.block → y.isNil v = x.isNil v) (kinds : fn.Executes y)
    {v : Value} (hv : fn.IsMadeAbove y.block v) : y.isNil.RespectsAt v := by
  cases v with
  | leaf t o => exact kinds.fixed t o
  | converted t c v =>
      obtain ⟨⟨d, hMade⟩, hOwn, -⟩ := hv
      by_cases hEq : y.block = d
      · exact kinds.conversions _ (hEq ▸ hMade)
      · -- made in a block strictly above, so the block before is below that one too
        have hDom := hOwn d hMade
        obtain ⟨hOuter, hInner⟩ := hSingle.isMadeAbove_of_mem_madeIn hMade
        have hKeeps : ∀ u, fn.IsMadeAbove d u → y.isNil u = x.isNil u := by
          intro u hu
          exact keeps u ((hSingle.scope hLinked).not_changes hu hDom hEq
            (history.reaches.2.step edge))
        have hBefore : x.isNil.RespectsAt (.converted t c v) :=
          history.respectsAt (hOuter.below (hDom.of_edge (Ne.symm hEq) edge))
        rw [Valuation.RespectsAt, hKeeps _ hOuter, hKeeps v hInner]
        exact hBefore

/-- The operands of a comparison have not been made again since the comparison was, so a
branch goes by what they are when it is taken. -/
theorem leads {x : Moment} {older : List Moment}
    (history : fn.History (hSingle.scope hLinked) (x :: older)) {b : Nat} {c : Comparison}
    (hComparison : fn.comparison? x.block = some c)
    (branch : ∀ newer z oldest, x :: older = newer ++ z :: oldest →
      c.result ∈ fn.madeIn z.block → (∀ w ∈ newer, c.result ∉ fn.madeIn w.block) →
        c.Leads z.isNil b) : c.Leads x.isNil b := by
  have hLt := hLinked.isWellFormed.lt_size history.reaches
  obtain ⟨d, hMade, hDom, hLeft, hRight⟩ := hSingle.exists_maker hLt hComparison
  have hMem : d ∈ (x :: older).map Moment.block := hDom _ history.route
  obtain ⟨newer, z, oldest, hSplit, rfl, hNewer⟩ := Moment.exists_last hMem
  have hLeads := branch newer z oldest hSplit hMade fun w hw hAgain =>
    hNewer w hw (hSingle.eq_of_mem_madeIn hAgain hMade)
  rw [Comparison.Leads, history.isNil_eq hSplit hNewer hDom hLeft,
    history.isNil_eq hSplit hNewer hDom hRight]
  exact hLeads

theorem history {h : List Moment} (run : fn.Run h) : fn.History (hSingle.scope hLinked) h := by
  induction run with
  | @start s body kinds =>
      refine History.start body fun v hv => ?_
      cases v with
      | leaf t o => exact kinds.fixed t o
      | converted t c v =>
          obtain ⟨⟨d, hMade⟩, hOwn, -⟩ := hv
          obtain rfl := (hOwn d hMade).eq_zero
          exact kinds.conversions _ hMade
  | step prior edge branch keeps kinds ih =>
      refine History.step ih edge ?_ keeps fun v hv => ?_
      · intro c hComparison
        obtain ⟨v, op, _, _, hCondition, hBinary, -, rfl, -⟩ := comparison?_eq_some hComparison
        refine leads hLinked hSingle ih hComparison fun newer z oldest hSplit hMade hNewer => ?_
        rw [← takes_iff_leads hCondition hBinary hComparison]
        exact branch v _ newer z oldest hCondition hBinary hSplit hMade hNewer
      · exact respectsAt hLinked hSingle ih edge keeps kinds hv

/-- A branch on a comparison that its own block makes goes by the operands as they are. -/
theorem step_here {x y : Moment} {older : List Moment} (prior : fn.Run (x :: older))
    (edge : fn.Edge x.block y.block) (hHere : ∀ c ∈ fn.comparison? x.block,
      c.result ∈ fn.madeIn x.block ∧ c.Leads x.isNil y.block)
    (keeps : ∀ v, v ∉ fn.madeIn y.block → y.isNil v = x.isNil v) (kinds : fn.Executes y) :
    fn.Run (y :: x :: older) := by
  refine Run.step prior edge ?_ keeps kinds
  intro v op newer z oldest hCondition hBinary hSplit _ hNewer
  rw [takes_iff hCondition hBinary edge]
  intro c hComparison
  obtain rfl := eq_of_comparison? hCondition hBinary hComparison
  obtain ⟨hMade, hLeads⟩ := hHere c hComparison
  cases newer with
  | nil =>
      obtain ⟨rfl, -⟩ := List.cons.inj hSplit
      exact hLeads
  | cons w newer =>
      obtain ⟨rfl, -⟩ := List.cons.inj hSplit
      exact absurd hMade (hNewer x List.mem_cons_self)

end Run

/-- Facts stay true across the iterations of a loop. Wherever a run is, the block is visited;
the facts of the visit are true when it is left, and were true when it was entered; and
every finding in the block is right. -/
theorem facts_hold_throughout_runs (fn : Function) (hLinked : fn.IsLinked)
    (hSingle : fn.IsSingleAssignment) (h : List Moment) (hRun : fn.Run h) :
    ∀ newer z older, h = newer ++ z :: older →
      (∃ v ∈ fn.walk.visits, v.block = z.block) ∧
      (∀ v ∈ fn.walk.visits, v.block = z.block → ∀ f ∈ v.facts,
        f.HoldsIn z.isNil ∧ ∀ x ∈ older.head?, f.HoldsIn x.isNil) ∧
      ∀ settings, ∀ f ∈ fn.located settings, f.block = z.block → f.HoldsIn z.isNil := by
  rintro newer z older rfl
  have history := (hRun.history hLinked hSingle).of_append
  have hCovered := history.isCovered hLinked z List.mem_cons_self
  refine ⟨hCovered.visited, fun v hv hBlock f hf => ?_, fun settings f hf hBlock =>
    history.holdsIn_of_located hLinked hf hBlock⟩
  have hHolds := hCovered.facts v hv hBlock f hf
  refine ⟨hHolds, fun x hx => ?_⟩
  obtain ⟨oldest, rfl⟩ := List.head?_eq_some_iff.mp hx
  exact history.holdsIn_on_entry hLinked hv hBlock hf hHolds

section GuardedLoop

/-- The value of the loop and its conversion as given; apart from them only nil is nil. -/
def loopState (value wrapped : Bool) : Valuation := fun v =>
  if v = loopValue then value
  else if v = loopWrapped then wrapped
  else Valuation.ofTags (fun _ => false) v

theorem isSingleAssignment_guardedLoop : guardedLoop.IsSingleAssignment := by
  constructor
  case unique => decide
  case converts => decide
  case made => decide
  case before =>
    have hNear : ∀ p ∈ guardedLoop.sites, ∀ v ∈ p.instr.uses, ∀ q ∈ guardedLoop.sites,
        q.instr.result? = some v → (q.block = p.block ∧ q.place < p.place) ∨
          (q.block ≠ p.block ∧ q.block < 5 ∧ p.block ∈ guardedLoop.dominees q.block) := by decide
    intro p hp v hUses q hq hResult
    rcases hNear p hp v hUses q hq hResult with ⟨hSame, hPlace⟩ | ⟨hNe, hLt, hMem⟩
    · exact ⟨hSame ▸ Dominates.refl _, fun _ => hPlace⟩
    · have hIdom := (isLinked_guardedLoop.mem_dominees_iff hLt).mp hMem
      exact ⟨hIdom.2.1.2, fun hEq => absurd hEq hNe⟩

theorem loopState_eq {value value' wrapped wrapped' : Bool} {v : Value}
    (hValue : v = loopValue → value = value') (hWrapped : v = loopWrapped → wrapped = wrapped') :
    loopState value wrapped v = loopState value' wrapped' v := by
  rw [loopState, loopState]
  split
  case isTrue hEq => exact hValue hEq
  case isFalse =>
    split
    case isTrue hEq => exact hWrapped hEq
    case isFalse => rfl

theorem executes_loopState {b : Nat} (hb : b < 5) {value wrapped : Bool}
    (hSame : b = 2 → wrapped = value) :
    guardedLoop.Executes ⟨b, loopState value wrapped⟩ := by
  have hFixed : ∀ t o, (loopState value wrapped).RespectsAt (.leaf t o) := by
    intro t o n hn
    by_cases hEq : Value.leaf t o = loopValue
    · cases hEq
      cases hn
    · rw [loopState, if_neg hEq, if_neg (by simp [loopWrapped]), Valuation.ofTags, hn]
      rfl
  refine ⟨hFixed, fun v hv => ?_⟩
  have hMade : ∀ b < 5, ∀ v ∈ guardedLoop.madeIn b, v.inner? ≠ none →
      b = 2 ∧ v = loopWrapped := by decide
  cases v with
  | leaf t o => exact hFixed t o
  | converted t c v =>
      obtain ⟨hTwo, hEq⟩ := hMade b hb _ hv (by simp [Value.inner?])
      cases hEq
      simp [Valuation.RespectsAt, loopState, Conversion.isNil, hSame hTwo, loopValue, loopWrapped]

theorem step_loopState {b d : Nat} {value value' wrapped wrapped' : Bool} {older : List Moment}
    (prior : guardedLoop.Run (⟨b, loopState value wrapped⟩ :: older))
    (edge : d ∈ guardedLoop.succs b) (hHere : ∀ c ∈ guardedLoop.comparison? b,
      c.result ∈ guardedLoop.madeIn b ∧ c.Leads (loopState value wrapped) d)
    (hValue : value' = value ∨ d = 1) (hWrapped : wrapped' = wrapped ∨ d = 2) (hd : d < 5)
    (hSame : d = 2 → wrapped' = value') :
    guardedLoop.Run (⟨d, loopState value' wrapped'⟩ :: ⟨b, loopState value wrapped⟩ :: older) := by
  refine prior.step_here edge hHere (fun v hv => loopState_eq ?_ ?_) (executes_loopState hd hSame)
  · rintro rfl
    have hMade : loopValue ∈ guardedLoop.madeIn 1 := by decide
    exact hValue.resolve_right fun hOne => hv (hOne ▸ hMade)
  · rintro rfl
    have hMade : loopWrapped ∈ guardedLoop.madeIn 2 := by decide
    exact hWrapped.resolve_right fun hTwo => hv (hTwo ▸ hMade)

/-- The value is nil the first time around the loop and not nil the second time, when its old
conversion is still there. -/
theorem run_guardedLoop : guardedLoop.Run
    [⟨3, loopState false true⟩, ⟨1, loopState false true⟩, ⟨2, loopState true true⟩,
      ⟨1, loopState true false⟩, ⟨0, loopState false false⟩] := by
  have hEnter : guardedLoop.Run [⟨0, loopState false false⟩] :=
    Run.start (by decide) (executes_loopState (by decide) (by decide))
  have hFirst : guardedLoop.Run [⟨1, loopState true false⟩, ⟨0, loopState false false⟩] :=
    step_loopState hEnter (by decide) (by decide) (by decide) (by decide) (by decide) (by decide)
  have hPassed : guardedLoop.Run [⟨2, loopState true true⟩, ⟨1, loopState true false⟩,
      ⟨0, loopState false false⟩] :=
    step_loopState hFirst (by decide) (by decide) (by decide) (by decide) (by decide) (by decide)
  have hSecond : guardedLoop.Run [⟨1, loopState false true⟩, ⟨2, loopState true true⟩,
      ⟨1, loopState true false⟩, ⟨0, loopState false false⟩] :=
    step_loopState hPassed (by decide) (by decide) (by decide) (by decide) (by decide) (by decide)
  exact step_loopState hSecond (by decide) (by decide) (by decide) (by decide) (by decide)
    (by decide)

theorem facts_hold_throughout_runs_guardedLoop :
    guardedLoop.IsLinked ∧ guardedLoop.IsSingleAssignment ∧
      guardedLoop.Run [⟨3, loopState false true⟩, ⟨1, loopState false true⟩,
        ⟨2, loopState true true⟩, ⟨1, loopState true false⟩, ⟨0, loopState false false⟩] ∧
      (∃ v ∈ guardedLoop.walk.visits, v.block = 3 ∧
        ∀ f ∈ v.facts, f.HoldsIn (loopState false true)) ∧
      guardedFinding ∈ guardedLoop.located (.ofTargets [guardedTarget] true) ∧
      ∀ f ∈ guardedLoop.located (.ofTargets [guardedTarget] true), f.block = 2 →
        f.HoldsIn (loopState true true) := by
  refine ⟨isLinked_guardedLoop, isSingleAssignment_guardedLoop, run_guardedLoop, ?_,
    guardedFinding_mem_located, ?_⟩
  · obtain ⟨⟨v, hv, hBlock⟩, hFacts, -⟩ := facts_hold_throughout_runs _ isLinked_guardedLoop
      isSingleAssignment_guardedLoop _ run_guardedLoop [] _ _ rfl
    exact ⟨v, hv, hBlock, fun f hf => (hFacts v hv hBlock f hf).1⟩
  · exact (facts_hold_throughout_runs _ isLinked_guardedLoop isSingleAssignment_guardedLoop _
      run_guardedLoop [_, _] _ _ rfl).2.2 _

end GuardedLoop

end Function

end NilGuard
