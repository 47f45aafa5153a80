import NilGuard.Proofs.Copy
import NilGuard.Proofs.Evaluation
/-! What the loading of a body comes to: blocks that stand at their indices, with edges that
stay inside, two of them for a block that ends in a branch, and instructions that have all
their operands. Linking keeps all of it. -/
namespace NilGuard

namespace Dump

/-- A block among so many stands at its place, and its edges and instructions are sound. -/
structure IsPlaced (count place : Nat) (b : Block) : Prop where
  index : b.index = place
  inside : ∀ c ∈ b.succs, c < count
  filled : AreFilled b.instrs

/-- So many blocks are placed, and as many as are said have been filled and checked. -/
structure IsLaidOut (count checked : Nat) (blocks : Array Block) : Prop where
  size : blocks.size = count
  placed : ∀ i b, blocks[i]? = some b → IsPlaced count i b
  branches : ∀ i b, i < checked → blocks[i]? = some b → endsInBranch b = true →
    b.succs.length = 2

variable {count checked : Nat} {fns : List Function} {cx : Context}

theorem isLaidOut_push {blocks : Array Block} {index : Int} (h : IsLaidOut count 0 blocks)
    (hIndex : index = count) : IsLaidOut (count + 1) 0 (blocks.push { index }) := by
  refine ⟨by rw [Array.size_push, h.size], fun i b hb => ?_, fun i b hi => by omega⟩
  rw [Array.getElem?_push, h.size] at hb
  split at hb
  case isTrue hi =>
    cases hb
    exact ⟨by rw [hIndex, hi], by simp, by simp [AreFilled]⟩
  case isFalse =>
    obtain ⟨hIndex, hInside, hFilled⟩ := h.placed i b hb
    exact ⟨hIndex, fun c hc => Nat.lt_succ_of_lt (hInside c hc), hFilled⟩

theorem isLaidOut_modify {blocks : Array Block} {place : Nat} {f : Block → Block}
    (h : IsLaidOut count checked blocks) (hPlace : checked ≤ place)
    (hf : ∀ b, IsPlaced count place b → IsPlaced count place (f b)) :
    IsLaidOut count checked (blocks.modify place f) := by
  refine ⟨by rw [Array.size_modify, h.size], fun i b hb => ?_, fun i b hi hb => ?_⟩
  · rw [Array.getElem?_modify] at hb
    split at hb
    case isTrue hSame =>
      obtain ⟨c, hc, rfl⟩ := Option.map_eq_some_iff.mp hb
      exact hSame ▸ hf c (hSame ▸ h.placed i c hc)
    case isFalse => exact h.placed i b hb
  · rw [Array.getElem?_modify, if_neg (by omega)] at hb
    exact h.branches i b hi hb

theorem isLaidOut_succ {blocks : Array Block} (h : IsLaidOut count checked blocks)
    (hBranch : ∀ b, blocks[checked]? = some b → endsInBranch b = true → b.succs.length = 2) :
    IsLaidOut count (checked + 1) blocks := by
  refine { h with branches := fun i b hi hb hEnd => ?_ }
  rcases Nat.lt_succ_iff_lt_or_eq.mp hi with hi | rfl
  · exact h.branches i b hi hb hEnd
  · exact hBranch b hb hEnd

theorem ensures_makeBlocks (last : Int) (place : Nat) (forms : List (Int × Form)) :
    Ensures (Body.IsSound (IsLaidOut place 0) fns) (makeBlocks cx last place forms) fun _ =>
      Body.IsSound (IsLaidOut (place + forms.length) 0) fns := by
  induction forms generalizing place with
  | nil =>
      rintro body _ _ hBody ⟨⟩
      exact hBody
  | cons form forms ih =>
      obtain ⟨index, form⟩ := form
      have hRest := ih (place + 1)
      rw [Nat.add_assoc, Nat.add_comm 1] at hRest
      rw [makeBlocks]
      split
      case isTrue => exact ensures_refuse_bind _ _
      case isFalse hIndex =>
        refine (ensures_modify fun body hBody => ?_).bind fun _ => hRest
        exact { hBody with blocks := isLaidOut_push hBody.blocks (Decidable.not_not.mp hIndex) }

theorem keeps_modifyBlock {place : Nat} {f : Block → Block} (hPlace : checked ≤ place)
    (hf : ∀ b, IsPlaced count place b → IsPlaced count place (f b)) :
    Keeps (Body.IsSound (IsLaidOut count checked) fns) (modifyBlock place f) fun _ => True :=
  keeps_modify fun _ hBody => { hBody with blocks := isLaidOut_modify hBody.blocks hPlace hf }

theorem keeps_addSuccessors (place : Nat) (blockForm : Form) (items : List Form) :
    Keeps (Body.IsSound (IsLaidOut count 0) fns) (addSuccessors cx place blockForm items)
      fun _ => True := by
  induction items with
  | nil => exact keeps_pure trivial
  | cons item items ih =>
      rw [addSuccessors]
      refine keeps_get.bind fun body hBody => ?_
      dsimp only
      split
      case h_1 s _ =>
        split
        case isTrue hInside =>
          refine (keeps_modifyBlock (Nat.zero_le _) fun b hb => ?_).bind fun _ _ => ih
          refine { hb with inside := fun c hc => ?_ }
          rcases List.mem_append.mp hc with hc | hc
          · exact hb.inside c hc
          · have hSize := hBody.blocks.size
            have hc := List.mem_singleton.mp hc
            omega
        case isFalse => exact ensures_refuse_bind _ _
      case h_2 => exact ensures_refuse_bind _ _

theorem keeps_readHeader (place : Nat) (blockForm : Form) (items : List Form) :
    Keeps (Body.IsSound (IsLaidOut count 0) fns) (readHeader cx place blockForm items)
      fun _ => True := by
  induction items with
  | nil => exact keeps_pure trivial
  | cons item items ih =>
      rw [readHeader]
      split
      case h_1 =>
        refine (keeps_modifyBlock (Nat.zero_le _) fun b hb => ?_).bind fun _ _ => ih
        exact { hb with }
      case h_2 =>
        split
        case isTrue => exact (keeps_addSuccessors _ _ _).bind fun _ _ => ih
        case isFalse => exact ih.bind fun _ _ => keeps_pure trivial

theorem keeps_declareLet {I : Body → Prop} (stmt : Form) :
    Keeps I (declareLet cx stmt) fun _ => True := by
  unfold declareLet
  split
  case h_1 =>
    split
    case h_1 =>
      refine keeps_get.bind fun body _ => ?_
      split
      case isTrue => exact keeps_refuse _ _
      case isFalse => exact keeps_pure trivial
    case h_2 => exact keeps_refuse _ _
  case h_2 => exact keeps_refuse _ _

theorem keeps_readHeaders (place : Nat) (forms : List (Int × Form)) :
    Keeps (Body.IsSound (IsLaidOut count 0) fns) (readHeaders cx place forms) fun r =>
      r.2.length = forms.length := by
  induction forms generalizing cx place with
  | nil => exact keeps_pure rfl
  | cons form forms ih =>
      obtain ⟨index, form⟩ := form
      rw [readHeaders]
      refine (keeps_readHeader _ _ _).bind fun stmts _ => ?_
      refine (keeps_foldlM (fun _ _ _ => keeps_declareLet _) _).bind fun cx' _ => ?_
      exact (ih (place + 1)).bind fun r hr => keeps_pure (congrArg (· + 1) hr)

theorem keeps_evalStatements (place : Nat) (stmts : List Form) :
    Keeps (Body.IsSound (IsLaidOut count place) fns) (evalStatements cx place stmts)
      fun _ => True := by
  induction stmts with
  | nil => exact keeps_pure trivial
  | cons stmt stmts ih =>
      rw [evalStatements]
      refine (keeps_evalStatement stmt).bind fun instrs hInstrs => ?_
      refine (keeps_modifyBlock (Nat.le_refl _) fun b hb => ?_).bind fun _ _ => ih
      exact { hb with filled := areFilled_append hb.filled hInstrs }

theorem ensures_fillBlocks (place : Nat) (bodies : List (List Form)) :
    Ensures (Body.IsSound (IsLaidOut count place) fns) (fillBlocks cx place bodies) fun _ =>
      Body.IsSound (IsLaidOut count (place + bodies.length)) fns := by
  induction bodies generalizing place with
  | nil =>
      rintro body _ _ hBody ⟨⟩
      exact hBody
  | cons stmts bodies ih =>
      -- the branch is looked at once its block is filled, and later blocks leave it alone
      have hRest := ih (place + 1)
      rw [Nat.add_assoc, Nat.add_comm 1] at hRest
      rw [fillBlocks]
      refine (keeps_evalStatements place stmts).seq fun _ _ => ?_
      refine ensures_get.bind fun body => ?_
      dsimp only
      split
      case h_1 b hb =>
        split
        case isTrue => exact ensures_refuse_bind _ _
        case isFalse hTwo =>
          refine hRest.weaken fun t ht => { ht.2 with blocks := isLaidOut_succ ht.2.blocks ?_ }
          intro c hc hEnd
          rw [← ht.1, hb] at hc
          cases hc
          simpa [hEnd] using hTwo
      case h_2 hNone =>
        refine hRest.weaken fun t ht => { ht.2 with blocks := isLaidOut_succ ht.2.blocks ?_ }
        intro c hc
        rw [← ht.1, hNone] at hc
        cases hc

theorem keeps_settlePhi {B : Array Block → Prop} {phi : Phi} (hPhi : phi.value.inner? = none) :
    Keeps (Body.IsSound B fns) (settlePhi cx phi) fun _ => True := by
  have hLookup : IsSoundResolver B fns cx.lookup := isSoundResolver_resolve _ _
  refine (keeps_evalAll (isSoundOperand_evalOperands hLookup phi.operands) phi.form).bind
    fun r _ => keeps_modify fun body hBody => ?_
  refine { hBody with settled := fun s hs => ?_ }
  rcases List.mem_append.mp hs with hs | hs
  · exact hBody.settled s hs
  · exact List.mem_singleton.mp hs ▸ hPhi

theorem keeps_settlePhis {B : Array Block → Prop} (depth : Nat) :
    Keeps (Body.IsSound B fns) (settlePhis cx depth) fun _ => True := by
  induction depth with
  | zero => exact keeps_pure trivial
  | succ depth ih =>
      rw [settlePhis]
      refine keeps_get.bind fun body hBody => ?_
      dsimp only
      split
      case isTrue => exact keeps_pure trivial
      case isFalse =>
        -- phis met on the way wait for the next round
        refine (keeps_modify fun t ht => { ht with waiting := by simp }).bind fun _ _ => ?_
        exact (keeps_forM fun phi hPhi => keeps_settlePhi (hBody.waiting phi hPhi)).bind
          fun _ _ => ih

theorem keeps_sortBlocks {I : Body → Prop} (forms : List Form) :
    Keeps I (sortBlocks cx forms) fun _ => True := by
  refine (keeps_mapM fun form _ => ?_).bind fun _ _ => keeps_pure trivial
  refine Keeps.bind (Q := fun _ => True) ?_ fun _ _ => keeps_pure trivial
  unfold blockIndex
  split
  case h_1 => exact keeps_pure trivial
  case h_2 => exact keeps_refuse _ _

/-- All blocks of a body that is loaded are placed and checked. -/
theorem ensures_loadBlocks (fn : Function) (forms : List Form) :
    Ensures (Body.IsSound (IsLaidOut 0 0) fns) (loadBlocks fn forms) fun _ =>
      Body.IsSound (fun blocks => IsLaidOut blocks.size blocks.size blocks) fns := by
  unfold loadBlocks
  dsimp only
  refine (ensures_modify fun body hBody => ({ hBody with } : Body.IsSound _ _ _)).bind fun _ => ?_
  refine (keeps_sortBlocks forms).seq fun sorted _ => ?_
  refine (ensures_makeBlocks _ 0 sorted).bind fun _ => ?_
  refine (keeps_readHeaders 0 sorted).seq fun ⟨cx, bodies⟩ hBodies => ?_
  refine (ensures_fillBlocks 0 bodies).bind fun _ => ?_
  refine keeps_get.seq fun body _ => ?_
  refine Ensures.mono (keeps_settlePhis _) fun _ t h => { h.1 with blocks := ?_ }
  have hSize : t.blocks.size = 0 + bodies.length := by rw [h.1.blocks.size, hBodies]
  rw [hSize]
  exact hBodies ▸ h.1.blocks

theorem endsInBranch_fillPhi (settled : List (Value × List Value)) (b : Block) :
    endsInBranch { b with instrs := b.instrs.map (fillPhi settled) } = endsInBranch b := by
  simp only [endsInBranch, List.getLast?_map]
  cases b.instrs.getLast? with
  | none => rfl
  | some i =>
      obtain ⟨location, op⟩ := i
      cases op with
      | define v operands =>
          simp only [Option.map_some, fillPhi]
          cases settled.lookup v <;> rfl
      | _ => rfl

theorem isFilled_fillPhi {settled : List (Value × List Value)} {i : Instr}
    (hSettled : ∀ s ∈ settled, s.1.inner? = none) (hi : i.op.IsFilled) :
    (fillPhi settled i).op.IsFilled := by
  unfold fillPhi
  split
  case h_1 v operands hOp =>
    split
    case h_1 values hLookup =>
      obtain ⟨before, after, hEntries, -⟩ := List.lookup_eq_some_iff.mp hLookup
      have hv : v.inner? = none := hSettled (v, values) (by rw [hEntries]; simp)
      exact isFilled_define_of_leaf hv isSome_of_mem_map_some
    case h_2 => exact hi
  case h_2 => exact hi

theorem isLaidOut_finished {body : Body} (h : IsLaidOut count checked body.blocks)
    (hSettled : ∀ s ∈ body.settled, s.1.inner? = none) :
    IsLaidOut count checked body.finished := by
  refine ⟨by rw [Body.finished, Array.size_map, h.size], fun i b hb => ?_, fun i b hi hb => ?_⟩
  all_goals
    rw [Body.finished, Array.getElem?_map] at hb
    obtain ⟨c, hc, rfl⟩ := Option.map_eq_some_iff.mp hb
  · have hPlaced := h.placed i c hc
    refine { hPlaced with filled := fun j hj => ?_ }
    obtain ⟨k, hk, rfl⟩ := List.mem_map.mp hj
    exact isFilled_fillPhi hSettled (hPlaced.filled k hk)
  · rw [endsInBranch_fillPhi]
    exact h.branches i c hi hc

end Dump

namespace Function

/-- What loading makes of a function: it is linked, a block that ends in a branch has two
successors, and no operand is open. -/
structure IsSound (fn : Function) : Prop where
  linked : fn.IsLinked
  branches : ∀ b < fn.blocks.size, ∀ location condition,
    (fn.instrs b).getLast? = some ⟨location, .branch condition⟩ → (fn.succs b).length = 2
  filled : ∀ b < fn.blocks.size, ∀ i ∈ fn.instrs b, i.op.IsFilled

section LaidOut

variable {fn : Function} (h : Dump.IsLaidOut fn.blocks.size fn.blocks.size fn.blocks)
include h

theorem exists_placed {b : Nat} (hLt : b < fn.blocks.size) : ∃ block,
    fn.blocks[b]? = some block ∧ fn.block? b = some block ∧
      Dump.IsPlaced fn.blocks.size b block := by
  have hb : fn.blocks[b]? = some fn.blocks[b] := by simp [hLt]
  exact ⟨fn.blocks[b], hb, (block?_of_lt hLt).trans hb, h.placed b _ hb⟩

theorem isWellFormed_of_isLaidOut : fn.IsWellFormed := by
  constructor
  · intro b hLt
    obtain ⟨block, -, hBlock, hPlaced⟩ := exists_placed h hLt
    rw [indexAt, hBlock]
    exact hPlaced.index
  · intro b hLt
    obtain ⟨block, -, hBlock, hPlaced⟩ := exists_placed h hLt
    rw [succs, hBlock]
    exact hPlaced.inside

/-- Linking keeps what the blocks have. -/
theorem isSound_link : fn.link.1.IsSound := by
  have hSame := hasSameCode_link fn
  refine ⟨(isWellFormed_of_isLaidOut h).isLinked_link, ?_, ?_⟩
  · rw [hSame.size, hSame.instrs, hSame.succs]
    intro b hLt location condition hLast
    obtain ⟨block, hb, hBlock, -⟩ := exists_placed h hLt
    rw [instrs, hBlock] at hLast
    rw [succs, hBlock]
    refine h.branches b block hLt hb ?_
    rw [Dump.endsInBranch, show block.instrs.getLast? = _ from hLast]
  · rw [hSame.size, hSame.instrs]
    intro b hLt
    obtain ⟨block, -, hBlock, hPlaced⟩ := exists_placed h hLt
    rw [instrs, hBlock]
    exact hPlaced.filled

end LaidOut

/-- A function that is only declared needs no linking. -/
theorem isSound_of_empty {fn : Function} (hBlocks : fn.blocks = #[]) (hRemoved : fn.removed = []) :
    fn.IsSound := by
  have hLaid : Dump.IsLaidOut fn.blocks.size fn.blocks.size fn.blocks := by
    rw [hBlocks]
    exact ⟨rfl, by simp, by simp⟩
  have hLink : fn.link.1 = fn := by
    rw [link_eq (isWellFormed_of_isLaidOut hLaid)]
    cases fn with
    | mk callee location params freeVars blocks removed =>
        cases hBlocks
        cases hRemoved
        simp [withPreds, withTree]
  exact hLink ▸ isSound_link hLaid

end Function

end NilGuard
