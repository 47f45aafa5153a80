import NilGuard.Nilness.Basic
/-! Valuations say of every value whether it is nil. Where the facts hold, what the
classifier says about a value is true of every valuation that respects the kinds. -/
namespace NilGuard

abbrev Valuation := Value → Bool

/-- Whether values of an origin are nil, if the origin decides it. -/
def Origin.isNil? : Origin → Option Bool
  | .alloc | .fieldAddr | .indexAddr | .freeVar | .funcRef | .global | .makeChan
  | .makeClosure | .makeInterface | .makeMap | .makeSlice => some false
  | .const true _ => some true
  | .const false _ | .other => none

/-- Whether the result of a conversion is nil, by whether the converted value is. -/
def Conversion.isNil (length : Int) (inner : Bool) : Conversion → Bool
  | .changeInterface | .slice => inner
  | .sliceToArrayPtr => if 0 < length then false else inner

/-- The value is nil or not as its kind dictates. -/
def Valuation.RespectsAt (s : Valuation) : Value → Prop
  | .leaf t o => ∀ n, o.isNil? = some n → s (.leaf t o) = n
  | .converted t c v => s (.converted t c v) = c.isNil t.length (s v)

def Valuation.Respects (s : Valuation) : Prop := ∀ v, s.RespectsAt v

/-- The valuation that respects the kinds and makes all other values nil or not by their
tags. -/
def Valuation.ofTags (isNil : Tag → Bool) : Valuation
  | .leaf t o => o.isNil?.getD (isNil t)
  | .converted t c v => c.isNil t.length (ofTags isNil v)

theorem Valuation.respects_ofTags (isNil : Tag → Bool) : (ofTags isNil).Respects := by
  intro v
  cases v with
  | leaf t o =>
      intro n hn
      rw [ofTags, hn]
      rfl
  | converted t c v => rfl

/-- Whether a value that is nil or not is as the nilness says. -/
def Nilness.admits : Nilness → Bool → Bool
  | .nil, isNil => isNil
  | .nonNil, isNil => !isNil
  | .unknown, _ => true

def Fact.HoldsIn (f : Fact) (s : Valuation) : Prop := f.nilness.admits (s f.value) = true

theorem Origin.isNil?_of_isNeverNil {o : Origin} (hNever : o.isNeverNil = true) :
    o.isNil? = some false := by
  cases o <;> first | rfl | exact Bool.noConfusion hNever

namespace Facts

variable {facts : Facts} {s : Valuation}

theorem lookup_admits (hFacts : ∀ f ∈ facts, f.HoldsIn s) (v : Value) :
    (facts.lookup v).admits (s v) = true := by
  rw [lookup]
  cases hFind : facts.find? (·.value = v) with
  | none => rfl
  | some f =>
      have hValue : f.value = v := by simpa using List.find?_some hFind
      have hHolds := hFacts f (List.mem_of_find?_eq_some hFind)
      rw [Fact.HoldsIn, hValue] at hHolds
      exact hHolds

/-- The classifier is sound for every set of values that contains the operand of each of
its conversions and on which the valuation respects the kinds. -/
theorem classify_admits {P : Value → Prop} (hInner : ∀ t c v, P (.converted t c v) → P v)
    (hRespects : ∀ v, P v → s.RespectsAt v) (hFacts : ∀ f ∈ facts, f.HoldsIn s) {v : Value}
    (hv : P v) : (facts.classify v).admits (s v) = true := by
  induction v with
  | leaf t o =>
      have hKind : ∀ n, o.isNil? = some n → s (.leaf t o) = n := hRespects _ hv
      unfold classify
      split
      case h_1 t isNil text hEq =>
        obtain ⟨rfl, rfl⟩ := Value.leaf.inj hEq
        cases isNil with
        | false => rfl
        | true => simp [Nilness.admits, hKind true rfl]
      case h_2 t o _ hEq =>
        obtain ⟨rfl, rfl⟩ := Value.leaf.inj hEq
        split
        case isTrue hNever =>
          simp [Nilness.admits, hKind false (Origin.isNil?_of_isNeverNil hNever)]
        case isFalse => exact lookup_admits hFacts _
      case h_3 hEq => cases hEq
      case h_4 hEq => cases hEq
  | converted t c v ih =>
      have hKind : s (.converted t c v) = c.isNil t.length (s v) := hRespects _ hv
      have hOperand := ih (hInner t c v hv)
      cases c with
      | sliceToArrayPtr =>
          simp only [classify]
          split
          case isTrue hLength =>
            have hFalse : s (.converted t .sliceToArrayPtr v) = false := by
              rw [hKind, Conversion.isNil, if_pos hLength]
            rw [hFalse]
            split <;> rfl
          case isFalse hLength =>
            rw [hKind, Conversion.isNil, if_neg hLength]
            exact hOperand
      | changeInterface =>
          simp only [classify]
          split
          case h_1 => exact lookup_admits hFacts _
          case h_2 =>
            rw [hKind]
            exact hOperand
      | slice =>
          simp only [classify]
          split
          case h_1 => exact lookup_admits hFacts _
          case h_2 =>
            rw [hKind]
            exact hOperand

end Facts

namespace Fact

variable {s : Valuation}

/-- What passes from an interface conversion to its operand holds of all values of a
chain. -/
theorem forall_mem_chain {Q : Value → Prop}
    (hInner : ∀ t v, Q (.converted t .changeInterface v) → Q v) {n : Nilness} {v : Value}
    (hv : Q v) : ∀ f ∈ chain n v, f.nilness = n ∧ Q f.value := by
  induction v with
  | leaf t o =>
      intro f hf
      obtain rfl := List.mem_singleton.mp hf
      exact ⟨rfl, hv⟩
  | converted t c v ih =>
      intro f hf
      cases c with
      | changeInterface =>
          rcases List.mem_cons.mp hf with rfl | hf
          · exact ⟨rfl, hv⟩
          · exact ih (hInner t v hv) f hf
      | slice =>
          obtain rfl := List.mem_singleton.mp hf
          exact ⟨rfl, hv⟩
      | sliceToArrayPtr =>
          obtain rfl := List.mem_singleton.mp hf
          exact ⟨rfl, hv⟩

/-- A chain holds as a whole where the valuation respects the kinds. -/
theorem holdsIn_chain {P : Value → Prop} (hInner : ∀ t c v, P (.converted t c v) → P v)
    (hRespects : ∀ v, P v → s.RespectsAt v) {n : Nilness} {v : Value} (hv : P v)
    (hHolds : n.admits (s v) = true) : ∀ f ∈ chain n v, f.HoldsIn s ∧ P f.value := by
  have hAll : ∀ f ∈ chain n v, f.nilness = n ∧ n.admits (s f.value) = true ∧ P f.value := by
    apply forall_mem_chain (Q := fun u => n.admits (s u) = true ∧ P u) ?_ ⟨hHolds, hv⟩
    rintro t u ⟨hAdmits, hOuter⟩
    have hKind : s (.converted t .changeInterface u) = s u := hRespects _ hOuter
    rw [hKind] at hAdmits
    exact ⟨hAdmits, hInner t _ u hOuter⟩
  intro f hf
  obtain ⟨hNilness, hAdmits, hValue⟩ := hAll f hf
  rw [← hNilness] at hAdmits
  exact ⟨hAdmits, hValue⟩

theorem map_negate_chain (n : Nilness) (v : Value) :
    (chain n v).map negate = chain n.negate v := by
  induction v with
  | leaf t o => rfl
  | converted t c v ih =>
      cases c with
      | changeInterface =>
          rw [chain, List.map_cons, ih]
          rfl
      | slice => rfl
      | sliceToArrayPtr => rfl

end Fact

end NilGuard
