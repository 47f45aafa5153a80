import NilGuard.Proofs.Valuation
/-! What a comparison teaches about a value is recalled in every form of the value: under
its interface conversions, and through interface conversions and slices of these. Values
that have no part in common with it are classified as before. -/
namespace NilGuard

namespace Value

/-- Taking off conversions, all of the given sorts, leads from the first value to the
second. -/
inductive UnwrapsTo (through : List Conversion) : Value → Value → Prop where
  | refl (v : Value) : UnwrapsTo through v v
  | step {t : Tag} {c : Conversion} {v w : Value} (link : c ∈ through)
      (rest : UnwrapsTo through v w) : UnwrapsTo through (.converted t c v) w

theorem UnwrapsTo.trans {through : List Conversion} {u v w : Value}
    (first : UnwrapsTo through u v) (second : UnwrapsTo through v w) : UnwrapsTo through u w := by
  induction first with
  | refl => exact second
  | step link rest ih => exact .step link (ih second)

/-- The value and the operands of its conversions, the outermost first. -/
def layers : Value → List Value
  | .leaf t o => [.leaf t o]
  | .converted t c v => .converted t c v :: v.layers

theorem sizeOf_le_of_mem_layers {v w : Value} (hMem : w ∈ v.layers) : sizeOf w ≤ sizeOf v := by
  induction v with
  | leaf t o =>
      obtain rfl := List.mem_singleton.mp hMem
      exact Nat.le_refl _
  | converted t c v ih =>
      rcases List.mem_cons.mp hMem with rfl | hMem
      · exact Nat.le_refl _
      · have hInner := ih hMem
        simp only [converted.sizeOf_spec]
        omega

/-- A conversion is no part of its own operand. -/
theorem converted_not_mem_layers (t : Tag) (c : Conversion) (v : Value) :
    .converted t c v ∉ v.layers := by
  intro hMem
  have hSize := sizeOf_le_of_mem_layers hMem
  simp only [converted.sizeOf_spec] at hSize
  omega

end Value

/-- Values of the kind are classified without a look at the facts about themselves. -/
def Kind.ignoresFacts : Kind → Bool
  | .leaf (.const _ _) | .converted .sliceToArrayPtr => true
  | _ => false

/-- The first nilness, or the second where the first is unknown. -/
def Nilness.orElse : Nilness → Nilness → Nilness
  | .unknown, m => m
  | n, _ => n

namespace Nilness

theorem orElse_self (n : Nilness) : n.orElse n = n := by
  cases n <;> rfl

theorem orElse_of_ne {n : Nilness} (hKnown : n ≠ .unknown) (m : Nilness) : n.orElse m = n := by
  cases n with
  | unknown => exact absurd rfl hKnown
  | nonNil => rfl
  | nil => rfl

theorem orElse_eq_unknown {n m : Nilness} :
    n.orElse m = .unknown ↔ n = .unknown ∧ m = .unknown := by
  cases n <;> simp [orElse]

end Nilness

namespace Fact

theorem mem_chain_self (n : Nilness) (v : Value) : ⟨v, n⟩ ∈ chain n v := by
  cases v with
  | leaf t o => exact List.mem_singleton_self _
  | converted t c v => cases c <;> exact List.mem_cons_self

theorem mem_chain_iff {n : Nilness} {v : Value} {f : Fact} :
    f ∈ chain n v ↔ v.UnwrapsTo [.changeInterface] f.value ∧ f.nilness = n := by
  constructor
  · intro hMem
    have hOne : ∀ t w, v.UnwrapsTo [.changeInterface] (.converted t .changeInterface w) →
        v.UnwrapsTo [.changeInterface] w := fun t w hOuter =>
      hOuter.trans (.step (List.mem_singleton_self _) (.refl w))
    exact (forall_mem_chain hOne (.refl v) f hMem).symm
  · rintro ⟨hUnwraps, rfl⟩
    obtain ⟨w, n⟩ := f
    dsimp only at hUnwraps ⊢
    induction hUnwraps with
    | refl v => exact mem_chain_self n v
    | step link rest ih =>
        obtain rfl := List.mem_singleton.mp link
        exact List.mem_cons_of_mem _ ih

end Fact

namespace Facts

variable {s s' : Facts} {new : List Fact} {v w : Value} {n : Nilness}

theorem lookup_push_of_mem (hAll : ∀ f ∈ new, f.nilness = n) {f : Fact} (hMem : f ∈ new) :
    (s.push new).lookup f.value = n := by
  have hFound : (new.reverse.find? (·.value = f.value)).isSome := by
    rw [List.find?_isSome]
    exact ⟨f, List.mem_reverse.mpr hMem, by simp⟩
  obtain ⟨g, hg⟩ := Option.isSome_iff_exists.mp hFound
  have hNilness := hAll g (List.mem_reverse.mp (List.mem_of_find?_eq_some hg))
  rw [lookup, push, List.find?_append, hg]
  exact hNilness

theorem lookup_push_of_forall_ne (hNe : ∀ f ∈ new, f.value ≠ w) :
    (s.push new).lookup w = s.lookup w := by
  have hNone : new.reverse.find? (·.value = w) = none := by
    rw [List.find?_eq_none]
    intro f hf
    simpa using hNe f (List.mem_reverse.mp hf)
  rw [lookup, push, List.find?_append, hNone, Option.none_or, lookup]

theorem classify_converted {t : Tag} {c : Conversion} (hSort : c ≠ .sliceToArrayPtr) :
    s.classify (.converted t c v)
      = (s.classify v).orElse (s.lookup (.converted t c v)) := by
  cases c with
  | sliceToArrayPtr => exact absurd rfl hSort
  | changeInterface =>
      simp only [classify]
      cases s.classify v <;> rfl
  | slice =>
      simp only [classify]
      cases s.classify v <;> rfl

/-- The classifier reads only the facts about the parts of a value. -/
theorem classify_congr (hLookup : ∀ w ∈ v.layers, s'.lookup w = s.lookup w) :
    s'.classify v = s.classify v := by
  induction v with
  | leaf t o =>
      have hSelf := hLookup _ (List.mem_singleton_self _)
      cases o <;> simp only [classify, hSelf]
  | converted t c v ih =>
      have hInner := ih fun w hw => hLookup w (List.mem_cons_of_mem _ hw)
      have hSelf := hLookup _ List.mem_cons_self
      cases c <;> simp only [classify, hInner, hSelf]

/-- A value whose interface conversion is unknown is itself unknown. -/
theorem classify_of_unwrapsTo (hUnwraps : v.UnwrapsTo [.changeInterface] w)
    (hUnknown : s.classify v = .unknown) : s.classify w = .unknown := by
  induction hUnwraps with
  | refl => exact hUnknown
  | step link rest ih =>
      obtain rfl := List.mem_singleton.mp link
      rw [classify_converted Conversion.noConfusion] at hUnknown
      exact ih (Nilness.orElse_eq_unknown.mp hUnknown).1

/-- Facts about a conversion do not show in its operand. -/
theorem classify_push_converted (s : Facts) (t : Tag) (c : Conversion) (v : Value) (n : Nilness) :
    (s.push [⟨.converted t c v, n⟩]).classify v = s.classify v := by
  apply classify_congr
  intro w hw
  apply lookup_push_of_forall_ne
  intro f hf
  rw [List.mem_singleton.mp hf]
  rintro rfl
  exact Value.converted_not_mem_layers t c v hw

theorem lookup_push_chain_of_unwrapsTo (hUnwraps : v.UnwrapsTo [.changeInterface] w) :
    (s.push (Fact.chain n v)).lookup w = n :=
  lookup_push_of_mem (f := ⟨w, n⟩) (fun _ hf => (Fact.mem_chain_iff.mp hf).2)
    (Fact.mem_chain_iff.mpr ⟨hUnwraps, rfl⟩)

theorem lookup_push_chain_of_not_unwrapsTo (hApart : ¬ v.UnwrapsTo [.changeInterface] w) :
    (s.push (Fact.chain n v)).lookup w = s.lookup w := by
  apply lookup_push_of_forall_ne
  rintro f hf rfl
  exact hApart (Fact.mem_chain_iff.mp hf).1

theorem push_chain_changeInterface (s : Facts) (t : Tag) (v : Value) (n : Nilness) :
    s.push (Fact.chain n (.converted t .changeInterface v))
      = (s.push [⟨.converted t .changeInterface v, n⟩]).push (Fact.chain n v) := by
  simp only [push, Fact.chain, List.reverse_cons, List.append_assoc, List.reverse_nil,
    List.nil_append]

/-- What is learned about an unknown value is recalled, unless its kind ignores facts. -/
theorem classify_push_chain (hUnknown : s.classify v = .unknown) :
    (s.push (Fact.chain n v)).classify v = if v.kind.ignoresFacts then .unknown else n := by
  induction v generalizing s with
  | leaf t o =>
      cases o with
      | const isNil literal => exact hUnknown
      | other => exact lookup_push_chain_of_unwrapsTo (.refl _)
      | _ => exact Nilness.noConfusion hUnknown
  | converted t c v ih =>
      cases c with
      | sliceToArrayPtr =>
          rw [← hUnknown]
          simp only [Fact.chain, classify, classify_push_converted]
          rfl
      | slice =>
          rw [classify_converted Conversion.noConfusion] at hUnknown
          have hInner : (s.push (Fact.chain n (.converted t .slice v))).classify v = .unknown :=
            (classify_push_converted s t .slice v n).trans (Nilness.orElse_eq_unknown.mp hUnknown).1
          rw [classify_converted Conversion.noConfusion, hInner,
            lookup_push_chain_of_unwrapsTo (.refl _)]
          rfl
      | changeInterface =>
          rw [classify_converted Conversion.noConfusion] at hUnknown
          have hInner := ih ((classify_push_converted s t .changeInterface v n).trans
            (Nilness.orElse_eq_unknown.mp hUnknown).1)
          rw [classify_converted Conversion.noConfusion, lookup_push_chain_of_unwrapsTo (.refl _),
            push_chain_changeInterface, hInner]
          cases v.kind.ignoresFacts with
          | true => rfl
          | false => exact n.orElse_self

/-- The same for all values under the interface conversions of the value. -/
theorem classify_push_chain_of_unwrapsTo (hUnwraps : v.UnwrapsTo [.changeInterface] w)
    (hUnknown : s.classify v = .unknown) :
    (s.push (Fact.chain n v)).classify w = if w.kind.ignoresFacts then .unknown else n := by
  induction hUnwraps generalizing s with
  | refl => exact classify_push_chain hUnknown
  | @step t c v w link rest ih =>
      obtain rfl := List.mem_singleton.mp link
      rw [classify_converted Conversion.noConfusion] at hUnknown
      rw [push_chain_changeInterface]
      exact ih ((classify_push_converted s t .changeInterface v n).trans
        (Nilness.orElse_eq_unknown.mp hUnknown).1)

/-- A known nilness passes out through interface conversions and slices. -/
theorem classify_eq_of_unwrapsTo (hUnwraps : v.UnwrapsTo [.changeInterface, .slice] w)
    (hKnown : s.classify w ≠ .unknown) : s.classify v = s.classify w := by
  induction hUnwraps with
  | refl => rfl
  | @step t c v w link rest ih =>
      have hSort : c ≠ .sliceToArrayPtr := by
        rintro rfl
        simp at link
      have hInner := ih hKnown
      rw [classify_converted hSort, hInner, Nilness.orElse_of_ne hKnown]

/-- Facts about an unknown value, pushed for every value under its interface conversions,
are recalled in each form of these values that does not ignore facts, and through interface
conversions and slices of them. What shares no part with them is classified as before. -/
theorem classify_push_expand (hUnknown : s.classify v = .unknown) (hn : n = .nil ∨ n = .nonNil) :
    (Fact.expand ⟨v, .nil⟩).map Fact.negate = Fact.expand ⟨v, .nonNil⟩ ∧
    (∀ w u, v.UnwrapsTo [.changeInterface] w → w.kind.ignoresFacts = false →
      u.UnwrapsTo [.changeInterface, .slice] w →
      (s.push (Fact.expand ⟨v, n⟩)).classify u = n) ∧
    ∀ u : Value, (∀ f ∈ Fact.expand ⟨v, n⟩, f.value ∉ u.layers) →
      (s.push (Fact.expand ⟨v, n⟩)).classify u = s.classify u := by
  refine ⟨Fact.map_negate_chain .nil v, ?_, ?_⟩
  · intro w u hUnder hKind hOver
    have hForm : (s.push (Fact.expand ⟨v, n⟩)).classify w = n := by
      rw [Fact.expand, classify_push_chain_of_unwrapsTo hUnder hUnknown, hKind]
      rfl
    have hKnown : (s.push (Fact.expand ⟨v, n⟩)).classify w ≠ .unknown := by
      rw [hForm]
      rcases hn with rfl | rfl <;> exact Nilness.noConfusion
    rw [classify_eq_of_unwrapsTo hOver hKnown, hForm]
  · intro u hApart
    apply classify_congr
    intro w hw
    apply lookup_push_of_forall_ne
    rintro f hf rfl
    exact hApart f hf hw

/-- A slice of a value, and two interface conversions around it. -/
def slicedValue : Value := .converted ⟨2, "part", 0⟩ .slice (.leaf ⟨1, "whole", 0⟩ .other)

def slicedInterface : Value := .converted ⟨3, "inner", 0⟩ .changeInterface slicedValue

def slicedWrapped : Value := .converted ⟨4, "outer", 0⟩ .changeInterface slicedInterface

/-- Above a fact about something else, the outer conversion is found not nil. That reaches
the slice and another slice of the inner conversion, but not the whole that was sliced. -/
theorem classify_push_expand_slicedWrapped :
    let s : Facts := [⟨.leaf ⟨5, "else", 0⟩ .other, .nil⟩]
    let s' := s.push (Fact.expand ⟨slicedWrapped, .nonNil⟩)
    s.classify slicedWrapped = .unknown ∧
    slicedWrapped.UnwrapsTo [.changeInterface] slicedValue ∧
    s'.classify slicedValue = .nonNil ∧
    s'.classify (.converted ⟨6, "again", 0⟩ .slice slicedInterface) = .nonNil ∧
    s'.classify (.leaf ⟨1, "whole", 0⟩ .other) = .unknown := by
  intro s s'
  have hUnknown : s.classify slicedWrapped = .unknown := by decide
  have hInner : slicedWrapped.UnwrapsTo [.changeInterface] slicedInterface :=
    .step (by decide) (.refl _)
  have hSliced : slicedWrapped.UnwrapsTo [.changeInterface] slicedValue :=
    .step (by decide) (.step (by decide) (.refl _))
  obtain ⟨-, hRecalled, hApart⟩ := classify_push_expand hUnknown (n := .nonNil) (.inr rfl)
  refine ⟨hUnknown, hSliced, hRecalled _ _ hSliced rfl (.refl _), ?_, hApart _ (by decide)⟩
  exact hRecalled _ _ hInner rfl (.step (by decide) (.refl _))

end Facts

end NilGuard
