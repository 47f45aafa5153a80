import Mathlib.Logic.Equiv.Basic
import NilGuard.Proofs.Relabel
import NilGuard.Proofs.Renaming
/-! Two loads side by side, of a dump and of the dump renamed. They make values in the same order,
so they number them alike and only the names that they give them differ. Which names a value gets
comes out as the loads go on: what is said about the second load holds for every way of naming
that gives each value its name. -/
namespace NilGuard

/-- New names for values, by their numbers. -/
abbrev Naming := Nat → Equiv.Perm String

namespace Naming

/-- The values numbered from `n` on have the first names of the pairs, and get the second ones. -/
def Gives (ν : Naming) (n : Nat) (names : List (String × String)) : Prop :=
  ∀ i x y, names[i]? = some (x, y) → ν (n + i) x = y

theorem gives_append {ν : Naming} {n : Nat} {names rest : List (String × String)}
    (h : ν.Gives n (names ++ rest)) : ν.Gives n names ∧ ν.Gives (n + names.length) rest := by
  constructor
  · intro i x y hi
    obtain ⟨hLt, -⟩ := List.getElem?_eq_some_iff.mp hi
    exact h i x y (by rwa [List.getElem?_append_left hLt])
  · intro i x y hi
    rw [Nat.add_assoc]
    refine h _ x y ?_
    rwa [List.getElem?_append_right (Nat.le_add_right _ _), Nat.add_sub_cancel_left]

/-- Each value has its own pair, so there is a naming for any pairs. -/
theorem exists_gives (names : List (String × String)) : ∃ ν : Naming, ν.Gives 0 names := by
  refine ⟨fun k => ((names[k]?).map fun e => Equiv.swap e.1 e.2).getD (.refl _), fun i x y hi => ?_⟩
  simp only [Nat.zero_add, hi, Option.map_some, Option.getD_some]
  exact Equiv.swap_apply_left x y

end Naming

def Tag.rename (ν : Naming) (t : Tag) : Tag := { t with name := ν t.id t.name }

def Value.rename (ν : Naming) : Value → Value
  | .leaf t o => .leaf (t.rename ν) o
  | .converted t c v => .converted (t.rename ν) c (v.rename ν)

theorem Value.tag_rename (ν : Naming) (v : Value) : (v.rename ν).tag = v.tag.rename ν := by
  cases v <;> rfl

theorem Tag.rename_injective (ν : Naming) : Function.Injective (Tag.rename ν) := by
  rintro ⟨i, x, l⟩ ⟨j, y, k⟩ h
  simp only [Tag.rename, Tag.mk.injEq] at h
  obtain ⟨rfl, hName, rfl⟩ := h
  rw [(ν i).injective hName]

theorem Value.isRelabelling_rename (ν : Naming) : IsRelabelling (Value.rename ν) where
  injective := by
    intro u v h
    induction u generalizing v with
    | leaf t o =>
        cases v with
        | leaf t' o' =>
            simp only [Value.rename, Value.leaf.injEq] at h
            rw [Tag.rename_injective ν h.1, h.2]
        | converted t' c' v' => cases h
    | converted t c u ih =>
        cases v with
        | leaf t' o' => cases h
        | converted t' c' v' =>
            simp only [Value.rename, Value.converted.injEq] at h
            rw [Tag.rename_injective ν h.1, h.2.1, ih h.2.2]
  leaf t o := ⟨t.rename ν, rfl⟩
  converted t c v := ⟨t.rename ν, rfl, rfl⟩

namespace Dump

/-- What the second load makes of a state of the first. A state knows how many values there are; it
has an invariant, and the names that it gives away may be known. -/
structure Mirror (S : Type) where
  count : S → Nat
  image : Naming → S → S
  inv : S → Prop
  knows : Naming → S → Prop

/-- When the first computation succeeds, so does the second on the image of the state, and with
the image of the result, if the new values have their names. -/
def Mirror.Follows {S α β : Type} (K : Mirror S) (x : EStateM LoadError S α)
    (y : Naming → EStateM LoadError S β) (r : Naming → α → β) : Prop :=
  ∀ s a t, K.inv s → x s = .ok a t → K.inv t ∧ ∃ names, K.count t = K.count s + names.length ∧
    ∀ ν : Naming, ν.Gives (K.count s) names → K.knows ν s →
      y ν (K.image ν s) = .ok (r ν a) (K.image ν t) ∧ K.knows ν t

/-- A computation can have a result when the invariant holds. -/
def Mirror.Yields {S α : Type} (K : Mirror S) (x : EStateM LoadError S α) (a : α) : Prop :=
  ∃ s t, K.inv s ∧ x s = .ok a t

theorem Mirror.Yields.returns {S α : Type} {K : Mirror S} {x : EStateM LoadError S α} {a : α}
    (h : K.Yields x a) : Returns x a := by
  obtain ⟨s, t, -, hRun⟩ := h
  exact ⟨s, t, hRun⟩

section Follows

variable {S α β γ δ : Type} {K : Mirror S} {x : EStateM LoadError S α}
  {y : Naming → EStateM LoadError S β} {r : Naming → α → β} {q : Naming → γ → δ}

theorem follows_pure {a : α} {b : Naming → β} (h : ∀ ν, b ν = r ν a) :
    K.Follows (pure a) (fun ν => pure (b ν)) r := by
  rintro s _ _ hs ⟨⟩
  refine ⟨hs, [], rfl, fun ν _ hKnown => ⟨?_, hKnown⟩⟩
  rw [← h ν]
  rfl

theorem follows_throw (e : LoadError) : K.Follows (throw e) y r := by
  rintro s a t hs ⟨⟩

theorem Mirror.Follows.bind {f : α → EStateM LoadError S γ}
    {g : Naming → β → EStateM LoadError S δ} (hx : K.Follows x y r)
    (hf : ∀ a, K.Yields x a → K.Follows (f a) (fun ν => g ν (r ν a)) q) :
    K.Follows (x >>= f) (fun ν => y ν >>= g ν) q := by
  intro s b u hs hRun
  obtain ⟨a, t, hFirst, hRest⟩ := bind_eq_ok.mp hRun
  obtain ⟨ht, names, hCount, hImage⟩ := hx s a t hs hFirst
  obtain ⟨hu, rest, hCount', hImage'⟩ := hf a ⟨s, t, hs, hFirst⟩ t b u ht hRest
  refine ⟨hu, names ++ rest, ?_, fun ν hGives hKnown => ?_⟩
  · rw [hCount', hCount, List.length_append, Nat.add_assoc]
  · obtain ⟨hNames, hRestNames⟩ := Naming.gives_append hGives
    rw [← hCount] at hRestNames
    obtain ⟨hFirst', hKnown'⟩ := hImage ν hNames hKnown
    obtain ⟨hRest', hKnown''⟩ := hImage' ν hRestNames hKnown'
    exact ⟨bind_eq_ok.mpr ⟨_, _, hFirst', hRest'⟩, hKnown''⟩

theorem follows_get_bind {f : S → EStateM LoadError S γ} {g : Naming → S → EStateM LoadError S δ}
    (hf : ∀ s, K.inv s → K.Follows (f s) (fun ν => g ν (K.image ν s)) q) :
    K.Follows (get >>= f) (fun ν => get >>= g ν) q :=
  fun s a t hs hRun => hf s hs s a t hs hRun

theorem follows_modify {f : S → S} {g : Naming → S → S} (hInv : ∀ s, K.inv s → K.inv (f s))
    (hCount : ∀ s, K.count (f s) = K.count s) (hKnows : ∀ ν s, K.knows ν s → K.knows ν (f s))
    (hImage : ∀ ν s, g ν (K.image ν s) = K.image ν (f s)) :
    K.Follows (modify f) (fun ν => modify (g ν)) fun _ u => u := by
  rintro s _ _ hs ⟨⟩
  refine ⟨hInv s hs, [], hCount s, fun ν _ hKnown => ⟨?_, hKnows ν s hKnown⟩⟩
  change EStateM.Result.ok PUnit.unit (g ν (K.image ν s)) = _
  rw [hImage ν s]

theorem Mirror.Follows.map {f : α → γ} {g : Naming → β → δ} (hx : K.Follows x y r)
    (h : ∀ ν a, g ν (r ν a) = q ν (f a)) : K.Follows (f <$> x) (fun ν => g ν <$> y ν) q := by
  simp only [map_eq_pure_bind]
  exact hx.bind fun a _ => follows_pure fun ν => h ν a

theorem Mirror.Follows.discard (hx : K.Follows x y r) :
    K.Follows (discard x) (fun ν => discard (y ν)) fun _ u => u :=
  hx.map fun _ _ => rfl

theorem follows_forM {f : α → EStateM LoadError S PUnit}
    {g : Naming → β → EStateM LoadError S PUnit}
    {k : Naming → α → β} {xs : List α}
    (h : ∀ x ∈ xs, K.Follows (f x) (fun ν => g ν (k ν x)) fun _ u => u) :
    K.Follows (xs.forM f) (fun ν => (xs.map (k ν)).forM (g ν)) fun _ u => u := by
  induction xs with
  | nil => exact follows_pure fun _ => rfl
  | cons x xs ih =>
      exact (h x List.mem_cons_self).bind fun _ _ => ih fun z hz => h z (List.mem_cons_of_mem x hz)

theorem follows_mapM {f : α → EStateM LoadError S γ} {g : Naming → β → EStateM LoadError S δ}
    {k : Naming → α → β} {xs : List α} (h : ∀ x ∈ xs, K.Follows (f x) (fun ν => g ν (k ν x)) q) :
    K.Follows (xs.mapM f) (fun ν => (xs.map (k ν)).mapM (g ν)) fun ν => List.map (q ν) := by
  induction xs with
  | nil => exact follows_pure fun _ => rfl
  | cons x xs ih =>
      simp only [List.map_cons, List.mapM_cons]
      refine (h x List.mem_cons_self).bind fun c _ => ?_
      refine (ih fun z hz => h z (List.mem_cons_of_mem x hz)).bind fun cs _ => ?_
      exact follows_pure fun _ => rfl

end Follows

end Dump

end NilGuard
