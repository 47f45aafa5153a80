/-! Routes from place zero along the edges of a graph, and dominance by routes. Nothing
here depends on how a dominator tree is computed. -/
namespace NilGuard

/-- A path along edges that begins at place zero. The newest place comes first. -/
inductive Route (edge : Nat → Nat → Prop) : List Nat → Prop where
  | entry : Route edge [0]
  | step {b c : Nat} {path : List Nat} (prior : Route edge (b :: path)) (last : edge b c) :
      Route edge (c :: b :: path)

/-- A route leads to the place. -/
def Reachable (edge : Nat → Nat → Prop) (b : Nat) : Prop := ∃ path, Route edge (b :: path)

/-- Every route to `b` goes through `a`. When no route leads to `b`, every place
dominates it. -/
def Dominates (edge : Nat → Nat → Prop) (a b : Nat) : Prop :=
  ∀ path, Route edge (b :: path) → a ∈ b :: path

def StrictlyDominates (edge : Nat → Nat → Prop) (a b : Nat) : Prop :=
  a ≠ b ∧ Dominates edge a b

/-- The strict dominator of a place that every strict dominator of it dominates. -/
def ImmediatelyDominates (edge : Nat → Nat → Prop) (d b : Nat) : Prop :=
  StrictlyDominates edge d b ∧ ∀ a, StrictlyDominates edge a b → Dominates edge a d

variable {edge : Nat → Nat → Prop}

namespace Route

/-- The part of a route up to one of its places is a route. -/
theorem of_append {newer path : List Nat} {b : Nat} (route : Route edge (newer ++ b :: path)) :
    Route edge (b :: path) := by
  induction newer with
  | nil => exact route
  | cons c newer ih =>
      apply ih
      cases newer with
      | nil => cases route with | step prior last => exact prior
      | cons d newer => cases route with | step prior last => exact prior

theorem reachable_of_mem {path : List Nat} {b : Nat} (route : Route edge path) (hMem : b ∈ path) :
    Reachable edge b := by
  obtain ⟨newer, older, rfl⟩ := List.append_of_mem hMem
  exact ⟨older, route.of_append⟩

/-- Cutting out cycles leaves a route to the same place that meets no place twice. -/
theorem exists_nodup {path : List Nat} {b : Nat} (route : Route edge (b :: path)) :
    ∃ rest, Route edge (b :: rest) ∧ (b :: rest).Nodup ∧ ∀ x ∈ b :: rest, x ∈ b :: path := by
  induction path generalizing b with
  | nil => exact ⟨[], route, by simp, fun _ hx => hx⟩
  | cons a path ih =>
      cases route with
      | step prior last =>
          obtain ⟨rest, hRoute, hNodup, hSub⟩ := ih prior
          by_cases hMem : b ∈ a :: rest
          · obtain ⟨newer, older, hSplit⟩ := List.append_of_mem hMem
            rw [hSplit] at hRoute hNodup hSub
            refine ⟨older, hRoute.of_append, (List.nodup_append.mp hNodup).2.1, ?_⟩
            intro x hx
            exact List.mem_cons_of_mem _ (hSub x (List.mem_append_right _ hx))
          · refine ⟨a :: rest, hRoute.step last, List.nodup_cons.mpr ⟨hMem, hNodup⟩, ?_⟩
            intro x hx
            rcases List.mem_cons.mp hx with rfl | hx
            · exact List.mem_cons_self
            · exact List.mem_cons_of_mem _ (hSub x hx)

end Route

namespace Reachable

theorem zero : Reachable edge 0 := ⟨[], Route.entry⟩

theorem step {b c : Nat} (hReach : Reachable edge b) (hEdge : edge b c) : Reachable edge c := by
  obtain ⟨path, route⟩ := hReach
  exact ⟨b :: path, route.step hEdge⟩

/-- What holds at place zero and is passed on along edges holds wherever a route leads. -/
theorem induct {P : Nat → Prop} (hZero : P 0)
    (hStep : ∀ b c, Reachable edge b → P b → edge b c → P c) {b : Nat}
    (hReach : Reachable edge b) : P b := by
  obtain ⟨path, route⟩ := hReach
  suffices h : ∀ x ∈ b :: path, P x from h b List.mem_cons_self
  generalize b :: path = places at route
  induction route with
  | entry =>
      intro x hx
      obtain rfl := List.mem_singleton.mp hx
      exact hZero
  | @step b c path prior last ih =>
      intro x hx
      rcases List.mem_cons.mp hx with rfl | hx
      · exact hStep b x ⟨path, prior⟩ (ih b List.mem_cons_self) last
      · exact ih x hx

end Reachable

namespace Dominates

theorem refl (b : Nat) : Dominates edge b b := fun _ _ => List.mem_cons_self

theorem eq_zero {a : Nat} (hDom : Dominates edge a 0) : a = 0 := by
  simpa using hDom [] Route.entry

theorem trans {a b c : Nat} (hFirst : Dominates edge a b) (hSecond : Dominates edge b c) :
    Dominates edge a c := by
  intro path route
  obtain ⟨newer, older, hSplit⟩ := List.append_of_mem (hSecond path route)
  rw [hSplit] at route ⊢
  exact List.mem_append_right _ (hFirst older route.of_append)

/-- A dominator of a place other than the place itself dominates its predecessors. -/
theorem of_edge {a b c : Nat} (hDom : Dominates edge a c) (hNe : a ≠ c) (hEdge : edge b c) :
    Dominates edge a b := by
  intro path route
  rcases List.mem_cons.mp (hDom _ (route.step hEdge)) with hEq | hMem
  · exact absurd hEq hNe
  · exact hMem

theorem reachable {a b : Nat} (hDom : Dominates edge a b) (hReach : Reachable edge b) :
    Reachable edge a := by
  obtain ⟨path, route⟩ := hReach
  exact route.reachable_of_mem (hDom path route)

/-- On a route without repetition the dominator comes first, so only one of two different
places can dominate the other. -/
theorem antisymm {a b : Nat} (hDom : Dominates edge a b) (hBack : Dominates edge b a)
    (hReach : Reachable edge b) : a = b := by
  obtain ⟨path, route⟩ := hReach
  obtain ⟨rest, hRoute, hNodup, -⟩ := route.exists_nodup
  rcases List.mem_cons.mp (hDom rest hRoute) with hEq | hMem
  · exact hEq
  · obtain ⟨newer, older, rfl⟩ := List.append_of_mem hMem
    have hPrior : Route edge (a :: older) := by
      rw [← List.cons_append] at hRoute
      exact hRoute.of_append
    have hAgain : b ∈ a :: older := hBack older hPrior
    exact absurd (List.mem_append_right newer hAgain) (List.nodup_cons.mp hNodup).1

end Dominates

namespace ImmediatelyDominates

theorem unique {d e b : Nat} (hReach : Reachable edge b) (hLeft : ImmediatelyDominates edge d b)
    (hRight : ImmediatelyDominates edge e b) : d = e :=
  (hRight.2 d hLeft.1).antisymm (hLeft.2 e hRight.1) (hRight.1.2.reachable hReach)

theorem ne_zero {d b : Nat} (hIdom : ImmediatelyDominates edge d b) : b ≠ 0 := by
  rintro rfl
  exact hIdom.1.1 hIdom.1.2.eq_zero

end ImmediatelyDominates

section Transfer

variable {other : Nat → Nat → Prop} {P : Nat → Prop}

/-- Edges that agree where routes can go have the same routes. -/
theorem route_eq_of_edge_iff (hZero : P 0) (hStep : ∀ b c, P b → edge b c → P c)
    (hEdge : ∀ b c, P b → (edge b c ↔ other b c)) : Route edge = Route other := by
  have hForth : ∀ path, Route edge path → Route other path ∧ ∀ b ∈ path, P b := by
    intro path route
    induction route with
    | entry => exact ⟨Route.entry, by simpa using hZero⟩
    | @step b c path prior last ih =>
        obtain ⟨hRoute, hAll⟩ := ih
        have hb := hAll b List.mem_cons_self
        refine ⟨hRoute.step ((hEdge b c hb).mp last), ?_⟩
        intro x hx
        rcases List.mem_cons.mp hx with rfl | hx
        · exact hStep b x hb last
        · exact hAll x hx
  have hBack : ∀ path, Route other path → Route edge path := by
    intro path route
    induction route with
    | entry => exact Route.entry
    | @step b c path prior last ih =>
        have hb := (hForth _ ih).2 b List.mem_cons_self
        exact ih.step ((hEdge b c hb).mpr last)
  funext path
  exact propext ⟨fun route => (hForth path route).1, hBack path⟩

variable (hRoute : Route edge = Route other)
include hRoute

theorem reachable_eq_of_route_eq : Reachable edge = Reachable other := by
  funext b
  rw [Reachable, Reachable, hRoute]

theorem dominates_eq_of_route_eq : Dominates edge = Dominates other := by
  funext a b
  rw [Dominates, Dominates, hRoute]

theorem immediatelyDominates_eq_of_route_eq :
    ImmediatelyDominates edge = ImmediatelyDominates other := by
  funext d b
  simp only [ImmediatelyDominates, StrictlyDominates, dominates_eq_of_route_eq hRoute]

end Transfer

/-- The routes of one graph are those of another with every place mapped, and no two places
that routes lead to are mapped to one. -/
structure IsRouteMap (f : Nat → Nat) (edge other : Nat → Nat → Prop) : Prop where
  map : ∀ {path}, Route edge path → Route other (path.map f)
  lift : ∀ {path}, Route other path → ∃ source, Route edge source ∧ source.map f = path
  injective : ∀ {a b}, Reachable edge a → Reachable edge b → f a = f b → a = b

namespace IsRouteMap

variable {f : Nat → Nat} {other : Nat → Nat → Prop}

/-- It suffices that the edges out of each place are mapped. -/
theorem of_edge_iff (hZero : f 0 = 0)
    (hEdge : ∀ b, Reachable edge b → ∀ c, other (f b) c ↔ ∃ d, edge b d ∧ f d = c)
    (hInjective : ∀ {a b}, Reachable edge a → Reachable edge b → f a = f b → a = b) :
    IsRouteMap f edge other := by
  refine ⟨fun route => ?_, fun route => ?_, hInjective⟩
  · induction route with
    | entry =>
        rw [List.map_singleton, hZero]
        exact Route.entry
    | @step b c path prior last ih =>
        exact Route.step ih ((hEdge b ⟨path, prior⟩ (f c)).mpr ⟨c, last, rfl⟩)
  · induction route with
    | entry => exact ⟨[0], Route.entry, by rw [List.map_singleton, hZero]⟩
    | @step b c path prior last ih =>
        obtain ⟨source, hRoute, hMap⟩ := ih
        cases source with
        | nil => cases hMap
        | cons a rest =>
            obtain ⟨rfl, hRest⟩ := List.cons.inj hMap
            obtain ⟨d, hd, rfl⟩ := (hEdge a ⟨rest, hRoute⟩ c).mp last
            exact ⟨d :: a :: rest, hRoute.step hd, by rw [List.map_cons, hMap]⟩

variable (hMap : IsRouteMap f edge other)
include hMap

theorem reachable {b : Nat} (hReach : Reachable edge b) : Reachable other (f b) := by
  obtain ⟨path, route⟩ := hReach
  exact ⟨path.map f, hMap.map route⟩

theorem exists_source {c : Nat} (hReach : Reachable other c) : ∃ b, Reachable edge b ∧ f b = c := by
  obtain ⟨path, route⟩ := hReach
  obtain ⟨source, hRoute, hSource⟩ := hMap.lift route
  cases source with
  | nil => cases hSource
  | cons b rest => exact ⟨b, ⟨rest, hRoute⟩, (List.cons.inj hSource).1⟩

theorem dominates_iff {a b : Nat} (ha : Reachable edge a) (hb : Reachable edge b) :
    Dominates other (f a) (f b) ↔ Dominates edge a b := by
  constructor
  · intro hDom path route
    have hMem := hDom _ (hMap.map route)
    rw [← List.map_cons] at hMem
    obtain ⟨y, hy, hEq⟩ := List.mem_map.mp hMem
    rw [← hMap.injective (route.reachable_of_mem hy) ha hEq]
    exact hy
  · intro hDom path route
    obtain ⟨source, hRoute, hSource⟩ := hMap.lift route
    cases source with
    | nil => cases hSource
    | cons c rest =>
        obtain rfl := hMap.injective ⟨rest, hRoute⟩ hb (List.cons.inj hSource).1
        rw [← hSource]
        exact List.mem_map_of_mem (hDom rest hRoute)

theorem immediatelyDominates_iff {d b : Nat} (hd : Reachable edge d) (hb : Reachable edge b) :
    ImmediatelyDominates other (f d) (f b) ↔ ImmediatelyDominates edge d b := by
  have hStrict : ∀ {a b}, Reachable edge a → Reachable edge b →
      (StrictlyDominates other (f a) (f b) ↔ StrictlyDominates edge a b) := by
    intro a b ha hb
    rw [StrictlyDominates, StrictlyDominates, hMap.dominates_iff ha hb]
    exact and_congr_left' ⟨fun hNe hEq => hNe (by rw [hEq]),
      fun hNe hEq => hNe (hMap.injective ha hb hEq)⟩
  rw [ImmediatelyDominates, ImmediatelyDominates, hStrict hd hb]
  refine and_congr_right fun _ => ⟨fun hAll a ha => ?_, fun hAll c hc => ?_⟩
  · have hReach := ha.2.reachable hb
    exact (hMap.dominates_iff hReach hd).mp (hAll (f a) ((hStrict hReach hb).mpr ha))
  · obtain ⟨a, hReach, rfl⟩ := hMap.exists_source (hc.2.reachable (hMap.reachable hb))
    exact (hMap.dominates_iff hReach hd).mpr (hAll a ((hStrict hReach hb).mp hc))

end IsRouteMap

end NilGuard
