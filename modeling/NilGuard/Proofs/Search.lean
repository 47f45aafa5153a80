import NilGuard.Flow.Order
import NilGuard.Proofs.Route
/-! The depth-first search. Its result lists exactly the places that can be reached, each
once, and every place but the entry after one of its predecessors. -/
namespace NilGuard.Graph

def Edge (g : Graph) (b c : Nat) : Prop := c ∈ g.succs b

/-- There is a place to begin at, and edges from places of the graph stay inside it. -/
structure IsClosed (g : Graph) : Prop where
  nonempty : 0 < g.size
  inside : ∀ b < g.size, ∀ c ∈ g.succs b, c < g.size

theorem IsClosed.lt_size {g : Graph} (hClosed : g.IsClosed) {b : Nat}
    (hReach : Reachable g.Edge b) : b < g.size :=
  hReach.induct hClosed.nonempty fun b c _ hLt hEdge => hClosed.inside b hLt c hEdge

/-- The places of the frames, the newest first. -/
def places (stack : List Frame) : List Nat := stack.map (·.1)

@[simp] theorem places_nil : places [] = [] := rfl

@[simp] theorem places_cons (b : Nat) (cs : List Nat) (stack : List Frame) :
    places ((b, cs) :: stack) = b :: places stack := rfl

/-- What holds throughout a search. The frames are a route, a place is marked while it is
in a frame or finished, and the successors of a place are marked once they were tried. -/
structure Searching (g : Graph) (stack : List Frame) (m : Marks) (finished : List Nat) : Prop where
  route : stack ≠ [] → Route g.Edge (places stack)
  pending : ∀ f ∈ stack, ∀ c ∈ f.2, g.Edge f.1 c
  tried : ∀ f ∈ stack, ∀ c, g.Edge f.1 c → c ∈ f.2 ∨ m.isFree c = false
  isFree_iff : ∀ c, m.isFree c = true ↔ c < g.size ∧ c ∉ places stack ++ finished
  entry : 0 ∈ places stack ++ finished
  nodup : (places stack ++ finished).Nodup
  reached : ∀ b ∈ finished, Reachable g.Edge b
  closed : ∀ b ∈ finished, ∀ c, g.Edge b c → m.isFree c = false
  later : ∀ newer b older, finished = newer ++ b :: older → b ≠ 0 →
    ∃ p, g.Edge p b ∧ (p ∈ newer ∨ p ∈ places stack)

namespace Searching

variable {g : Graph} {stack : List Frame} {m : Marks} {finished cs : List Nat} {b c : Nat}

/-- The predecessor of a finished place is the place of the frame below, if there is one. -/
theorem exists_parent (hRoute : Route g.Edge (b :: places stack)) (hZero : b ≠ 0) :
    ∃ p, g.Edge p b ∧ p ∈ places stack := by
  cases hPlaces : places stack with
  | nil =>
      rw [hPlaces] at hRoute
      cases hRoute with
      | entry => exact absurd rfl hZero
  | cons p rest =>
      rw [hPlaces] at hRoute
      cases hRoute with
      | step prior last => exact ⟨p, last, List.mem_cons_self⟩

theorem finish (h : Searching g ((b, []) :: stack) m finished) :
    Searching g stack m (b :: finished) := by
  have hRoute : Route g.Edge (b :: places stack) := h.route (by simp)
  have hPerm : (places stack ++ b :: finished).Perm (places ((b, []) :: stack) ++ finished) :=
    List.perm_middle
  constructor
  case route =>
    intro hNe
    cases stack with
    | nil => exact absurd rfl hNe
    | cons f stack => cases hRoute with | step prior last => exact prior
  case pending => exact fun f hf => h.pending f (List.mem_cons_of_mem _ hf)
  case tried => exact fun f hf => h.tried f (List.mem_cons_of_mem _ hf)
  case isFree_iff =>
    intro c
    rw [h.isFree_iff, hPerm.mem_iff]
  case entry => exact hPerm.mem_iff.mpr h.entry
  case nodup => exact hPerm.nodup_iff.mpr h.nodup
  case reached =>
    intro x hx
    rcases List.mem_cons.mp hx with rfl | hx
    · exact ⟨_, hRoute⟩
    · exact h.reached x hx
  case closed =>
    intro x hx c hEdge
    rcases List.mem_cons.mp hx with rfl | hx
    · exact (h.tried _ List.mem_cons_self c hEdge).resolve_left List.not_mem_nil
    · exact h.closed x hx c hEdge
  case later =>
    intro newer x older hSplit hZero
    cases newer with
    | nil =>
        obtain ⟨rfl, -⟩ := List.cons.inj hSplit
        obtain ⟨p, hEdge, hMem⟩ := exists_parent hRoute hZero
        exact ⟨p, hEdge, Or.inr hMem⟩
    | cons y newer =>
        obtain ⟨rfl, hRest⟩ := List.cons.inj hSplit
        obtain ⟨p, hEdge, hMem⟩ := h.later newer x older hRest hZero
        refine ⟨p, hEdge, ?_⟩
        rcases hMem with hMem | hMem
        · exact Or.inl (List.mem_cons_of_mem _ hMem)
        · rcases List.mem_cons.mp hMem with rfl | hMem
          · exact Or.inl List.mem_cons_self
          · exact Or.inr hMem

theorem skip (h : Searching g ((b, c :: cs) :: stack) m finished) (hFree : m.isFree c = false) :
    Searching g ((b, cs) :: stack) m finished where
  route _ := h.route (by simp)
  pending := by
    intro f hf x hx
    rcases List.mem_cons.mp hf with rfl | hf
    · exact h.pending _ List.mem_cons_self x (List.mem_cons_of_mem _ hx)
    · exact h.pending f (List.mem_cons_of_mem _ hf) x hx
  tried := by
    intro f hf x hEdge
    rcases List.mem_cons.mp hf with rfl | hf
    · rcases h.tried _ List.mem_cons_self x hEdge with hx | hx
      · rcases List.mem_cons.mp hx with rfl | hx
        · exact Or.inr hFree
        · exact Or.inl hx
      · exact Or.inr hx
    · exact h.tried f (List.mem_cons_of_mem _ hf) x hEdge
  isFree_iff := h.isFree_iff
  entry := h.entry
  nodup := h.nodup
  reached := h.reached
  closed := h.closed
  later := h.later

theorem isFree_mark_eq_false {x : Nat} (hFalse : m.isFree x = false) :
    (m.mark c).isFree x = false := by
  rw [Marks.isFree_mark, hFalse, Bool.and_false]

theorem enter (h : Searching g ((b, c :: cs) :: stack) m finished) (hFree : m.isFree c = true) :
    Searching g ((c, g.succs c) :: (b, cs) :: stack) (m.mark c) finished := by
  have hEdge : g.Edge b c := h.pending _ List.mem_cons_self c List.mem_cons_self
  obtain ⟨hLt, hNew⟩ := (h.isFree_iff c).mp hFree
  have hMarked : (m.mark c).isFree c = false := by simp [Marks.isFree_mark]
  constructor
  case route => exact fun _ => (h.route (by simp)).step hEdge
  case pending =>
    intro f hf x hx
    rcases List.mem_cons.mp hf with rfl | hf
    · exact hx
    rcases List.mem_cons.mp hf with rfl | hf
    · exact h.pending _ List.mem_cons_self x (List.mem_cons_of_mem _ hx)
    · exact h.pending f (List.mem_cons_of_mem _ hf) x hx
  case tried =>
    intro f hf x hx
    rcases List.mem_cons.mp hf with rfl | hf
    · exact Or.inl hx
    rcases List.mem_cons.mp hf with rfl | hf
    · rcases h.tried _ List.mem_cons_self x hx with hIn | hOut
      · rcases List.mem_cons.mp hIn with rfl | hIn
        · exact Or.inr hMarked
        · exact Or.inl hIn
      · exact Or.inr (isFree_mark_eq_false hOut)
    · exact (h.tried f (List.mem_cons_of_mem _ hf) x hx).imp_right isFree_mark_eq_false
  case isFree_iff =>
    intro x
    rw [Marks.isFree_mark, Bool.and_eq_true, decide_eq_true_eq, h.isFree_iff]
    simp only [places_cons, List.cons_append, List.mem_cons, not_or]
    grind
  case entry => exact List.mem_cons_of_mem _ h.entry
  case nodup => exact List.nodup_cons.mpr ⟨hNew, h.nodup⟩
  case reached => exact h.reached
  case closed => exact fun x hx y hy => isFree_mark_eq_false (h.closed x hx y hy)
  case later =>
    intro newer x older hSplit hZero
    obtain ⟨p, hp, hMem⟩ := h.later newer x older hSplit hZero
    exact ⟨p, hp, hMem.imp_right (List.mem_cons_of_mem _)⟩

/-- A search that runs to its end leaves no frame. -/
theorem search (h : Searching g stack m finished) :
    ∃ marks, Searching g [] marks (g.search stack m finished) := by
  induction stack, m, finished using Graph.search.induct g with
  | case1 m finished =>
      rw [Graph.search]
      exact ⟨m, h⟩
  | case2 b stack m finished ih =>
      rw [Graph.search]
      exact ih h.finish
  | case3 b c cs stack m finished hFree ih =>
      rw [Graph.search, dif_pos hFree]
      exact ih (h.enter hFree)
  | case4 b c cs stack m finished hFree ih =>
      rw [Graph.search, dif_neg hFree]
      exact ih (h.skip (Bool.eq_false_iff.mpr hFree))

end Searching

theorem searching_start (g : Graph) :
    Searching g [(0, g.succs 0)] ((Marks.clear g.size).mark 0) [] := by
  constructor
  case route => exact fun _ => Route.entry
  case pending =>
    intro f hf x hx
    obtain rfl := List.mem_singleton.mp hf
    exact hx
  case tried =>
    intro f hf x hx
    obtain rfl := List.mem_singleton.mp hf
    exact Or.inl hx
  case isFree_iff =>
    intro c
    rw [Marks.isFree_mark, Marks.isFree_clear, Bool.and_eq_true, decide_eq_true_eq,
      decide_eq_true_eq]
    simp only [places_cons, places_nil, List.append_nil, List.mem_singleton]
    grind
  case entry => simp
  case nodup => simp
  case reached => simp
  case closed => simp
  case later => simp

theorem searching_order {g : Graph} (hSize : 0 < g.size) : ∃ m, Searching g [] m g.order := by
  rw [order, if_neg (Nat.ne_of_gt hSize)]
  exact (searching_start g).search

variable {g : Graph} (hClosed : g.IsClosed)
include hClosed

theorem nodup_order : g.order.Nodup := by
  obtain ⟨m, h⟩ := searching_order hClosed.nonempty
  exact h.nodup

theorem mem_order_iff {b : Nat} : b ∈ g.order ↔ Reachable g.Edge b := by
  obtain ⟨m, h⟩ := searching_order hClosed.nonempty
  constructor
  · exact h.reached b
  · intro hReach
    refine hReach.induct h.entry fun b c hb hMem hEdge => ?_
    have hLt : c < g.size := hClosed.lt_size (hb.step hEdge)
    have hMarked : m.isFree c = false := h.closed b hMem c hEdge
    apply Decidable.byContradiction
    intro hNew
    rw [(h.isFree_iff c).mpr ⟨hLt, hNew⟩] at hMarked
    exact Bool.noConfusion hMarked

/-- A place other than the entry comes after one of its predecessors. -/
theorem exists_pred_before {newer older : List Nat} {b : Nat}
    (hSplit : g.order = newer ++ b :: older) (hZero : b ≠ 0) : ∃ p ∈ newer, g.Edge p b := by
  obtain ⟨m, h⟩ := searching_order hClosed.nonempty
  obtain ⟨p, hEdge, hMem⟩ := h.later newer b older hSplit hZero
  exact ⟨p, hMem.resolve_right List.not_mem_nil, hEdge⟩

theorem order_eq_zero_cons : ∃ rest, g.order = 0 :: rest := by
  cases hOrder : g.order with
  | nil =>
      have hMem := (mem_order_iff hClosed).mpr Reachable.zero
      rw [hOrder] at hMem
      exact absurd hMem List.not_mem_nil
  | cons b rest =>
      refine ⟨rest, ?_⟩
      by_cases hZero : b = 0
      · rw [hZero]
      · have hSplit : g.order = [] ++ b :: rest := hOrder
        obtain ⟨p, hMem, -⟩ := exists_pred_before hClosed hSplit hZero
        exact absurd hMem List.not_mem_nil

end NilGuard.Graph
