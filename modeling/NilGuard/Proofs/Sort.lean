import NilGuard.Diagnostic.Basic
/-! The order of diagnostics. It looks at the place, the category and the message alone, and
sorting is stable, so a sorted list is fixed by its groups of diagnostics that are tied. -/
namespace NilGuard.Diagnostic

/-- What the order looks at. -/
def sortKey (d : Diagnostic) : Location × String × String := (d.location, d.category, d.message)

theorem compare_eq_compareLex : compare =
    compareLex (compareOn (·.location.file)) (compareLex (compareOn (·.location.line))
      (compareLex (compareOn (·.location.column)) (compareLex (compareOn (·.category))
        (compareOn (·.message))))) :=
  rfl

instance : Std.TransCmp compare := by
  rw [compare_eq_compareLex]
  infer_instance

theorem compare_eq_iff (a b : Diagnostic) : a.compare b = .eq ↔ a.sortKey = b.sortKey := by
  obtain ⟨_, _, _, ⟨_, _, _⟩, _, _, _⟩ := a
  obtain ⟨_, _, _, ⟨_, _, _⟩, _, _, _⟩ := b
  simp [compare, sortKey, Ordering.then_eq_eq, and_assoc]

theorem le_trans (a b c : Diagnostic) (hab : a.le b) (hbc : b.le c) : a.le c := by
  have hTrans : (a.compare c).isLE := Std.TransCmp.isLE_trans hab hbc
  exact hTrans

theorem le_total (a b : Diagnostic) : a.le b || b.le a := by
  have hSwap : a.compare b = (b.compare a).swap := Std.OrientedCmp.eq_swap
  unfold le
  rw [hSwap]
  cases b.compare a <;> rfl

theorem le_of_sortKey_eq {a b : Diagnostic} (h : a.sortKey = b.sortKey) : a.le b := by
  rw [le, (compare_eq_iff a b).mpr h]
  rfl

theorem sortKey_eq_of_le {a b : Diagnostic} (hab : a.le b) (hba : b.le a) :
    a.sortKey = b.sortKey :=
  (compare_eq_iff a b).mp (Std.OrientedCmp.isLE_antisymm hab hba)

theorem sort_perm (ds : List Diagnostic) : (sort ds).Perm ds := List.mergeSort_perm ds le

theorem pairwise_sort (ds : List Diagnostic) : (sort ds).Pairwise (·.le ·) :=
  List.pairwise_mergeSort le_trans le_total ds

/-- The diagnostics of a list that have one key, in the order of the list. -/
def tied (key : Location × String × String) (ds : List Diagnostic) : List Diagnostic :=
  ds.filter (·.sortKey = key)

theorem tied_append (key : Location × String × String) (as bs : List Diagnostic) :
    tied key (as ++ bs) = tied key as ++ tied key bs :=
  List.filter_append ..

theorem tied_cons_of_eq (d : Diagnostic) (ds : List Diagnostic) :
    tied d.sortKey (d :: ds) = d :: tied d.sortKey ds :=
  List.filter_cons_of_pos (by simp)

theorem tied_cons_of_ne {key : Location × String × String} {d : Diagnostic}
    (h : d.sortKey ≠ key) (ds : List Diagnostic) : tied key (d :: ds) = tied key ds :=
  List.filter_cons_of_neg (by simpa using h)

theorem mem_tied_iff {key : Location × String × String} {d : Diagnostic}
    {ds : List Diagnostic} : d ∈ tied key ds ↔ d ∈ ds ∧ d.sortKey = key := by
  simp [tied]

/-- Sorting is stable. -/
theorem tied_sort (key : Location × String × String) (ds : List Diagnostic) :
    tied key (sort ds) = tied key ds := by
  have hSorted : (tied key ds).Pairwise (·.le ·) := by
    refine List.pairwise_iff_forall_sublist.mpr fun {a b} hSub => le_of_sortKey_eq ?_
    have ha := (mem_tied_iff.mp (hSub.subset (by simp : a ∈ [a, b]))).2
    have hb := (mem_tied_iff.mp (hSub.subset (by simp : b ∈ [a, b]))).2
    exact ha.trans hb.symm
  have hSub : (tied key ds).Sublist (sort ds) :=
    List.sublist_mergeSort le_trans le_total hSorted List.filter_sublist
  have hTied : (tied key ds).Sublist (tied key (sort ds)) := by
    simpa [tied] using hSub.filter (·.sortKey = key)
  exact (hTied.eq_of_length ((sort_perm ds).filter _).length_eq.symm).symm

/-- The first of a sorted list is before whatever the list has. -/
theorem head_le {a d : Diagnostic} {ds : List Diagnostic} (h : (a :: ds).Pairwise (·.le ·))
    (hMem : d ∈ a :: ds) : a.le d := by
  rcases List.mem_cons.mp hMem with rfl | hTail
  · exact le_of_sortKey_eq rfl
  · exact List.rel_of_pairwise_cons h hTail

theorem mem_iff_of_tied_eq {as bs : List Diagnostic} (h : ∀ key, tied key as = tied key bs)
    (d : Diagnostic) : d ∈ as ↔ d ∈ bs := by
  have hTied : d ∈ tied d.sortKey as ↔ d ∈ tied d.sortKey bs := by rw [h]
  simpa [mem_tied_iff] using hTied

/-- Sorted lists with the same groups are the same. -/
theorem eq_of_tied_eq {as bs : List Diagnostic} (hAs : as.Pairwise (·.le ·))
    (hBs : bs.Pairwise (·.le ·)) (h : ∀ key, tied key as = tied key bs) : as = bs := by
  have hMem := mem_iff_of_tied_eq h
  induction as generalizing bs with
  | nil =>
      have hNone : ∀ d, d ∉ bs := fun d hd => by simpa using (hMem d).mpr hd
      exact (List.eq_nil_iff_forall_not_mem.mpr hNone).symm
  | cons a as ih =>
      cases bs with
      | nil => simpa using (hMem a).mp (by simp)
      | cons b bs =>
          have hKey : a.sortKey = b.sortKey :=
            sortKey_eq_of_le (head_le hAs ((hMem b).mpr (by simp)))
              (head_le hBs ((hMem a).mp (by simp)))
          have hHead : a :: tied a.sortKey as = b :: tied a.sortKey bs := by
            rw [← tied_cons_of_eq, h, hKey, tied_cons_of_eq]
          obtain ⟨rfl, hTails⟩ := List.cons.inj hHead
          have hTied : ∀ key, tied key as = tied key bs := fun key => by
            by_cases hSame : a.sortKey = key
            · exact hSame ▸ hTails
            · rw [← tied_cons_of_ne hSame, h, tied_cons_of_ne hSame]
          have hTail : as = bs := ih hAs.tail hBs.tail hTied (mem_iff_of_tied_eq hTied)
          rw [hTail]

theorem sort_eq_sort_iff (as bs : List Diagnostic) :
    sort as = sort bs ↔ ∀ key, tied key as = tied key bs := by
  constructor
  · intro h key
    rw [← tied_sort key as, h, tied_sort]
  · intro h
    refine eq_of_tied_eq (pairwise_sort as) (pairwise_sort bs) fun key => ?_
    rw [tied_sort, tied_sort, h]

/-- Diagnostics with the first key stand before those with the second. -/
def KeyLe (k l : Location × String × String) : Prop :=
  ∀ a b : Diagnostic, a.sortKey = k → b.sortKey = l → a.le b

theorem keyLe_of_le {a b : Diagnostic} (h : a.le b) : KeyLe a.sortKey b.sortKey :=
  fun _ _ hc hd =>
    le_trans _ _ _ (le_of_sortKey_eq hc) (le_trans _ _ _ h (le_of_sortKey_eq hd.symm))

/-- The keys of a sorted list do not depend on the order of the list that was sorted. -/
theorem map_sortKey_sort {as bs : List Diagnostic} (h : as.Perm bs) :
    (sort as).map sortKey = (sort bs).map sortKey := by
  have hSorted : ∀ ds, ((sort ds).map sortKey).Pairwise KeyLe := fun ds =>
    List.pairwise_map.mpr ((pairwise_sort ds).imp keyLe_of_le)
  have hPerm : ((sort as).map sortKey).Perm ((sort bs).map sortKey) :=
    (((sort_perm as).trans h).trans (sort_perm bs).symm).map sortKey
  refine List.Perm.eq_of_pairwise ?_ (hSorted as) (hSorted bs) hPerm
  intro k l hk hl hkl hlk
  obtain ⟨a, -, rfl⟩ := List.mem_map.mp hk
  obtain ⟨b, -, rfl⟩ := List.mem_map.mp hl
  exact sortKey_eq_of_le (hkl a b rfl rfl) (hlk b a rfl rfl)

end NilGuard.Diagnostic
