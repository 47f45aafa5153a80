/-! Marks on the places below a bound. A search marks a place when it enters it, so the
number of places without a mark bounds what is still to be entered. -/
namespace NilGuard

structure Marks where
  flags : Array Bool
  deriving DecidableEq, Repr

namespace Marks

/-- No place below `size` is marked. -/
def clear (size : Nat) : Marks := ⟨Array.replicate size false⟩

/-- Whether a place is below the bound and has no mark. -/
def isFree (m : Marks) (place : Nat) : Bool := m.flags[place]? == some false

def mark (m : Marks) (place : Nat) : Marks := ⟨m.flags.setIfInBounds place true⟩

/-- How many places have no mark. -/
def free (m : Marks) : Nat := m.flags.count false

theorem lt_size_of_isFree {m : Marks} {place : Nat} (h : m.isFree place = true) :
    place < m.flags.size := by
  simp only [isFree, beq_iff_eq] at h
  exact (Array.getElem?_eq_some_iff.mp h).1

theorem free_mark_lt {m : Marks} {place : Nat} (h : m.isFree place = true) :
    (m.mark place).free < m.free := by
  have hlt := lt_size_of_isFree h
  have hfalse : m.flags[place] = false := by
    simp only [isFree, beq_iff_eq] at h
    exact (Array.getElem?_eq_some_iff.mp h).2
  have hpos : 0 < m.flags.count false := by
    apply Array.count_pos_iff.mpr
    rw [← hfalse]
    exact Array.getElem_mem hlt
  simp only [mark, free, Array.setIfInBounds, hlt, ↓reduceDIte, Array.count_set, hfalse]
  change m.flags.count false - 1 + 0 < m.flags.count false
  omega

theorem free_mark_le (m : Marks) (place : Nat) : (m.mark place).free ≤ m.free := by
  by_cases h : m.isFree place = true
  · exact Nat.le_of_lt (free_mark_lt h)
  · by_cases hlt : place < m.flags.size
    · have htrue : m.flags[place] = true := by
        cases hp : m.flags[place] with
        | true => rfl
        | false => exact absurd (by simp [isFree, Array.getElem?_eq_getElem hlt, hp]) h
      simp only [mark, free, Array.setIfInBounds, hlt, ↓reduceDIte, Array.count_set, htrue]
      exact Nat.le_refl _
    · simp only [mark, free, Array.setIfInBounds, hlt, ↓reduceDIte]
      exact Nat.le_refl _

/-- Marks several places. -/
def markAll (m : Marks) (places : List Nat) : Marks := places.foldl mark m

theorem free_markAll_le (m : Marks) (places : List Nat) : (m.markAll places).free ≤ m.free := by
  induction places generalizing m with
  | nil => exact Nat.le_refl _
  | cons place places ih => exact Nat.le_trans (ih (m.mark place)) (free_mark_le m place)

@[simp] theorem isFree_clear (size place : Nat) :
    (clear size).isFree place = decide (place < size) := by
  by_cases h : place < size <;> simp [clear, isFree, h]

theorem isFree_mark (m : Marks) (i j : Nat) :
    (m.mark i).isFree j = (decide (i ≠ j) && m.isFree j) := by
  simp only [mark, isFree, Array.getElem?_setIfInBounds]
  by_cases hij : i = j
  · subst hij
    by_cases hlt : i < m.flags.size <;> simp [hlt]
  · simp [hij]

end Marks

end NilGuard
