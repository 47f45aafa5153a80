import Mathlib.Data.List.Forall2
import NilGuard.Proofs.Evaluation
/-! Tables as maps from names, and tables that were extended: their entries stay in order, each
under its name, and new ones come after them. -/
namespace NilGuard

/-- In a list of entries with distinct keys every entry is found. -/
theorem lookup_of_mem {κ α : Type} [BEq κ] [LawfulBEq κ] {entries : List (κ × α)} {key : κ} {a : α}
    (hNodup : (entries.map Prod.fst).Nodup) (h : (key, a) ∈ entries) :
    entries.lookup key = some a := by
  obtain ⟨before, after, rfl⟩ := List.append_of_mem h
  rw [List.map_append, List.map_cons] at hNodup
  refine List.lookup_eq_some_iff.mpr ⟨before, after, rfl, fun e he => ?_⟩
  have hNe := (List.nodup_append.mp hNodup).2.2 e.1 (List.mem_map_of_mem he) key
    List.mem_cons_self
  simpa [bne_iff_ne] using Ne.symm hNe

namespace Table

variable {α : Type} {t u : Table α} {key other : String} {f : α → α} {a b : α}

theorem find?_eq_none_iff : t.find? key = none ↔ key ∉ t.keys := by
  rw [find?, List.lookup_eq_none_iff, keys]
  simp only [List.mem_map, not_exists, not_and, bne_iff_ne, ne_eq]
  exact ⟨fun h e he hKey => h e he hKey.symm, fun h e he hKey => h e he hKey.symm⟩

theorem mem_entries_of_find? (h : t.find? key = some a) : (key, a) ∈ t.entries := by
  obtain ⟨before, after, hEntries, -⟩ := List.lookup_eq_some_iff.mp h
  rw [hEntries]
  simp

theorem mem_keys_of_mem_entries (h : (key, a) ∈ t.entries) : key ∈ t.keys :=
  List.mem_map_of_mem h

/-- In a table with distinct names every entry is found. -/
theorem find?_of_mem_entries (hNodup : t.keys.Nodup) (h : (key, a) ∈ t.entries) :
    t.find? key = some a :=
  lookup_of_mem hNodup h

theorem find?_cons (e : String × α) (entries : List (String × α)) :
    find? ⟨e :: entries⟩ key = if key = e.1 then some e.2 else find? ⟨entries⟩ key := by
  obtain ⟨name, a⟩ := e
  rw [find?, List.lookup_cons]
  by_cases hKey : key = name
  · simp [hKey]
  · simp [hKey, beq_false_of_ne hKey, find?]

theorem keys_modify : (t.modify key f).keys = t.keys := by
  rw [keys, modify, List.map_map]
  refine List.map_congr_left fun e _ => ?_
  simp only [Function.comp_apply]
  split <;> rfl

theorem find?_modify : (t.modify key f).find? other =
    if other = key then (t.find? other).map f else t.find? other := by
  obtain ⟨entries⟩ := t
  induction entries with
  | nil => simp [modify, find?]
  | cons e entries ih =>
      rw [modify] at ih ⊢
      rw [List.map_cons, find?_cons, ih, find?_cons]
      by_cases hKey : e.1 = key
      · by_cases hOther : other = key
        · simp [hKey, hOther]
        · simp [hKey, hOther]
      · by_cases hOther : other = e.1
        · simp [hKey, hOther]
        · simp [hKey, hOther]

theorem find?_append (entries new : List (String × α)) :
    find? ⟨entries ++ new⟩ key = (find? ⟨entries⟩ key).or (find? ⟨new⟩ key) :=
  List.lookup_append

theorem entries_insert_of_find?_eq_none (h : t.find? key = none) :
    (t.insert key a).entries = t.entries ++ [(key, a)] := by
  rw [insert, contains, h]
  rfl

theorem find?_insert : (t.insert key a).find? other =
    if other = key then some a else t.find? other := by
  unfold insert contains
  cases hFind : t.find? key with
  | some b =>
      rw [Option.isSome_some, if_pos rfl, find?_modify]
      by_cases hOther : other = key
      · simp [hOther, hFind]
      · simp [hOther]
  | none =>
      rw [Option.isSome_none, if_neg Bool.false_ne_true, find?_append, find?_cons]
      by_cases hOther : other = key
      · simp [hOther, hFind]
      · simp [hOther, find?]

theorem find?_insertIfNew : (t.insertIfNew key a).find? other =
    if other = key then some ((t.find? key).getD a) else t.find? other := by
  unfold insertIfNew contains
  cases hFind : t.find? key with
  | some b =>
      rw [Option.isSome_some, if_pos rfl]
      by_cases hOther : other = key
      · simp [hOther, hFind]
      · simp [hOther]
  | none =>
      rw [Option.isSome_none, if_neg Bool.false_ne_true, find?_append, find?_cons]
      by_cases hOther : other = key
      · simp [hOther, hFind]
      · simp [hOther, find?]

theorem nodup_keys_append (hNodup : t.keys.Nodup) (h : t.find? key = none) :
    (keys ⟨t.entries ++ [(key, a)]⟩).Nodup := by
  rw [keys, List.map_append]
  refine List.nodup_append.mpr ⟨hNodup, by simp, fun x hx y hy hEq => ?_⟩
  have hy : y = key := by simpa using hy
  exact find?_eq_none_iff.mp h (hy ▸ hEq ▸ hx)

theorem nodup_keys_insert (hNodup : t.keys.Nodup) : (t.insert key a).keys.Nodup := by
  unfold insert contains
  cases hFind : t.find? key with
  | some b => rwa [Option.isSome_some, if_pos rfl, keys_modify]
  | none =>
      rw [Option.isSome_none, if_neg Bool.false_ne_true]
      exact nodup_keys_append hNodup hFind

theorem nodup_keys_insertIfNew (hNodup : t.keys.Nodup) : (t.insertIfNew key a).keys.Nodup := by
  unfold insertIfNew contains
  cases hFind : t.find? key with
  | some b => rwa [Option.isSome_some, if_pos rfl]
  | none =>
      rw [Option.isSome_none, if_neg Bool.false_ne_true]
      exact nodup_keys_append hNodup hFind

/-- The entries of the one are the first of the other, under the same names in the same order,
and each has become what the relation allows. -/
def Extends (R : α → α → Prop) (t u : Table α) : Prop :=
  List.Forall₂ (fun e d => e.1 = d.1 ∧ R e.2 d.2) t.entries (u.entries.take t.entries.length)

variable {R : α → α → Prop}

theorem Extends.refl (hR : ∀ a, R a a) (t : Table α) : t.Extends R t := by
  rw [Extends, List.take_length]
  exact List.forall₂_same.mpr fun e _ => ⟨rfl, hR e.2⟩

theorem Extends.length_le (h : t.Extends R u) : t.entries.length ≤ u.entries.length := by
  have hLength := List.Forall₂.length_eq h
  rw [List.length_take] at hLength
  omega

theorem Extends.append (h : t.Extends R u) (new : List (String × α)) :
    t.Extends R ⟨u.entries ++ new⟩ := by
  rw [Extends, List.take_append_of_le_length h.length_le]
  exact h

theorem exists_find?_of_forall₂ {es ds : List (String × α)}
    (h : List.Forall₂ (fun e d => e.1 = d.1 ∧ R e.2 d.2) es ds)
    (hFind : Table.find? ⟨es⟩ key = some a) : ∃ b, Table.find? ⟨ds⟩ key = some b ∧ R a b := by
  induction h with
  | nil => cases hFind
  | @cons e d es ds hHead hTail ih =>
      rw [find?_cons] at hFind ⊢
      rw [← hHead.1]
      by_cases hKey : key = e.1
      · rw [if_pos hKey] at hFind ⊢
        cases hFind
        exact ⟨d.2, rfl, hHead.2⟩
      · rw [if_neg hKey] at hFind ⊢
        exact ih hFind

/-- What was found before is found again, as the relation allows it to be. -/
theorem Extends.find? (h : t.Extends R u) (hFind : t.find? key = some a) :
    ∃ b, u.find? key = some b ∧ R a b := by
  obtain ⟨b, hb, hR⟩ := exists_find?_of_forall₂ h hFind
  have hSplit : u.find? key = (Table.find? ⟨u.entries.take t.entries.length⟩ key).or
      (Table.find? ⟨u.entries.drop t.entries.length⟩ key) := by
    rw [← find?_append, List.take_append_drop]
  exact ⟨b, by rw [hSplit, hb, Option.some_or], hR⟩

theorem Extends.find?_eq_none (h : t.Extends R u) (hFind : u.find? key = none) :
    t.find? key = none := by
  cases hOld : t.find? key with
  | none => rfl
  | some a =>
      obtain ⟨b, hb, -⟩ := h.find? hOld
      rw [hFind] at hb
      cases hb

theorem forall₂_modify {es ds : List (String × α)}
    (h : List.Forall₂ (fun e d => e.1 = d.1 ∧ R e.2 d.2) es ds)
    (hf : ∀ a b, (key, a) ∈ es → (key, b) ∈ ds → R a b → R a (f b)) :
    List.Forall₂ (fun e d => e.1 = d.1 ∧ R e.2 d.2) es (Table.modify ⟨ds⟩ key f).entries := by
  induction h with
  | nil => exact .nil
  | @cons e d es ds hHead hTail ih =>
      refine .cons ?_ (ih fun a b ha hb => hf a b (List.mem_cons_of_mem e ha)
        (List.mem_cons_of_mem d hb))
      dsimp only
      split
      case isTrue hKey =>
        refine ⟨hHead.1, hf e.2 d.2 ?_ ?_ hHead.2⟩
        · rw [← hKey, ← hHead.1]
          exact List.mem_cons_self
        · rw [← hKey]
          exact List.mem_cons_self
      case isFalse => exact hHead

/-- An entry may be changed if what the old one may become includes the change. -/
theorem Extends.modify (h : t.Extends R u)
    (hf : ∀ a b, (key, a) ∈ t.entries → (key, b) ∈ u.entries → R a b → R a (f b)) :
    t.Extends R (u.modify key f) := by
  have hTake := forall₂_modify h fun a b ha hb => hf a b ha (List.mem_of_mem_take hb)
  rw [Extends, Table.modify, ← List.map_take]
  exact hTake

theorem Extends.modify_of_find?_eq_none (h : t.Extends R u) (hNew : t.find? key = none) :
    t.Extends R (u.modify key f) :=
  h.modify fun _ _ ha _ _ =>
    absurd (mem_keys_of_mem_entries ha) (find?_eq_none_iff.mp hNew)

theorem Extends.insert (h : t.Extends R u) (hNew : t.find? key = none) :
    t.Extends R (u.insert key a) := by
  unfold Table.insert
  split
  case isTrue => exact h.modify_of_find?_eq_none hNew
  case isFalse => exact h.append _

theorem Extends.insertIfNew (h : t.Extends R u) : t.Extends R (u.insertIfNew key a) := by
  unfold Table.insertIfNew
  split
  case isTrue => exact h
  case isFalse => exact h.append _

end Table

end NilGuard
