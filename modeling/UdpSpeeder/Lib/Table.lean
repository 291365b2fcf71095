/-
  UdpSpeeder.Lib.Table — hash maps as association lists without double keys: how many
  entries they have, and two maps that hold the same pairs, read from either side.
-/

import Mathlib.Data.List.AList

namespace UdpSpeeder.Lib

variable {κ α : Type} [DecidableEq κ]

/-- A map from `κ` to `α`. -/
abbrev Table (κ α : Type) := AList fun _ : κ => α

theorem mem_of_lookup {t : Table κ α} {k : κ} {a : α} (h : t.lookup k = some a) : k ∈ t :=
  AList.lookup_isSome.mp (Option.isSome_of_eq_some h)

theorem exists_lookup {t : Table κ α} {k : κ} (h : k ∈ t) : ∃ a, t.lookup k = some a :=
  Option.isSome_iff_exists.mp (AList.lookup_isSome.mpr h)

theorem lookup_insert_eq (t : Table κ α) (k : κ) (a : α) (k' : κ) : (t.insert k a).lookup k' = if k' = k then some a else t.lookup k' := by
  split
  · rename_i h
    rw [h, AList.lookup_insert]
  · rename_i h
    exact AList.lookup_insert_ne h

theorem lookup_erase_eq (t : Table κ α) (k k' : κ) : (t.erase k).lookup k' = if k' = k then none else t.lookup k' := by
  split
  · rename_i h
    rw [h, AList.lookup_erase]
  · rename_i h
    exact AList.lookup_erase_ne h

/-! ## Size -/

theorem length_insert_le (t : Table κ α) (k : κ) (a : α) : (t.insert k a).entries.length ≤ t.entries.length + 1 := by
  rw [AList.entries_insert, List.length_cons]
  exact Nat.succ_le_succ (List.kerase_sublist k t.entries).length_le

theorem length_erase_le (t : Table κ α) (k : κ) : (t.erase k).entries.length ≤ t.entries.length :=
  (List.kerase_sublist k t.entries).length_le

/-- What was put in goes out again. -/
theorem length_erase_insert_le (t : Table κ α) (k : κ) (a : α) : ((t.insert k a).erase k).entries.length ≤ t.entries.length := by
  have hkeys : ((t.insert k a).erase k).entries = List.kerase k t.entries := by
    show List.kerase k (t.insert k a).entries = _
    rw [AList.entries_insert]
    exact List.kerase_cons_eq rfl
  rw [hkeys]
  exact (List.kerase_sublist k t.entries).length_le

/-! ## Inverse maps -/

section Inverse

variable [DecidableEq α] {s : Table κ α} {t : Table α κ}

/-- The same pairs in both. -/
def Inverse (s : Table κ α) (t : Table α κ) : Prop := ∀ k a, s.lookup k = some a ↔ t.lookup a = some k

theorem inverse_empty : Inverse (∅ : Table κ α) ∅ := fun k a => by simp

/-- A new pair in both. -/
theorem Inverse.insert (h : Inverse s t) {k : κ} {a : α} (hk : k ∉ s) (ha : a ∉ t) : Inverse (s.insert k a) (t.insert a k) := by
  intro k' a'
  have hk' := AList.lookup_eq_none.mpr hk
  have ha' := AList.lookup_eq_none.mpr ha
  rw [lookup_insert_eq, lookup_insert_eq]
  by_cases h1 : k' = k
  · subst h1
    by_cases h2 : a' = a
    · simp [h2]
    · rw [if_pos rfl, if_neg h2, ← h, hk']
      simp [Ne.symm h2]
  · by_cases h2 : a' = a
    · subst h2
      rw [if_neg h1, if_pos rfl, h, ha']
      simp [Ne.symm h1]
    · rw [if_neg h1, if_neg h2, h]

/-- A pair taken out of both. -/
theorem Inverse.erase (h : Inverse s t) {k : κ} {a : α} (hka : s.lookup k = some a) : Inverse (s.erase k) (t.erase a) := by
  intro k' a'
  rw [lookup_erase_eq, lookup_erase_eq]
  by_cases h1 : k' = k
  · subst h1
    by_cases h2 : a' = a
    · simp [h2]
    · rw [if_pos rfl, if_neg h2, ← h, hka]
      simp [Ne.symm h2]
  · by_cases h2 : a' = a
    · subst h2
      rw [if_neg h1, if_pos rfl, h, (h k a').mp hka]
      simp [Ne.symm h1]
    · rw [if_neg h1, if_neg h2, h]

end Inverse

end UdpSpeeder.Lib
