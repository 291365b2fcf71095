/-
  UdpSpeeder.Lib.Agenda — what waits for its time, in a list kept by key: a new entry goes
  behind those whose key is not above its own, and the front is served first.

  `InOrder` says that what was served, then what waits, is everything that was added, by key
  and among equal keys by arrival. Adding keeps it if nothing served has a larger key
  (`InOrder.add`), serving from the front keeps it (`InOrder.serve`).
-/

import Mathlib.Data.List.Sort

namespace UdpSpeeder.Lib

variable {α β : Type} {key : α → Nat}

/-- Entries with their places of arrival: by key, then by arrival. -/
def Before (key : α → Nat) (a b : α × Nat) : Prop := key a.1 < key b.1 ∨ key a.1 = key b.1 ∧ a.2 < b.2

def InOrder (key : α → Nat) (added served waiting : List α) : Prop :=
  ∃ order : List (α × Nat), order.Perm added.zipIdx ∧ order.Pairwise (Before key) ∧ order.map Prod.fst = served ++ waiting

/-- `a` behind the entries whose key is not above its own. -/
def enter (key : α → Nat) (a : α) (waiting : List α) : List α := waiting.orderedInsert (fun a b => key a < key b) a

theorem enter_map (f : β → α) (a : β) (waiting : List β) :
    (enter (fun b => key (f b)) a waiting).map f = enter key (f a) (waiting.map f) :=
  List.map_orderedInsert _ _ f waiting a (fun _ _ => Iff.rfl) fun _ _ => Iff.rfl

theorem enter_length (a : α) (waiting : List α) : (enter key a waiting).length = waiting.length + 1 :=
  List.orderedInsert_length _ _ _

/-- Where it goes, in a list already by key. -/
theorem enter_eq (a : α) {waiting : List α} (hsorted : waiting.Pairwise fun a b => key a ≤ key b) :
    ∃ front back, waiting = front ++ back ∧ enter key a waiting = front ++ a :: back ∧
      (∀ b ∈ front, key b ≤ key a) ∧ ∀ b ∈ back, key a < key b := by
  induction waiting with
  | nil => exact ⟨[], [], rfl, rfl, by simp, by simp⟩
  | cons b rest ih =>
    obtain ⟨hb, hrest⟩ := List.pairwise_cons.mp hsorted
    by_cases hlt : key a < key b
    · refine ⟨[], b :: rest, rfl, List.orderedInsert_cons_of_le _ _ hlt, by simp, fun c hc => ?_⟩
      rcases List.mem_cons.mp hc with rfl | hc
      · exact hlt
      · exact hlt.trans_le (hb c hc)
    · obtain ⟨front, back, rfl, h, hfront, hback⟩ := ih hrest
      refine ⟨b :: front, back, rfl, ?_, ?_, hback⟩
      · unfold enter at h ⊢
        rw [List.orderedInsert_of_not_le (r := fun a b => key a < key b) _ hlt, h, List.cons_append]
      · intro c hc
        rcases List.mem_cons.mp hc with rfl | hc
        · exact Nat.not_lt.mp hlt
        · exact hfront c hc

namespace InOrder

variable {added served waiting : List α}

theorem nil : InOrder key ([] : List α) [] [] := ⟨[], .nil, .nil, rfl⟩

/-- Everything added is in one of the two, as many times as it was added. -/
theorem perm (h : InOrder key added served waiting) : (served ++ waiting).Perm added := by
  obtain ⟨order, hperm, -, hmap⟩ := h
  rw [← hmap, ← List.zipIdx_map_fst 0 added]
  exact hperm.map Prod.fst

theorem sorted (h : InOrder key added served waiting) : (served ++ waiting).Pairwise fun a b => key a ≤ key b := by
  obtain ⟨order, -, hpair, hmap⟩ := h
  rw [← hmap, List.pairwise_map]
  refine hpair.imp fun {a b} hab => ?_
  rcases hab with hlt | ⟨heq, -⟩
  · exact hlt.le
  · exact heq.le

theorem serve {front : List α} (h : InOrder key added served (front ++ waiting)) : InOrder key added (served ++ front) waiting := by
  unfold InOrder at h ⊢
  rwa [List.append_assoc]

/-- A new entry takes its place, when nothing served has a larger key. -/
theorem add (h : InOrder key added served waiting) (a : α) (hserved : ∀ b ∈ served, key b ≤ key a) :
    InOrder key (added ++ [a]) served (enter key a waiting) := by
  obtain ⟨front, back, rfl, he, hfront, hback⟩ := enter_eq a (List.pairwise_append.mp h.sorted).2.1
  obtain ⟨order, hperm, hpair, hmap⟩ := h
  rw [← List.append_assoc] at hmap
  obtain ⟨early, late, rfl, hearly, hlate⟩ := List.map_eq_append_iff.mp hmap
  have hidx : ∀ x ∈ early ++ late, x.2 < added.length := by
    intro x hx
    have := List.snd_lt_of_mem_zipIdx (hperm.mem_iff.mp hx)
    omega
  have hkey : ∀ x ∈ early, key x.1 ≤ key a := by
    intro x hx
    have hmem : x.1 ∈ served ++ front := hearly ▸ List.mem_map_of_mem hx
    rcases List.mem_append.mp hmem with hm | hm
    · exact hserved _ hm
    · exact hfront _ hm
  have hlater : ∀ x ∈ late, key a < key x.1 := fun x hx => hback _ (hlate ▸ List.mem_map_of_mem hx)
  refine ⟨early ++ (a, added.length) :: late, ?_, ?_, ?_⟩
  · rw [List.zipIdx_append]
    refine List.perm_middle.trans ?_
    rw [Nat.zero_add]
    exact (List.perm_append_singleton _ _).symm.trans (hperm.append_right _) |>.trans (by rfl)
  · obtain ⟨h1, h2, h3⟩ := List.pairwise_append.mp hpair
    refine List.pairwise_append.mpr ⟨h1, List.pairwise_cons.mpr ⟨fun x hx => .inl (hlater x hx), h2⟩, fun x hx y hy => ?_⟩
    rcases List.mem_cons.mp hy with rfl | hy
    · have hlt := hidx x (List.mem_append_left _ hx)
      rcases (hkey x hx).lt_or_eq with hk | hk
      · exact .inl hk
      · exact .inr ⟨hk, hlt⟩
    · exact h3 x hx y hy
  · rw [List.map_append, List.map_cons, hearly, hlate, he, List.append_assoc]

end InOrder

end UdpSpeeder.Lib
