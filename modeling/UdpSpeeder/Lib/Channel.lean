/-
  UdpSpeeder.Lib.Channel — a channel that takes things one by one and hands them over in
  batches, each batch at most once and in any order, over any type.

  A batch is a run of consecutive things, closed at any time; what is not closed yet is
  pending. `Run` collects what the two ends see. In every run the batches and what is pending
  are what was taken, in order (`Run.takens`), so what was handed over is part of it
  (`Run.subperm`), batch by batch (`Run.consecutive`), and all of it once every batch was
  (`Run.complete`).
-/

import Mathlib.Data.List.Basic
import Mathlib.Data.List.Nodup
import Mathlib.Data.List.Flatten
import Mathlib.Data.List.GetD
import Mathlib.Data.List.Induction
import Mathlib.Data.List.Perm.Subperm

namespace UdpSpeeder.Lib

structure Channel (α : Type) where
  sent : List (List α)
  pending : List α
  got : List Nat

namespace Channel

variable {α : Type}

/-- What an end sees. -/
inductive Event (α : Type) where
  | took (a : α)
  | handed (batch : List α)

inductive Step (c : Channel α) : List (Event α) → Channel α → Prop
  | take (a : α) : Step c [.took a] ⟨c.sent, c.pending ++ [a], c.got⟩
  | close (n : Nat) : Step c [] ⟨c.sent ++ [c.pending.take n], c.pending.drop n, c.got⟩
  | hand {i : Nat} (hi : i < c.sent.length) (hnew : i ∉ c.got) : Step c [.handed c.sent[i]] ⟨c.sent, c.pending, c.got ++ [i]⟩

/-- The channel after a number of steps, with what was seen on the way. -/
inductive Run : List (Event α) → Channel α → Prop
  | start : Run [] ⟨[], [], []⟩
  | step {es e : List (Event α)} {c c' : Channel α} (h : Run es c) (hs : Step c e c') : Run (es ++ e) c'

variable {es : List (Event α)} {c : Channel α}

theorem Run.take (h : Run es c) (as : List α) : Run (es ++ as.map .took) ⟨c.sent, c.pending ++ as, c.got⟩ := by
  induction as using List.reverseRecOn with
  | nil => simpa using h
  | append_singleton as a ih =>
    have := ih.step (.take a)
    simpa using this

theorem Run.close (h : Run es c) {batches : List (List α)} {rest : List α} (hp : c.pending = batches.flatten ++ rest) :
    Run es ⟨c.sent ++ batches, rest, c.got⟩ := by
  induction batches generalizing c with
  | nil =>
    obtain ⟨sent, pending, got⟩ := c
    obtain rfl : pending = rest := hp
    simpa using h
  | cons b batches ih =>
    have hstep := h.step (.close b.length)
    rw [hp, List.flatten_cons, List.append_assoc, List.take_left, List.drop_left, List.append_nil] at hstep
    simpa using ih hstep rfl

theorem Run.hand (h : Run es c) {i : Nat} (hi : i < c.sent.length) (hnew : i ∉ c.got) :
    Run (es ++ [.handed c.sent[i]]) ⟨c.sent, c.pending, c.got ++ [i]⟩ := h.step (.hand hi hnew)

/-! ## What was seen -/

def takens (es : List (Event α)) : List α :=
  es.filterMap fun | .took a => some a | .handed _ => none

def handeds (es : List (Event α)) : List (List α) :=
  es.filterMap fun | .took _ => none | .handed b => some b

theorem takens_append (es fs : List (Event α)) : takens (es ++ fs) = takens es ++ takens fs := List.filterMap_append

theorem takens_handed (bs : List (List α)) : takens (bs.map .handed) = [] := by
  induction bs with
  | nil => rfl
  | cons b bs ih => exact ih

theorem handeds_append (es fs : List (Event α)) : handeds (es ++ fs) = handeds es ++ handeds fs := List.filterMap_append

/-- The batches and what is pending are what was taken, in order. -/
theorem Run.takens (h : Run es c) : takens es = c.sent.flatten ++ c.pending := by
  induction h with
  | start => rfl
  | step h hs ih =>
    rw [takens_append, ih]
    cases hs with
    | take a => simp [Channel.takens]
    | close n => simp [Channel.takens]
    | hand hi hnew => simp [Channel.takens]

/-- What was handed over are batches, no batch twice. -/
theorem Run.handeds (h : Run es c) : c.got.Nodup ∧ (∀ i ∈ c.got, i < c.sent.length) ∧
    handeds es = c.got.map fun i => c.sent.getD i [] := by
  induction h with
  | start => exact ⟨List.nodup_nil, by simp, rfl⟩
  | @step es e c c' h hs ih =>
    obtain ⟨hnodup, hlt, heq⟩ := ih
    rw [handeds_append, heq]
    cases hs with
    | take a => exact ⟨hnodup, hlt, by simp [Channel.handeds]⟩
    | close n =>
      refine ⟨hnodup, fun i hi => by have := hlt i hi; simp; omega, ?_⟩
      rw [show Channel.handeds ([] : List (Event α)) = [] from rfl, List.append_nil]
      apply List.map_congr_left
      intro i hi
      rw [List.getD_append _ _ _ _ (hlt i hi)]
    | @hand i hi hnew =>
      refine ⟨List.nodup_append.mpr ⟨hnodup, List.nodup_singleton i, fun a ha b hb => ?_⟩, ?_, ?_⟩
      · intro heq
        subst heq
        exact hnew (List.mem_singleton.mp hb ▸ ha)
      · intro j hj
        rcases List.mem_append.mp hj with hj | hj
        · exact hlt j hj
        · rw [List.mem_singleton.mp hj]
          exact hi
      · rw [List.map_append, List.map_singleton, List.getD_eq_getElem _ _ hi]
        rfl

theorem map_range_getD (ls : List (List α)) : (List.range ls.length).map (fun i => ls.getD i []) = ls := by
  apply List.ext_getElem
  · simp
  intro i h1 h2
  rw [List.getElem_map, List.getElem_range, List.getD_eq_getElem _ _ h2]

/-- A choice of batches, none of them twice, is part of all of them. -/
theorem subperm_flatten {ls : List (List α)} {is : List Nat} (hnodup : is.Nodup) (hlt : ∀ i ∈ is, i < ls.length) :
    (is.map fun i => ls.getD i []).flatten.Subperm ls.flatten := by
  obtain ⟨js, hperm, hsub⟩ : is.Subperm (List.range ls.length) := hnodup.subperm fun i hi => List.mem_range.mpr (hlt i hi)
  have hflat := (hsub.map fun i => ls.getD i []).flatten
  rw [map_range_getD] at hflat
  exact ⟨_, (hperm.map _).flatten, hflat⟩

/-- No more comes out than went in. -/
theorem Run.subperm (h : Run es c) : (Channel.handeds es).flatten.Subperm (Channel.takens es) := by
  obtain ⟨hnodup, hlt, heq⟩ := h.handeds
  rw [h.takens, heq]
  exact (subperm_flatten hnodup hlt).trans (List.sublist_append_left _ _).subperm

/-- Once every batch has come out, all that was taken has, but for what is pending. -/
theorem Run.complete (h : Run es c) (hall : ∀ i < c.sent.length, i ∈ c.got) :
    (Channel.takens es).Perm ((Channel.handeds es).flatten ++ c.pending) := by
  obtain ⟨hnodup, hlt, heq⟩ := h.handeds
  have hperm : c.got.Perm (List.range c.sent.length) := by
    rw [List.perm_ext_iff_of_nodup hnodup List.nodup_range]
    intro i
    rw [List.mem_range]
    exact ⟨hlt i, hall i⟩
  have hflat := (hperm.map fun i => c.sent.getD i []).flatten
  rw [map_range_getD] at hflat
  rw [h.takens, heq]
  exact hflat.symm.append_right _

/-- A batch is a run of consecutive things that were taken. -/
theorem Run.consecutive (h : Run es c) {b : List α} (hb : b ∈ Channel.handeds es) : b <:+: Channel.takens es := by
  obtain ⟨-, hlt, heq⟩ := h.handeds
  rw [heq] at hb
  obtain ⟨i, hi, rfl⟩ := List.mem_map.mp hb
  rw [h.takens]
  refine List.IsInfix.trans ?_ (List.prefix_append _ _).isInfix
  rw [List.getD_eq_getElem _ _ (hlt i hi)]
  exact List.infix_of_mem_flatten (List.getElem_mem _)

end Channel

end UdpSpeeder.Lib
