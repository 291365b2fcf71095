/-
  UdpSpeeder.Lib.Relay — a relay: parties speak through sockets, and what a socket hears is for
  the party that owns it. Over any types of parties, sockets and things said.

  A socket gets an owner at some time, if ever, and keeps it. `Run` collects what an observer
  sees at both ends. Where something was seen, the run that led there and the step that showed
  it can be taken out (`Run.cut`); so what leaves a socket was said before by its owner
  (`Run.forwarded`), and what reaches a party was heard before by a socket of its own
  (`Run.delivered`).
-/

import Mathlib.Data.List.Induction
import Mathlib.Tactic.Cases

namespace UdpSpeeder.Lib

structure Relay (U S D : Type) where
  owner : S → Option U
  said : List (U × D)
  heard : List (S × D)

namespace Relay

variable {U S D : Type}

/-- What is seen. -/
inductive Event (U S D : Type) where
  | said (u : U) (d : D)
  | forwarded (s : S) (d : D)
  | heard (s : S) (d : D)
  | delivered (u : U) (d : D)

inductive Step (r : Relay U S D) : List (Event U S D) → Relay U S D → Prop
  | say (u : U) (d : D) : Step r [.said u d] { r with said := r.said ++ [(u, d)] }
  /-- Sockets that had no owner get one. -/
  | assign {owner : S → Option U} (h : ∀ s u, r.owner s = some u → owner s = some u) : Step r [] { r with owner := owner }
  | forward {u : U} {s : S} {d : D} (ho : r.owner s = some u) (hd : (u, d) ∈ r.said) : Step r [.forwarded s d] r
  | hear (s : S) (d : D) : Step r [.heard s d] { r with heard := r.heard ++ [(s, d)] }
  | deliver {u : U} {s : S} {d : D} (ho : r.owner s = some u) (hd : (s, d) ∈ r.heard) : Step r [.delivered u d] r

/-- The relay after a number of steps, with what was seen on the way. -/
inductive Run : List (Event U S D) → Relay U S D → Prop
  | start : Run [] ⟨fun _ => none, [], []⟩
  | step {es e : List (Event U S D)} {r r' : Relay U S D} (h : Run es r) (hs : Step r e r') : Run (es ++ e) r'

variable {es : List (Event U S D)} {r : Relay U S D}

/-! ## Many steps of a kind -/

theorem Run.say_all (h : Run es r) (l : List (U × D)) : Run (es ++ l.map fun x => .said x.1 x.2) { r with said := r.said ++ l } := by
  induction l using List.reverseRecOn with
  | nil => simpa using h
  | append_singleton l x ih =>
    have hstep := ih.step (.say x.1 x.2)
    simpa using hstep

theorem Run.forward_all (h : Run es r) {l : List (S × D)} (hl : ∀ x ∈ l, ∃ u, r.owner x.1 = some u ∧ (u, x.2) ∈ r.said) :
    Run (es ++ l.map fun x => .forwarded x.1 x.2) r := by
  induction l using List.reverseRecOn with
  | nil => simpa using h
  | append_singleton l x ih =>
    obtain ⟨u, ho, hd⟩ := hl x (by simp)
    have hstep := (ih fun y hy => hl y (List.mem_append_left _ hy)).step (.forward ho hd)
    simpa using hstep

theorem Run.deliver_all (h : Run es r) {l : List (U × D)} (hl : ∀ x ∈ l, ∃ s, r.owner s = some x.1 ∧ (s, x.2) ∈ r.heard) :
    Run (es ++ l.map fun x => .delivered x.1 x.2) r := by
  induction l using List.reverseRecOn with
  | nil => simpa using h
  | append_singleton l x ih =>
    obtain ⟨s, ho, hd⟩ := hl x (by simp)
    have hstep := (ih fun y hy => hl y (List.mem_append_left _ hy)).step (.deliver ho hd)
    simpa using hstep

/-! ## What was seen -/

theorem Step.owner {e : List (Event U S D)} {r' : Relay U S D} (hs : Step r e r') {s : S} {u : U} (ho : r.owner s = some u) : r'.owner s = some u := by
  cases hs with
  | assign h => exact h s u ho
  | say u d => exact ho
  | forward ho' hd => exact ho
  | hear s d => exact ho
  | deliver ho' hd => exact ho

/-- Nothing is remembered that was not seen. -/
theorem Run.seen (h : Run es r) : (∀ u d, (u, d) ∈ r.said → .said u d ∈ es) ∧ ∀ s d, (s, d) ∈ r.heard → .heard s d ∈ es := by
  induction h with
  | start => exact ⟨fun u d hd => absurd hd List.not_mem_nil, fun s d hd => absurd hd List.not_mem_nil⟩
  | @step es e r r' h hs ih =>
    obtain ⟨hsaid, hheard⟩ := ih
    cases hs with
    | say u d =>
      refine ⟨?_, fun s' d' hd => List.mem_append_left _ (hheard s' d' hd)⟩
      intro u' d' hd
      rcases List.mem_append.mp hd with hd | hd
      · exact List.mem_append_left _ (hsaid u' d' hd)
      · cases List.mem_singleton.mp hd
        exact List.mem_append_right _ List.mem_cons_self
    | hear s d =>
      refine ⟨fun u' d' hd => List.mem_append_left _ (hsaid u' d' hd), ?_⟩
      intro s' d' hd
      rcases List.mem_append.mp hd with hd | hd
      · exact List.mem_append_left _ (hheard s' d' hd)
      · cases List.mem_singleton.mp hd
        exact List.mem_append_right _ List.mem_cons_self
    | assign h => exact ⟨fun u d hd => List.mem_append_left _ (hsaid u d hd), fun s d hd => List.mem_append_left _ (hheard s d hd)⟩
    | forward ho hd => exact ⟨fun u d hd => List.mem_append_left _ (hsaid u d hd), fun s d hd => List.mem_append_left _ (hheard s d hd)⟩
    | deliver ho hd => exact ⟨fun u d hd => List.mem_append_left _ (hsaid u d hd), fun s d hd => List.mem_append_left _ (hheard s d hd)⟩

/-- The run up to an event, and the step that shows it; owners stay. -/
theorem Run.cut (h : Run es r) {before after : List (Event U S D)} {x : Event U S D} (hes : es = before ++ x :: after) :
    ∃ r1 r2, Run before r1 ∧ Step r1 [x] r2 ∧ ∀ s u, r1.owner s = some u → r.owner s = some u := by
  induction h generalizing before after with
  | start => exact absurd hes.symm (List.append_ne_nil_of_right_ne_nil _ (List.cons_ne_nil _ _))
  | @step es e r r' h hs ih =>
    have hlast : e = [] ∨ ∃ y, e = [y] := by
      cases hs with
      | assign h => exact .inl rfl
      | say u d => exact .inr ⟨_, rfl⟩
      | forward ho hd => exact .inr ⟨_, rfl⟩
      | hear s d => exact .inr ⟨_, rfl⟩
      | deliver ho hd => exact .inr ⟨_, rfl⟩
    rcases hlast with rfl | ⟨y, rfl⟩
    · rw [List.append_nil] at hes
      obtain ⟨r1, r2, hrun, hstep, howner⟩ := ih hes
      exact ⟨r1, r2, hrun, hstep, fun s u ho => hs.owner (howner s u ho)⟩
    · rcases List.eq_nil_or_concat after with rfl | ⟨after, z, rfl⟩
      · obtain ⟨rfl, heq⟩ := List.append_inj' hes rfl
        cases heq
        exact ⟨r, r', h, hs, fun s u ho => hs.owner ho⟩
      · rw [List.concat_eq_append, ← List.cons_append, ← List.append_assoc] at hes
        obtain ⟨heq, -⟩ := List.append_inj' hes rfl
        obtain ⟨r1, r2, hrun, hstep, howner⟩ := ih heq
        exact ⟨r1, r2, hrun, hstep, fun s u ho => hs.owner (howner s u ho)⟩

/-- What left a socket was said before, by its owner. -/
theorem Run.forwarded (h : Run es r) {before after : List (Event U S D)} {s : S} {d : D} (hes : es = before ++ .forwarded s d :: after) :
    ∃ u, r.owner s = some u ∧ .said u d ∈ before := by
  obtain ⟨r1, r2, hrun, hstep, howner⟩ := h.cut hes
  cases hstep with
  | forward ho hd => exact ⟨_, howner _ _ ho, hrun.seen.1 _ _ hd⟩

/-- What reached a party was heard before, by a socket of its own. -/
theorem Run.delivered (h : Run es r) {before after : List (Event U S D)} {u : U} {d : D} (hes : es = before ++ .delivered u d :: after) :
    ∃ s, r.owner s = some u ∧ .heard s d ∈ before := by
  obtain ⟨r1, r2, hrun, hstep, howner⟩ := h.cut hes
  cases hstep with
  | deliver ho hd => exact ⟨_, howner _ _ ho, hrun.seen.2 _ _ hd⟩

end Relay

end UdpSpeeder.Lib
