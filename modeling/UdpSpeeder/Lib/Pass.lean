/-
  UdpSpeeder.Lib.Pass — a pass over a list: one element after the other, each changed by a
  step that also hands a state on, and that may stop. `List.foldlM` is the pass that leaves
  the elements as they are.
-/

import Mathlib.Data.List.Forall2

namespace UdpSpeeder.Lib

variable {α β σ ε : Type}

def passAll (f : α → σ → Except ε (β × σ)) : List α → σ → Except ε (List β × σ)
  | [], s => .ok ([], s)
  | a :: l, s => do
    let (b, s) ← f a s
    let (bs, s) ← passAll f l s
    .ok (b :: bs, s)

@[simp] theorem passAll_nil (f : α → σ → Except ε (β × σ)) (s : σ) : passAll f [] s = .ok ([], s) := rfl

theorem passAll_cons {f : α → σ → Except ε (β × σ)} {a : α} {l : List α} {s t : σ} {bs : List β} :
    passAll f (a :: l) s = .ok (bs, t) ↔ ∃ b s' bs', f a s = .ok (b, s') ∧ passAll f l s' = .ok (bs', t) ∧ bs = b :: bs' := by
  simp only [passAll]
  cases hf : f a s with
  | error e => simp [bind, Except.bind]
  | ok r =>
    obtain ⟨b, s'⟩ := r
    cases hrest : passAll f l s' with
    | error e => simp [bind, Except.bind, hrest]
    | ok r => simp [bind, Except.bind, hrest, Prod.ext_iff, and_comm, eq_comm]

/-- A step that always goes on, and keeps what the state promises. -/
theorem passAll_ok {f : α → σ → Except ε (β × σ)} {I : σ → Prop} {R : α → β → Prop} {l : List α}
    (h : ∀ a ∈ l, ∀ s, I s → ∃ b t, f a s = .ok (b, t) ∧ R a b ∧ I t) {s : σ} (hs : I s) :
    ∃ bs t, passAll f l s = .ok (bs, t) ∧ List.Forall₂ R l bs ∧ I t := by
  induction l generalizing s with
  | nil => exact ⟨[], s, rfl, .nil, hs⟩
  | cons a l ih =>
    obtain ⟨b, t, hf, hR, ht⟩ := h a List.mem_cons_self s hs
    obtain ⟨bs, u, hrest, hall, hu⟩ := ih (fun a' ha' => h a' (List.mem_cons_of_mem _ ha')) ht
    exact ⟨b :: bs, u, passAll_cons.mpr ⟨b, t, bs, hf, hrest, rfl⟩, .cons hR hall, hu⟩

/-- What the steps that were taken have in common. -/
theorem passAll_rel {f : α → σ → Except ε (β × σ)} {R : α → β → Prop} {l : List α}
    (h : ∀ a ∈ l, ∀ s b t, f a s = .ok (b, t) → R a b) {s t : σ} {bs : List β} (hrun : passAll f l s = .ok (bs, t)) :
    List.Forall₂ R l bs := by
  induction l generalizing s bs with
  | nil =>
    cases hrun
    exact .nil
  | cons a l ih =>
    obtain ⟨b, s', bs', hf, hrest, rfl⟩ := passAll_cons.mp hrun
    exact .cons (h a List.mem_cons_self s b s' hf) (ih (fun a' ha' => h a' (List.mem_cons_of_mem _ ha')) hrest)

theorem passAll_length {f : α → σ → Except ε (β × σ)} {l : List α} {s t : σ} {bs : List β} (hrun : passAll f l s = .ok (bs, t)) : l.length = bs.length :=
  (@passAll_rel _ _ _ _ f (fun _ _ => True) l (fun _ _ _ _ _ _ => trivial) s t bs hrun).length_eq

/-! ## `foldlM` -/

theorem foldlM_cons_ok {f : σ → α → Except ε σ} {a : α} {l : List α} {s t : σ} :
    (a :: l).foldlM f s = .ok t ↔ ∃ s', f s a = .ok s' ∧ l.foldlM f s' = .ok t := by
  rw [List.foldlM_cons]
  cases f s a <;> simp [bind, Except.bind]

/-- What every step keeps, the pass keeps. -/
theorem foldlM_inv {f : σ → α → Except ε σ} {I : σ → Prop} {l : List α} (h : ∀ s a t, a ∈ l → I s → f s a = .ok t → I t)
    {s t : σ} (hs : I s) (hrun : l.foldlM f s = .ok t) : I t := by
  induction l generalizing s with
  | nil =>
    cases hrun
    exact hs
  | cons a l ih =>
    obtain ⟨s', hstep, hrest⟩ := foldlM_cons_ok.mp hrun
    exact ih (fun s a t ha => h s a t (List.mem_cons_of_mem _ ha)) (h s a s' List.mem_cons_self hs hstep) hrest

/-- A step that always goes on. -/
theorem foldlM_ok {f : σ → α → Except ε σ} {I : σ → Prop} (h : ∀ s a, I s → ∃ t, f s a = .ok t ∧ I t) (l : List α)
    {s : σ} (hs : I s) : ∃ t, l.foldlM f s = .ok t ∧ I t := by
  induction l generalizing s with
  | nil => exact ⟨s, rfl, hs⟩
  | cons a l ih =>
    obtain ⟨s', hstep, hs'⟩ := h s a hs
    obtain ⟨t, hrest, ht⟩ := ih hs'
    exact ⟨t, foldlM_cons_ok.mpr ⟨s', hstep, hrest⟩, ht⟩

end UdpSpeeder.Lib
