/-
  UdpSpeeder.Lib.Simulate — two machines that answer alike.

  A machine takes an input to a new state and an answer, or fails. `Agree R` relates two
  runs that fail with the same error or end in results related by `R`; it goes through
  binds (`Agree.bind`). Machines whose steps agree under a relation on their states give the
  same answers, and fail at the same input, on every list of inputs (`trace_eq`).
-/

import UdpSpeeder.Lib.Loop

namespace UdpSpeeder.Lib

variable {ε α β α' β' σ τ ι ο : Type}

inductive Agree (R : α → β → Prop) : Except ε α → Except ε β → Prop
  | ok {a : α} {b : β} (h : R a b) : Agree R (.ok a) (.ok b)
  | error (e : ε) : Agree R (.error e) (.error e)

theorem Agree.refl {R : α → α → Prop} (x : Except ε α) (h : ∀ a, x = .ok a → R a a) : Agree R x x := by
  cases x with
  | error e => exact .error e
  | ok a => exact .ok (h a rfl)

theorem Agree.bind {R : α → β → Prop} {S : α' → β' → Prop} {x : Except ε α} {y : Except ε β} {f : α → Except ε α'}
    {g : β → Except ε β'} (h : Agree R x y) (hk : ∀ a b, R a b → Agree S (f a) (g b)) : Agree S (x >>= f) (y >>= g) := by
  cases h with
  | ok h => exact hk _ _ h
  | error e => exact .error e

theorem Agree.imp {R S : α → β → Prop} {x : Except ε α} {y : Except ε β} (h : Agree R x y) (hRS : ∀ a b, R a b → S a b) : Agree S x y := by
  cases h with
  | ok h => exact .ok (hRS _ _ h)
  | error e => exact .error e

/-- Related results are results. -/
theorem Agree.left {R : α → β → Prop} {x : Except ε α} {y : Except ε β} (h : Agree R x y) :
    Agree (fun a b => x = .ok a ∧ R a b) x y := by
  cases h with
  | ok h => exact .ok ⟨rfl, h⟩
  | error e => exact .error e

/-- A result of the second is related to one of the first. -/
theorem Agree.ok_right {R : α → β → Prop} {x : Except ε α} {y : Except ε β} (h : Agree R x y) {b : β} (hy : y = .ok b) :
    ∃ a, x = .ok a ∧ R a b := by
  cases h with
  | ok h =>
    cases hy
    exact ⟨_, rfl, h⟩
  | error e => cases hy

/-- A check both runs make. -/
theorem Agree.seq {S : α' → β' → Prop} (x : Except ε Unit) {f : Unit → Except ε α'} {g : Unit → Except ε β'}
    (hk : Agree S (f ()) (g ())) : Agree S (x >>= f) (x >>= g) :=
  (Agree.refl x fun _ _ => rfl).bind fun _ _ (_ : () = ()) => hk

/-- Two loops whose rounds agree. -/
theorem Agree.loopE {R : Nat → σ → τ → Prop} {f : Nat → σ → Except ε σ} {g : Nat → τ → Except ε τ} {s : σ} {t : τ} (h0 : R 0 s t) :
    ∀ n, (∀ i < n, ∀ a b, R i a b → Agree (R (i + 1)) (f i a) (g i b)) → Agree (R n) (loopE n f s) (loopE n g t) := by
  intro n
  induction n with
  | zero => exact fun _ => .ok h0
  | succ n ih =>
    intro hstep
    exact Agree.bind (ih fun i hi => hstep i (Nat.lt_succ_of_lt hi)) (hstep n (Nat.lt_succ_self n))

/-- The answers of a machine, and the error it ends with, if any. -/
def trace (step : σ → ι → Except ε (σ × ο)) : σ → List ι → List ο × Option ε
  | _, [] => ([], none)
  | s, i :: is =>
    match step s i with
    | .error e => ([], some e)
    | .ok (s', o) => (o :: (trace step s' is).1, (trace step s' is).2)

theorem trace_eq {f : σ → ι → Except ε (σ × ο)} {g : τ → ι → Except ε (τ × ο)} {R : σ → τ → Prop} {P : ι → Prop}
    (hstep : ∀ s t i, R s t → P i → Agree (fun a b => R a.1 b.1 ∧ a.2 = b.2) (f s i) (g t i)) {s : σ} {t : τ} (h : R s t)
    {is : List ι} (hP : ∀ i ∈ is, P i) : trace f s is = trace g t is := by
  induction is generalizing s t with
  | nil => rfl
  | cons i is ih =>
    have hi := hstep s t i h (hP i List.mem_cons_self)
    unfold trace
    generalize f s i = x at hi
    generalize g t i = y at hi
    cases hi with
    | error e => rfl
    | @ok a b hab =>
      have := ih hab.1 fun j hj => hP j (List.mem_cons_of_mem _ hj)
      simp only [hab.2, this]

end UdpSpeeder.Lib
