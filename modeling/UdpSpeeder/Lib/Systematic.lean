/-
  UdpSpeeder.Lib.Systematic — systematic codes from Vandermonde matrices, over any field.

  Row `i` of the Vandermonde matrix of the points `p` is `1, p i, (p i)^2, …`. The
  inverse of its top `k` rows is read off the polynomials `quot`: the product of all
  `X - p j` with one factor divided out, scaled to 1 at its own point (`vand_mul_inv`).
  Multiplying every row by that inverse gives `enc`, the identity on top
  (`enc_systematic`), any `k` rows of which at distinct points determine the data
  (`enc_determines`). The recurrences an implementation runs on the coefficients are
  `coeff_nodalTo_succ` (building the product) and `coeff_quot_rec` (synthetic division).
-/

import Mathlib.LinearAlgebra.Vandermonde
import Mathlib.Algebra.Polynomial.Div
import Mathlib.Algebra.Polynomial.BigOperators
import Mathlib.Algebra.Polynomial.Monic
import Mathlib.Algebra.BigOperators.Fin

namespace UdpSpeeder.Lib.Systematic

open Polynomial Finset

variable {K : Type} [Field K] (p : ℕ → K)

/-! ## The product of the first `m` factors -/

noncomputable def nodalTo (m : ℕ) : K[X] := ∏ i ∈ range m, (X - C (p i))

theorem nodalTo_succ (m : ℕ) : nodalTo p (m + 1) = nodalTo p m * (X - C (p m)) := prod_range_succ _ _

theorem nodalTo_monic (m : ℕ) : (nodalTo p m).Monic := monic_prod_of_monic _ _ fun _ _ => monic_X_sub_C _

theorem nodalTo_natDegree (m : ℕ) : (nodalTo p m).natDegree = m := by
  unfold nodalTo
  rw [natDegree_prod_of_monic _ _ fun _ _ => monic_X_sub_C _]
  simp

theorem coeff_nodalTo_succ (m t : ℕ) :
    (nodalTo p (m + 1)).coeff (t + 1) = (nodalTo p m).coeff t - p m * (nodalTo p m).coeff (t + 1) := by
  rw [nodalTo_succ, mul_sub, coeff_sub, coeff_mul_X, coeff_mul_C, mul_comm (p m)]

/-- With 0 among the points the constant coefficient vanishes. -/
theorem coeff_nodalTo_zero (h0 : p 0 = 0) (m : ℕ) : (nodalTo p (m + 1)).coeff 0 = 0 := by
  have h : eval 0 (nodalTo p (m + 1)) = 0 := by
    unfold nodalTo
    rw [eval_prod]
    exact prod_eq_zero (mem_range.mpr (Nat.succ_pos m)) (by simp [h0])
  rw [coeff_zero_eq_eval_zero, h]

theorem coeff_nodalTo_top (m : ℕ) : (nodalTo p m).coeff m = 1 := by
  have := (nodalTo_monic p m).coeff_natDegree
  rwa [nodalTo_natDegree] at this

theorem eval_nodalTo {m r : ℕ} (h : r < m) : eval (p r) (nodalTo p m) = 0 := by
  unfold nodalTo
  rw [eval_prod]
  exact prod_eq_zero (mem_range.mpr h) (by simp)

/-! ## One factor divided out -/

noncomputable def quot (k r : ℕ) : K[X] := nodalTo p k /ₘ (X - C (p r))

theorem coeff_quot_rec (k r t : ℕ) :
    (quot p k r).coeff t = (nodalTo p k).coeff (t + 1) + p r * (quot p k r).coeff (t + 1) :=
  coeff_divByMonic_X_sub_C_rec _ _ _

theorem quot_natDegree (k r : ℕ) : (quot p k r).natDegree = k - 1 := by
  unfold quot
  rw [natDegree_divByMonic _ (monic_X_sub_C _), nodalTo_natDegree, natDegree_X_sub_C]

theorem coeff_quot_top (k r : ℕ) : (quot p (k + 1) r).coeff k = 1 := by
  rw [coeff_quot_rec, coeff_nodalTo_top]
  have : (quot p (k + 1) r).coeff (k + 1) = 0 :=
    coeff_eq_zero_of_natDegree_lt (by rw [quot_natDegree]; omega)
  rw [this, mul_zero, add_zero]

theorem mul_quot {k r : ℕ} (h : r < k) : (X - C (p r)) * quot p k r = nodalTo p k :=
  mul_divByMonic_eq_iff_isRoot.mpr (eval_nodalTo p h)

/-- The points `p 0, …, p (n - 1)` are distinct. -/
def Distinct (n : ℕ) : Prop := ∀ i < n, ∀ j < n, p i = p j → i = j

omit [Field K] in
theorem Distinct.mono {p : ℕ → K} {n m : ℕ} (h : Distinct p n) (hm : m ≤ n) : Distinct p m :=
  fun i hi j hj => h i (by omega) j (by omega)

theorem eval_quot_ne {k r i : ℕ} (hd : Distinct p k) (hr : r < k) (hi : i < k) (hne : i ≠ r) :
    eval (p i) (quot p k r) = 0 := by
  have h : eval (p i) ((X - C (p r)) * quot p k r) = 0 := by rw [mul_quot p hr, eval_nodalTo p hi]
  rw [eval_mul] at h
  rcases mul_eq_zero.mp h with h | h
  · simp only [eval_sub, eval_X, eval_C] at h
    exact absurd (hd i hi r hr (sub_eq_zero.mp h)) hne
  · exact h

theorem eval_quot_self {k r : ℕ} (hd : Distinct p k) (hr : r < k) : eval (p r) (quot p k r) ≠ 0 := by
  -- the quotient is the product of the other factors
  have hq : quot p k r = ∏ i ∈ (range k).erase r, (X - C (p i)) := by
    have hprod : (X - C (p r)) * ∏ i ∈ (range k).erase r, (X - C (p i)) = nodalTo p k := by
      unfold nodalTo
      rw [mul_prod_erase (range k) (fun i => X - C (p i)) (mem_range.mpr hr)]
    apply mul_left_cancel₀ (X_sub_C_ne_zero (p r))
    rw [mul_quot p hr, hprod]
  rw [hq, eval_prod]
  refine prod_ne_zero_iff.mpr fun i hi => ?_
  obtain ⟨hne, hik⟩ := mem_erase.mp hi
  simp only [eval_sub, eval_X, eval_C]
  exact fun e => hne (hd i (mem_range.mp hik) r hr (sub_eq_zero.mp e).symm)

/-! ## The inverse of the top rows -/

/-- Column `r` of the inverse holds the coefficients of `quot` scaled to 1 at `p r`. -/
noncomputable def vandInv (k c r : ℕ) : K := (eval (p r) (quot p k r))⁻¹ * (quot p k r).coeff c

theorem sum_coeff_eval (k r i : ℕ) (hk : 0 < k) :
    ∑ c ∈ range k, p i ^ c * (quot p k r).coeff c = eval (p i) (quot p k r) := by
  rw [eval_eq_sum_range' (n := k) (by rw [quot_natDegree]; omega)]
  exact sum_congr rfl fun c _ => mul_comm _ _

theorem vand_mul_inv {k i r : ℕ} (hd : Distinct p k) (hi : i < k) (hr : r < k) :
    ∑ c ∈ range k, p i ^ c * vandInv p k c r = if i = r then 1 else 0 := by
  have : ∀ c ∈ range k, p i ^ c * vandInv p k c r =
      (eval (p r) (quot p k r))⁻¹ * (p i ^ c * (quot p k r).coeff c) := by
    intro c _; unfold vandInv; ring
  rw [sum_congr rfl this, ← mul_sum, sum_coeff_eval p k r i (by omega)]
  by_cases e : i = r
  · subst e
    rw [if_pos rfl, inv_mul_cancel₀ (eval_quot_self p hd hi)]
  · rw [if_neg e, eval_quot_ne p hd hr hi e, mul_zero]

/-! ## The systematic code -/

/-- Row `i`, column `j` of the code with `k` data symbols. -/
noncomputable def enc (k i j : ℕ) : K := ∑ c ∈ range k, p i ^ c * vandInv p k c j

theorem enc_systematic {k i j : ℕ} (hd : Distinct p k) (hi : i < k) (hj : j < k) :
    enc p k i j = if i = j then 1 else 0 := vand_mul_inv p hd hi hj

/-- Any `k` rows at distinct positions take only zero to zero. -/
theorem enc_determines {k n : ℕ} (hd : Distinct p n) (hk : k ≤ n) (f : Fin k → ℕ) (hf : Function.Injective f)
    (hn : ∀ i, f i < n) (x : Fin k → K) (hx : ∀ i, ∑ j : Fin k, enc p k (f i) j * x j = 0) : x = 0 := by
  have hdk := hd.mono hk
  -- the Vandermonde rows see the data through the inverse
  let z : Fin k → K := fun c => ∑ j : Fin k, vandInv p k c j * x j
  have hz : z = 0 := by
    apply Matrix.eq_zero_of_forall_index_sum_pow_mul_eq_zero (f := fun i => p (f i))
    · intro i j h
      exact hf (hd _ (hn i) _ (hn j) h)
    · intro i
      rw [← hx i]
      simp only [enc, z, mul_sum, sum_mul, ← Fin.sum_univ_eq_sum_range (fun c => p (f i) ^ c * vandInv p k c _) k]
      rw [sum_comm]
      exact sum_congr rfl fun j _ => sum_congr rfl fun c _ => by ring
  funext i
  -- and the top rows give the data back
  have htop : ∑ c : Fin k, p i ^ (c : ℕ) * z c = x i := by
    simp only [z, mul_sum]
    rw [sum_comm]
    have : ∀ j : Fin k, ∑ c : Fin k, p i ^ (c : ℕ) * (vandInv p k c j * x j) = if i = j then x j else 0 := by
      intro j
      have h := vand_mul_inv p hdk i.2 j.2
      rw [← Fin.sum_univ_eq_sum_range (fun c => p i ^ c * vandInv p k c j) k] at h
      calc ∑ c : Fin k, p i ^ (c : ℕ) * (vandInv p k c j * x j)
          = (∑ c : Fin k, p i ^ (c : ℕ) * vandInv p k c j) * x j := by
            rw [sum_mul]; exact sum_congr rfl fun c _ => by ring
        _ = if i = j then x j else 0 := by rw [h]; simp [Fin.ext_iff]
    rw [sum_congr rfl fun j _ => this j]
    simp
  rw [← htop, hz]
  simp

end UdpSpeeder.Lib.Systematic
