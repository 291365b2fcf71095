/-
  UdpSpeeder.Fec.Poly — `gf_mul` is multiplication of polynomials over GF(2), modulo
  1+X^2+X^3+X^4+X^8 (`toPoly_gfMul`).

  A byte stands for the polynomial of its bits. Its value at the generator is the byte
  again (`atAlpha_toPoly`), where `modulus` vanishes, and below degree 8 there is nothing but
  bytes (`exists_toPoly`); so the product of two bytes is what division leaves of the
  product of their polynomials.
-/

import UdpSpeeder.Fec.Gf
import Mathlib.Algebra.CharP.Two
import Mathlib.Algebra.Polynomial.Div
import Mathlib.Algebra.Polynomial.Eval.Degree
import Mathlib.Algebra.Polynomial.BigOperators
import Mathlib.Algebra.Field.ZMod
import Mathlib.Tactic.ComputeDegree

namespace UdpSpeeder.Fec

open Lib Finset Polynomial

/-! ## Bytes as polynomials -/

/-- The polynomial of a byte's bits. -/
noncomputable def toPoly (b : Byte) : (ZMod 2)[X] := ∑ k ∈ range 8, if b.bits.getLsbD k then X ^ k else 0

/-- `allPp[GF_BITS]`. -/
noncomputable def modulus : (ZMod 2)[X] := X ^ 8 + (X ^ 4 + X ^ 3 + X ^ 2 + 1)

theorem modulus_monic : modulus.Monic := by
  unfold modulus
  apply monic_X_pow_add
  compute_degree!

theorem modulus_degree : modulus.degree = 8 := by
  unfold modulus
  compute_degree!

theorem toPoly_coeff (b : Byte) (k : Nat) : (toPoly b).coeff k = if b.bits.getLsbD k then 1 else 0 := by
  unfold toPoly
  rw [finsetSum_coeff]
  have hterm : ∀ j ∈ range 8, (if b.bits.getLsbD j then X ^ j else (0 : (ZMod 2)[X])).coeff k =
      if j = k then (if b.bits.getLsbD k then 1 else 0) else 0 := by
    intro j _
    by_cases hjk : j = k
    · subst hjk
      rw [if_pos rfl]
      split <;> simp
    · rw [if_neg hjk]
      split <;> simp [coeff_X_pow, Ne.symm hjk]
  rw [sum_congr rfl hterm, sum_ite_eq']
  by_cases hk : k < 8
  · rw [if_pos (mem_range.mpr hk)]
  · rw [if_neg (by simpa using hk), BitVec.getLsbD_of_ge _ _ (Nat.not_lt.mp hk), if_neg Bool.false_ne_true]

/-- Below degree 8 there is nothing else. -/
theorem exists_toPoly {r : (ZMod 2)[X]} (hr : r.degree < 8) : ∃ b, toPoly b = r := by
  have hbit : ∀ x : ZMod 2, (if decide (x = 1) then 1 else 0) = x := by decide
  refine ⟨.ofBits fun k => decide (r.coeff k = 1), ?_⟩
  ext k
  rw [toPoly_coeff]
  rcases Nat.lt_or_ge k 8 with hk | hk
  · rw [Byte.getLsbD_ofBits _ hk, hbit]
  · rw [BitVec.getLsbD_of_ge _ _ hk, if_neg Bool.false_ne_true, coeff_eq_zero_of_degree_lt (hr.trans_le (by exact_mod_cast hk))]

/-! ## The value at the generator -/

instance : CharP Byte 2 := CharTwo.of_one_ne_zero_of_two_eq_zero one_ne_zero (by rw [← one_add_one_eq_two, add_eq_xor, Byte.xor_self])

noncomputable def atAlpha : (ZMod 2)[X] →+* Byte := eval₂RingHom (ZMod.castHom dvd_rfl Byte) (alpha 1)

theorem atAlpha_X_pow (k : Nat) : atAlpha (X ^ k) = alpha k := by
  unfold atAlpha
  rw [coe_eval₂RingHom, eval₂_X_pow, ← alpha_eq_pow]

theorem atAlpha_modulus : atAlpha modulus = 0 := by
  unfold modulus
  rw [map_add, map_add, map_add, map_add, atAlpha_X_pow, atAlpha_X_pow, atAlpha_X_pow, atAlpha_X_pow, map_one]
  exact (by decide : alpha 8 ^^^ (alpha 4 ^^^ alpha 3 ^^^ alpha 2 ^^^ .ofNat 1) = 0)

/-- A byte is its polynomial's value. -/
theorem atAlpha_toPoly (b : Byte) : atAlpha (toPoly b) = b := by
  have hbits : (if b.bits.getLsbD 0 then alpha 0 else 0) ^^^ (if b.bits.getLsbD 1 then alpha 1 else 0) ^^^
      (if b.bits.getLsbD 2 then alpha 2 else 0) ^^^ (if b.bits.getLsbD 3 then alpha 3 else 0) ^^^
      (if b.bits.getLsbD 4 then alpha 4 else 0) ^^^ (if b.bits.getLsbD 5 then alpha 5 else 0) ^^^
      (if b.bits.getLsbD 6 then alpha 6 else 0) ^^^ (if b.bits.getLsbD 7 then alpha 7 else 0) = b := by
    revert b
    exact forall_byte (by decide +kernel)
  have hterm : ∀ k, atAlpha (if b.bits.getLsbD k then X ^ k else 0) = if b.bits.getLsbD k then alpha k else 0 := by
    intro k
    split
    · exact atAlpha_X_pow k
    · exact map_zero _
  unfold toPoly
  rw [map_sum]
  simp only [hterm, sum_range_succ, sum_range_zero, zero_add]
  exact hbits

theorem toPoly_gfMul (a b : Byte) : toPoly (gfMul a b) = (toPoly a * toPoly b) %ₘ modulus := by
  obtain ⟨s, hs⟩ := exists_toPoly (by
    rw [← modulus_degree]
    exact degree_modByMonic_lt (toPoly a * toPoly b) modulus_monic)
  have hvalue : atAlpha (toPoly s) = gfMul a b := by
    rw [hs, modByMonic_eq_sub_mul_div, map_sub, map_mul, map_mul, atAlpha_modulus, atAlpha_toPoly, atAlpha_toPoly, zero_mul, sub_zero]
    rfl
  rw [← hs, ← hvalue, atAlpha_toPoly]

end UdpSpeeder.Fec
