/-
  UdpSpeeder.Lib.Exchange — Gauss-Jordan inversion in place, over any field.

  The elimination keeps one square array `M`. Column `j` is labelled by the unknown
  `-x j` until it has been a pivot column, then by a right-hand side; row `i` is
  labelled by a right-hand side (negated) until it has been a pivot row, then by the
  unknown `x i`. `σ` says which right-hand side sits in row `i` after the row swaps.
  `Holds A U σ M` states what the array means at any point: for all `x` and `y`,
  `A x = y` exactly when `M` takes the column labels to the row labels. It holds at
  the start (`init`), survives a swap of two rows not used yet (`swap`) and a pivot
  step (`pivot`), finds a pivot as long as `A` is injective (`exists_pivot`), and at the
  end the array is the inverse up to the recorded swaps (`finish`).
-/

import Mathlib.Data.Matrix.Mul
import Mathlib.GroupTheory.Perm.Basic
import Mathlib.Data.Fintype.Basic
import Mathlib.Algebra.Field.Basic
import Mathlib.Tactic.Ring
import Mathlib.Tactic.LinearCombination
import Mathlib.Tactic.FieldSimp

namespace UdpSpeeder.Lib.Exchange

open Matrix

variable {K ι : Type} [Field K] [Fintype ι] [DecidableEq ι]

/-- The label of each column: `y` once exchanged, `-x` before. -/
def cols (U : Finset ι) (σ : Equiv.Perm ι) (x y : ι → K) : ι → K := fun i => if i ∈ U then y (σ i) else -x i

/-- The label of each row: `x` once exchanged, `-y` before. -/
def rows (U : Finset ι) (σ : Equiv.Perm ι) (x y : ι → K) : ι → K := fun i => if i ∈ U then x i else -y (σ i)

def Holds (A : Matrix ι ι K) (U : Finset ι) (σ : Equiv.Perm ι) (M : Matrix ι ι K) : Prop :=
  ∀ x y, A *ᵥ x = y ↔ M *ᵥ cols U σ x y = rows U σ x y

variable {A M : Matrix ι ι K} {U : Finset ι} {σ : Equiv.Perm ι}

theorem init : Holds A ∅ 1 A := by
  intro x y
  have hc : cols ∅ 1 x y = -x := by funext i; simp [cols]
  have hr : rows ∅ 1 x y = -y := by funext i; simp [rows]
  rw [hc, hr, mulVec_neg, neg_inj]

/-- Rows `r` and `c` exchanged. -/
def swapRows (M : Matrix ι ι K) (r c : ι) : Matrix ι ι K := fun i j => M (Equiv.swap r c i) j

theorem swap {r c : ι} (hr : r ∉ U) (hc : c ∉ U) (h : Holds A U σ M) :
    Holds A U (σ * Equiv.swap r c) (swapRows M r c) := by
  have fixed : ∀ i ∈ U, Equiv.swap r c i = i := by
    intro i hi
    exact Equiv.swap_apply_of_ne_of_ne (fun e => hr (e ▸ hi)) (fun e => hc (e ▸ hi))
  have free : ∀ i, Equiv.swap r c i ∈ U ↔ i ∈ U := by
    intro i
    constructor
    · intro hi
      have := fixed _ hi
      rw [Equiv.swap_apply_self] at this
      rwa [← this] at hi
    · intro hi; rwa [fixed i hi]
  intro x y
  rw [h x y]
  have hcols : cols U (σ * Equiv.swap r c) x y = cols U σ x y := by
    funext i
    by_cases hi : i ∈ U
    · simp [cols, hi, fixed i hi]
    · simp [cols, hi]
  have hrows : ∀ i, rows U (σ * Equiv.swap r c) x y i = rows U σ x y (Equiv.swap r c i) := by
    intro i
    by_cases hi : i ∈ U
    · simp [rows, hi, fixed i hi]
    · have : Equiv.swap r c i ∉ U := fun h' => hi ((free i).mp h')
      simp [rows, hi, this]
  rw [hcols]
  constructor
  · intro e
    funext i
    rw [hrows i, ← e]
    rfl
  · intro e
    funext i
    have := congrFun e (Equiv.swap r c i)
    rw [hrows, Equiv.swap_apply_self] at this
    rw [← this]
    simp [swapRows, mulVec, dotProduct]

/-- Eliminate column `c` with row `c`: the pivot row is scaled to solve for `x c`, its
    own column entry becoming the inverse of the pivot, and replaces `x c` elsewhere. -/
def pivotAt (M : Matrix ι ι K) (c : ι) : Matrix ι ι K := fun i j =>
  if i = c then (if j = c then (M c c)⁻¹ else (M c c)⁻¹ * M c j)
  else if j = c then -(M i c * (M c c)⁻¹) else M i j - M i c * ((M c c)⁻¹ * M c j)

/-- The part of a row's sum off column `c`. -/
theorem sum_split (f g : ι → K) (c : ι) : ∑ j, f j * g j = f c * g c + ∑ j ∈ Finset.univ.erase c, f j * g j :=
  (Finset.add_sum_erase _ _ (Finset.mem_univ c)).symm

theorem pivot {c : ι} (hc : c ∉ U) (hp : M c c ≠ 0) (h : Holds A U σ M) :
    Holds A (insert c U) σ (pivotAt M c) := by
  intro x y
  rw [h x y]
  let rest : ι → K := fun i => ∑ j ∈ Finset.univ.erase c, M i j * cols U σ x y j
  have old : ∀ i, (M *ᵥ cols U σ x y) i = rest i - M i c * x c := by
    intro i
    simp only [mulVec, dotProduct]
    rw [sum_split (M i) _ c]
    simp only [cols, hc, if_false, rest]
    ring
  have label : ∀ j ∈ Finset.univ.erase c, cols (insert c U) σ x y j = cols U σ x y j := by
    intro j hj
    have : j ≠ c := (Finset.mem_erase.mp hj).1
    simp [cols, this]
  have new_pivot : (pivotAt M c *ᵥ cols (insert c U) σ x y) c = (M c c)⁻¹ * (y (σ c) + rest c) := by
    simp only [mulVec, dotProduct]
    rw [sum_split (pivotAt M c c) _ c, mul_add, Finset.mul_sum]
    congr 1
    · simp [pivotAt, cols]
    · refine Finset.sum_congr rfl fun j hj => ?_
      rw [label j hj]
      simp [pivotAt, (Finset.mem_erase.mp hj).1, mul_assoc]
  have new_other : ∀ i, i ≠ c → (pivotAt M c *ᵥ cols (insert c U) σ x y) i =
      rest i - M i c * ((M c c)⁻¹ * (y (σ c) + rest c)) := by
    intro i hi
    simp only [mulVec, dotProduct]
    rw [sum_split (pivotAt M c i) _ c]
    have : ∑ j ∈ Finset.univ.erase c, pivotAt M c i j * cols (insert c U) σ x y j =
        rest i - M i c * ((M c c)⁻¹ * rest c) := by
      simp only [rest, Finset.mul_sum, ← Finset.sum_sub_distrib]
      refine Finset.sum_congr rfl fun j hj => ?_
      rw [label j hj]
      simp only [pivotAt, hi, (Finset.mem_erase.mp hj).1, if_false]
      ring
    rw [this]
    simp only [pivotAt, cols, hi, Finset.mem_insert, true_or, if_true, if_false]
    ring
  have old_label : ∀ i, i ≠ c → rows (insert c U) σ x y i = rows U σ x y i := by
    intro i hi
    simp [rows, hi]
  constructor
  · -- row `c` of the old array gives `x c`; the other rows then agree
    intro e
    have ec := congrFun e c
    rw [old c] at ec
    simp only [rows, hc, if_false] at ec
    have hx : (M c c)⁻¹ * (y (σ c) + rest c) = x c := by
      field_simp
      linear_combination ec
    funext i
    by_cases hi : i = c
    · subst hi
      rw [new_pivot, hx]
      simp [rows]
    · rw [new_other i hi, hx, old_label i hi, ← old i]
      exact congrFun e i
  · intro e
    have ec := congrFun e c
    rw [new_pivot] at ec
    simp only [rows, Finset.mem_insert, true_or, if_true] at ec
    funext i
    by_cases hi : i = c
    · subst hi
      rw [old i, ← ec]
      simp only [rows, hc, if_false]
      field_simp
      ring
    · rw [old i, ← ec, ← new_other i hi, ← old_label i hi]
      exact congrFun e i

/-- As long as `A` kills nothing but zero, an array with a column left to exchange has a
    nonzero entry in a row and a column not used yet. -/
theorem exists_pivot (hA : ∀ x, A *ᵥ x = 0 → x = 0) (h : Holds A U σ M) {c : ι} (hc : c ∉ U) :
    ∃ i ∉ U, ∃ j ∉ U, M i j ≠ 0 := by
  by_contra hne
  have zero : ∀ i ∉ U, ∀ j ∉ U, M i j = 0 := by
    intro i hi j hj
    by_contra hij
    exact hne ⟨i, hi, j, hj, hij⟩
  -- `x` puts 1 at `c` and lets the used rows answer; the unused rows see only zeros
  let x : ι → K := fun i => if i ∈ U then -M i c else if i = c then 1 else 0
  have hcols : ∀ i, (M *ᵥ cols U σ x 0) i = -M i c := by
    intro i
    simp only [mulVec, dotProduct]
    rw [Finset.sum_eq_single c]
    · simp [cols, hc, x]
    · intro j _ hj
      by_cases hjU : j ∈ U <;> simp [cols, hjU, x, hj]
    · intro h'; exact absurd (Finset.mem_univ c) h'
  have hx : A *ᵥ x = 0 := by
    rw [h x 0]
    funext i
    rw [hcols i]
    by_cases hi : i ∈ U
    · simp [rows, hi, x]
    · simp [rows, hi, zero i hi c hc]
  have := congrFun (hA x hx) c
  simp [x, hc] at this

/-- The columns of `M` put back where the swaps took them from. -/
def unswap (M : Matrix ι ι K) (σ : Equiv.Perm ι) : Matrix ι ι K := fun i j => M i (σ⁻¹ j)

/-- Columns `r` and `c` exchanged. -/
def swapCols (M : Matrix ι ι K) (r c : ι) : Matrix ι ι K := fun i j => M i (Equiv.swap r c j)

omit [Field K] [Fintype ι] [DecidableEq ι] in
@[simp] theorem unswap_one (M : Matrix ι ι K) : unswap M 1 = M := rfl

omit [Field K] [Fintype ι] in
/-- The swaps are undone last one first. -/
theorem unswap_mul_swap (M : Matrix ι ι K) (σ : Equiv.Perm ι) (r c : ι) :
    unswap M (σ * Equiv.swap r c) = unswap (swapCols M r c) σ := by
  funext i j
  simp [unswap, swapCols]

/-- With every column exchanged, undoing the swaps on the columns leaves a left inverse. -/
theorem finish (h : Holds A Finset.univ σ M) : unswap M σ * A = 1 := by
  have hx : ∀ x : ι → K, unswap M σ *ᵥ (A *ᵥ x) = x := by
    intro x
    have hM := (h x (A *ᵥ x)).mp rfl
    have hcols : cols Finset.univ σ x (A *ᵥ x) = fun i => (A *ᵥ x) (σ i) := by funext i; simp [cols]
    have hrows : rows Finset.univ σ x (A *ᵥ x) = x := by funext i; simp [rows]
    rw [hcols, hrows] at hM
    generalize hy : A *ᵥ x = y at hM ⊢
    rw [← hM]
    funext i
    simp only [mulVec, dotProduct, unswap]
    rw [← Equiv.sum_comp σ]
    simp
  ext i j
  have := congrFun (hx (Pi.single j 1)) i
  rw [mulVec_mulVec, mulVec_single_one] at this
  simpa [Matrix.one_apply, Pi.single_apply] using this

end UdpSpeeder.Lib.Exchange
