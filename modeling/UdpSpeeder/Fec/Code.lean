/-
  UdpSpeeder.Fec.Code — `fec_new` of `lib/fec.cpp`: the Vandermonde matrix over the points
  0, 1, alpha, alpha^2, …, the fast inverse of its top square (`invert_vdm`), the product
  (`matmul`) and the systematic matrix made of them.

  The arrays are matrices by row and column. `invert_vdm` never writes the constant
  coefficient a stage moves out of its inner loop; it may, because the first point is 0
  and the coefficient with it (`vdmCoeffs_spec`). The result is that row `i` of
  `enc_matrix` is row `i` of the code of `Lib.Systematic` (`encMatrix_spec`).
-/

import UdpSpeeder.Fec.Gf
import UdpSpeeder.Lib.Systematic

namespace UdpSpeeder.Fec

open Lib Lib.Systematic Finset

/-- A `gf` array read as rows. -/
abbrev Mat := Nat → Nat → Byte

/-! ## The code -/

/-- `matmul`: the `n` by `m` product of `a` and `b`, written to `c`. -/
def matmul (a b c : Mat) (n k m : Nat) : Mat :=
  loop n (fun row c => loop m (fun col c =>
    setEntry c row col (loop k (fun i acc => acc ^^^ gfMul (a row i) (b i col)) 0)) c) c

/-- The coefficients of the product of all `x - p_i`, highest first in `c[k-1]`. -/
def vdmCoeffs (p : Nat → Byte) (k : Nat) : Nat → Byte :=
  loop (k - 1) (fun r c =>
      let i := r + 1
      let c := loop (i - 1) (fun s c =>
        let j := k - 1 - (i - 1) + s
        upd c j (c j ^^^ gfMul (p i) (c (j + 1)))) c
      upd c (k - 1) (c (k - 1) ^^^ p i))
    (upd (fun _ => 0) (k - 1) (p 0))

/-- One row's synthetic division: the quotient `b` and its value `t` at the point `xx`. -/
def synthDiv (c : Nat → Byte) (xx : Byte) (k : Nat) (b : Nat → Byte) : (Nat → Byte) × Byte :=
  loop (k - 1) (fun r (b, t) =>
      let i := k - 2 - r
      let b := upd b i (c (i + 1) ^^^ gfMul xx (b (i + 1)))
      (b, gfMul xx t ^^^ b i))
    (upd b (k - 1) 1, 1)

/-- `invert_vdm`: only the second column of `src`, the points, is read. -/
def invertVdm (src : Mat) (k : Nat) : Mat :=
  if k = 1 then src
  else
    let p := fun i => src i 1
    let c := vdmCoeffs p k
    (loop k (fun row ((src, b) : Mat × (Nat → Byte)) =>
      let (b, t) := synthDiv c (p row) k b
      (loop k (fun col src => setEntry src col row (gfMul (inverse t) (b col))) src, b)) (src, fun _ => 0)).1

/-- `fec_new`'s `tmp_m`: powers of the points, the first of which is 0. -/
def vandermonde (k n : Nat) : Mat :=
  let tmpM := loop (k - 1) (fun c tmpM => setEntry tmpM 0 (c + 1) 0) (setEntry (fun _ _ => 0) 0 0 1)
  loop (n - 1) (fun row tmpM => loop k (fun col tmpM =>
    setEntry tmpM (row + 1) col (gfExp (modnn (row * col)))) tmpM) tmpM

/-- `fec_new`'s `enc_matrix`: the identity over the bottom rows times the inverse of the top. -/
def encMatrix (k n : Nat) : Mat :=
  let tmpM := invertVdm (vandermonde k n) k
  let bottom := matmul (fun i => tmpM (k + i)) tmpM (fun _ _ => 0) (n - k) k k
  let enc := copyTo (copyTo (fun _ _ => 0) k bottom (n - k)) 0 (fun _ _ => 0) k
  loop k (fun col enc => setEntry enc col col 1) enc

/-! ## What the pieces compute -/

theorem dot_loop (f : Nat → Byte) (k : Nat) : loop k (fun i acc => acc ^^^ f i) 0 = ∑ i ∈ range k, f i := by
  refine loop_inv (fun (m : Nat) (t : Byte) => t = ∑ i ∈ range m, f i) rfl k ?_
  intro m _ t ht
  rw [sum_range_succ, ← ht]
  rfl

theorem matmul_apply (a b c : Mat) (n k m i j : Nat) :
    matmul a b c n k m i j = if i < n ∧ j < m then ∑ t ∈ range k, a i t * b t j else c i j := by
  unfold matmul
  rw [loop_fillAll (fun row col => loop k (fun i acc => acc ^^^ gfMul (a row i) (b i col)) 0), dot_loop]
  rfl

/-! ## The points -/

/-- The evaluation points: 0, then the powers of the generator. -/
def point (i : Nat) : Byte := if i = 0 then 0 else alpha (i - 1)

theorem point_zero : point 0 = 0 := rfl

theorem point_distinct : Distinct point 256 := by
  intro i hi j hj h
  rcases Nat.eq_zero_or_pos i with rfl | hi0 <;> rcases Nat.eq_zero_or_pos j with rfl | hj0
  · rfl
  · obtain ⟨j, rfl⟩ : ∃ j', j = j' + 1 := ⟨j - 1, by omega⟩
    exact absurd h.symm (alpha_ne_zero j)
  · obtain ⟨i, rfl⟩ : ∃ i', i = i' + 1 := ⟨i - 1, by omega⟩
    exact absurd h (alpha_ne_zero i)
  · obtain ⟨i, rfl⟩ : ∃ i', i = i' + 1 := ⟨i - 1, by omega⟩
    obtain ⟨j, rfl⟩ : ∃ j', j = j' + 1 := ⟨j - 1, by omega⟩
    have := alpha_inj (by omega) (by omega) h
    omega

theorem alpha_mul (i j : Nat) : alpha (i * j) = alpha i ^ j := by
  rw [alpha_eq_pow, alpha_eq_pow i, pow_mul]

theorem vandermonde_apply {k n i j : Nat} (hi : i < n) (hj : j < k) : vandermonde k n i j = point i ^ j := by
  have hshift : ∀ (f : Nat → Nat → Byte) (m : Mat) (i : Nat),
      loop (n - 1) (fun row m => loop k (fun col m => setEntry m (row + 1) col (f row col)) m) m i j =
        if 0 < i ∧ i < n then f (i - 1) j else m i j := by
    intro f m i
    refine loop_inv (fun (r : Nat) (t : Mat) => t i j = if 0 < i ∧ i < r + 1 then f (i - 1) j else m i j) ?_
      (n - 1) ?_ |>.trans ?_
    · rw [if_neg (by omega)]
    · intro r _ t ht
      rw [loop_fillRow, ht]
      by_cases e : i = r + 1
      · subst e; simp [hj]
      · simp only [e, false_and, if_false, show i < r + 1 + 1 ↔ i < r + 1 by omega]
    · by_cases h : 0 < i ∧ i < n
      · rw [if_pos (by omega), if_pos h]
      · rw [if_neg (by omega), if_neg h]
  unfold vandermonde
  rw [hshift fun row col => gfExp (modnn (row * col))]
  rcases Nat.eq_zero_or_pos i with rfl | hi0
  · rw [if_neg (by omega), point_zero]
    -- the first row is written apart
    refine loop_inv (fun (_ : Nat) (t : Mat) => t 0 j = 0 ^ j) ?_ (k - 1) ?_
    · rw [setEntry_apply]
      by_cases hj0 : j = 0
      · simp [hj0]
      · simp [hj0]
    · intro c _ t ht
      rw [setEntry_apply, ht]
      by_cases e : j = c + 1
      · subst e; simp
      · simp [e]
  · rw [if_pos ⟨hi0, hi⟩, modnn_eq, gfExp_eq (by have := Nat.mod_lt ((i - 1) * j) (show 0 < 255 by decide); omega),
      alpha_mod, alpha_mul]
    have hi1 : point i = alpha (i - 1) := by unfold point; rw [if_neg (by omega)]
    rw [hi1]

/-! ## The fast inverse -/

/-- Stage `r` of the recurrence leaves the product of the first `r + 1` factors, its
    coefficients pushed to the end of the array. -/
theorem vdmCoeffs_spec {p : Nat → Byte} (h0 : p 0 = 0) {k : Nat} (hk : 0 < k) :
    ∀ t < k, vdmCoeffs p k t = (nodalTo p k).coeff t := by
  suffices h : (∀ t < k - 1 + 1, vdmCoeffs p k (k - 1 - (k - 1) + t) = (nodalTo p (k - 1 + 1)).coeff t) ∧
      ∀ j < k - 1 - (k - 1), vdmCoeffs p k j = 0 by
    intro t ht
    have := h.1 t (by omega)
    rwa [Nat.sub_self, Nat.zero_add, Nat.sub_add_cancel hk] at this
  unfold vdmCoeffs
  refine loop_inv (fun (r : Nat) (c : Nat → Byte) =>
    (∀ t < r + 1, c (k - 1 - r + t) = (nodalTo p (r + 1)).coeff t) ∧ ∀ j < k - 1 - r, c j = 0) ?_ (k - 1) ?_
  · refine ⟨?_, ?_⟩
    · intro t ht
      obtain rfl : t = 0 := by omega
      rw [coeff_nodalTo_zero p h0, Nat.sub_zero, Nat.add_zero, upd_same, h0]
    · intro j hj
      rw [upd_ne _ _ (by omega)]
  · rintro r hr c ⟨hc, hz⟩
    have inner : ∀ j, loop (r + 1 - 1) (fun s c => upd c (k - 1 - (r + 1 - 1) + s)
        (c (k - 1 - (r + 1 - 1) + s) ^^^ gfMul (p (r + 1)) (c (k - 1 - (r + 1 - 1) + s + 1)))) c j =
        if k - 1 - r ≤ j ∧ j < k - 1 - r + r then c j - p (r + 1) * c (j + 1) else c j := by
      intro j
      rw [Nat.add_sub_cancel]
      refine loop_inv (fun (s : Nat) (c' : Nat → Byte) =>
        ∀ j, c' j = if k - 1 - r ≤ j ∧ j < k - 1 - r + s then c j - p (r + 1) * c (j + 1) else c j) ?_ r ?_ j
      · intro j; rw [if_neg (by omega)]
      · intro s _ c' hc' j
        rw [upd_apply, hc', hc', hc']
        by_cases e : j = k - 1 - r + s
        · rw [if_pos e, if_neg (by omega), if_neg (by omega), if_pos (by omega), sub_eq_xor, e]
          rfl
        · rw [if_neg e]
          simp only [show k - 1 - r ≤ j ∧ j < k - 1 - r + (s + 1) ↔ k - 1 - r ≤ j ∧ j < k - 1 - r + s by omega]
    refine ⟨?_, ?_⟩
    · intro t ht
      rcases t with _ | t
      · -- the coefficient no round writes
        rw [coeff_nodalTo_zero p h0, Nat.add_zero, upd_ne _ _ (by omega), inner, if_neg (by omega), hz _ (by omega)]
      · rw [coeff_nodalTo_succ, ← hc t (by omega)]
        by_cases e : t = r
        · subst e
          rw [coeff_nodalTo_top, mul_one, show k - 1 - (t + 1) + (t + 1) = k - 1 by omega, upd_same, inner,
            if_neg (by omega), show k - 1 - t + t = k - 1 by omega, sub_eq_xor]
        · rw [← hc (t + 1) (by omega), upd_ne _ _ (by omega), inner, if_pos (by omega),
            show k - 1 - (r + 1) + (t + 1) = k - 1 - r + t by omega]
          rfl
    · intro j hj
      rw [upd_ne _ _ (by omega), inner, if_neg (by omega), hz j (by omega)]

/-- The division recurrence finds the quotient, Horner's rule its value. -/
theorem synthDiv_spec {p : Nat → Byte} {c : Nat → Byte} {k row : Nat} (hk : 0 < k)
    (hc : ∀ t < k, c t = (nodalTo p k).coeff t) (b : Nat → Byte) :
    (∀ t < k, (synthDiv c (p row) k b).1 t = (quot p k row).coeff t) ∧
      (synthDiv c (p row) k b).2 = (quot p k row).eval (p row) := by
  have htop : (quot p k row).coeff (k - 1) = 1 := by
    obtain ⟨k, rfl⟩ : ∃ k', k = k' + 1 := ⟨k - 1, by omega⟩
    exact coeff_quot_top p k row
  have hinv : (∀ t, k - 1 - (k - 1) ≤ t → t < k → (synthDiv c (p row) k b).1 t = (quot p k row).coeff t) ∧
      (synthDiv c (p row) k b).2 = ∑ s ∈ range (k - 1 + 1), p row ^ s * (quot p k row).coeff (k - 1 - (k - 1) + s) := by
    unfold synthDiv
    refine loop_inv (fun (r : Nat) (s : (Nat → Byte) × Byte) =>
      (∀ t, k - 1 - r ≤ t → t < k → s.1 t = (quot p k row).coeff t) ∧
        s.2 = ∑ i ∈ range (r + 1), p row ^ i * (quot p k row).coeff (k - 1 - r + i)) ?_ (k - 1) ?_
    · refine ⟨?_, ?_⟩
      · intro t h1 h2
        obtain rfl : t = k - 1 := by omega
        rw [htop]; exact upd_same _ _ _
      · rw [sum_range_one, pow_zero, one_mul, Nat.sub_zero, Nat.add_zero, htop]
    · rintro r hr ⟨b, t⟩ ⟨hb, ht⟩
      simp only at hb ht
      have hnew : c (k - 2 - r + 1) ^^^ gfMul (p row) (b (k - 2 - r + 1)) = (quot p k row).coeff (k - 2 - r) := by
        rw [coeff_quot_rec, ← hc _ (by omega), hb _ (by omega) (by omega)]
        rfl
      refine ⟨?_, ?_⟩
      · intro t' h1 h2
        by_cases e : t' = k - 2 - r
        · subst e; rw [← hnew]; exact upd_same _ _ _
        · exact (upd_ne _ _ e).trans (hb t' (by omega) h2)
      · have h2 : upd b (k - 2 - r) (c (k - 2 - r + 1) ^^^ gfMul (p row) (b (k - 2 - r + 1))) (k - 2 - r) =
            (quot p k row).coeff (k - 2 - r) := by rw [upd_same, hnew]
        simp only [h2]
        rw [sum_range_succ', pow_zero, one_mul, Nat.add_zero, show k - 1 - (r + 1) = k - 2 - r by omega]
        rw [ht, ← mul_eq_gfMul, mul_sum, ← add_eq_xor]
        refine congrArg (· + _) (sum_congr rfl fun i _ => ?_)
        rw [pow_succ', mul_assoc, show k - 1 - r + i = k - 2 - r + (i + 1) by omega]
  refine ⟨fun t ht => hinv.1 t (by omega) ht, ?_⟩
  rw [hinv.2, ← sum_coeff_eval p k row row hk, Nat.sub_add_cancel hk, Nat.sub_self]
  exact sum_congr rfl fun i _ => by rw [Nat.zero_add]

theorem invertVdm_apply {src : Mat} {p : Nat → Byte} {k : Nat} (hk : 0 < k) (h0 : p 0 = 0)
    (hsrc : ∀ i < k, ∀ j < k, src i j = p i ^ j) {i j : Nat} (hi : i < k) (hj : j < k) :
    invertVdm src k i j = vandInv p k i j := by
  unfold invertVdm
  by_cases h1 : k = 1
  · -- a single row of the matrix is 1, its own inverse
    subst h1
    obtain rfl : i = 0 := by omega
    obtain rfl : j = 0 := by omega
    have hq : (quot p 1 0).eval (p 0) = (quot p 1 0).coeff 0 := by
      rw [← sum_coeff_eval p 1 0 0 (by omega)]; simp
    have hc : (quot p 1 0).coeff 0 = 1 := coeff_quot_top p 0 0
    rw [if_pos rfl, hsrc 0 (by omega) 0 (by omega), vandInv, hq, hc]
    simp
  · rw [if_neg h1]
    have hp : ∀ i < k, src i 1 = p i := fun i hi => by rw [hsrc i hi 1 (by omega), pow_one]
    have hpoly : ∀ m ≤ k, nodalTo (fun i => src i 1) m = nodalTo p m := by
      intro m hm
      unfold nodalTo
      refine prod_congr rfl fun i hi => ?_
      have hi := mem_range.mp hi
      simp only [hp i (by omega)]
    have hc := vdmCoeffs_spec (p := fun i => src i 1) ((hp 0 hk).trans h0) hk
    rw [hpoly k le_rfl] at hc
    refine loop_inv (fun (m : Nat) (s : Mat × (Nat → Byte)) => j < m → s.1 i j = vandInv p k i j) ?_ k ?_ hj
    · intro h; omega
    · rintro row hrow ⟨src', b⟩ hs hjm
      obtain ⟨hb, ht⟩ := @synthDiv_spec _ _ _ row hk hc b
      simp only [hp row hrow]
      have hcol : ∀ (f : Nat → Byte) (m : Mat), loop k (fun col m => setEntry m col row (f col)) m i j =
          if j = row then f i else m i j := by
        intro f m
        refine loop_inv (fun (n : Nat) (t : Mat) => t i j = if i < n ∧ j = row then f i else m i j) ?_ k ?_ |>.trans ?_
        · simp
        · intro n _ t ht
          rw [setEntry_apply, ht]
          by_cases e : i = n
          · subst e; by_cases hj' : j = row <;> simp [hj']
          · simp only [e, false_and, if_false, show i < n + 1 ↔ i < n by omega]
        · simp [hi]
      rw [hcol, hb i hi, ht]
      by_cases e : j = row
      · subst e; rw [if_pos rfl]; rfl
      · rw [if_neg e]; exact hs (by omega)

/-! ## The systematic matrix -/

theorem encMatrix_spec {k n i j : Nat} (hk : 0 < k) (hkn : k ≤ n) (hn : n ≤ 256) (hi : i < n) (hj : j < k) :
    encMatrix k n i j = enc point k i j := by
  have hinv : ∀ i < k, ∀ j < k, invertVdm (vandermonde k n) k i j = vandInv point k i j := fun i hi j hj =>
    invertVdm_apply hk point_zero (fun i hi j hj => vandermonde_apply (by omega) hj) hi hj
  have hlow : ∀ i, k ≤ i → i < n → ∀ j < k, invertVdm (vandermonde k n) k i j = point i ^ j := by
    intro i hik hin j hj
    rw [← vandermonde_apply hin hj]
    unfold invertVdm
    split
    · rfl
    · refine loop_inv (fun (_ : Nat) (s : Mat × (Nat → Byte)) => s.1 i j = vandermonde k n i j) rfl k ?_
      rintro row _ ⟨src', b⟩ hs
      refine loop_inv (fun (_ : Nat) (t : Mat) => t i j = vandermonde k n i j) hs k ?_
      intro col hcol t ht
      rw [setEntry_apply, if_neg (by omega), ht]
  have hdiag : ∀ m : Mat, loop k (fun col m => setEntry m col col 1) m i j =
      if i < k ∧ i = j then 1 else m i j := by
    intro m
    refine loop_inv (fun (c : Nat) (t : Mat) => t i j = if i < c ∧ i = j then 1 else m i j) ?_ k ?_
    · simp
    · intro c _ t ht
      rw [setEntry_apply, ht]
      by_cases e : i = c
      · subst e; by_cases h : i = j <;> simp [h, eq_comm]
      · simp only [e, false_and, if_false, show i < c + 1 ↔ i < c by omega]
  unfold encMatrix
  rw [hdiag]
  by_cases hik : i < k
  · rw [enc_systematic point (point_distinct.mono (by omega)) hik hj]
    by_cases e : i = j
    · rw [if_pos ⟨hik, e⟩, if_pos e]
    · rw [if_neg (by tauto), if_neg e]
      simp [copyTo, hik]
  · rw [if_neg (by tauto)]
    have : copyTo (copyTo (fun _ _ => 0) k (matmul (fun i => invertVdm (vandermonde k n) k (k + i))
        (invertVdm (vandermonde k n) k) (fun _ _ => 0) (n - k) k k) (n - k)) 0 (fun _ _ => 0) k i j =
        matmul (fun i => invertVdm (vandermonde k n) k (k + i)) (invertVdm (vandermonde k n) k)
          (fun _ _ => 0) (n - k) k k (i - k) j := by
      simp only [copyTo]
      rw [if_neg (by omega), if_pos (by omega)]
    rw [this, matmul_apply, if_pos ⟨by omega, hj⟩, enc]
    refine sum_congr rfl fun c hc => ?_
    have hc := mem_range.mp hc
    rw [show k + (i - k) = i by omega, hlow i (by omega) hi c hc, hinv c hc j hj]

end UdpSpeeder.Fec
