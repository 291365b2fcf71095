/-
  UdpSpeeder.Fec.Invert — `invert_mat` of `lib/fec.cpp`: Gauss-Jordan inversion in place,
  with the diagonal entry tried first, a search over all unused rows and columns when it
  is zero, no elimination when the pivot row is already a unit row, and the columns
  unscrambled at the end in the reverse of the order of the swaps.

  One round of the column loop is `Lib.Exchange`'s swap and pivot (`pivotStep_spec`), so a
  matrix that takes only zero to zero is inverted (`invertMat_spec`).
-/

import UdpSpeeder.Fec.Addmul
import UdpSpeeder.Fec.Code
import UdpSpeeder.Lib.Exchange

namespace UdpSpeeder.Fec

open Lib Finset

/-! ## The code -/

/-- The failures `invert_mat` reports; it returns 1 for each. -/
inductive InvertError where
  | tooLarge
  | singular
  | pivotNotFound
  | singular2
  deriving DecidableEq, Repr

/-- `SWAP` on `k` columns of two rows. -/
def swapRows (src : Mat) (irow icol k : Nat) : Mat :=
  loop k (fun ix src => setEntry (setEntry src irow ix (src icol ix)) icol ix (src irow ix)) src

/-- `SWAP` on `k` rows of two columns. -/
def swapCols (src : Mat) (r c k : Nat) : Mat :=
  loop k (fun row src => setEntry (setEntry src row r (src row c)) row c (src row r)) src

/-- The entry to pivot on: the diagonal one, else the first nonzero entry in a row and a
    column not used yet. -/
def findPiv (src : Mat) (ipiv : Nat → Nat) (col k : Nat) : Except InvertError (Option (Nat × Nat)) :=
  if ipiv col ≠ 1 ∧ src col col ≠ 0 then .ok (some (col, col))
  else seek k fun row =>
    if ipiv row ≠ 1 then
      seek k fun ix =>
        if ipiv ix = 0 then .ok (if src row ix ≠ 0 then some (row, ix) else none)
        else if 1 < ipiv ix then .error .singular
        else .ok none
    else .ok none

/-- Scale the pivot row by the inverse of the pivot. -/
def scaleRow (pivotRow : Nat → Byte) (icol k : Nat) : Nat → Byte :=
  let c := pivotRow icol
  if c ≠ 1 then loop k (fun ix row => upd row ix (gfMul (inverse c) (row ix))) (upd pivotRow icol 1) else pivotRow

/-- Whether `memcmp` finds the row equal to the unit row. -/
def isIdRow (row : Nat → Byte) (icol k : Nat) : Bool :=
  (List.range k).all fun ix => row ix = if ix = icol then 1 else 0

/-- Remove multiples of the pivot row from all the others. -/
def eliminate (form : Form) (src : Mat) (icol k : Nat) : Mat :=
  loop k (fun ix src =>
    if ix = icol then src else upd src ix (addmul form (upd (src ix) icol 0) (src icol) (src ix icol) k)) src

structure Elim where
  src : Mat
  ipiv : Nat → Nat
  indxr : Nat → Nat
  indxc : Nat → Nat

/-- The body of the loop over `col`. -/
def pivotStep (form : Form) (k col : Nat) (s : Elim) : Except InvertError Elim := do
  match ← findPiv s.src s.ipiv col k with
  | none => .error .pivotNotFound
  | some (irow, icol) =>
    let ipiv := upd s.ipiv icol (s.ipiv icol + 1)
    let src := if irow ≠ icol then swapRows s.src irow icol k else s.src
    let indxr := upd s.indxr col irow
    let indxc := upd s.indxc col icol
    if src icol icol = 0 then .error .singular2
    else
      let src := upd src icol (scaleRow (src icol) icol k)
      let src := if isIdRow (src icol) icol k then src else eliminate form src icol k
      .ok ⟨src, ipiv, indxr, indxc⟩

/-- `invert_mat`. The matrix is scratch: no caller reads it after a failure. -/
def invertMat (form : Form) (src : Mat) (k : Nat) : Except InvertError Mat :=
  if gfSize + 1 < k then .error .tooLarge
  else do
  let s ← loopE k (pivotStep form k) ⟨src, fun _ => 0, fun _ => 0, fun _ => 0⟩
  .ok (loop k (fun r src =>
    let col := k - 1 - r
    if s.indxr col ≠ s.indxc col then swapCols src (s.indxr col) (s.indxc col) k else src) s.src)

/-! ## Swaps -/

theorem swap_val {k : Nat} (a b i : Fin k) : (Equiv.swap a b i : Nat) = Equiv.swap (a : Nat) b i := by
  simp only [Equiv.swap_apply_def, Fin.ext_iff]
  split
  · rfl
  · split <;> rfl

theorem swapRows_apply (src : Mat) {irow icol k : Nat} (i : Nat) {j : Nat} (hj : j < k) :
    swapRows src irow icol k i j = src (Equiv.swap irow icol i) j := by
  suffices h : ∀ i, swapRows src irow icol k i j = if j < k then src (Equiv.swap irow icol i) j else src i j by
    rw [h, if_pos hj]
  refine loop_inv (fun (m : Nat) (t : Mat) => ∀ i, t i j = if j < m then src (Equiv.swap irow icol i) j else src i j)
    ?_ k ?_
  · intro i; simp
  · intro m _ t ht i
    rw [setEntry_apply, setEntry_apply]
    by_cases e : j = m
    · subst e
      have hold : ∀ i, t i j = src i j := fun i => by rw [ht, if_neg (by omega)]
      simp only [and_true, hold, Nat.lt_add_one, if_true, Equiv.swap_apply_def]
      by_cases h1 : i = icol
      · by_cases h2 : i = irow
        · simp [← h1, ← h2]
        · simp [h1, show icol ≠ irow from fun h => h2 (h1.trans h)]
      · by_cases h2 : i = irow
        · rw [h2] at h1; simp [h1, h2]
        · simp [h1, h2]
    · simp only [e, and_false, if_false, ht, show j < m + 1 ↔ j < m by omega]

theorem swapCols_apply (src : Mat) {r c k i : Nat} (j : Nat) (hi : i < k) :
    swapCols src r c k i j = src i (Equiv.swap r c j) := by
  suffices h : ∀ j, swapCols src r c k i j = if i < k then src i (Equiv.swap r c j) else src i j by
    rw [h, if_pos hi]
  refine loop_inv (fun (m : Nat) (t : Mat) => ∀ j, t i j = if i < m then src i (Equiv.swap r c j) else src i j) ?_ k ?_
  · intro j; simp
  · intro m _ t ht j
    rw [setEntry_apply, setEntry_apply]
    by_cases e : i = m
    · subst e
      have hold : ∀ j, t i j = src i j := fun j => by rw [ht, if_neg (by omega)]
      simp only [true_and, hold, Nat.lt_add_one, if_true, Equiv.swap_apply_def]
      by_cases h1 : j = c
      · by_cases h2 : j = r
        · simp [← h1, ← h2]
        · simp [h1, show c ≠ r from fun h => h2 (h1.trans h)]
      · by_cases h2 : j = r
        · rw [h2] at h1; simp [h1, h2]
        · simp [h1, h2]
    · simp only [e, false_and, if_false, ht, show i < m + 1 ↔ i < m by omega]

/-! ## The pivot -/

theorem findPiv_found {src : Mat} {ipiv : Nat → Nat} {col k r c : Nat} (hcol : col < k) (h01 : ∀ i, ipiv i = 0 ∨ ipiv i = 1)
    (h : findPiv src ipiv col k = .ok (some (r, c))) : (r < k ∧ ipiv r = 0) ∧ (c < k ∧ ipiv c = 0) ∧ src r c ≠ 0 := by
  unfold findPiv at h
  split at h
  · rename_i hd
    have : ipiv col = 0 := (h01 col).resolve_right hd.1
    cases h
    exact ⟨⟨hcol, this⟩, ⟨hcol, this⟩, hd.2⟩
  · obtain ⟨row, hrow, h⟩ := seek_found k h
    split at h
    · rename_i hr
      obtain ⟨ix, hix, h⟩ := seek_found k h
      split at h
      · rename_i hc
        by_cases hs : src row ix ≠ 0
        · rw [if_pos hs] at h
          cases h
          exact ⟨⟨hrow, (h01 _).resolve_right hr⟩, ⟨hix, hc⟩, hs⟩
        · rw [if_neg hs] at h; cases h
      · split at h <;> cases h
    · cases h

theorem findPiv_ok {src : Mat} {ipiv : Nat → Nat} {col k r c : Nat} (h01 : ∀ i, ipiv i = 0 ∨ ipiv i = 1)
    (hr : r < k ∧ ipiv r = 0) (hc : c < k ∧ ipiv c = 0) (hs : src r c ≠ 0) :
    ∃ p, findPiv src ipiv col k = .ok (some p) := by
  unfold findPiv
  split
  · exact ⟨_, rfl⟩
  · have inner : ∀ row ix, ∃ q : Option (Nat × Nat), (if ipiv ix = 0 then
        (.ok (if src row ix ≠ 0 then some (row, ix) else none) : Except InvertError (Option (Nat × Nat)))
        else if 1 < ipiv ix then .error .singular else .ok none) = .ok q := by
      intro row ix
      rcases h01 ix with h | h <;> simp [h]
    obtain ⟨q, hq⟩ : ∃ q, (seek k fun row => if ipiv row ≠ 1 then seek k fun ix =>
      if ipiv ix = 0 then (.ok (if src row ix ≠ 0 then some (row, ix) else none) : Except InvertError (Option (Nat × Nat)))
        else if 1 < ipiv ix then .error .singular else .ok none else .ok none) = .ok q := by
      refine seek_ok k fun row _ => ?_
      by_cases h : ipiv row ≠ 1
      · rw [if_pos h]
        exact seek_ok k fun ix _ => inner row ix
      · exact ⟨none, by simp [h]⟩
    cases q with
    | some p => exact ⟨p, hq⟩
    | none =>
      -- a search without a result would have passed over row `r`, column `c`
      have h1 := seek_none k hq r hr.1
      rw [if_pos (by omega)] at h1
      have h2 := seek_none k h1 c hc.1
      rw [if_pos hc.2, if_pos hs] at h2
      cases h2

theorem scaleRow_apply {row : Nat → Byte} {icol k j : Nat} (hj : j < k) :
    scaleRow row icol k j = if j = icol then (row icol)⁻¹ else (row icol)⁻¹ * row j := by
  unfold scaleRow
  by_cases hc : row icol = 1
  · simp only [hc, ne_eq, not_true_eq_false, if_false, inv_one, one_mul]
    split
    · rename_i e; rw [e, hc]
    · rfl
  · simp only [ne_eq, hc, not_false_eq_true, if_true]
    have hloop : ∀ (a : Nat → Byte) (c : Byte), loop k (fun ix row => upd row ix (gfMul (inverse c) (row ix))) a j =
        gfMul (inverse c) (a j) := by
      intro a c
      refine loop_inv (fun (m : Nat) (t : Nat → Byte) => t j = if j < m then gfMul (inverse c) (a j) else a j) ?_ k ?_
        |>.trans (if_pos hj)
      · simp
      · intro m _ t ht
        rw [upd_apply]
        by_cases e : j = m
        · subst e; rw [if_pos rfl, ht, if_neg (by omega), if_pos (by omega)]
        · simp only [e, if_false, ht, show j < m + 1 ↔ j < m by omega]
    rw [hloop, ← inv_eq_inverse, ← mul_eq_gfMul, upd_apply]
    split
    · rw [mul_one]
    · rfl

theorem isIdRow_iff {row : Nat → Byte} {icol k : Nat} :
    isIdRow row icol k = true ↔ ∀ ix < k, row ix = if ix = icol then 1 else 0 := by
  simp [isIdRow]

theorem eliminate_apply (form : Form) {src : Mat} {icol k i j : Nat} (hi : i < k) (hj : j < k) : eliminate form src icol k i j =
    if i = icol then src i j else (if j = icol then 0 else src i j) + src i icol * src icol j := by
  suffices h : (∀ i, k ≤ i → eliminate form src icol k i = src i) ∧ eliminate form src icol k icol = src icol ∧
      ∀ i j, i < k → j < k → eliminate form src icol k i j = if i = icol then src i j
        else (if j = icol then 0 else src i j) + src i icol * src icol j from h.2.2 i j hi hj
  refine loop_inv (fun (m : Nat) (t : Mat) => (∀ i, m ≤ i → t i = src i) ∧ t icol = src icol ∧
    ∀ i j, i < m → j < k → t i j = if i = icol then src i j
      else (if j = icol then 0 else src i j) + src i icol * src icol j) ⟨fun _ _ => rfl, rfl, fun i j hi => by omega⟩ k ?_
  rintro ix hix a ⟨hrest, hpiv, hdone⟩
  by_cases e : ix = icol
  · rw [if_pos e]
    refine ⟨fun i hi => hrest i (by omega), hpiv, fun i j hi hj => ?_⟩
    by_cases e' : i = ix
    · rw [if_pos (e'.trans e), e', hrest ix le_rfl]
    · exact hdone i j (by omega) hj
  · rw [if_neg e]
    refine ⟨?_, ?_, ?_⟩
    · intro i hi
      rw [upd_ne _ _ (by omega)]; exact hrest i (by omega)
    · rw [upd_ne _ _ (Ne.symm e)]; exact hpiv
    · intro i j hi hj
      by_cases e' : i = ix
      · subst e'
        rw [upd_same, addmul_apply, if_pos hj, if_neg e, upd_apply, hpiv, hrest i le_rfl]
      · rw [upd_ne _ _ e']; exact hdone i j (by omega) hj

/-! ## One round -/

/-- The array as a matrix. -/
def toMatrix (k : Nat) (src : Mat) : Matrix (Fin k) (Fin k) Byte := fun i j => src i j

/-- The rows and columns used as pivots so far. -/
def used (k : Nat) (ipiv : Nat → Nat) : Finset (Fin k) := univ.filter fun i => ipiv i = 1

theorem mem_used {k : Nat} {ipiv : Nat → Nat} {i : Fin k} : i ∈ used k ipiv ↔ ipiv i = 1 := by simp [used]

/-- The swaps of the first `m` rounds. -/
def swaps (indxr indxc : Nat → Nat) : Nat → Equiv.Perm Nat
  | 0 => 1
  | m + 1 => swaps indxr indxc m * Equiv.swap (indxr m) (indxc m)

theorem swaps_congr {r r' c c' : Nat → Nat} {m : Nat} (hr : ∀ i < m, r i = r' i) (hc : ∀ i < m, c i = c' i) :
    swaps r c m = swaps r' c' m := by
  induction m with
  | zero => rfl
  | succ m ih =>
    rw [swaps, swaps, ih (fun i hi => hr i (by omega)) (fun i hi => hc i (by omega)), hr m (by omega), hc m (by omega)]

/-- What holds after `col` rounds. -/
structure Progress (A : Matrix (Fin k) (Fin k) Byte) (col : Nat) (s : Elim) where
  flags : ∀ i, s.ipiv i = 0 ∨ s.ipiv i = 1
  count : (used k s.ipiv).card = col
  bound : ∀ m < col, s.indxr m < k ∧ s.indxc m < k
  perm : ∃ σ : Equiv.Perm (Fin k), (∀ i, (σ i : Nat) = swaps s.indxr s.indxc col i) ∧
    Exchange.Holds A (used k s.ipiv) σ (toMatrix k s.src)

theorem pivot_entry {k : Nat} {src : Mat} {c : Fin k} {t : Mat}
    (hrow : ∀ j < k, t c j = if j = c then (src c c)⁻¹ else (src c c)⁻¹ * src c j)
    (hother : ∀ i j, i < k → j < k → i ≠ c → t i j = (if j = c then 0 else src i j) + src i c * t c j) :
    toMatrix k t = Exchange.pivotAt (toMatrix k src) c := by
  funext i j
  simp only [toMatrix, Exchange.pivotAt]
  by_cases hi : i = c
  · subst hi
    rw [if_pos rfl, hrow j j.2]
    simp only [Fin.ext_iff]
  · have hi' : (i : Nat) ≠ c := fun h => hi (Fin.ext h)
    rw [if_neg hi, hother i j i.2 j.2 hi', hrow j j.2]
    by_cases hj : j = c
    · subst hj; simp [neg_eq]
    · have hj' : (j : Nat) ≠ c := fun h => hj (Fin.ext h)
      rw [if_neg hj, if_neg hj', if_neg hj', sub_eq_xor, add_eq_xor]

theorem exists_unused {k col : Nat} {A : Matrix (Fin k) (Fin k) Byte} {s : Elim} (h : Progress A col s) (hcol : col < k) :
    ∃ c : Fin k, c ∉ used k s.ipiv := by
  by_contra hall
  have huniv : used k s.ipiv = univ := eq_univ_iff_forall.mpr fun c => by
    by_contra hc; exact hall ⟨c, hc⟩
  have hcard := h.count
  rw [huniv, card_univ, Fintype.card_fin] at hcard
  omega

/-- Scaling the pivot row and eliminating its column, or finding nothing to eliminate, is one
    step of the exchange. -/
theorem reduced_eq (form : Form) {k : Nat} (src : Mat) (c : Fin k) :
    let src' := upd src c (scaleRow (src c) c k)
    toMatrix k (if isIdRow (src' c) c k then src' else eliminate form src' c k) = Exchange.pivotAt (toMatrix k src) c := by
  intro src'
  have hrow : ∀ j < k, src' c j = if j = c then (src c c)⁻¹ else (src c c)⁻¹ * src c j := by
    intro j hj
    simp only [src', upd_same]
    exact scaleRow_apply hj
  have hoff : ∀ i j, i ≠ (c : Nat) → src' i j = src i j := fun i j hi => by simp only [src']; rw [upd_ne _ _ hi]
  by_cases hid : isIdRow (src' c) c k = true
  · rw [if_pos hid]
    refine pivot_entry hrow fun i j _ hj hi => ?_
    rw [isIdRow_iff.mp hid j hj, hoff i j hi]
    by_cases e : j = c
    · simp [e]
    · simp [e]
  · rw [if_neg hid]
    refine pivot_entry (fun j hj => ?_) fun i j hi hj hne => ?_
    · rw [eliminate_apply form c.2 hj, if_pos rfl]; exact hrow j hj
    · rw [eliminate_apply form hi hj, if_neg hne, eliminate_apply form c.2 hj, if_pos rfl, hoff i j hne, hoff i c hne]

theorem pivotStep_spec (form : Form) {k col : Nat} {A : Matrix (Fin k) (Fin k) Byte} (hA : ∀ x, A.mulVec x = 0 → x = 0)
    (hcol : col < k) {s : Elim} (h : Progress A col s) :
    ∃ s', pivotStep form k col s = .ok s' ∧ Progress A (col + 1) s' := by
  obtain ⟨σ, hσ, hM⟩ := h.perm
  -- an unused column is left, so there is a pivot to find
  obtain ⟨c0, hc0⟩ := exists_unused h hcol
  have zero_of : ∀ i : Fin k, i ∉ used k s.ipiv → s.ipiv i = 0 := fun i hi =>
    (h.flags i).resolve_right fun h1 => hi (mem_used.mpr h1)
  obtain ⟨r0, hr0, c1, hc1, hne⟩ := Exchange.exists_pivot hA hM hc0
  obtain ⟨⟨irow, icol⟩, hfind⟩ := @findPiv_ok s.src _ col k _ _ h.flags ⟨r0.2, zero_of _ hr0⟩ ⟨c1.2, zero_of _ hc1⟩ hne
  obtain ⟨⟨hr, hr1⟩, ⟨hc, hc1⟩, hpiv⟩ := findPiv_found hcol h.flags hfind
  let r : Fin k := ⟨irow, hr⟩
  let c : Fin k := ⟨icol, hc⟩
  have hrU : r ∉ used k s.ipiv := fun h => by rw [mem_used] at h; simp only [r] at h; omega
  have hcU : c ∉ used k s.ipiv := fun h => by rw [mem_used] at h; simp only [c] at h; omega
  -- the swap
  obtain ⟨src1, hsrc1, hswap⟩ : ∃ src1 : Mat, (if irow ≠ icol then swapRows s.src irow icol k else s.src) = src1 ∧
      ∀ i j, j < k → src1 i j = s.src (Equiv.swap irow icol i) j := by
    refine ⟨_, rfl, fun i j hj => ?_⟩
    split
    · exact swapRows_apply _ i hj
    · rename_i e
      have e : irow = icol := by omega
      rw [e, Equiv.swap_self]; rfl
  have hM1 : Exchange.Holds A (used k s.ipiv) (σ * Equiv.swap r c) (toMatrix k src1) := by
    have := Exchange.swap hrU hcU hM
    have e : Exchange.swapRows (toMatrix k s.src) r c = toMatrix k src1 := by
      funext i j
      simp only [Exchange.swapRows, toMatrix, hswap _ _ j.2, swap_val, r, c]
    rwa [e] at this
  have hdiag : src1 icol icol ≠ 0 := by
    rw [hswap _ _ hc, Equiv.swap_apply_right]; exact hpiv
  -- the scaled row and the elimination
  let src2 := upd src1 icol (scaleRow (src1 icol) icol k)
  let t := if isIdRow (src2 icol) icol k then src2 else eliminate form src2 icol k
  have hmat : toMatrix k t = Exchange.pivotAt (toMatrix k src1) c := reduced_eq form src1 c
  refine ⟨⟨t, upd s.ipiv icol (s.ipiv icol + 1), upd s.indxr col irow, upd s.indxc col icol⟩, ?_, ?_⟩
  · unfold pivotStep
    rw [hfind]
    simp only [bind, Except.bind, hsrc1, if_neg hdiag]
    rfl
  · have hused : used k (upd s.ipiv icol (s.ipiv icol + 1)) = insert c (used k s.ipiv) := by
      ext i
      rw [mem_used, mem_insert, mem_used, upd_apply, Fin.ext_iff]
      by_cases e : (i : Nat) = icol
      · simp [e, hc1, c]
      · simp [e, c]
    have hlt : ∀ {f : Nat → Nat} {v : Nat}, ∀ m < col, upd f col v m = f m := fun m hm => upd_ne _ _ (by omega)
    refine ⟨?_, ?_, ?_, σ * Equiv.swap r c, ?_, ?_⟩
    · intro i
      show upd s.ipiv icol (s.ipiv icol + 1) i = 0 ∨ upd s.ipiv icol (s.ipiv icol + 1) i = 1
      rw [upd_apply]
      split
      · right; omega
      · exact h.flags i
    · show (used k (upd s.ipiv icol (s.ipiv icol + 1))).card = col + 1
      rw [hused, card_insert_of_notMem hcU, h.count]
    · intro m hm
      by_cases e : m = col
      · subst e; simp [hr, hc]
      · simp only [upd_ne _ _ e]; exact h.bound m (by omega)
    · intro i
      simp only [swaps, Equiv.Perm.mul_apply]
      rw [hσ, swap_val, @swaps_congr _ s.indxr _ s.indxc _ hlt hlt, upd_same, upd_same]
    · show Exchange.Holds A (used k (upd s.ipiv icol (s.ipiv icol + 1))) _ (toMatrix k t)
      rw [hused, hmat]
      exact Exchange.pivot hcU hdiag hM1

/-! ## The inverse -/

theorem invertMat_spec (form : Form) {k : Nat} {src : Mat} (hA : ∀ x, (toMatrix k src).mulVec x = 0 → x = 0) (hk : k ≤ 256) :
    ∃ t, invertMat form src k = .ok t ∧ toMatrix k t * toMatrix k src = 1 := by
  have start : Progress (toMatrix k src) 0 ⟨src, fun _ => 0, fun _ => 0, fun _ => 0⟩ := by
    have hu : used k (fun _ => 0) = ∅ := by ext i; simp [mem_used]
    refine ⟨fun _ => .inl rfl, by rw [hu, card_empty], fun _ h => by omega, 1, fun _ => rfl, ?_⟩
    rw [hu]
    exact Exchange.init
  obtain ⟨s, hs, hp⟩ := loopE_ok (Progress (toMatrix k src)) start k fun col hcol s hs => pivotStep_spec form hA hcol hs
  obtain ⟨σ, hσ, hM⟩ := hp.perm
  have hall : used k s.ipiv = univ := by
    apply eq_univ_of_card
    rw [hp.count, Fintype.card_fin]
  rw [hall] at hM
  refine ⟨_, by unfold invertMat; rw [if_neg (by unfold gfSize; omega), hs]; rfl, ?_⟩
  rw [← Exchange.finish hM]
  congr 1
  -- each round of the last loop undoes the last swap left
  suffices h : ∃ τ : Equiv.Perm (Fin k), (∀ i, (τ i : Nat) = swaps s.indxr s.indxc (k - k) i) ∧
      Exchange.unswap (toMatrix k (loop k (fun r src => if s.indxr (k - 1 - r) ≠ s.indxc (k - 1 - r) then
        swapCols src (s.indxr (k - 1 - r)) (s.indxc (k - 1 - r)) k else src) s.src)) τ =
      Exchange.unswap (toMatrix k s.src) σ by
    obtain ⟨τ, hτ, h⟩ := h
    have : τ = 1 := by
      ext i
      rw [hτ, Nat.sub_self]; rfl
    rw [this, Exchange.unswap_one] at h
    exact h
  refine loop_inv (fun (m : Nat) (t : Mat) => ∃ τ : Equiv.Perm (Fin k),
    (∀ i, (τ i : Nat) = swaps s.indxr s.indxc (k - m) i) ∧
      Exchange.unswap (toMatrix k t) τ = Exchange.unswap (toMatrix k s.src) σ) ⟨σ, hσ, rfl⟩ k ?_
  rintro m hm t ⟨τ, hτ, ht⟩
  obtain ⟨hr, hc⟩ := hp.bound (k - 1 - m) (by omega)
  let r : Fin k := ⟨_, hr⟩
  let c : Fin k := ⟨_, hc⟩
  refine ⟨τ * Equiv.swap r c, ?_, ?_⟩
  · intro i
    have e : k - m = k - 1 - m + 1 := by omega
    rw [Equiv.Perm.mul_apply, hτ, swap_val, e, swaps, Equiv.Perm.mul_apply, Equiv.swap_apply_self,
      show k - (m + 1) = k - 1 - m by omega]
  · rw [← ht, Exchange.unswap_mul_swap]
    congr 1
    funext i j
    simp only [Exchange.swapCols, toMatrix, swap_val, r, c]
    split
    · rw [swapCols_apply _ _ i.2, Equiv.swap_apply_self]
    · rename_i e
      rw [not_not.mp e, Equiv.swap_self]; rfl

end UdpSpeeder.Fec
