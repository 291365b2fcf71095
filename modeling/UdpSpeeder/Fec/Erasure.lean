/-
  UdpSpeeder.Fec.Erasure — what `rs_encode2` and `rs_decode2` do to blocks.

  Encoding writes row `j` of the code times the data to parity block `j`
  (`rsEncode_spec`). Decoding works for any blocks `D` the packets at hand are the rows of
  (`Rows`): compaction keeps the first `k` positions filled, the shuffle puts every data
  packet at its own position, the rows of the code at the positions left are independent,
  so their matrix is inverted, and the packets not at their own position are replaced by
  the blocks they stand in for (`rsDecode_spec`).
-/

import UdpSpeeder.Fec.Rs
import Mathlib.Data.List.GetD
import Mathlib.LinearAlgebra.Matrix.ToLin
import Mathlib.LinearAlgebra.FiniteDimensional.Basic

namespace UdpSpeeder.Fec

open Lib Lib.Systematic Finset

variable {P : Type} [DecidableEq P] {k n : Nat}

/-! ## Encoding -/

/-- Byte `i` of block `j` of the code over the data blocks `D`. -/
noncomputable def shard (k : Nat) (D : Nat → Nat → Byte) (j i : Nat) : Byte := ∑ c ∈ range k, enc point k j c * D c i

theorem shard_data {D : Nat → Nat → Byte} {j : Nat} (hk : k ≤ 256) (hj : j < k) (i : Nat) : shard k D j i = D j i := by
  unfold shard
  rw [sum_eq_single j]
  · rw [enc_systematic point (point_distinct.mono hk) hj hj, if_pos rfl, one_mul]
  · intro c hc hne
    rw [enc_systematic point (point_distinct.mono hk) hj (mem_range.mp hc), if_neg hne.symm, zero_mul]
  · intro h; exact absurd (mem_range.mpr hj) h

theorem shard_congr {D D' : Nat → Nat → Byte} {i : Nat} (h : ∀ c < k, D c i = D' c i) (j : Nat) :
    shard k D j i = shard k D' j i :=
  sum_congr rfl fun c hc => by rw [h c (mem_range.mp hc)]

theorem fecEncode_spec (form : Form) (code : FecParms k n) {m : Mem P} {src : Nat → Option P} {buf : Nat → P} {f : P} {index sz : Nat}
    (hi : k ≤ index) (hn : index < n) (hsrc : ∀ c < k, src c = some (buf c)) (hne : ∀ c < k, buf c ≠ f) :
    ∃ d, fecEncode form code m src (some f) index sz = .ok (Function.update m f d) ∧
      (∀ i < sz, d i = shard k (fun c => m (buf c)) index i) ∧ ∀ i, sz ≤ i → d i = m f i := by
  unfold fecEncode
  rw [if_neg (by omega), if_pos hn]
  simp only [deref, ok_bind]
  suffices h : ∃ m', loopE k (fun i m => do
      let s ← deref (src i) "src"
      .ok (Function.update m f (addmul form (m f) (m s) (code.encMatrix index i) sz))) (Function.update m f (copyTo (m f) 0 (fun _ => 0) sz)) = .ok m' ∧
      ∃ d, m' = Function.update m f d ∧
        (∀ i < sz, d i = ∑ c ∈ range k, enc point k index c * m (buf c) i) ∧ ∀ i, sz ≤ i → d i = m f i by
    obtain ⟨m', hm', d, rfl, hd⟩ := h
    exact ⟨d, hm', hd⟩
  refine loopE_ok (fun (r : Nat) (m' : Mem P) => ∃ d, m' = Function.update m f d ∧
    (∀ i < sz, d i = ∑ c ∈ range r, enc point k index c * m (buf c) i) ∧ ∀ i, sz ≤ i → d i = m f i) ?_ k ?_
  · refine ⟨_, rfl, ?_, ?_⟩
    · intro i hi
      rw [range_zero, sum_empty]; simp [copyTo, hi]
    · intro i hi
      rw [copyTo_out _ _ (by omega)]
  · rintro c hc m' ⟨d, rfl, hd, hout⟩
    refine ⟨_, ?_, addmul form d (m (buf c)) (code.encMatrix index c) sz, rfl, ?_, ?_⟩
    · simp only [hsrc c hc, deref, ok_bind, Function.update_self, Function.update_of_ne (hne c hc), Function.update_idem]
    · intro i hi
      rw [addmul_apply, if_pos hi, hd i hi, sum_range_succ, code.encMatrix_eq index hn c hc]
    · intro i hi
      rw [addmul_apply, if_neg (by omega), hout i hi]

/-- `data` names a buffer for every block, and no parity buffer doubles as another block's. -/
structure Buffers (k n : Nat) (data : Nat → Option P) (buf : Nat → P) : Prop where
  names : ∀ i < n, data i = some (buf i)
  apart : ∀ i < n, ∀ j < n, k ≤ j → i ≠ j → buf i ≠ buf j

theorem rsEncode_spec (form : Form) (code : FecParms k n) {m : Mem P} {data : Nat → Option P} {buf : Nat → P} {size : Nat}
    (hb : Buffers k n data buf) :
    ∃ m', rsEncode form code m data size = .ok m' ∧ (∀ i < k, m' (buf i) = m (buf i)) ∧
      (∀ j, k ≤ j → j < n → ∀ i < size, m' (buf j) i = shard k (fun c => m (buf c)) j i) ∧
      (∀ p, (∀ j, k ≤ j → j < n → buf j ≠ p) → m' p = m p) ∧ ∀ p i, size ≤ i → m' p i = m p i := by
  have hkn := code.shape.2.1
  suffices h : ∃ m', rsEncode form code m data size = .ok m' ∧
      (∀ j, k ≤ j → j < k + (n - k) → ∀ i < size, m' (buf j) i = shard k (fun c => m (buf c)) j i) ∧
      (∀ p, (∀ j, k ≤ j → j < k + (n - k) → buf j ≠ p) → m' p = m p) ∧ ∀ p i, size ≤ i → m' p i = m p i by
    rw [show k + (n - k) = n by omega] at h
    obtain ⟨m', hm', hp, hf, ho⟩ := h
    refine ⟨m', hm', fun i hi => hf _ fun j hj hjn => ?_, hp, hf, ho⟩
    exact (hb.apart i (by omega) j hjn hj (by omega)).symm
  refine loopE_ok (fun (r : Nat) (m' : Mem P) =>
    (∀ j, k ≤ j → j < k + r → ∀ i < size, m' (buf j) i = shard k (fun c => m (buf c)) j i) ∧
    (∀ p, (∀ j, k ≤ j → j < k + r → buf j ≠ p) → m' p = m p) ∧ ∀ p i, size ≤ i → m' p i = m p i) ?_ (n - k) ?_
  · exact ⟨fun j hj hjr => by omega, fun _ _ => rfl, fun _ _ _ => rfl⟩
  · rintro r hr m' ⟨hp, hf, ho⟩
    have hdata : ∀ c < k, m' (buf c) = m (buf c) := fun c hc =>
      hf _ fun j hj hjr => (hb.apart c (by omega) j (by omega) hj (by omega)).symm
    obtain ⟨d, hd, hval, hout⟩ := @fecEncode_spec P _ k n form code m' data buf (buf (k + r)) (k + r) size (show k ≤ k + r by omega) (by omega)
      (fun c hc => hb.names c (by omega)) (fun c hc => hb.apart c (by omega) (k + r) (by omega) (by omega) (by omega))
    refine ⟨_, by rw [hb.names (k + r) (by omega)]; exact hd, ?_, ?_, ?_⟩
    · intro j hj hjr i hi
      by_cases e : j = k + r
      · subst e
        rw [Function.update_self, hval i hi]
        exact shard_congr (fun c hc => by rw [hdata c hc]) _
      · rw [Function.update_of_ne (hb.apart j (by omega) (k + r) (by omega) (by omega) e)]
        exact hp j hj (by omega) i hi
    · intro p hpn
      rw [Function.update_of_ne (hpn (k + r) (by omega) (by omega)).symm]
      exact hf p fun j hj hjr => hpn j hj (by omega)
    · intro p i hi
      by_cases e : p = buf (k + r)
      · subst e; rw [Function.update_self, hout i hi, ho _ i hi]
      · rw [Function.update_of_ne e, ho p i hi]

/-- What `rs_encode2` leaves: parity in its buffers, everything else as it was. -/
structure Encoded (k n : Nat) (m : Mem P) (buf : Nat → P) (size : Nat) (m' : Mem P) : Prop where
  data : ∀ i < k, m' (buf i) = m (buf i)
  parity : ∀ j, k ≤ j → j < n → ∀ i < size, m' (buf j) i = shard k (fun c => m (buf c)) j i
  frame : ∀ p, (∀ j, k ≤ j → j < n → buf j ≠ p) → m' p = m p
  beyond : ∀ p i, size ≤ i → m' p i = m p i

theorem rsEncode2_spec (codes : CodeTable) (m : Mem P) {data : Nat → Option P} {buf : Nat → P} {size : Nat}
    (hk : 0 < k) (hkn : k ≤ n) (hn : n < 256) (hb : Buffers k n data buf) :
    ∃ codes' m', rsEncode2 k n codes m data size = .ok (codes', m') ∧ Encoded k n m buf size m' := by
  obtain ⟨⟨code, codes1⟩, hcode⟩ := getCode_ok ⟨hk, hkn, hn⟩ codes
  obtain ⟨m1, hm1, hd, hp, hf, ho⟩ := @rsEncode_spec P _ k n codes1.form code m data buf size hb
  refine ⟨codes1, m1, ?_, hd, hp, hf, ho⟩
  simp only [rsEncode2, hcode, ok_bind, hm1]

/-! ## Compaction and shuffle -/

/-- What the shuffle works on: packet `j` is the one at position `index j`, all distinct. -/
structure Indexed (k : Nat) (data pkt : Nat → Option P) (index : Nat → Nat) : Prop where
  inj : ∀ i < k, ∀ j < k, index i = index j → i = j
  pkt_eq : ∀ j < k, pkt j = data (index j)

omit [DecidableEq P] in
theorem shuffle_spec {data : Nat → Option P} (pkt : Nat → Option P) (index : Nat → Nat) (k i : Nat)
    (h : Indexed k data pkt index) (hdone : ∀ j < i, j < k → k ≤ index j ∨ index j = j) :
    ∃ pkt' index', shuffle pkt index k i = (0, pkt', index') ∧ Indexed k data pkt' index' ∧
      (∀ j < k, k ≤ index' j ∨ index' j = j) ∧ (∀ j, k ≤ j → pkt' j = pkt j) ∧
      ∀ v, (∃ j < k, index' j = v) ↔ ∃ j < k, index j = v := by
  fun_induction shuffle pkt index k i with
  | case1 pkt index i hi hplace ih =>
    refine ih h fun j hj hjk => ?_
    by_cases e : j = i
    · subst e; exact hplace
    · exact hdone j (by omega) hjk
  | case2 pkt index i hi hplace hconf =>
    -- two positions would name one packet
    exact absurd (h.inj i hi (index i) (by omega) hconf.symm) fun e => hplace (.inr e.symm)
  | case3 pkt index i hi hplace hconf ih =>
    have hc : index i < k := by omega
    have hsw : ∀ j, j < k → Equiv.swap i (index i) j < k := by
      intro j hj
      rw [Equiv.swap_apply_def]
      split
      · exact hc
      · split
        · exact hi
        · exact hj
    have hswap : Indexed k data (swapAt pkt i (index i)) (swapAt index i (index i)) := by
      refine ⟨?_, ?_⟩
      · intro a ha b hb e
        rw [swapAt_apply, swapAt_apply] at e
        exact (Equiv.swap i (index i)).injective (h.inj _ (hsw a ha) _ (hsw b hb) e)
      · intro j hj
        rw [swapAt_apply, swapAt_apply, h.pkt_eq _ (hsw j hj)]
    have hkeep : ∀ j < i, j < k → k ≤ swapAt index i (index i) j ∨ swapAt index i (index i) j = j := by
      intro j hj hjk
      rw [swapAt_apply]
      by_cases e : j = index i
      · right; rw [e, Equiv.swap_apply_right]
      · rw [Equiv.swap_apply_of_ne_of_ne (by omega) e]
        exact hdone j hj hjk
    obtain ⟨pkt', index', hrun, hix, hpl, hrest, hvals⟩ := ih hswap hkeep
    refine ⟨pkt', index', hrun, hix, hpl, ?_, ?_⟩
    · intro j hj
      rw [hrest j hj, swapAt_apply, Equiv.swap_apply_of_ne_of_ne (by omega) (by omega)]
    · intro v
      rw [hvals v]
      constructor
      · rintro ⟨j, hj, e⟩
        exact ⟨_, hsw j hj, by rwa [swapAt_apply] at e⟩
      · rintro ⟨j, hj, e⟩
        exact ⟨_, hsw j hj, by rw [swapAt_apply, Equiv.swap_apply_self, e]⟩
  | case4 pkt index i hi =>
    exact ⟨pkt, index, rfl, h, fun j hj => hdone j (by omega) hj, fun _ _ => rfl, fun _ => Iff.rfl⟩

omit [DecidableEq P] in
theorem present_sorted (data : Nat → Option P) (n : Nat) : (present data n).Pairwise (· < ·) :=
  List.pairwise_lt_range.filter _

omit [DecidableEq P] in
theorem mem_present {data : Nat → Option P} {n i : Nat} : i ∈ present data n ↔ i < n ∧ (data i).isSome := by
  simp [present]

omit [DecidableEq P] in
/-- Position `i` of the index, as `rs_decode` reads it. -/
theorem present_getD {data : Nat → Option P} {n i : Nat} (h : i < (present data n).length) :
    (present data n).getD i 0 ∈ present data n ∧ i ≤ (present data n).getD i 0 := by
  rw [List.getD_eq_getElem _ _ h]
  exact ⟨List.getElem_mem h, le_of_sorted (present_sorted data n) i h⟩

theorem getD_mem_take {l : List Nat} {i k : Nat} (hk : i < k) (h : i < l.length) : l.getD i 0 ∈ l.take k := by
  rw [List.getD_eq_getElem _ _ h]
  exact List.mem_take_iff_getElem.mpr ⟨i, by omega, rfl⟩

omit [DecidableEq P] in
theorem present_inj {data : Nat → Option P} {n i j : Nat} (hi : i < (present data n).length)
    (hj : j < (present data n).length) (h : (present data n).getD i 0 = (present data n).getD j 0) : i = j := by
  rw [List.getD_eq_getElem _ _ hi, List.getD_eq_getElem _ _ hj] at h
  have hp := List.pairwise_iff_getElem.mp (present_sorted data n)
  rcases Nat.lt_trichotomy i j with hlt | rfl | hlt
  · have := hp i j hi hj hlt; omega
  · rfl
  · have := hp j i hj hi hlt; omega

omit [DecidableEq P] in
/-- A data position that is filled is among the first `k`. -/
theorem present_low {data : Nat → Option P} {n k i : Nat} (hi : i ∈ present data n) (hk : i < k) :
    ∃ j < k, j < (present data n).length ∧ (present data n).getD j 0 = i := by
  obtain ⟨j, hj, e⟩ := List.mem_iff_getElem.mp hi
  have := le_of_sorted (present_sorted data n) j hj
  exact ⟨j, by omega, hj, by rw [List.getD_eq_getElem _ _ hj, e]⟩

omit [DecidableEq P] in
/-- The compaction loop of `rs_decode`. -/
theorem compaction (data : Nat → Option P) (n j : Nat) :
    loop n (fun i data' => upd data' i (if i < (present data n).length then data' ((present data n).getD i 0) else none))
      data j =
      if j < n then (if j < (present data n).length then data ((present data n).getD j 0) else none) else data j := by
  refine loop_inv (fun (m : Nat) (t : Nat → Option P) => ∀ j, t j = if j < m then
    (if j < (present data n).length then data ((present data n).getD j 0) else none) else data j) ?_ n ?_ j
  · intro j; simp
  · intro m _ t ht j
    rw [upd_apply]
    by_cases e : j = m
    · subst e
      rw [if_pos rfl, if_pos (Nat.lt_succ_self j)]
      by_cases hlt : j < (present data n).length
      · have hle := (present_getD hlt).2
        rw [if_pos hlt, if_pos hlt, ht, if_neg (by omega)]
      · rw [if_neg hlt, if_neg hlt]
    · rw [if_neg e, ht]
      simp only [show j < m + 1 ↔ j < m by omega]

/-! ## The decode matrix -/

theorem buildDecodeMatrix_spec (form : Form) (code : FecParms k n) {index : Nat → Nat}
    (hinj : ∀ i < k, ∀ j < k, index i = index j → i = j) (hn : ∀ j < k, index j < n)
    (hplace : ∀ j < k, k ≤ index j ∨ index j = j) :
    ∃ t, buildDecodeMatrix form code index = some t ∧
      ∀ row < k, ∀ c < k, ∑ col ∈ range k, t row col * enc point k (index col) c = if row = c then 1 else 0 := by
  have hk := code.shape
  obtain ⟨rows, hrows, hval⟩ : ∃ t, loopE k (fun i matrix =>
      if index i < k then .ok (upd matrix i (upd (copyTo (matrix i) 0 (fun _ => 0) k) i 1))
      else if index i < n then .ok (upd matrix i (copyTo (matrix i) 0 (code.encMatrix (index i)) k))
      else .error ()) code.decMatrix = .ok t ∧ ∀ i j, i < k → j < k → t i j = enc point k (index i) j := by
    refine loopE_ok (fun (m : Nat) (t : Mat) => ∀ i j, i < m → j < k → t i j = enc point k (index i) j)
      (fun i j h => by omega) k ?_
    intro i hi t ht
    by_cases hlow : index i < k
    · have hpi : index i = i := (hplace i hi).resolve_left (by omega)
      refine ⟨_, if_pos hlow, fun a b ha hb => ?_⟩
      by_cases e : a = i
      · subst e
        rw [upd_same, upd_apply, hpi, enc_systematic point (point_distinct.mono (by omega)) hi hb]
        by_cases e' : b = a
        · rw [if_pos e', if_pos e'.symm]
        · rw [if_neg e', if_neg (Ne.symm e')]
          simp [copyTo, hb]
      · rw [upd_ne _ _ e]; exact ht a b (by omega) hb
    · refine ⟨_, by rw [if_neg hlow, if_pos (hn i hi)], fun a b ha hb => ?_⟩
      by_cases e : a = i
      · subst e
        rw [upd_same, ← code.encMatrix_eq _ (hn a hi) b hb]
        simp [copyTo, hb]
      · rw [upd_ne _ _ e]; exact ht a b (by omega) hb
  -- the rows of the code at distinct positions are independent
  have hker : ∀ x, (toMatrix k rows).mulVec x = 0 → x = 0 := by
    intro x hx
    refine enc_determines point (point_distinct.mono hk.2.2) hk.2.1 (fun i : Fin k => index i) ?_ (fun i => hn i i.2) x ?_
    · intro i j h
      exact Fin.ext (hinj i i.2 j j.2 h)
    · intro i
      have := congrFun hx i
      simp only [Matrix.mulVec, dotProduct, toMatrix, Pi.zero_apply] at this
      rw [← this]
      exact sum_congr rfl fun j _ => by rw [hval i j i.2 j.2]
  obtain ⟨t, ht, hinv⟩ := invertMat_spec form hker (by omega)
  refine ⟨t, by simp only [buildDecodeMatrix, hrows, ht], fun row hrow c hc => ?_⟩
  have := congrFun (congrFun hinv ⟨row, hrow⟩) ⟨c, hc⟩
  simp only [Matrix.mul_apply, toMatrix, Matrix.one_apply, Fin.ext_iff] at this
  rw [← this, ← Fin.sum_univ_eq_sum_range (fun col => t row col * enc point k (index col) c) k]
  exact sum_congr rfl fun col _ => by rw [hval col c col.2 hc]

/-- The inverse takes the rows of the code back to the blocks. -/
theorem sum_shard {t : Mat} {index : Nat → Nat} {D : Nat → Nat → Byte}
    (hinv : ∀ row < k, ∀ c < k, ∑ col ∈ range k, t row col * enc point k (index col) c = if row = c then 1 else 0)
    {row : Nat} (hrow : row < k) (i : Nat) : ∑ col ∈ range k, t row col * shard k D (index col) i = D row i := by
  simp only [shard, mul_sum, ← mul_assoc]
  rw [sum_comm]
  rw [sum_congr rfl fun c hc => by rw [← sum_mul, hinv row hrow c (mem_range.mp hc)], sum_eq_single row]
  · rw [if_pos rfl, one_mul]
  · intro c _ hne; rw [if_neg hne.symm, zero_mul]
  · intro h; exact absurd (mem_range.mpr hrow) h

/-! ## Decoding -/

/-- The first `k` packets at hand are rows of the code over the blocks `D`. -/
def Rows (k n : Nat) (m : Mem P) (data : Nat → Option P) (D : Nat → Nat → Byte) (size : Nat) : Prop :=
  ∀ j ∈ (present data n).take k, ∀ p, data j = some p → ∀ i < size, m p i = shard k D j i

/-- No parity packet lies in the buffer of another packet. -/
def Apart (k n : Nat) (data : Nat → Option P) : Prop :=
  ∀ i < n, ∀ j < n, k ≤ j → i ≠ j → ∀ p, data i = some p → data j ≠ some p

/-- What decoding leaves: every block in place, what had arrived where it was. -/
structure Decoded (k n : Nat) (m : Mem P) (data : Nat → Option P) (D : Nat → Nat → Byte) (size : Nat)
    (m' : Mem P) (data' : Nat → Option P) : Prop where
  filled : ∀ r < k, (data' r).isSome
  content : Apart k n data → ∀ r < k, ∀ p, data' r = some p → ∀ i < size, m' p i = D r i
  kept : ∀ r < k, (data r).isSome → data' r = data r
  count : (present data' n).length = (present data n).length
  within : ∀ j < n, ∀ p, data' j = some p → ∃ i < n, data i = some p
  frame : ∀ p, (∀ j, k ≤ j → j < n → data j ≠ some p) → m' p = m p
  beyond : ∀ p i, size ≤ i → m' p i = m p i

theorem growDecBuf_ok {code : FecParms k n} {sz : Nat} (h : k * sz ≤ intMax) :
    ∃ code', growDecBuf code sz = .ok code' ∧ sz ≤ code'.decBufSz ∧ code'.decMatrix = code.decMatrix := by
  unfold growDecBuf
  simp only [dif_pos h]
  split
  · exact ⟨_, rfl, le_rfl, rfl⟩
  · exact ⟨code, rfl, by omega, rfl⟩

/-- No block whose `k` copies overflow an `int` fits the scratch buffer. -/
theorem growDecBuf_overflow {code : FecParms k n} {sz : Nat} (h : ¬ k * sz ≤ intMax) :
    growDecBuf code sz = .error (.overflow "k * sz") := by
  unfold growDecBuf
  rw [if_pos, dif_neg h]
  by_contra hle
  exact h (Nat.le_trans (Nat.mul_le_mul_left k (by omega)) code.decBuf_fits)

omit [DecidableEq P] in
theorem decodeRow_ok (form : Form) {code : FecParms k n} {m : Mem P} {pkt : Nat → Option P} {row sz : Nat} {f : Nat → Nat → Byte}
    {decBuf : Nat → Byte} (hbuf : sz ≤ code.decBufSz) (hrow : row < k)
    (hpkt : ∀ col < k, ∃ p, pkt col = some p ∧ ∀ i < sz, m p i = f col i) :
    ∃ b, decodeRow form code m pkt row sz decBuf = .ok b ∧
      (∀ i < sz, b (row * sz + i) = ∑ col ∈ range k, code.decMatrix row col * f col i) ∧
      ∀ j < row * sz, b j = decBuf j := by
  have hfit : row * sz + sz ≤ k * code.decBufSz :=
    calc row * sz + sz = (row + 1) * sz := (Nat.succ_mul row sz).symm
      _ ≤ k * code.decBufSz := Nat.mul_le_mul hrow hbuf
  obtain ⟨d, hd, hval⟩ : ∃ d, loopE k (fun col newPkt => do
      let s ← deref (pkt col) "pkt"
      .ok (addmul form newPkt (m s) (code.decMatrix row col) sz)) (fun _ => 0) = .ok d ∧
      ∀ i < sz, d i = ∑ col ∈ range k, code.decMatrix row col * f col i := by
    refine loopE_ok (fun (r : Nat) (d : Nat → Byte) => ∀ i < sz, d i = ∑ col ∈ range r, code.decMatrix row col * f col i)
      (fun i _ => by rw [range_zero, sum_empty]) k ?_
    intro col hcol d hd
    obtain ⟨p, hp, hval⟩ := hpkt col hcol
    refine ⟨_, by simp only [hp, deref, ok_bind]; rfl, fun i hi => ?_⟩
    rw [addmul_apply, if_pos hi, hd i hi, sum_range_succ, hval i hi]
  refine ⟨copyTo decBuf (row * sz) d sz, ?_, ?_, ?_⟩
  · unfold decodeRow
    rw [check_true hfit, ok_bind, hd, ok_bind]
  · intro i hi
    rw [copyTo_in _ _ hi, hval i hi]
  · intro j hj
    rw [copyTo_out _ _ (by omega)]

omit [DecidableEq P] in
/-- Every row whose packet is a parity packet is computed into its place in the scratch buffer. -/
theorem decodeRows_ok (form : Form) {code : FecParms k n} {m : Mem P} {pkt : Nat → Option P} {index : Nat → Nat} {sz : Nat} {f D : Nat → Nat → Byte}
    (hbuf : sz ≤ code.decBufSz) (hpkt : ∀ col < k, ∃ p, pkt col = some p ∧ ∀ i < sz, m p i = f col i)
    (hsum : ∀ row < k, ∀ i, ∑ col ∈ range k, code.decMatrix row col * f col i = D row i) (decBuf : Nat → Byte) :
    ∃ b, loopE k (fun row decBuf => if k ≤ index row then decodeRow form code m pkt row sz decBuf else .ok decBuf) decBuf = .ok b ∧
      ∀ row < k, k ≤ index row → ∀ i < sz, b (row * sz + i) = D row i := by
  refine loopE_ok (fun (r : Nat) (b : Nat → Byte) =>
    ∀ row < r, k ≤ index row → ∀ i < sz, b (row * sz + i) = D row i) (fun row h => by omega) k ?_
  intro row hrow b hb
  by_cases hbig : k ≤ index row
  · obtain ⟨b', hrun, hval, hbefore⟩ := @decodeRow_ok _ k n form code m pkt row sz f b hbuf hrow hpkt
    refine ⟨b', by rw [if_pos hbig, hrun], fun r hr hrb i hi => ?_⟩
    by_cases e : r = row
    · subst e; rw [hval i hi, hsum r hrow]
    · have hlt : r * sz + i < row * sz :=
        calc r * sz + i < r * sz + sz := by omega
          _ = (r + 1) * sz := (Nat.succ_mul r sz).symm
          _ ≤ row * sz := Nat.mul_le_mul_right sz (by omega)
      rw [hbefore _ hlt]
      exact hb r (by omega) hrb i hi
  · refine ⟨b, if_neg hbig, fun r hr hrb i hi => ?_⟩
    by_cases e : r = row
    · subst e; exact absurd hrb hbig
    · exact hb r (by omega) hrb i hi

/-- From there each is copied over the parity packet, and no other buffer is written. -/
theorem writeRows_ok {m : Mem P} {pkt : Nat → Option P} {index : Nat → Nat} {sz : Nat} {buf : Nat → Byte} {D : Nat → Nat → Byte}
    (hpkt : ∀ row < k, (pkt row).isSome) (hbuf : ∀ row < k, k ≤ index row → ∀ i < sz, buf (row * sz + i) = D row i) :
    ∃ m', loopE k (fun row m =>
      if k ≤ index row then do
        let p ← deref (pkt row) "pkt"
        .ok (Function.update m p (copyTo (m p) 0 (fun i => buf (row * sz + i)) sz))
      else .ok m) m = .ok m' ∧
      ((∀ a < k, ∀ b < k, k ≤ index b → a ≠ b → ∀ p, pkt a = some p → pkt b ≠ some p) →
        ∀ row < k, k ≤ index row → ∀ p, pkt row = some p → ∀ i < sz, m' p i = D row i) ∧
      (∀ p, (∀ row < k, k ≤ index row → pkt row ≠ some p) → m' p = m p) ∧ ∀ p i, sz ≤ i → m' p i = m p i := by
  refine loopE_ok (fun (r : Nat) (m' : Mem P) =>
    ((∀ a < k, ∀ b < k, k ≤ index b → a ≠ b → ∀ p, pkt a = some p → pkt b ≠ some p) →
      ∀ row < r, k ≤ index row → ∀ p, pkt row = some p → ∀ i < sz, m' p i = D row i) ∧
    (∀ p, (∀ row < r, k ≤ index row → pkt row ≠ some p) → m' p = m p) ∧ ∀ p i, sz ≤ i → m' p i = m p i)
    ⟨fun _ row h => by omega, fun _ _ => rfl, fun _ _ _ => rfl⟩ k ?_
  rintro row hrow m' ⟨hval, hframe, hout⟩
  by_cases hbig : k ≤ index row
  · obtain ⟨q, hq⟩ := Option.isSome_iff_exists.mp (hpkt row hrow)
    refine ⟨_, by rw [if_pos hbig, hq]; rfl, ?_, ?_, ?_⟩
    · intro hdiff r hr hrb p hp i hi
      by_cases e : r = row
      · subst e
        obtain rfl : q = p := Option.some.inj (hq.symm.trans hp)
        rw [Function.update_self, ← Nat.zero_add i, copyTo_in _ _ hi, Nat.zero_add, hbuf r hrow hrb i hi]
      · have hne : p ≠ q := fun h => hdiff r (by omega) row hrow hbig e p hp (h ▸ hq)
        rw [Function.update_of_ne hne]
        exact hval hdiff r (by omega) hrb p hp i hi
    · intro p hp
      have hne : p ≠ q := fun h => hp row (by omega) hbig (h ▸ hq)
      rw [Function.update_of_ne hne]
      exact hframe p fun r hr => hp r (by omega)
    · intro p i hi
      by_cases e : p = q
      · subst e; rw [Function.update_self, copyTo_out _ _ (by omega), hout p i hi]
      · rw [Function.update_of_ne e, hout p i hi]
  · refine ⟨m', if_neg hbig, fun hdiff r hr hrb => ?_, fun p hp => hframe p fun r hr => hp r (by omega), hout⟩
    by_cases e : r = row
    · subst e; exact absurd hrb hbig
    · exact hval hdiff r (by omega) hrb

theorem fecDecode_spec (form : Form) (code : FecParms k n) {m : Mem P} {data pkt : Nat → Option P} {index : Nat → Nat}
    {D : Nat → Nat → Byte} {sz : Nat} (hfit : k * sz ≤ intMax)
    (hix : Indexed k data pkt index) (hn : ∀ j < k, index j < n ∧ (data (index j)).isSome)
    (hlow : ∀ r < k, (data r).isSome → ∃ j < k, index j = r)
    (hrows : ∀ j < k, ∀ p, data (index j) = some p → ∀ i < sz, m p i = shard k D (index j) i) :
    ∃ out, fecDecode form code m pkt index sz = .ok out ∧ out.ret = 0 ∧ (∀ r < k, (out.data r).isSome) ∧
      (Apart k n data → ∀ r < k, ∀ p, out.data r = some p → ∀ i < sz, out.m p i = D r i) ∧
      (∀ r < k, (data r).isSome → out.data r = data r) ∧
      (∀ r < k, ∃ j < k, out.data r = data (index j)) ∧ (∀ j, k ≤ j → out.data j = pkt j) ∧
      (∀ p, (∀ j, k ≤ j → j < n → data j ≠ some p) → out.m p = m p) ∧ ∀ p i, sz ≤ i → out.m p i = m p i := by
  obtain ⟨hk0, hkn, hn256⟩ := code.shape
  obtain ⟨pkt', index', hshuf, hix', hplace, hrest, hvals⟩ := shuffle_spec pkt index k 0 hix fun j hj => by omega
  have hn' : ∀ j < k, index' j < n ∧ (data (index' j)).isSome := by
    intro j hj
    obtain ⟨i, hi, e⟩ := (hvals (index' j)).mp ⟨j, hj, rfl⟩
    rw [← e]; exact hn i hi
  obtain ⟨t, ht, hinv⟩ := buildDecodeMatrix_spec form code hix'.inj (fun j hj => (hn' j hj).1) hplace
  obtain ⟨code', hgrow, hbuf, hmat⟩ := @growDecBuf_ok k n { code with decMatrix := t } sz hfit
  -- each packet is the row of the code it is indexed by
  have hpkt : ∀ col < k, ∃ p, pkt' col = some p ∧ ∀ i < sz, m p i = shard k D (index' col) i := by
    intro col hcol
    obtain ⟨j, hj, e⟩ := (hvals (index' col)).mp ⟨col, hcol, rfl⟩
    obtain ⟨p, hp⟩ := Option.isSome_iff_exists.mp (hn' col hcol).2
    refine ⟨p, (hix'.pkt_eq col hcol).trans hp, fun i hi => ?_⟩
    rw [← e] at hp ⊢
    exact hrows j hj p hp i hi
  have hrecover : ∀ row < k, ∀ i, ∑ col ∈ range k, code'.decMatrix row col * shard k D (index' col) i = D row i := by
    intro row hrow i
    rw [hmat]
    exact sum_shard hinv hrow i
  obtain ⟨buf, hbufrun, hbufval⟩ := @decodeRows_ok _ k n form code' m pkt' index' sz _ D hbuf hpkt hrecover
    code'.decBuf
  -- the parity buffers that take a block are all different
  have hdiff : Apart k n data → ∀ a < k, ∀ b < k, k ≤ index' b → a ≠ b → ∀ p, pkt' a = some p → pkt' b ≠ some p := by
    intro hapart a ha b hb hbig hne p hpa hpb
    rw [hix'.pkt_eq a ha] at hpa
    rw [hix'.pkt_eq b hb] at hpb
    exact hapart _ (hn' a ha).1 _ (hn' b hb).1 hbig (fun e => hne (hix'.inj a ha b hb e)) p hpa hpb
  have hsome : ∀ row < k, (pkt' row).isSome := by
    intro row hrow
    obtain ⟨p, hp, -⟩ := hpkt row hrow
    exact Option.isSome_iff_exists.mpr ⟨p, hp⟩
  obtain ⟨m', hmrun, hmval, hmframe, hmout⟩ := @writeRows_ok _ _ _ m _ _ _ _ _ hsome hbufval
  refine ⟨⟨0, { code' with decBuf := buf }, m', pkt'⟩, ?_, rfl, ?_, ?_, ?_, ?_, hrest, fun p hp => hmframe p fun row hrow hbig e => ?_,
    hmout⟩
  · simp only [fecDecode, hshuf, ht, hgrow, ok_bind, hbufrun, hmrun]
    rw [if_neg (by unfold gfSize; omega)]
    rfl
  · intro r hr
    exact hsome r hr
  · intro hap r hr p hp i hi
    by_cases hbig : k ≤ index' r
    · exact hmval (hdiff hap) r hr hbig p hp i hi
    · -- a data packet stays, and no block was written over it
      have hown : index' r = r := (hplace r hr).resolve_left hbig
      obtain ⟨q, hq, hval⟩ := hpkt r hr
      obtain rfl : q = p := Option.some.inj (hq.symm.trans hp)
      show m' q i = D r i
      rw [hmframe q fun row hrow hb e => hdiff hap r hr row hrow hb (fun h => hbig (h ▸ hb)) q hq e, hval i hi, hown,
        shard_data (by omega) hr]
  · intro r hr hs
    obtain ⟨j, hj, e⟩ := (hvals r).mpr (hlow r hr hs)
    have hjr : j = r := by
      rcases hplace j hj with h | h
      · omega
      · omega
    subst hjr
    show pkt' j = data j
    rw [hix'.pkt_eq j hj, e]
  · intro r hr
    obtain ⟨j, hj, e⟩ := (hvals (index' r)).mp ⟨r, hr, rfl⟩
    exact ⟨j, hj, by show pkt' r = _; rw [hix'.pkt_eq r hr, e]⟩
  · rw [hix'.pkt_eq row hrow] at e
    exact hp (index' row) hbig (hn' row hrow).1 e

omit [DecidableEq P] in
/-- Any `k` packets are rows of the code over some blocks. -/
theorem exists_rows {m : Mem P} {data : Nat → Option P} (hkn : k ≤ n) (hn : n ≤ 256)
    (hcount : k ≤ (present data n).length) (size : Nat) : ∃ D, Rows k n m data D size := by
  let E : Matrix (Fin k) (Fin k) Byte := fun i j => enc point k ((present data n).getD i 0) j
  have hlt : ∀ i : Fin k, (i : Nat) < (present data n).length := fun i => by have := i.2; omega
  have hinj : Function.Injective E.mulVec := by
    refine (injective_iff_map_eq_zero E.mulVecLin).mpr fun x hx => ?_
    refine enc_determines point (point_distinct.mono hn) hkn (fun i : Fin k => (present data n).getD i 0)
      (fun i j h => Fin.ext (present_inj (hlt i) (hlt j) h))
      (fun i => (mem_present.mp (present_getD (hlt i)).1).1) x fun i => ?_
    exact congrFun hx i
  have hsurj : Function.Surjective E.mulVecLin := LinearMap.injective_iff_surjective.mp hinj
  -- byte by byte, solve for the blocks
  have hsolve : ∀ i, ∃ x : Fin k → Byte, ∀ r : Fin k, ∀ p, data ((present data n).getD r 0) = some p →
      m p i = ∑ c, E r c * x c := by
    intro i
    obtain ⟨x, hx⟩ := hsurj fun r => (data ((present data n).getD r 0)).elim 0 fun p => m p i
    refine ⟨x, fun r p hp => ?_⟩
    have := congrFun hx r
    simp only [hp, Option.elim_some] at this
    exact this.symm
  choose x hx using hsolve
  refine ⟨fun c i => if h : c < k then x i ⟨c, h⟩ else 0, fun j hj p hp i _ => ?_⟩
  obtain ⟨r, hr, rfl⟩ := List.mem_take_iff_getElem.mp hj
  have hr' : r < (present data n).length := by omega
  rw [← List.getD_eq_getElem _ 0 hr'] at hp ⊢
  rw [hx i ⟨r, by omega⟩ p hp, shard, ← Fin.sum_univ_eq_sum_range
    (fun c => enc point k _ c * (if h : c < k then x i ⟨c, h⟩ else 0)) k]
  exact sum_congr rfl fun c _ => by simp [E]

/-- Blocks too large for the scratch buffer stop the decoder. -/
theorem fecDecode_overflow (form : Form) (code : FecParms k n) (m : Mem P) {data pkt : Nat → Option P} {index : Nat → Nat} {sz : Nat}
    (hfit : ¬ k * sz ≤ intMax) (hix : Indexed k data pkt index) (hn : ∀ j < k, index j < n) :
    fecDecode form code m pkt index sz = .error (.overflow "k * sz") := by
  obtain ⟨hk0, hkn, hn256⟩ := code.shape
  obtain ⟨pkt', index', hshuf, hix', hplace, -, hvals⟩ := shuffle_spec pkt index k 0 hix fun j hj => by omega
  have hn' : ∀ j < k, index' j < n := by
    intro j hj
    obtain ⟨i, hi, e⟩ := (hvals (index' j)).mp ⟨j, hj, rfl⟩
    rw [← e]; exact hn i hi
  obtain ⟨t, ht, -⟩ := buildDecodeMatrix_spec form code hix'.inj hn' hplace
  simp only [fecDecode, hshuf, ht, growDecBuf_overflow hfit]
  rw [if_neg (by unfold gfSize; omega)]
  rfl

omit [DecidableEq P] in
theorem filter_range {data : Nat → Option P} {n c : Nat} (hc : c ≤ n) (h : ∀ j < n, (data j).isSome ↔ j < c) :
    present data n = List.range c := by
  obtain ⟨d, rfl⟩ := Nat.exists_eq_add_of_le hc
  unfold present
  rw [List.range_add, List.filter_append, List.filter_eq_self.mpr, List.filter_eq_nil_iff.mpr, List.append_nil]
  · intro j hj
    obtain ⟨i, hi, rfl⟩ := List.mem_map.mp hj
    have hi := List.mem_range.mp hi
    rw [h _ (by omega)]
    omega
  · intro j hj
    have hj := List.mem_range.mp hj
    exact (h j (by omega)).mpr hj

omit [DecidableEq P] in
/-- The packets `rs_decode` hands on after its compaction. -/
theorem indexed_compaction {data : Nat → Option P} (hkn : k ≤ n) (hcount : k ≤ (present data n).length) :
    Indexed k data (loop n (fun i data' => upd data' i
      (if i < (present data n).length then data' ((present data n).getD i 0) else none)) data)
      fun i => (present data n).getD i 0 :=
  ⟨fun i hi j hj h => present_inj (by omega) (by omega) h, fun j hj => by
    rw [compaction, if_pos (by omega), if_pos (by omega)]⟩

theorem rsDecode_spec (form : Form) (code : FecParms k n) {m : Mem P} {data : Nat → Option P} {D : Nat → Nat → Byte} {size : Nat}
    (hfit : k * size ≤ intMax) (hcount : k ≤ (present data n).length) (hD : Rows k n m data D size) :
    ∃ out, rsDecode form code m data size = .ok out ∧ out.ret = 0 ∧ Decoded k n m data D size out.m out.data := by
  obtain ⟨hk0, hkn, hn256⟩ := code.shape
  have hlen : (present data n).length ≤ n := by
    have := List.length_filter_le (fun i => (data i).isSome) (List.range n)
    rwa [List.length_range] at this
  let pkt := loop n (fun i data' => upd data' i
    (if i < (present data n).length then data' ((present data n).getD i 0) else none)) data
  have hpkt : ∀ j, pkt j = if j < n then (if j < (present data n).length then data ((present data n).getD j 0) else none)
      else data j := compaction data n
  have hix : Indexed k data pkt fun i => (present data n).getD i 0 := indexed_compaction hkn hcount
  obtain ⟨out, hrun, hret, hsome, hcontent, hkept, hfrom, hrest, hframe, hout⟩ := fecDecode_spec form code hfit hix
    (fun j hj => mem_present.mp (present_getD (by omega)).1)
    (fun r hr hs => by
      obtain ⟨j, hj, -, e⟩ := present_low (mem_present.mpr (⟨by omega, hs⟩ : r < n ∧ (data r).isSome)) hr
      exact ⟨j, hj, e⟩)
    fun j hj => hD _ (getD_mem_take hj (by omega))
  -- after decoding the filled positions are exactly the first ones
  have hfilled : ∀ j < n, (out.data j).isSome ↔ j < (present data n).length := by
    intro j hj
    by_cases hjk : j < k
    · exact iff_of_true (hsome j hjk) (by omega)
    · rw [hrest j (by omega), hpkt, if_pos hj]
      split
      · rename_i h
        exact ⟨fun _ => h, fun _ => (mem_present.mp (present_getD h).1).2⟩
      · rename_i h
        exact iff_of_false Bool.false_ne_true h
  refine ⟨out, ?_, hret, hsome, hcontent, hkept, ?_, ?_, hframe, hout⟩
  · unfold rsDecode
    rw [if_neg (by unfold gfSize; omega)]
    simp only
    rw [if_neg (by omega)]
    exact hrun
  · have heq : present out.data n = List.range (present data n).length := filter_range hlen hfilled
    rw [heq, List.length_range]
  · intro j hj p hp
    by_cases hjk : j < k
    · obtain ⟨i, hi, e⟩ := hfrom j hjk
      rw [hp] at e
      exact ⟨_, (mem_present.mp (present_getD (by omega)).1).1, e.symm⟩
    · rw [hrest j (by omega), hpkt, if_pos hj] at hp
      split at hp
      · rename_i h
        exact ⟨_, (mem_present.mp (present_getD h).1).1, hp⟩
      · cases hp

theorem rsDecode_overflow (form : Form) (code : FecParms k n) (m : Mem P) {data : Nat → Option P} {size : Nat}
    (hfit : ¬ k * size ≤ intMax) (hcount : k ≤ (present data n).length) :
    rsDecode form code m data size = .error (.overflow "k * sz") := by
  obtain ⟨hk0, hkn, hn256⟩ := code.shape
  unfold rsDecode
  rw [if_neg (by unfold gfSize; omega)]
  simp only
  rw [if_neg (by omega)]
  exact fecDecode_overflow form code m hfit (indexed_compaction hkn hcount) fun j hj =>
    (mem_present.mp (present_getD (by omega)).1).1

/-- With fewer than `k` packets nothing is touched. -/
theorem rsDecode_few (form : Form) (code : FecParms k n) {m : Mem P} {data : Nat → Option P} {size : Nat}
    (h : (present data n).length < k) : rsDecode form code m data size = .ok ⟨-1, code, m, data⟩ := by
  have := code.shape
  unfold rsDecode
  rw [if_neg (by unfold gfSize; omega)]
  simp only
  rw [if_pos h]

/-- `rs_decode2` on at least `k` packets, whatever the table of codes holds. -/
theorem rsDecode2_spec (codes : CodeTable) {m : Mem P} {data : Nat → Option P} {D : Nat → Nat → Byte} {size : Nat}
    (hk : 0 < k) (hkn : k ≤ n) (hn : n < 256) (hfit : k * size ≤ intMax)
    (hcount : k ≤ (present data n).length) (hD : Rows k n m data D size) :
    ∃ codes' m' data', rsDecode2 k n codes m data size = .ok (0, codes', m', data') ∧
      Decoded k n m data D size m' data' := by
  obtain ⟨⟨code, codes1⟩, hcode⟩ := getCode_ok ⟨hk, hkn, hn⟩ codes
  obtain ⟨out, hrun, hret, hdec⟩ := rsDecode_spec codes1.form code hfit hcount hD
  refine ⟨codes1.set out.code, out.m, out.data, ?_, hdec⟩
  simp only [rsDecode2, hcode, ok_bind, hrun, hret]

theorem rsDecode2_few (codes : CodeTable) {m : Mem P} {data : Nat → Option P} {size : Nat} (hk : 0 < k) (hkn : k ≤ n)
    (hn : n < 256) (h : (present data n).length < k) :
    ∃ codes', rsDecode2 k n codes m data size = .ok (-1, codes', m, data) := by
  obtain ⟨⟨code, codes1⟩, hcode⟩ := getCode_ok ⟨hk, hkn, hn⟩ codes
  refine ⟨codes1.set code, ?_⟩
  simp only [rsDecode2, hcode, ok_bind, rsDecode_few codes1.form code h]

end UdpSpeeder.Fec
