/-
  UdpSpeeder.Fec.Rs — `lib/rs.cpp` and the coding half of `lib/fec.cpp`: the table of
  cached codes, `fec_encode`, `shuffle`, `build_decode_matrix`, `fec_decode` and the
  `rs_encode2` / `rs_decode2` built on them.

  Blocks live in a memory `P → Nat → Byte` over names `P` of disjoint buffers, and
  `char *data[]` is `Nat → Option P`. A cached code carries what every later call relies
  on: its encoding matrix is the code's, and its scratch buffer was allocated from a
  product that fits an `int`.
-/

import UdpSpeeder.Fec.Invert

namespace UdpSpeeder.Fec

open Lib Lib.Systematic

/-! ## Codes and their table -/

/-- `struct fec_parms`. -/
structure FecParms (k n : Nat) where
  shape : 0 < k ∧ k ≤ n ∧ n ≤ 256
  encMatrix : Mat
  encMatrix_eq : ∀ i < n, ∀ j < k, encMatrix i j = enc point k i j
  decMatrix : Mat
  decBuf : Nat → Byte
  decBufSz : Nat
  decBuf_fits : k * decBufSz ≤ intMax

/-- `fec_new`: `none` is its null pointer. With no column at all, `tmp_m[0]` is past the end. -/
def fecNew (k n : Nat) : Except Fault (Option (FecParms k n)) :=
  if h : k ≤ gfSize + 1 ∧ n ≤ gfSize + 1 ∧ k ≤ n then
    if hk : 0 < k then
      .ok (some {
        shape := ⟨hk, h.2.2, h.2.1⟩
        encMatrix := encMatrix k n
        encMatrix_eq := fun _ hi _ hj => encMatrix_spec hk h.2.2 h.2.1 hi hj
        decMatrix := fun _ _ => 0
        decBuf := fun _ => 0
        decBufSz := 0
        decBuf_fits := Nat.zero_le _ })
    else .error (.range "tmp_m")
  else .ok none

/-- What the library keeps from call to call: how it adds blocks, and `table[256][256]`. -/
structure CodeTable where
  form : Form
  table : (k n : Nat) → Option (FecParms k n)
  deriving Inhabited

def CodeTable.set (codes : CodeTable) {k n : Nat} (code : FecParms k n) : CodeTable :=
  { codes with table := Function.update codes.table k (Function.update (codes.table k) n (some code)) }

/-- `get_code`, and the pointer it returns followed by every caller. -/
def getCode (k n : Nat) (codes : CodeTable) : Except Fault (FecParms k n × CodeTable) := do
  check (k < 256 ∧ n < 256) (.range "table")
  match codes.table k n with
  | some code => .ok (code, codes)
  | none =>
    match ← fecNew k n with
    | some code => .ok (code, codes.set code)
    | none => .error (.null "code")

/-! ## Encoding -/

variable {P : Type} [DecidableEq P]

/-- Buffers by name. -/
abbrev Mem (P : Type) := P → Nat → Byte

def deref (p : Option P) (name : String) : Except Fault P :=
  match p with
  | some p => .ok p
  | none => .error (.null name)

/-- `fec_encode`: block `index` of the code, written to `fec`. -/
def fecEncode {k n : Nat} (form : Form) (code : FecParms k n) (m : Mem P) (src : Nat → Option P) (fec : Option P) (index sz : Nat) :
    Except Fault (Mem P) := do
  if index < k then
    let s ← deref (src index) "src"
    let f ← deref fec "fec"
    .ok (Function.update m f (copyTo (m f) 0 (m s) sz))
  else if index < n then
    let f ← deref fec "fec"
    let m := Function.update m f (copyTo (m f) 0 (fun _ => 0) sz)
    loopE k (fun i m => do
      let s ← deref (src i) "src"
      .ok (Function.update m f (addmul form (m f) (m s) (code.encMatrix index i) sz))) m
  else .ok m

/-- `rs_encode`. -/
def rsEncode {k n : Nat} (form : Form) (code : FecParms k n) (m : Mem P) (data : Nat → Option P) (size : Nat) :
    Except Fault (Mem P) :=
  loopE (n - k) (fun r m => fecEncode form code m data (data (k + r)) (k + r) size) m

/-- `rs_encode2`. -/
def rsEncode2 (k n : Nat) (codes : CodeTable) (m : Mem P) (data : Nat → Option P) (size : Nat) :
    Except Fault (CodeTable × Mem P) := do
  let (code, codes) ← getCode k n codes
  let m ← rsEncode codes.form code m data size
  .ok (codes, m)

/-! ## Decoding -/

/-- Positions among the first `k` whose packet is not the one they are named for. -/
def misplaced (index : Nat → Nat) (k : Nat) : Finset Nat := (Finset.range k).filter fun j => index j ≠ j

/-- `SWAP(a[i], a[c])`. -/
def swapAt {α : Type} (a : Nat → α) (i c : Nat) : Nat → α := upd (upd a i (a c)) c (a i)

theorem swapAt_apply {α : Type} (a : Nat → α) (i c j : Nat) : swapAt a i c j = a (Equiv.swap i c j) := by
  simp only [swapAt, upd_apply, Equiv.swap_apply_def]
  by_cases h1 : j = c
  · by_cases h2 : j = i
    · rw [if_pos h1, if_pos h2, ← h1, h2]
    · rw [if_pos h1, if_neg h2, if_pos h1]
  · by_cases h2 : j = i
    · rw [if_neg h1, if_pos h2, if_pos h2]
    · rw [if_neg h1, if_neg h2, if_neg h2, if_neg h1]

/-- A swap that puts packet `c` at position `c` leaves fewer positions misplaced. -/
theorem misplaced_swap {index : Nat → Nat} {i k : Nat} (hc : index i < k) (hne : index i ≠ i)
    (hconf : index (index i) ≠ index i) : (misplaced (swapAt index i (index i)) k).card < (misplaced index k).card := by
  apply Finset.card_lt_card
  refine ⟨?_, ?_⟩
  · intro j hj
    simp only [misplaced, Finset.mem_filter, Finset.mem_range, swapAt_apply] at hj ⊢
    refine ⟨hj.1, fun e => hj.2 ?_⟩
    have h1 : j ≠ i := fun h => hne (h ▸ e)
    have h2 : j ≠ index i := fun h => hconf (h ▸ e)
    rw [Equiv.swap_apply_of_ne_of_ne h1 h2, e]
  · intro h
    have hmem : index i ∈ misplaced index k := by simp [misplaced, hc, hconf]
    have := h hmem
    simp [misplaced, swapAt_apply] at this

/-- `shuffle`: move every data packet to its own position; 1 when two claim the same. -/
def shuffle (pkt : Nat → Option P) (index : Nat → Nat) (k i : Nat) : Int × (Nat → Option P) × (Nat → Nat) :=
  if _hi : i < k then
    if h : k ≤ index i ∨ index i = i then shuffle pkt index k (i + 1)
    else if _hconf : index (index i) = index i then (1, pkt, index)
    else shuffle (swapAt pkt i (index i)) (swapAt index i (index i)) k i
  else (0, pkt, index)
termination_by (misplaced index k).card + (k - i)
decreasing_by
  · omega
  · have := @misplaced_swap index i k (by omega) (fun e => h (.inr e)) _hconf
    omega

/-- `build_decode_matrix`: the rows of the packets at hand, inverted. `none` is its -1. -/
def buildDecodeMatrix {k n : Nat} (form : Form) (code : FecParms k n) (index : Nat → Nat) : Option Mat :=
  let rows := loopE k (fun i matrix =>
    if index i < k then .ok (upd matrix i (upd (copyTo (matrix i) 0 (fun _ => 0) k) i 1))
    else if index i < n then .ok (upd matrix i (copyTo (matrix i) 0 (code.encMatrix (index i)) k))
    else .error ()) code.decMatrix
  match rows with
  | .error () => none
  | .ok matrix =>
    match invertMat form matrix k with
    | .ok matrix => some matrix
    | .error _ => none

/-- What `rs_decode` leaves behind. -/
structure DecodeOut (P : Type) (k n : Nat) where
  ret : Int
  code : FecParms k n
  m : Mem P
  data : Nat → Option P

/-- The scratch buffer of `fec_decode`, grown when a block is larger than any before. -/
def growDecBuf {k n : Nat} (code : FecParms k n) (sz : Nat) : Except Fault (FecParms k n) :=
  if code.decBufSz < sz then
    if h : k * sz ≤ intMax then .ok { code with decBuf := fun _ => 0, decBufSz := sz, decBuf_fits := h }
    else .error (.overflow "k * sz")
  else .ok code

/-- `new_pkt[row]`, computed in the scratch buffer. -/
def decodeRow {k n : Nat} (form : Form) (code : FecParms k n) (m : Mem P) (pkt : Nat → Option P) (row sz : Nat)
    (decBuf : Nat → Byte) : Except Fault (Nat → Byte) := do
  check (row * sz + sz ≤ k * code.decBufSz) (.range "dec_buf")
  let newPkt ← loopE k (fun col newPkt => do
    let s ← deref (pkt col) "pkt"
    .ok (addmul form newPkt (m s) (code.decMatrix row col) sz)) (fun _ => 0)
  .ok (copyTo decBuf (row * sz) newPkt sz)

/-- `fec_decode`. -/
def fecDecode {k n : Nat} (form : Form) (code : FecParms k n) (m : Mem P) (pkt : Nat → Option P) (index : Nat → Nat) (sz : Nat) :
    Except Fault (DecodeOut P k n) := do
  if gfSize + 1 < k then return ⟨1, code, m, pkt⟩
  let (err, pkt, index) := shuffle pkt index k 0
  if err ≠ 0 then return ⟨1, code, m, pkt⟩
  match buildDecodeMatrix form code index with
  | none => .ok ⟨1, code, m, pkt⟩
  | some matrix =>
    let code ← growDecBuf { code with decMatrix := matrix } sz
    let decBuf ← loopE k (fun row decBuf =>
      if k ≤ index row then decodeRow form code m pkt row sz decBuf else .ok decBuf) code.decBuf
    let m ← loopE k (fun row m =>
      if k ≤ index row then do
        let p ← deref (pkt row) "pkt"
        .ok (Function.update m p (copyTo (m p) 0 (fun i => decBuf (row * sz + i)) sz))
      else .ok m) m
    .ok ⟨0, { code with decBuf := decBuf }, m, pkt⟩

/-- The positions `rs_decode` finds filled, in order: `index[0 .. count)`. -/
def present (data : Nat → Option P) (n : Nat) : List Nat := (List.range n).filter fun i => (data i).isSome

/-- `rs_decode`. -/
def rsDecode {k n : Nat} (form : Form) (code : FecParms k n) (m : Mem P) (data : Nat → Option P) (size : Nat) :
    Except Fault (DecodeOut P k n) :=
  if gfSize + 1 < n then .ok ⟨-1, code, m, data⟩
  else
    let index := present data n
    let count := index.length
    if count < k then .ok ⟨-1, code, m, data⟩
    else
      let data := loop n (fun i data => upd data i (if i < count then data (index.getD i 0) else none)) data
      fecDecode form code m data (fun i => index.getD i 0) size

/-- `rs_decode2`. -/
def rsDecode2 (k n : Nat) (codes : CodeTable) (m : Mem P) (data : Nat → Option P) (size : Nat) :
    Except Fault (Int × CodeTable × Mem P × (Nat → Option P)) := do
  let (code, codes) ← getCode k n codes
  let out ← rsDecode codes.form code m data size
  .ok (out.ret, codes.set out.code, out.m, out.data)

/-! ## The table -/

theorem getCode_ok {k n : Nat} (h : 0 < k ∧ k ≤ n ∧ n < 256) (codes : CodeTable) :
    ∃ r, getCode k n codes = .ok r := by
  have hcheck : check (k < 256 ∧ n < 256) (.range "table") = .ok () := check_true (by omega)
  unfold getCode
  rw [hcheck, ok_bind]
  cases codes.table k n with
  | some code => exact ⟨_, rfl⟩
  | none =>
    unfold fecNew
    rw [dif_pos (by unfold gfSize; omega), dif_pos h.1]
    exact ⟨_, rfl⟩

/-- Codes exist for the shapes within the table only. -/
theorem getCode_shape {k n : Nat} {codes : CodeTable} {r : FecParms k n × CodeTable} (h : getCode k n codes = .ok r) :
    0 < k ∧ k ≤ n ∧ n < 256 := by
  unfold getCode at h
  rw [check_bind] at h
  exact ⟨r.1.shape.1, r.1.shape.2.1, h.1.2⟩

end UdpSpeeder.Fec
