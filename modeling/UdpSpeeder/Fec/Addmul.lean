/-
  UdpSpeeder.Fec.Addmul — the five ways of `lib/fec.cpp` to add a multiple of one block to
  another: `addmul1_ssse3`, `addmul1_avx2`, `addmul1_avx512`, `addmul1_neon` and the
  unrolled loop of `addmul1` for all else. The first three are picked by `init_fec`, the
  other two by the build.

  Each goes through the block in ever smaller pieces, and on a piece it does what the
  scalar loop does (`block_adds`), so they agree (`addmul1_forms`), and everything above
  them holds whichever there is (`addmul_apply`).

  The loops test `i + u <= sz` on `int`s. The tests are read as statements about numbers,
  as those of `xor_tile` are in `Cook.Tile`: `i` never passes `sz`, so a sum that is no
  `int` is larger than any `sz` too.
-/

import UdpSpeeder.Fec.Poly
import UdpSpeeder.Fec.Simd

namespace UdpSpeeder.Fec

open Lib Simd

variable {n : Nat}

/-! ## The tables -/

/-- Products of `c` with a low and with a high half byte. -/
def gfLoTable (c : Byte) (x : Nat) : Byte := gfMul c (.ofNat x)

def gfHiTable (c : Byte) (x : Nat) : Byte := gfMul c (.ofNat (x * 16))

/-- A byte's product is that of its halves: the table product distributes over XOR. -/
theorem gfLoTable_xor_gfHiTable (c x : Byte) : gfLoTable c (x.toNat % 16) ^^^ gfHiTable c (x.toNat / 16) = gfMul c x := by
  have split : ∀ n < 256, Byte.ofNat (n % 16) ^^^ Byte.ofNat (n / 16 * 16) = Byte.ofNat n := by decide +kernel
  rw [gfLoTable, gfHiTable, ← gfMul_xor, split x.toNat x.toNat_lt, Byte.ofNat_toNat]

/-! ## A piece -/

/-- `gf_lo_table[c]` and `gf_hi_table[c]`, loaded. -/
def tblLo (c : Byte) : Reg 1 := loadu 1 (gfLoTable c) 0

def tblHi (c : Byte) : Reg 1 := loadu 1 (gfHiTable c) 0

def nibbleMask (n : Nat) : Reg n := set1 n (.ofNat 0x0F)

/-- What the x86 forms look up for the low and for the high half bytes. -/
def lookupLo (tbl x : Reg n) : Reg n := shuffleEpi8 tbl (andSi x (nibbleMask n))

def lookupHi (tbl x : Reg n) : Reg n := shuffleEpi8 tbl (andSi (srliEpi64 x 4) (nibbleMask n))

/-- The new destination from the old one and the source: SSSE3 and AVX2. -/
def mixSi (lo hi d x : Reg n) : Reg n := xorSi d (xorSi (lookupLo lo x) (lookupHi hi x))

def mixTernary (lo hi d x : Reg n) : Reg n := ternarylogic d (lookupLo lo x) (lookupHi hi x) 0x96#8

def mixNeon (lo hi d x : Reg 1) : Reg 1 := xorSi d (xorSi (vqtbl1q lo (andSi x (nibbleMask 1))) (vqtbl1q hi (vshrqN x 4)))

/-- One register of the block. -/
def block (mix : Reg n → Reg n → Reg n) (src : Nat → Byte) (i : Nat) (dst : Nat → Byte) : Nat → Byte :=
  storeu dst i (mix (loadu n dst i) (loadu n src i))

/-- Two registers, loaded before either is stored. -/
def block2 (mix : Reg n → Reg n → Reg n) (src : Nat → Byte) (i : Nat) (dst : Nat → Byte) : Nat → Byte :=
  let x1 := loadu n src i
  let x2 := loadu n src (i + 16 * n)
  let d1 := loadu n dst i
  let d2 := loadu n dst (i + 16 * n)
  storeu (storeu dst i (mix d1 x1)) (i + 16 * n) (mix d2 x2)

/-- `GF_ADDMULC(dst[i], src[i])`. -/
def gfAddmulc (c : Byte) (src : Nat → Byte) (i : Nat) (dst : Nat → Byte) : Nat → Byte := upd dst i (dst i ^^^ gfMul c (src i))

/-! ## The forms -/

/-- `for (; i + u <= sz; i += u)`: where it ends, and the block. -/
def strides (sz u : Nat) [NeZero u] (body : Nat → (Nat → Byte) → Nat → Byte) (i : Nat) (dst : Nat → Byte) : Nat × (Nat → Byte) :=
  if i + u ≤ sz then strides sz u body (i + u) (body i dst) else (i, dst)
termination_by sz - i
decreasing_by
  have := NeZero.pos u
  omega

/-- `if (i + u <= sz) { ...; i += u; }`. -/
def stride (sz u : Nat) (body : Nat → (Nat → Byte) → Nat → Byte) (i : Nat) (dst : Nat → Byte) : Nat × (Nat → Byte) :=
  if i + u ≤ sz then (i + u, body i dst) else (i, dst)

/-- `for (; i < sz; i++)`. -/
def scalarTail (c : Byte) (src : Nat → Byte) (sz i : Nat) (dst : Nat → Byte) : Nat → Byte :=
  loop (sz - i) (fun r => gfAddmulc c src (i + r)) dst

def addmul1Ssse3 (dst src : Nat → Byte) (c : Byte) (sz : Nat) : Nat → Byte :=
  let mix := mixSi (tblLo c) (tblHi c)
  let (i, dst) := strides sz 32 (block2 mix src) 0 dst
  let (i, dst) := strides sz 16 (block mix src) i dst
  scalarTail c src sz i dst

def addmul1Avx2 (dst src : Nat → Byte) (c : Byte) (sz : Nat) : Nat → Byte :=
  let mix := mixSi (broadcastsi128 (tblLo c)) (broadcastsi128 (tblHi c))
  let (i, dst) := strides sz 64 (block2 mix src) 0 dst
  let (i, dst) := strides sz 32 (block mix src) i dst
  let (i, dst) := stride sz 16 (block (mixSi (tblLo c) (tblHi c)) src) i dst
  scalarTail c src sz i dst

/-- `held` and `held'`: the registers the tables are broadcast in, before. -/
def addmul1Avx512 (held held' : Reg 4) (dst src : Nat → Byte) (c : Byte) (sz : Nat) : Nat → Byte :=
  let mix := mixTernary (broadcast128To512 held (tblLo c)) (broadcast128To512 held' (tblHi c))
  let (i, dst) := strides sz 128 (block2 mix src) 0 dst
  let (i, dst) := strides sz 64 (block mix src) i dst
  let (i, dst) := stride sz 32 (block (mixSi (broadcastsi128 (tblLo c)) (broadcastsi128 (tblHi c))) src) i dst
  let (i, dst) := stride sz 16 (block (mixSi (tblLo c) (tblHi c)) src) i dst
  scalarTail c src sz i dst

def addmul1Neon (dst src : Nat → Byte) (c : Byte) (sz : Nat) : Nat → Byte :=
  let mix := mixNeon (tblLo c) (tblHi c)
  let (i, dst) := strides sz 32 (block2 mix src) 0 dst
  let (i, dst) := strides sz 16 (block mix src) i dst
  scalarTail c src sz i dst

/-- `UNROLL`. -/
def unroll : Nat := 16

/-- Whole rounds, `dst` at offset `d`, up to the pointer `lim`. -/
def unrolled (c : Byte) (src : Nat → Byte) (lim : Int) (d : Nat) (dst : Nat → Byte) : Nat × (Nat → Byte) :=
  if d < lim then unrolled c src lim (d + unroll) (loop unroll (fun r => gfAddmulc c src (d + r)) dst) else (d, dst)
termination_by (lim - d).toNat
decreasing_by
  unfold unroll
  omega

/-- The end of `addmul1`, without vectors. -/
def addmul1Scalar (dst src : Nat → Byte) (c : Byte) (sz : Nat) : Nat → Byte :=
  if sz ≤ 0 then dst
  else
    let lim : Int := sz - unroll + 1
    let (d, dst) := unrolled c src lim 0 dst
    let lim := lim + (unroll - 1)
    loop (lim - d).toNat (fun r => gfAddmulc c src (d + r)) dst

/-- What `addmul1` is compiled to, or finds in `addmul1_x86_fn`. -/
inductive Form where
  | ssse3
  | avx2
  | avx512 (held held' : Reg 4)
  | neon
  | scalar
  deriving Inhabited

def Form.addmul1 : Form → (Nat → Byte) → (Nat → Byte) → Byte → Nat → Nat → Byte
  | ssse3 => addmul1Ssse3
  | avx2 => addmul1Avx2
  | avx512 held held' => addmul1Avx512 held held'
  | neon => addmul1Neon
  | scalar => addmul1Scalar

/-- `addmul`. -/
def addmul (form : Form) (dst src : Nat → Byte) (c : Byte) (sz : Nat) : Nat → Byte :=
  if c ≠ 0 then form.addmul1 dst src c sz else dst

/-! ## What a piece does -/

/-- `dst` with `c` times `src` added from `i` up to `k`. -/
def mulAdd (c : Byte) (src : Nat → Byte) (i k : Nat) (dst : Nat → Byte) : Nat → Byte :=
  fun a => if i ≤ a ∧ a < k then dst a ^^^ gfMul c (src a) else dst a

section

variable {c : Byte} {src dst : Nat → Byte} {i j k : Nat}

theorem mulAdd_self : mulAdd c src i i dst = dst := by
  funext a
  unfold mulAdd
  rw [if_neg (by omega)]

/-- Pieces that meet are one piece. -/
theorem mulAdd_mulAdd (hij : i ≤ j) (hjk : j ≤ k) : mulAdd c src j k (mulAdd c src i j dst) = mulAdd c src i k dst := by
  funext a
  unfold mulAdd
  by_cases h : a < j
  · rw [if_neg (by omega)]
    by_cases hi : i ≤ a
    · rw [if_pos (by omega), if_pos (by omega)]
    · rw [if_neg (by omega), if_neg (by omega)]
  · rw [if_neg (show ¬ (i ≤ a ∧ a < j) by omega)]
    by_cases hk : a < k
    · rw [if_pos (by omega), if_pos (by omega)]
    · rw [if_neg (by omega), if_neg (by omega)]

theorem gfAddmulc_mulAdd : gfAddmulc c src i dst = mulAdd c src i (i + 1) dst := by
  funext a
  unfold gfAddmulc mulAdd
  rw [upd_apply]
  by_cases h : a = i
  · rw [if_pos h, if_pos (by omega), h]
  · rw [if_neg h, if_neg (by omega)]

/-- A loop over the next `m` bytes. -/
theorem loop_mulAdd (m : Nat) : loop m (fun r => gfAddmulc c src (i + r)) dst = mulAdd c src i (i + m) dst := by
  refine loop_inv (fun (r : Nat) (d : Nat → Byte) => d = mulAdd c src i (i + r) dst) mulAdd_self.symm m ?_
  intro r _ d hd
  rw [hd, gfAddmulc_mulAdd, mulAdd_mulAdd (by omega) (by omega), Nat.add_assoc]

/-- Both tables in every lane. -/
def Holds (c : Byte) (lo hi : Reg n) : Prop := ∀ l j, lo l j = gfLoTable c j ∧ hi l j = gfHiTable c j

/-- A mix multiplies by `c` and adds, byte by byte. -/
def Multiplies (c : Byte) (mix : Reg n → Reg n → Reg n) : Prop := ∀ d x l j, mix d x l j = d l j ^^^ gfMul c (x l j)

theorem tbl_holds (c : Byte) : Holds c (tblLo c) (tblHi c) := by
  intro l j
  have hindex : 0 + (16 * (l : Nat) + j) = j := by omega
  exact ⟨congrArg (gfLoTable c) hindex, congrArg (gfHiTable c) hindex⟩

theorem broadcastsi128_holds (c : Byte) : Holds c (broadcastsi128 (tblLo c)) (broadcastsi128 (tblHi c)) := fun _ => tbl_holds c 0

theorem broadcast128To512_holds (held held' : Reg 4) (c : Byte) :
    Holds c (broadcast128To512 held (tblLo c)) (broadcast128To512 held' (tblHi c)) := by
  intro l j
  rw [broadcast128To512_apply, broadcast128To512_apply]
  exact tbl_holds c 0 j

section

variable {lo hi : Reg n}

/-- The two lookups together are the product. -/
theorem lookup_xor (h : Holds c lo hi) (x : Reg n) (l : Fin n) (j : Fin 16) :
    lookupLo lo x l j ^^^ lookupHi hi x l j = gfMul c (x l j) := by
  have hlow : (andSi x (nibbleMask n) l j).toNat = (x l j).toNat % 16 := toNat_andSi_low x l j
  have hhigh : (vshrqN x 4 l j).toNat = (x l j).toNat / 16 := toNat_vshrqN x l j
  have hlt := (x l j).toNat_lt
  unfold lookupLo lookupHi nibbleMask at *
  rw [srliEpi64_low, shuffleEpi8_apply (by omega), shuffleEpi8_apply (by omega), (h l _).1, (h l _).2,
    ← gfLoTable_xor_gfHiTable, ← hlow, ← hhigh]

theorem mixSi_multiplies (h : Holds c lo hi) : Multiplies c (mixSi lo hi) := fun d x l j => congrArg (d l j ^^^ ·) (lookup_xor h x l j)

theorem mixTernary_multiplies (h : Holds c lo hi) : Multiplies c (mixTernary lo hi) := by
  intro d x l j
  unfold mixTernary
  rw [ternarylogic_xor]
  exact mixSi_multiplies h d x l j

theorem mixNeon_multiplies {lo hi : Reg 1} (h : Holds c lo hi) : Multiplies c (mixNeon lo hi) := by
  intro d x l j
  have hlow : (andSi x (nibbleMask 1) l j).toNat = (x l j).toNat % 16 := toNat_andSi_low x l j
  have hhigh : (vshrqN x 4 l j).toNat = (x l j).toNat / 16 := toNat_vshrqN x l j
  have hlt := (x l j).toNat_lt
  show d l j ^^^ (vqtbl1q lo _ l j ^^^ vqtbl1q hi _ l j) = _
  rw [vqtbl1q_apply (by omega), vqtbl1q_apply (by omega), (h l _).1, (h l _).2, ← gfLoTable_xor_gfHiTable, ← hlow, ← hhigh]

end

variable {mix : Reg n → Reg n → Reg n}

/-- A body of a loop by `u` bytes that does these. -/
def Adds (c : Byte) (src : Nat → Byte) (u : Nat) (body : Nat → (Nat → Byte) → Nat → Byte) : Prop :=
  ∀ i dst, body i dst = mulAdd c src i (i + u) dst

theorem block_adds (src : Nat → Byte) (h : Multiplies c mix) : Adds c src (16 * n) (block mix src) := by
  intro i dst
  funext a
  exact storeu_apply (f := fun a => dst a ^^^ gfMul c (src a)) (fun l j => h _ _ l j) a

/-- The second register is loaded from where the first is not stored. -/
theorem block2_adds (src : Nat → Byte) (h : Multiplies c mix) : Adds c src (16 * n + 16 * n) (block2 mix src) := by
  intro i dst
  have hload : loadu n (block mix src i dst) (i + 16 * n) = loadu n dst (i + 16 * n) := by
    funext l j
    rw [block_adds src h i dst]
    exact if_neg (by omega)
  have hpair : block2 mix src i dst = block mix src (i + 16 * n) (block mix src i dst) := by
    unfold block2
    rw [← hload]
    rfl
  rw [hpair, block_adds src h, block_adds src h, mulAdd_mulAdd (by omega) (by omega), Nat.add_assoc]

/-! ## What a form does -/

variable {sz u : Nat} {body : Nat → (Nat → Byte) → Nat → Byte}

/-- `q` rounds, as many as fit. -/
theorem strides_mulAdd [NeZero u] (hbody : Adds c src u body) (q : Nat) :
    ∀ i dst, i + q * u ≤ sz → sz < i + q * u + u → strides sz u body i dst = (i + q * u, mulAdd c src i (i + q * u) dst) := by
  induction q with
  | zero =>
    intro i dst _ hsz
    rw [Nat.zero_mul, Nat.add_zero] at hsz ⊢
    unfold strides
    rw [if_neg (by omega), mulAdd_self]
  | succ q ih =>
    intro i dst hle hsz
    have hlast : i + (q + 1) * u = i + u + q * u := by rw [Nat.add_mul, Nat.one_mul]; omega
    rw [hlast] at hle hsz ⊢
    unfold strides
    rw [if_pos (by omega), ih _ _ hle hsz, hbody, mulAdd_mulAdd (by omega) (by omega)]

/-- A loop goes on where the one before it stopped. -/
theorem strides_on (dst : Nat → Byte) (sz u : Nat) [NeZero u] (hbody : Adds c src u body) (hi : i ≤ sz) :
    ∃ j ≤ sz, strides sz u body i (mulAdd c src 0 i dst) = (j, mulAdd c src 0 j dst) := by
  have hle := Nat.div_mul_le_self (sz - i) u
  have hlt := Nat.lt_div_mul_add (NeZero.pos u) (a := sz - i)
  refine ⟨i + (sz - i) / u * u, by omega, ?_⟩
  rw [strides_mulAdd hbody ((sz - i) / u) _ _ (by omega) (by omega), mulAdd_mulAdd (Nat.zero_le i) (by omega)]

theorem strides_first (dst : Nat → Byte) (sz u : Nat) [NeZero u] (hbody : Adds c src u body) :
    ∃ j ≤ sz, strides sz u body 0 dst = (j, mulAdd c src 0 j dst) := by
  have h := strides_on dst sz u hbody (Nat.zero_le sz)
  rwa [mulAdd_self] at h

theorem stride_on (dst : Nat → Byte) (sz u : Nat) (hbody : Adds c src u body) (hi : i ≤ sz) :
    ∃ j ≤ sz, stride sz u body i (mulAdd c src 0 i dst) = (j, mulAdd c src 0 j dst) := by
  unfold stride
  by_cases h : i + u ≤ sz
  · refine ⟨i + u, h, ?_⟩
    rw [if_pos h, hbody, mulAdd_mulAdd (Nat.zero_le i) (Nat.le_add_right i u)]
  · exact ⟨i, hi, if_neg h⟩

theorem scalarTail_mulAdd (h : i ≤ sz) : scalarTail c src sz i (mulAdd c src 0 i dst) = mulAdd c src 0 sz dst := by
  unfold scalarTail
  rw [loop_mulAdd, Nat.add_sub_cancel' h, mulAdd_mulAdd (Nat.zero_le i) h]

theorem addmul1Ssse3_eq : addmul1Ssse3 dst src c sz = mulAdd c src 0 sz dst := by
  have hmix := mixSi_multiplies (tbl_holds c)
  obtain ⟨i, hi, hpairs⟩ := strides_first dst sz 32 (block2_adds src hmix)
  obtain ⟨j, hj, hone⟩ := strides_on dst sz 16 (block_adds src hmix) hi
  unfold addmul1Ssse3
  simp only [hpairs, hone]
  exact scalarTail_mulAdd hj

theorem addmul1Neon_eq : addmul1Neon dst src c sz = mulAdd c src 0 sz dst := by
  have hmix := mixNeon_multiplies (tbl_holds c)
  obtain ⟨i, hi, hpairs⟩ := strides_first dst sz 32 (block2_adds src hmix)
  obtain ⟨j, hj, hone⟩ := strides_on dst sz 16 (block_adds src hmix) hi
  unfold addmul1Neon
  simp only [hpairs, hone]
  exact scalarTail_mulAdd hj

theorem addmul1Avx2_eq : addmul1Avx2 dst src c sz = mulAdd c src 0 sz dst := by
  have hwide := mixSi_multiplies (broadcastsi128_holds c)
  have hnarrow := mixSi_multiplies (tbl_holds c)
  obtain ⟨i, hi, hpairs⟩ := strides_first dst sz 64 (block2_adds src hwide)
  obtain ⟨j, hj, hone⟩ := strides_on dst sz 32 (block_adds src hwide) hi
  obtain ⟨k, hk, hhalf⟩ := stride_on dst sz 16 (block_adds src hnarrow) hj
  unfold addmul1Avx2
  simp only [hpairs, hone, hhalf]
  exact scalarTail_mulAdd hk

theorem addmul1Avx512_eq (held held' : Reg 4) : addmul1Avx512 held held' dst src c sz = mulAdd c src 0 sz dst := by
  have hwidest := mixTernary_multiplies (broadcast128To512_holds held held' c)
  have hwide := mixSi_multiplies (broadcastsi128_holds c)
  have hnarrow := mixSi_multiplies (tbl_holds c)
  obtain ⟨i, hi, hpairs⟩ := strides_first dst sz 128 (block2_adds src hwidest)
  obtain ⟨j, hj, hone⟩ := strides_on dst sz 64 (block_adds src hwidest) hi
  obtain ⟨k, hk, hhalf⟩ := stride_on dst sz 32 (block_adds src hwide) hj
  obtain ⟨m, hm, hquarter⟩ := stride_on dst sz 16 (block_adds src hnarrow) hk
  unfold addmul1Avx512
  simp only [hpairs, hone, hhalf, hquarter]
  exact scalarTail_mulAdd hm

/-- The pointer loop, by whole rounds. -/
theorem unrolled_mulAdd (q : Nat) : ∀ d dst, d + q * unroll ≤ sz → sz < d + q * unroll + unroll →
    unrolled c src (sz - unroll + 1) d dst = (d + q * unroll, mulAdd c src d (d + q * unroll) dst) := by
  unfold unroll
  induction q with
  | zero =>
    intro d dst _ hsz
    unfold unrolled
    rw [if_neg (by omega), Nat.zero_mul, Nat.add_zero, mulAdd_self]
  | succ q ih =>
    intro d dst hle hsz
    have hlast : d + 16 + q * 16 = d + (q + 1) * 16 := by omega
    unfold unrolled unroll
    rw [if_pos (by omega), ih _ _ (by omega) (by omega), loop_mulAdd, mulAdd_mulAdd (by omega) (by omega), hlast]

theorem addmul1Scalar_eq : addmul1Scalar dst src c sz = mulAdd c src 0 sz dst := by
  unfold addmul1Scalar
  split
  · rename_i h
    obtain rfl : sz = 0 := by omega
    exact mulAdd_self.symm
  · have hrounds := @unrolled_mulAdd c src sz (sz / 16) 0 dst (by unfold unroll; omega) (by unfold unroll; omega)
    have hrest : (((sz : Int) - unroll + 1) + (unroll - 1) - ((0 + sz / 16 * unroll : Nat) : Int)).toNat = sz - sz / 16 * 16 := by
      unfold unroll
      omega
    simp only [hrounds, hrest]
    rw [loop_mulAdd, mulAdd_mulAdd (Nat.zero_le _) (by omega)]
    unfold unroll
    congr 1
    omega

end

/-! ## All of them -/

variable {dst src : Nat → Byte} {c : Byte} {sz : Nat}

theorem Form.addmul1_eq (form : Form) : form.addmul1 dst src c sz = mulAdd c src 0 sz dst := by
  cases form with
  | ssse3 => exact addmul1Ssse3_eq
  | avx2 => exact addmul1Avx2_eq
  | avx512 held held' => exact addmul1Avx512_eq held held'
  | neon => exact addmul1Neon_eq
  | scalar => exact addmul1Scalar_eq

/-- Whatever `init_fec` found. -/
theorem addmul_apply (form : Form) (dst src : Nat → Byte) (c : Byte) (sz i : Nat) :
    addmul form dst src c sz i = if i < sz then dst i + c * src i else dst i := by
  unfold addmul
  split
  · rw [form.addmul1_eq]
    exact if_congr (by omega) rfl rfl
  · rename_i hc
    rw [not_not.mp hc, zero_mul, add_zero, ite_self]

/-- Every form adds `c` times the source to the first `sz` bytes and touches no other; and
    the product is that of polynomials over GF(2). -/
theorem addmul1_forms (form : Form) (dst src : Nat → Byte) (c : Byte) (sz : Nat) :
    form.addmul1 dst src c sz = (fun i => if i < sz then dst i ^^^ gfMul c (src i) else dst i) ∧
      ∀ x, toPoly (gfMul c x) = (toPoly c * toPoly x) %ₘ modulus := by
  refine ⟨?_, toPoly_gfMul c⟩
  rw [form.addmul1_eq]
  funext i
  exact if_congr (by omega) rfl rfl

end UdpSpeeder.Fec
