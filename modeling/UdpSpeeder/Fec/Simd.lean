/-
  UdpSpeeder.Fec.Simd — the vector instructions of the `addmul1_*` functions of
  `lib/fec.cpp`, byte by byte.

  A register is its 128-bit lanes, a lane its sixteen bytes. Byte shuffles stay in their
  lane and 64-bit shifts in their half of one, so bits cross from a byte to its neighbour;
  after the mask a shift by four leaves each byte its own high half (`srliEpi64_low`).
-/

import UdpSpeeder.Common
import Mathlib.Tactic.FinCases

namespace UdpSpeeder.Fec.Simd

open Lib

/-- `n` lanes of 16 bytes, lowest first. -/
abbrev Reg (n : Nat) := Fin n → Fin 16 → Byte

variable {n : Nat}

/-! ## Instructions -/

/-- `_mm_loadu_si128`, `vld1q_u8` and wider. -/
def loadu (n : Nat) (p : Nat → Byte) (i : Nat) : Reg n := fun l j => p (i + (16 * l + j))

/-- `_mm_storeu_si128`, `vst1q_u8` and wider. -/
def storeu (p : Nat → Byte) (i : Nat) (v : Reg n) : Nat → Byte := fun a =>
  if h : i ≤ a ∧ a < i + 16 * n then v ⟨(a - i) / 16, by omega⟩ ⟨(a - i) % 16, by omega⟩ else p a

/-- `_mm_set1_epi8`, `vdupq_n_u8`. -/
def set1 (n : Nat) (b : Byte) : Reg n := fun _ _ => b

def xorSi (x y : Reg n) : Reg n := fun l j => x l j ^^^ y l j

def andSi (x y : Reg n) : Reg n := fun l j => (x l j).bits &&& (y l j).bits

/-- `_mm512_ternarylogic_epi64`: the bits of the three operands index those of `imm`. -/
def ternarylogic (x y z : Reg n) (imm : BitVec 8) : Reg n := fun l j => .ofBits fun k =>
  imm.getLsbD (4 * ((x l j).bits.getLsbD k).toNat + 2 * ((y l j).bits.getLsbD k).toNat + ((z l j).bits.getLsbD k).toNat)

/-- Bytes as one word, the first lowest. -/
def word : {m : Nat} → (Fin m → Byte) → BitVec (8 * m)
  | 0, _ => 0#0
  | _ + 1, b => word (fun i => b i.succ) ++ (b 0).bits

/-- `_mm_srli_epi64` and wider, on each half of a lane. -/
def srliEpi64 (x : Reg n) (s : Nat) : Reg n := fun l j =>
  (word (fun m : Fin 8 => x l ⟨8 * (j / 8) + m, by omega⟩) >>> s).extractLsb' (8 * (j % 8)) 8

/-- `_mm_shuffle_epi8` and wider: within each lane, 0 for an index with its top bit set. -/
def shuffleEpi8 (t x : Reg n) : Reg n := fun l j =>
  if (x l j).bits.msb then 0 else t l ⟨(x l j).toNat % 16, Nat.mod_lt _ (by decide)⟩

/-- `vqtbl1q_u8`: 0 for an index past the table. -/
def vqtbl1q (t x : Reg 1) : Reg 1 := fun l j => if h : (x l j).toNat < 16 then t 0 ⟨(x l j).toNat, h⟩ else 0

/-- `vshrq_n_u8`: each byte by itself. -/
def vshrqN (x : Reg n) (s : Nat) : Reg n := fun l j => (x l j).bits >>> s

/-- `_mm256_broadcastsi128_si256`. -/
def broadcastsi128 (v : Reg 1) : Reg 2 := fun _ => v 0

/-- `_mm512_castsi128_si512`; the upper lanes are whatever the register held. -/
def castsi128 (held : Reg 4) (v : Reg 1) : Reg 4 := fun l => if l = 0 then v 0 else held l

/-- `_mm512_inserti32x4`. -/
def inserti32x4 (x : Reg 4) (v : Reg 1) (k : Fin 4) : Reg 4 := fun l => if l = k then v 0 else x l

/-- `broadcast_128_to_512`. -/
def broadcast128To512 (held : Reg 4) (v : Reg 1) : Reg 4 :=
  let out := castsi128 held v
  let out := inserti32x4 out v 1
  let out := inserti32x4 out v 2
  inserti32x4 out v 3

/-! ## What they leave -/

theorem storeu_apply {p : Nat → Byte} {i : Nat} {v : Reg n} {f : Nat → Byte} (h : ∀ l j, v l j = f (i + (16 * l + j))) (a : Nat) :
    storeu p i v a = if i ≤ a ∧ a < i + 16 * n then f a else p a := by
  unfold storeu
  split
  · rw [h]
    refine congrArg f ?_
    show i + (16 * ((a - i) / 16) + (a - i) % 16) = a
    omega
  · rfl

/-- Nothing the cast leaves undefined is left in the end. -/
theorem broadcast128To512_apply (held : Reg 4) (v : Reg 1) (l : Fin 4) : broadcast128To512 held v l = v 0 := by
  unfold broadcast128To512 inserti32x4 castsi128
  fin_cases l <;> rfl

theorem getLsbD_word {m k : Nat} (b : Fin m → Byte) (i : Fin m) (hk : k < 8) :
    (word b).getLsbD (8 * i + k) = (b i).bits.getLsbD k := by
  induction m with
  | zero => exact i.elim0
  | succ m ih =>
    unfold word
    rw [BitVec.getLsbD_append]
    cases i using Fin.cases with
    | zero =>
      rw [if_pos (by show 8 * 0 + k < 8; omega)]
      exact congrArg _ (by show 8 * 0 + k = k; omega)
    | succ i =>
      have hi : 8 * (i.succ : Nat) + k - 8 = 8 * i + k := by rw [Fin.val_succ]; omega
      rw [if_neg (by rw [Fin.val_succ]; omega), hi, ih]

/-- 0x96 is the parity of three bits. -/
theorem ternarylogic_xor (x y z : Reg n) : ternarylogic x y z 0x96#8 = xorSi x (xorSi y z) := by
  funext l j
  apply BitVec.eq_of_getLsbD_eq
  intro k hk
  show (Byte.ofBits _).bits.getLsbD k = ((x l j).bits ^^^ ((y l j).bits ^^^ (z l j).bits)).getLsbD k
  rw [Byte.getLsbD_ofBits _ hk, BitVec.getLsbD_xor, BitVec.getLsbD_xor]
  cases (x l j).bits.getLsbD k <;> cases (y l j).bits.getLsbD k <;> cases (z l j).bits.getLsbD k <;> rfl

theorem toNat_andSi_low (x : Reg n) (l : Fin n) (j : Fin 16) :
    (andSi x (set1 n (.ofNat 0x0F)) l j).toNat = (x l j).toNat % 16 := by
  show ((x l j).bits &&& 0x0F#8).toNat = (x l j).bits.toNat % 16
  rw [BitVec.toNat_and]
  exact Nat.and_two_pow_sub_one_eq_mod _ 4

theorem toNat_vshrqN (x : Reg n) (l : Fin n) (j : Fin 16) : (vshrqN x 4 l j).toNat = (x l j).toNat / 16 := by
  show ((x l j).bits >>> 4).toNat = (x l j).bits.toNat / 16
  rw [BitVec.toNat_ushiftRight, Nat.shiftRight_eq_div_pow]

/-- The bits that come in from the next byte are those the mask drops. -/
theorem srliEpi64_low (x : Reg n) : andSi (srliEpi64 x 4) (set1 n (.ofNat 0x0F)) = vshrqN x 4 := by
  funext l j
  apply BitVec.eq_of_getLsbD_eq
  intro k hk
  show ((BitVec.extractLsb' _ _ _) &&& 0x0F#8).getLsbD k = ((x l j).bits >>> 4).getLsbD k
  have hmask : (0x0F#8).getLsbD k = decide (k < 4) := by
    revert k
    decide
  rw [BitVec.getLsbD_and, hmask, BitVec.getLsbD_ushiftRight]
  by_cases h4 : k < 4
  · have hbit : 4 + (8 * (j.val % 8) + k) = 8 * (⟨j.val % 8, by omega⟩ : Fin 8) + (4 + k) := by
      show 4 + (8 * (j.val % 8) + k) = 8 * (j.val % 8) + (4 + k)
      omega
    have hbyte : (⟨8 * (j.val / 8) + j.val % 8, by omega⟩ : Fin 16) = j := Fin.ext (Nat.div_add_mod j.val 8)
    rw [BitVec.getLsbD_extractLsb', BitVec.getLsbD_ushiftRight, hbit, getLsbD_word _ _ (by omega)]
    simp only [hbyte, hk, h4, decide_true, Bool.true_and, Bool.and_true]
  · rw [decide_eq_false h4, Bool.and_false, BitVec.getLsbD_of_ge _ _ (by omega)]

theorem shuffleEpi8_apply {t x : Reg n} {l : Fin n} {j : Fin 16} (h : (x l j).toNat < 16) :
    shuffleEpi8 t x l j = t l ⟨(x l j).toNat, h⟩ := by
  have hmsb : (x l j).bits.msb = false := by
    rw [BitVec.msb_eq_false_iff_two_mul_lt]
    show 2 * (x l j).toNat < 2 ^ 8
    omega
  unfold shuffleEpi8
  rw [if_neg (by simp [hmsb])]
  exact congrArg (t l) (Fin.ext (Nat.mod_eq_of_lt h))

theorem vqtbl1q_apply {t x : Reg 1} {l : Fin 1} {j : Fin 16} (h : (x l j).toNat < 16) :
    vqtbl1q t x l j = t l ⟨(x l j).toNat, h⟩ := by
  unfold vqtbl1q
  rw [dif_pos h]
  exact congrFun (congrArg t (Subsingleton.elim 0 l)) _

end UdpSpeeder.Fec.Simd
