/-
  UdpSpeeder.Fec.Gf — GF(256) as `lib/fec.cpp` computes it: `generate_gf`'s exponent,
  logarithm and inverse tables, `modnn`, and the multiplication table `gf_mul`.

  One round of the table loop is `xtime`, multiplication by the generator. Its orbit of 1
  has length 255 (`period`), so it meets every nonzero byte, `gf_log` undoes `gf_exp`
  (`gfLog_alpha`), and multiplying by `alpha i` is `i` rounds of the linear map `xtime`
  (`gfMul_alpha`), which is what makes the table product distribute over XOR. Hence the
  bytes form a field with XOR as addition, `gf_mul` as product and `inverse` as inverse.
-/

import UdpSpeeder.Common
import Mathlib.Dynamics.PeriodicPts.Defs
import Mathlib.Algebra.Field.Basic
import Mathlib.Data.Fintype.Card
import Mathlib.Data.Fintype.EquivFin
import Mathlib.Tactic.Simproc.Divisors
import Mathlib.Tactic.Ring

namespace UdpSpeeder.Fec

open Lib

/-! ## The tables -/

def gfBits : Nat := 8

def gfSize : Nat := 255

/-- `allPp[GF_BITS]`: 1+x^2+x^3+x^4+x^8. -/
def pp : List Char := "101110001".toList

/-- `b << 1`, kept to eight bits. -/
def shl (b : Byte) : Byte := .ofNat (2 * b.toNat)

structure GfTables where
  gfExp : Nat → Byte
  gfLog : Nat → Nat
  inverse : Nat → Byte

/-- `generate_gf`'s loop over the first `GF_BITS` powers; `gf_exp[GF_BITS]` collects the
    low terms of the polynomial. -/
def lowPowers : (Nat → Byte) × (Nat → Nat) × Byte :=
  loop gfBits (fun i (gfExp, gfLog, mask) =>
      let gfExp := upd gfExp i mask
      let gfLog := upd gfLog (gfExp i).toNat i
      let gfExp := if pp.getD i '0' = '1' then upd gfExp gfBits (gfExp gfBits ^^^ mask) else gfExp
      (gfExp, gfLog, shl mask))
    (upd (fun _ => 0) gfBits 0, fun _ => 0, .ofNat 1)

/-- The loop over the powers from `GF_BITS + 1` on: shift, and reduce what falls off. -/
def highPowers (gfExp : Nat → Byte) (gfLog : Nat → Nat) : (Nat → Byte) × (Nat → Nat) :=
  let mask := Byte.ofNat 128
  loop (gfSize - (gfBits + 1)) (fun r (gfExp, gfLog) =>
      let i := gfBits + 1 + r
      let gfExp := upd gfExp i
        (if mask.toNat ≤ (gfExp (i - 1)).toNat then gfExp gfBits ^^^ shl (gfExp (i - 1) ^^^ mask) else shl (gfExp (i - 1)))
      (gfExp, upd gfLog (gfExp i).toNat i))
    (gfExp, gfLog)

/-- The copy of the power table past its end, which spares `gf_mul` a reduction. -/
def extend (gfExp : Nat → Byte) : Nat → Byte := loop gfSize (fun i gfExp => upd gfExp (i + gfSize) (gfExp i)) gfExp

/-- `inverse[0]` is 0, `inverse[1]` is 1, the rest from the logarithm. -/
def inverses (gfExp : Nat → Byte) (gfLog : Nat → Nat) : Nat → Byte :=
  loop (gfSize - 1) (fun r inverse => upd inverse (2 + r) (gfExp (gfSize - gfLog (2 + r))))
    (upd (upd (fun _ => 0) 0 0) 1 (.ofNat 1))

/-- The two tables once every power is in. -/
def powers : (Nat → Byte) × (Nat → Nat) :=
  highPowers lowPowers.1 (upd lowPowers.2.1 (lowPowers.1 gfBits).toNat gfBits)

def generateGf : GfTables where
  gfExp := extend powers.1
  gfLog := upd powers.2 0 gfSize
  inverse := inverses (extend powers.1) (upd powers.2 0 gfSize)

def gfExp : Nat → Byte := generateGf.gfExp

def gfLog : Nat → Nat := generateGf.gfLog

def inverse (b : Byte) : Byte := generateGf.inverse b.toNat

/-- `x % GF_SIZE` without a divide. -/
def modnn (x : Nat) : Nat :=
  if _h : gfSize ≤ x then modnn (((x - gfSize) >>> gfBits) + ((x - gfSize) &&& gfSize)) else x
termination_by x
decreasing_by
  have hm : (x - 255) &&& 255 = (x - 255) % 256 := Nat.and_two_pow_sub_one_eq_mod (x - 255) 8
  simp only [gfSize, gfBits, Nat.shiftRight_eq_div_pow, hm] at _h ⊢
  omega

/-- `gf_mul_table` after `init_mul_table`: row and column 0 are overwritten with 0. -/
def gfMul (x y : Byte) : Byte := if x = 0 ∨ y = 0 then 0 else gfExp (modnn (gfLog x.toNat + gfLog y.toNat))

/-! ## The orbit of the generator -/

theorem modnn_eq (x : Nat) : modnn x = x % 255 := by
  induction x using Nat.strongRecOn with
  | _ x ih =>
    rw [modnn]
    have hm : (x - 255) &&& 255 = (x - 255) % 256 := Nat.and_two_pow_sub_one_eq_mod (x - 255) 8
    simp only [gfSize, gfBits, Nat.shiftRight_eq_div_pow, hm]
    split
    · rw [ih _ (by omega)]; omega
    · omega

theorem forall_byte {P : Byte → Prop} (h : ∀ n < 256, P (.ofNat n)) (b : Byte) : P b := by
  have := h b.toNat b.toNat_lt
  rwa [Byte.ofNat_toNat] at this

/-- Multiplication by the generator: one round of the table loop. -/
def xtime (b : Byte) : Byte :=
  if 128 ≤ b.toNat then .ofNat 0x1d ^^^ shl (b ^^^ .ofNat 128) else shl b

/-- `alpha ^ i`. -/
def alpha (i : Nat) : Byte := xtime^[i] (.ofNat 1)

theorem alpha_succ (i : Nat) : alpha (i + 1) = xtime (alpha i) := Function.iterate_succ_apply' _ _ _

theorem alpha_add (i j : Nat) : alpha (i + j) = xtime^[i] (alpha j) := Function.iterate_add_apply _ _ _ _

theorem xtime_bits (b : Byte) : (xtime b).bits = b.bits <<< 1 ^^^ if b.bits.msb then 0x1d#8 else 0#8 := by
  revert b
  refine forall_byte ?_
  decide +kernel

/-- The table loop is linear. -/
theorem xtime_xor (a b : Byte) : xtime (a ^^^ b) = xtime a ^^^ xtime b := by
  rw [← Byte.bits_inj]
  simp only [xtime_bits, Byte.bits_xor, BitVec.shiftLeft_xor_distrib, BitVec.msb_xor]
  generalize 0x1d#8 = poly
  apply BitVec.eq_of_getElem_eq
  intro i _
  simp only [BitVec.getElem_xor]
  cases a.bits.msb <;> cases b.bits.msb <;> simp <;> cases poly[i] <;> simp

theorem xtime_zero : xtime 0 = 0 := by decide

theorem alpha_orbit : alpha 255 = .ofNat 1 ∧ alpha 15 ≠ .ofNat 1 ∧ alpha 51 ≠ .ofNat 1 ∧ alpha 85 ≠ .ofNat 1 := by decide +kernel

theorem alpha_255 : alpha 255 = .ofNat 1 := alpha_orbit.1

/-- The orbit of 1 has no shorter period: 255 = 3 · 5 · 17 and none of 15, 51, 85 is one. -/
theorem period : Function.minimalPeriod xtime (.ofNat 1) = 255 := by
  have hp : Function.IsPeriodicPt xtime 255 (.ofNat 1) := alpha_255
  have hd : Function.minimalPeriod xtime (.ofNat 1) ∣ 255 := hp.minimalPeriod_dvd
  have hno : ∀ m, m ∣ 255 → Function.minimalPeriod xtime (.ofNat 1) ∣ m → alpha m = .ofNat 1 := by
    intro m _ h
    exact (Function.isPeriodicPt_minimalPeriod xtime (.ofNat 1)).trans_dvd h
  obtain ⟨-, h15, h51, h85⟩ := alpha_orbit
  have n15 : ¬ Function.minimalPeriod xtime (.ofNat 1) ∣ 15 := fun h => h15 (hno 15 (by decide) h)
  have n51 : ¬ Function.minimalPeriod xtime (.ofNat 1) ∣ 51 := fun h => h51 (hno 51 (by decide) h)
  have n85 : ¬ Function.minimalPeriod xtime (.ofNat 1) ∣ 85 := fun h => h85 (hno 85 (by decide) h)
  generalize Function.minimalPeriod xtime (.ofNat 1) = m at *
  have hm : m ∈ Nat.divisors 255 := Nat.mem_divisors.mpr ⟨hd, by decide⟩
  have hl : Nat.divisors 255 = {1, 3, 5, 15, 17, 51, 85, 255} := by simp only [Nat.divisors_ofNat]
  rw [hl] at hm
  simp only [Finset.mem_insert, Finset.mem_singleton] at hm
  rcases hm with rfl | rfl | rfl | rfl | rfl | rfl | rfl | rfl
  all_goals first | rfl | exact absurd (by decide) n15 | exact absurd (by decide) n51 | exact absurd (by decide) n85

theorem alpha_inj {i j : Nat} (hi : i < 255) (hj : j < 255) (h : alpha i = alpha j) : i = j := by
  have := Function.iterate_injOn_Iio_minimalPeriod (f := xtime) (x := .ofNat 1)
  rw [period] at this
  exact this hi hj h

theorem alpha_ne_zero (i : Nat) : alpha i ≠ 0 := by
  intro h
  have hz : ∀ n, xtime^[n] 0 = 0 := fun n => Function.iterate_fixed xtime_zero n
  have : alpha (i * 254 + i) = 0 := by rw [alpha_add, h, hz]
  have h1 : alpha (i * 254 + i) = .ofNat 1 := by
    have hp : Function.IsPeriodicPt xtime 255 (.ofNat 1) := alpha_255
    have := hp.const_mul i
    rwa [show i * 254 + i = i * 255 by omega]
  rw [this] at h1
  exact absurd h1 (by decide)

theorem alpha_mod (i : Nat) : alpha (i % 255) = alpha i := by
  have hp : Function.IsPeriodicPt xtime 255 (.ofNat 1) := alpha_255
  exact hp.iterate_mod_apply i

/-- Every nonzero byte is on the orbit. -/
theorem exists_alpha {b : Byte} (hb : b ≠ 0) : ∃ i < 255, alpha i = b := by
  let f : Fin 255 → {n : Fin 256 // n ≠ 0} := fun i =>
    ⟨⟨(alpha i).toNat, (alpha i).toNat_lt⟩, fun h => alpha_ne_zero i (Byte.toNat_inj.mp (congrArg Fin.val h))⟩
  have hf : Function.Injective f := by
    intro i j h
    exact Fin.ext (alpha_inj i.2 j.2 (Byte.toNat_inj.mp (congrArg (fun x => x.1.val) h)))
  have hbij : Function.Bijective f := (Fintype.bijective_iff_injective_and_card f).mpr ⟨hf, by simp⟩
  obtain ⟨i, hi⟩ := hbij.2 ⟨⟨b.toNat, b.toNat_lt⟩, fun h => hb (Byte.toNat_inj.mp (congrArg Fin.val h))⟩
  exact ⟨i, i.2, Byte.toNat_inj.mp (congrArg (fun x => x.1.val) hi)⟩

/-! ## What the tables hold -/

theorem lowPowers_exp : ∀ i < 9, lowPowers.1 i = alpha i := by decide

theorem lowPowers_log : ∀ i < 8, lowPowers.2.1 (alpha i).toNat = i := by decide

/-- The power table and the logarithm, filled up to `n`. -/
def Filled (n : Nat) (e : Nat → Byte) (l : Nat → Nat) : Prop := ∀ i < n, e i = alpha i ∧ l (alpha i).toNat = i

theorem Filled.step {n : Nat} {e : Nat → Byte} {l : Nat → Nat} (h : Filled n e l) (hn : n < 255) :
    Filled (n + 1) (upd e n (alpha n)) (upd l (alpha n).toNat n) := by
  intro i hi
  by_cases e : i = n
  · subst e; simp
  · obtain ⟨h1, h2⟩ := h i (by omega)
    have hne : (alpha i).toNat ≠ (alpha n).toNat := fun h => e (alpha_inj (by omega) hn (Byte.toNat_inj.mp h))
    exact ⟨by rw [upd_ne _ _ e, h1], by rw [upd_ne _ _ hne, h2]⟩

theorem highPowers_filled {e : Nat → Byte} {l : Nat → Nat} (h : Filled 9 e l) :
    Filled 255 (highPowers e l).1 (highPowers e l).2 := by
  unfold highPowers
  refine loop_inv (fun (r : Nat) (t : (Nat → Byte) × (Nat → Nat)) => Filled (9 + r) t.1 t.2) h 246 ?_
  rintro r hr ⟨e', l'⟩ ht
  have h8 : e' 8 = .ofNat 0x1d := (ht 8 (by omega)).1.trans (by decide)
  have hprev : e' (gfBits + 1 + r - 1) = alpha (8 + r) := by
    rw [show gfBits + 1 + r - 1 = 8 + r by simp [gfBits]]
    exact (ht (8 + r) (by omega)).1
  have hnew : (if (Byte.ofNat 128).toNat ≤ (e' (gfBits + 1 + r - 1)).toNat
      then e' gfBits ^^^ shl (e' (gfBits + 1 + r - 1) ^^^ Byte.ofNat 128) else shl (e' (gfBits + 1 + r - 1))) =
      alpha (9 + r) := by
    rw [hprev, show e' gfBits = .ofNat 0x1d from h8, show 9 + r = 8 + r + 1 by omega, alpha_succ]
    rfl
  simp only [hnew, upd_same]
  exact ht.step (by omega)

theorem extend_apply (e : Nat → Byte) (j : Nat) :
    extend e j = if 255 ≤ j ∧ j < 255 + 255 then e (j - 255) else e j := by
  suffices ∀ j, extend e j = if 255 ≤ j ∧ j < 255 + gfSize then e (j - 255) else e j from this j
  refine loop_inv (fun (m : Nat) (t : Nat → Byte) =>
    ∀ j, t j = if 255 ≤ j ∧ j < 255 + m then e (j - 255) else e j) ?_ gfSize ?_
  · intro j; rw [if_neg (by omega)]
  · intro m hm t ht j
    simp only [gfSize] at hm ⊢
    rw [upd_apply]
    by_cases hj : j = m + 255
    · rw [if_pos hj, if_pos (by omega), ht, if_neg (by omega), hj, Nat.add_sub_cancel]
    · rw [if_neg hj, ht]
      by_cases hr : 255 ≤ j ∧ j < 255 + m
      · rw [if_pos hr, if_pos (by omega)]
      · rw [if_neg hr, if_neg (by omega)]

theorem inverses_apply (e : Nat → Byte) (l : Nat → Nat) {i : Nat} (h2 : 2 ≤ i) (h : i < 256) :
    inverses e l i = e (255 - l i) := by
  suffices ∀ j, 2 ≤ j → j < 2 + (gfSize - 1) → inverses e l j = e (255 - l j) from
    this i h2 (by simp only [gfSize]; omega)
  refine loop_inv (fun (m : Nat) (t : Nat → Byte) => ∀ j, 2 ≤ j → j < 2 + m → t j = e (255 - l j)) ?_ (gfSize - 1) ?_
  · intro j _ _; omega
  · intro m hm t ht j h1 h2
    by_cases hj : j = 2 + m
    · subst hj; rw [upd_same]; rfl
    · rw [upd_ne _ _ hj]; exact ht j h1 (by omega)

theorem gfExp_def : gfExp = extend powers.1 := by unfold gfExp generateGf; rfl

theorem gfLog_def : gfLog = upd powers.2 0 gfSize := by unfold gfLog generateGf; rfl

theorem inverse_def (b : Byte) : inverse b = inverses gfExp gfLog b.toNat := by
  rw [gfExp_def, gfLog_def]
  unfold inverse generateGf
  rfl

theorem powers_filled : Filled 255 powers.1 powers.2 := by
  apply highPowers_filled
  have h8 : Filled 8 lowPowers.1 lowPowers.2.1 := fun i hi => ⟨lowPowers_exp i (by omega), lowPowers_log i hi⟩
  have e8 : lowPowers.1 gfBits = alpha 8 := lowPowers_exp 8 (by omega)
  intro i hi
  refine ⟨lowPowers_exp i hi, ?_⟩
  rw [e8]
  exact (h8.step (by omega) i hi).2

theorem gfExp_eq {i : Nat} (h : i < 510) : gfExp i = alpha i := by
  rw [gfExp_def, extend_apply]
  split
  · have e : (i - 255) % 255 = i % 255 := by omega
    rw [(powers_filled (i - 255) (by omega)).1, ← alpha_mod i, ← alpha_mod (i - 255), e]
  · exact (powers_filled i (by omega)).1

theorem gfLog_alpha {i : Nat} (h : i < 255) : gfLog (alpha i).toNat = i := by
  have hne : (alpha i).toNat ≠ 0 := fun h => alpha_ne_zero i (Byte.toNat_inj.mp h)
  rw [gfLog_def, upd_ne _ _ hne]
  exact (powers_filled i h).2

/-! ## The table product -/

theorem gfMul_alpha_alpha (i j : Nat) : gfMul (alpha i) (alpha j) = alpha (i + j) := by
  have hi := Nat.mod_lt i (show 0 < 255 by decide)
  have hj := Nat.mod_lt j (show 0 < 255 by decide)
  have e : (i % 255 + j % 255) % 255 = (i + j) % 255 := by omega
  unfold gfMul
  rw [if_neg (by simp [alpha_ne_zero]), ← alpha_mod i, ← alpha_mod j, gfLog_alpha hi, gfLog_alpha hj, modnn_eq, e,
    gfExp_eq (by omega), alpha_mod]

theorem gfMul_zero (a : Byte) : gfMul a 0 = 0 := by simp [gfMul]

theorem zero_gfMul (a : Byte) : gfMul 0 a = 0 := by simp [gfMul]

/-- Multiplying by a power of the generator is that many table rounds. -/
theorem gfMul_alpha (i : Nat) (b : Byte) : gfMul (alpha i) b = xtime^[i] b := by
  by_cases hb : b = 0
  · rw [hb, gfMul_zero, Function.iterate_fixed xtime_zero]
  · obtain ⟨j, -, rfl⟩ := exists_alpha hb
    rw [gfMul_alpha_alpha, alpha_add]

theorem gfMul_comm (a b : Byte) : gfMul a b = gfMul b a := by
  by_cases ha : a = 0
  · rw [ha, gfMul_zero, zero_gfMul]
  by_cases hb : b = 0
  · rw [hb, gfMul_zero, zero_gfMul]
  obtain ⟨i, -, rfl⟩ := exists_alpha ha
  obtain ⟨j, -, rfl⟩ := exists_alpha hb
  rw [gfMul_alpha_alpha, gfMul_alpha_alpha, Nat.add_comm]

theorem gfMul_assoc (a b c : Byte) : gfMul (gfMul a b) c = gfMul a (gfMul b c) := by
  by_cases ha : a = 0
  · simp only [ha, zero_gfMul]
  by_cases hb : b = 0
  · simp only [hb, zero_gfMul, gfMul_zero]
  obtain ⟨i, -, rfl⟩ := exists_alpha ha
  obtain ⟨j, -, rfl⟩ := exists_alpha hb
  rw [gfMul_alpha_alpha, gfMul_alpha, gfMul_alpha, gfMul_alpha, Function.iterate_add_apply]

theorem gfMul_xor (a b c : Byte) : gfMul a (b ^^^ c) = gfMul a b ^^^ gfMul a c := by
  by_cases ha : a = 0
  · simp only [ha, zero_gfMul, Byte.xor_zero]
  obtain ⟨i, -, rfl⟩ := exists_alpha ha
  simp only [gfMul_alpha]
  induction i with
  | zero => rfl
  | succ i ih =>
    simp only [Function.iterate_succ_apply'] at ih ⊢
    rw [ih (alpha_ne_zero i), xtime_xor]

theorem one_gfMul (b : Byte) : gfMul (.ofNat 1) b = b := gfMul_alpha 0 b

theorem gfMul_inverse {a : Byte} (ha : a ≠ 0) : gfMul a (inverse a) = .ofNat 1 := by
  by_cases h1 : a = .ofNat 1
  · subst h1
    rw [one_gfMul, inverse_def]
    exact loop_inv (fun (_ : Nat) (t : Nat → Byte) => t 1 = .ofNat 1) (upd_same _ _ _) (gfSize - 1) fun r _ t ht =>
      (upd_ne _ _ (by omega)).trans ht
  obtain ⟨i, hi, rfl⟩ := exists_alpha ha
  have h2 : 2 ≤ (alpha i).toNat := by
    have n0 : (alpha i).toNat ≠ 0 := fun h => ha (Byte.toNat_inj.mp h)
    have n1 : (alpha i).toNat ≠ 1 := fun h => h1 (Byte.toNat_inj.mp h)
    omega
  have : inverse (alpha i) = alpha (255 - i) := by
    rw [inverse_def, inverses_apply _ _ h2 (alpha i).toNat_lt, gfLog_alpha hi, gfExp_eq (by omega)]
  rw [this, gfMul_alpha_alpha, show i + (255 - i) = 255 by omega, alpha_255]

theorem inverse_zero : inverse 0 = 0 := by
  have h : ∀ j < 2, inverses gfExp gfLog j = upd (upd (fun _ => (0 : Byte)) 0 0) 1 (.ofNat 1) j := by
    intro j hj
    unfold inverses
    refine loop_inv (fun (_ : Nat) (t : Nat → Byte) => t j = upd (upd (fun _ => (0 : Byte)) 0 0) 1 (.ofNat 1) j) rfl _ ?_
    intro m _ t ht
    rw [upd_ne _ _ (by omega), ht]
  rw [inverse_def, Byte.toNat_zero, h 0 (by decide)]
  rfl

/-! ## The field -/

instance : Add Byte := ⟨fun a b => a ^^^ b⟩

instance : Mul Byte := ⟨gfMul⟩

instance : One Byte := ⟨.ofNat 1⟩

/-- Every byte is its own negation. -/
instance : Neg Byte := ⟨id⟩

instance : Inv Byte := ⟨inverse⟩

theorem add_eq_xor (a b : Byte) : a + b = a ^^^ b := rfl

theorem mul_eq_gfMul (a b : Byte) : a * b = gfMul a b := rfl

instance : Field Byte where
  add_assoc := Byte.xor_assoc
  zero_add := Byte.zero_xor
  add_zero := Byte.xor_zero
  add_comm := Byte.xor_comm
  neg_add_cancel := Byte.xor_self
  mul_assoc := gfMul_assoc
  one_mul := one_gfMul
  mul_one a := (gfMul_comm _ _).trans (one_gfMul a)
  mul_comm := gfMul_comm
  left_distrib := gfMul_xor
  right_distrib a b c := by
    change gfMul (a ^^^ b) c = gfMul a c ^^^ gfMul b c
    rw [gfMul_comm, gfMul_xor, gfMul_comm c a, gfMul_comm c b]
  zero_mul := zero_gfMul
  mul_zero := gfMul_zero
  inv_zero := inverse_zero
  mul_inv_cancel _ := gfMul_inverse
  exists_pair_ne := ⟨0, .ofNat 1, by decide⟩
  nsmul := nsmulRec
  zsmul := zsmulRec
  nnqsmul := _
  qsmul := _

theorem neg_eq (a : Byte) : -a = a := rfl

theorem sub_eq_xor (a b : Byte) : a - b = a ^^^ b := by rw [sub_eq_add_neg, neg_eq, add_eq_xor]

theorem inv_eq_inverse (a : Byte) : a⁻¹ = inverse a := rfl

theorem alpha_eq_pow (i : Nat) : alpha i = alpha 1 ^ i := by
  induction i with
  | zero => rfl
  | succ i ih => rw [pow_succ, ← ih, mul_eq_gfMul, gfMul_alpha_alpha]

end UdpSpeeder.Fec
