/-
  UdpSpeeder.Lib.Crc — cyclic redundancy codes in a register that shifts right.

  Of any width and with any polynomial `g`, the low bit first. Going on by a bit is linear
  (`step_xor`), so a register is the sum of its parts, each going on alone (`steps_add_split`:
  what tables of more than one slice rest on), and with the high bit of `g` set nothing is
  lost (`steps_injective`: what error detection rests on). A string of bits leaves the
  remainder that long division leaves, reversed (`remainder_feedBits`).
-/

import Mathlib.Logic.Function.Iterate
import Mathlib.Data.BitVec

namespace UdpSpeeder.Lib.Crc

variable {w : Nat}

/-! ## The register -/

/-- Shifted by one, less the polynomial if that was a one. -/
def step (g c : BitVec w) : BitVec w := (c >>> 1) ^^^ if c.getLsbD 0 then g else 0#w

def steps (g : BitVec w) (n : Nat) (c : BitVec w) : BitVec w := (step g)^[n] c

theorem steps_zero (g c : BitVec w) : steps g 0 c = c := rfl

theorem steps_succ (g c : BitVec w) (n : Nat) : steps g (n + 1) c = steps g n (step g c) := rfl

theorem steps_add (g c : BitVec w) (m n : Nat) : steps g (m + n) c = steps g n (steps g m c) := by
  unfold steps
  rw [Nat.add_comm, Function.iterate_add_apply]

theorem step_getLsbD (g c : BitVec w) (i : Nat) :
    (step g c).getLsbD i = (c.getLsbD (1 + i) ^^ (c.getLsbD 0 && g.getLsbD i)) := by
  unfold step
  cases h : c.getLsbD 0 <;> simp

/-- Going on is linear. -/
theorem step_xor (g a b : BitVec w) : step g (a ^^^ b) = step g a ^^^ step g b := by
  refine BitVec.eq_of_getLsbD_eq fun i _ => ?_
  simp only [step_getLsbD, BitVec.getLsbD_xor, Bool.and_xor_distrib_right]
  rw [Bool.xor_assoc, Bool.xor_assoc, Bool.xor_left_comm (b.getLsbD (1 + i))]

theorem steps_xor (g a b : BitVec w) (n : Nat) : steps g n (a ^^^ b) = steps g n a ^^^ steps g n b := by
  induction n generalizing a b with
  | zero => rfl
  | succ n ih => rw [steps_succ, steps_succ, steps_succ, step_xor, ih]

/-- Zeros are only shifted out. -/
theorem steps_of_low (g : BitVec w) {c : BitVec w} {n : Nat} (h : ∀ i < n, c.getLsbD i = false) : steps g n c = c >>> n := by
  induction n generalizing c with
  | zero => exact (BitVec.ushiftRight_zero c).symm
  | succ n ih =>
    have hstep : step g c = c >>> 1 := by
      unfold step
      rw [h 0 (Nat.succ_pos n), if_neg Bool.false_ne_true, BitVec.xor_zero]
    have hlow : ∀ i < n, (c >>> 1).getLsbD i = false := by
      intro i hi
      rw [BitVec.getLsbD_ushiftRight]
      exact h _ (by omega)
    rw [steps_succ, hstep, ih hlow, ← BitVec.shiftRight_add, Nat.add_comm]

/-- The low bits go through, the others are shifted down and go on from there. -/
theorem steps_add_split (g c : BitVec w) (m n : Nat) :
    steps g (m + n) c = steps g (m + n) (BitVec.ofNat w (c.toNat % 2 ^ m)) ^^^ steps g n (c >>> m) := by
  have hlow : ∀ i, (BitVec.ofNat w (c.toNat % 2 ^ m)).getLsbD i = (c.getLsbD i && decide (i < m)) := by
    intro i
    rw [BitVec.getLsbD_ofNat, Nat.testBit_mod_two_pow, ← BitVec.getLsbD.eq_1]
    by_cases hi : i < w
    · simp [hi, Bool.and_comm]
    · simp [hi, BitVec.getLsbD_of_ge c i (Nat.not_lt.mp hi)]
  have hhigh : steps g m (c ^^^ BitVec.ofNat w (c.toNat % 2 ^ m)) = c >>> m := by
    rw [steps_of_low g fun i hi => by rw [BitVec.getLsbD_xor, hlow]; simp [hi]]
    refine BitVec.eq_of_getLsbD_eq fun i _ => ?_
    rw [BitVec.getLsbD_ushiftRight, BitVec.getLsbD_xor, hlow, BitVec.getLsbD_ushiftRight]
    simp [Nat.not_lt.mpr (Nat.le_add_right m i)]
  rw [← hhigh, ← steps_add, ← steps_xor, ← BitVec.xor_assoc, BitVec.xor_comm _ c, BitVec.xor_assoc, BitVec.xor_self, BitVec.xor_zero]

/-- With the high bit of the polynomial set a step can be taken back. -/
theorem step_injective {g : BitVec w} (hg : g.getLsbD (w - 1) = true) : Function.Injective (step g) := by
  intro a b h
  have hbit : ∀ i, (a.getLsbD (1 + i) ^^ (a.getLsbD 0 && g.getLsbD i)) = (b.getLsbD (1 + i) ^^ (b.getLsbD 0 && g.getLsbD i)) :=
    fun i => by rw [← step_getLsbD, ← step_getLsbD, h]
  have hw : 0 < w := Nat.pos_of_ne_zero fun h0 => by subst h0; simp at hg
  -- the high bit tells what was shifted out
  have hlow : a.getLsbD 0 = b.getLsbD 0 := by
    have hlast := hbit (w - 1)
    rw [BitVec.getLsbD_of_ge a _ (by omega), BitVec.getLsbD_of_ge b _ (by omega), hg] at hlast
    simpa using hlast
  refine BitVec.eq_of_getLsbD_eq fun i _ => ?_
  cases i with
  | zero => exact hlow
  | succ i =>
    have hi := hbit i
    rw [hlow] at hi
    rw [Nat.add_comm]
    exact (Bool.xor_left_inj).mp hi

theorem steps_injective {g : BitVec w} (hg : g.getLsbD (w - 1) = true) (n : Nat) : Function.Injective (steps g n) :=
  (step_injective hg).iterate n

/-! ## Strings of bits -/

/-- The lowest `n` bits of a number, the lowest first. -/
def bits : Nat → Nat → List Bool
  | 0, _ => []
  | n + 1, v => v.testBit 0 :: bits n (v / 2)

theorem bits_length (n v : Nat) : (bits n v).length = n := by
  induction n generalizing v with
  | zero => rfl
  | succ n ih => rw [bits, List.length_cons, ih]

theorem bits_getD {n i : Nat} (hi : i < n) (v : Nat) : (bits n v).getD i false = v.testBit i := by
  induction n generalizing i v with
  | zero => omega
  | succ n ih =>
    cases i with
    | zero => rfl
    | succ i => rw [bits, List.getD_cons_succ, ih (by omega), Nat.testBit_div_two]

/-- The bits of a number over those of another. -/
theorem bits_append {m v : Nat} (hv : v < 2 ^ m) (n u : Nat) : bits (m + n) (v + 2 ^ m * u) = bits m v ++ bits n u := by
  induction m generalizing v with
  | zero =>
    obtain rfl : v = 0 := by simpa using hv
    simp [bits]
  | succ m ih =>
    rw [Nat.pow_succ] at hv ⊢
    have hhalf : (v + 2 ^ m * 2 * u) / 2 = v / 2 + 2 ^ m * u := by
      rw [Nat.mul_right_comm, Nat.add_mul_div_right _ _ (by decide)]
    have hbit : (v + 2 ^ m * 2 * u).testBit 0 = v.testBit 0 := by
      rw [Nat.mul_right_comm, Nat.testBit_zero, Nat.testBit_zero, Nat.add_mul_mod_self_right]
    rw [Nat.add_right_comm, bits, bits, hhalf, hbit, ih (by omega), List.cons_append]

/-- A bit into the register. -/
def feedBit (g c : BitVec w) (b : Bool) : BitVec w := step g (c ^^^ if b then 1#w else 0#w)

def feedBits (g c : BitVec w) (l : List Bool) : BitVec w := l.foldl (feedBit g) c

theorem feedBits_append (g c : BitVec w) (a b : List Bool) : feedBits g c (a ++ b) = feedBits g (feedBits g c a) b := List.foldl_append

/-- A bit and the ones over it. -/
theorem step_ofNat (g : BitVec w) {v : Nat} (hv : v < 2 ^ w) :
    step g ((if v.testBit 0 then 1#w else 0#w) ^^^ BitVec.ofNat w v) = BitVec.ofNat w (v / 2) := by
  have hbit : ∀ i, ((if v.testBit 0 then 1#w else 0#w) ^^^ BitVec.ofNat w v).getLsbD i = (decide (0 < i) && v.testBit i) := by
    intro i
    have hout : w ≤ i → v.testBit i = false := fun hi => Nat.testBit_lt_two_pow (Nat.lt_of_lt_of_le hv (Nat.pow_le_pow_right (by decide) hi))
    have hone : (if v.testBit 0 then 1#w else 0#w).getLsbD i = (decide (i < w) && (decide (i = 0) && v.testBit 0)) := by
      cases i <;> cases v.testBit 0 <;> simp [BitVec.getLsbD_one]
    rw [BitVec.getLsbD_xor, BitVec.getLsbD_ofNat, hone, ← Bool.and_xor_distrib_left]
    by_cases hi : i < w
    · cases i <;> simp [hi]
    · simp [hi, hout (Nat.not_lt.mp hi)]
  have hlow := steps_of_low (n := 1) g (c := (if v.testBit 0 then 1#w else 0#w) ^^^ BitVec.ofNat w v) fun i hi => by
    rw [hbit, Nat.lt_one_iff.mp hi]
    rfl
  refine hlow.trans (BitVec.eq_of_getLsbD_eq fun i hi => ?_)
  rw [BitVec.getLsbD_ushiftRight, hbit, BitVec.getLsbD_ofNat, Nat.testBit_div_two, Nat.add_comm]
  simp [hi]

/-- Up to a register of bits may come in at once. -/
theorem feedBits_eq (g c : BitVec w) {n v : Nat} (hn : n ≤ w) (hv : v < 2 ^ n) :
    feedBits g c (bits n v) = steps g n (c ^^^ BitVec.ofNat w v) := by
  induction n generalizing c v with
  | zero =>
    obtain rfl : v = 0 := by simpa using hv
    exact (BitVec.xor_zero).symm
  | succ n ih =>
    have hvw : v < 2 ^ w := Nat.lt_of_lt_of_le hv (Nat.pow_le_pow_right (by decide) hn)
    rw [Nat.pow_succ] at hv
    show feedBits g (step g (c ^^^ _)) (bits n (v / 2)) = _
    rw [ih _ (by omega) (by omega), steps_succ, ← step_ofNat g hvw, ← step_xor, BitVec.xor_assoc, ← BitVec.xor_assoc _ _ (BitVec.ofNat w v),
      BitVec.xor_self, BitVec.zero_xor]

/-! ## Long division -/

/-- What is left of a polynomial of `w + n` bits, divided by one of degree `w`. -/
def remainder (p w : Nat) : Nat → Nat → Nat
  | 0, x => x
  | n + 1, x => remainder p w n (if x.testBit (w + n) then x ^^^ p <<< n else x)

/-- A string of bits as a number, the first bit the highest. -/
def number : List Bool → Nat
  | [] => 0
  | b :: l => b.toNat <<< l.length ^^^ number l

theorem number_cons_testBit (b : Bool) (l : List Bool) (i : Nat) :
    (number (b :: l)).testBit i = ((decide (i = l.length) && b) ^^ (number l).testBit i) := by
  have hbit : (b.toNat <<< l.length).testBit i = (decide (i = l.length) && b) := by
    rw [Nat.testBit_shiftLeft]
    rcases Nat.lt_trichotomy i l.length with h | rfl | h
    · simp [Nat.not_le.mpr h, h.ne]
    · cases b <;> simp
    · obtain ⟨k, rfl⟩ := Nat.exists_eq_add_of_lt h
      have hk : l.length + k + 1 - l.length = k + 1 := by omega
      cases b <;> simp [Nat.testBit_succ, Nat.add_assoc]
  rw [number, Nat.testBit_xor, hbit]

theorem number_testBit (l : List Bool) (i : Nat) : (number l).testBit i = (decide (i < l.length) && l.getD (l.length - 1 - i) false) := by
  induction l with
  | nil => simp [number]
  | cons b l ih =>
    rw [number_cons_testBit, ih, List.length_cons]
    rcases Nat.lt_trichotomy i l.length with h | rfl | h
    · have hi : l.length - i = (l.length - 1 - i) + 1 := by omega
      simp [h, h.ne, Nat.lt_succ_of_lt h, hi]
    · simp
    · simp [Nat.not_lt.mpr h.le, h.ne', show ¬ i < l.length + 1 by omega]

theorem reverse_testBit (c : BitVec w) (i : Nat) : c.reverse.toNat.testBit i = (decide (i < w) && c.getLsbD (w - 1 - i)) := by
  rw [BitVec.testBit_toNat, BitVec.getLsbD_reverse, BitVec.getMsbD_eq_getLsbD]

theorem feedBit_getLsbD (g c : BitVec w) (b : Bool) (hw : 0 < w) (i : Nat) :
    (feedBit g c b).getLsbD i = (c.getLsbD (1 + i) ^^ ((b ^^ c.getLsbD 0) && g.getLsbD i)) := by
  unfold feedBit
  rw [step_getLsbD, BitVec.getLsbD_xor, BitVec.getLsbD_xor]
  cases b <;> simp [hw]

/-- Dividing goes on by a bit as the register does. -/
theorem divide_cons (g c : BitVec w) (b : Bool) (l : List Bool) (hw : 0 < w) :
    (if (number (b :: l) <<< w ^^^ c.reverse.toNat <<< (l.length + 1)).testBit (w + l.length) then
        number (b :: l) <<< w ^^^ c.reverse.toNat <<< (l.length + 1) ^^^ (2 ^ w ^^^ g.reverse.toNat) <<< l.length
      else number (b :: l) <<< w ^^^ c.reverse.toNat <<< (l.length + 1)) =
    number l <<< w ^^^ (feedBit g c b).reverse.toNat <<< l.length := by
  have hout : ∀ i, l.length ≤ i → (number l).testBit i = false := fun i hi => by simp [number_testBit, Nat.not_lt.mpr hi]
  have htop : (number (b :: l) <<< w ^^^ c.reverse.toNat <<< (l.length + 1)).testBit (w + l.length) = (b ^^ c.getLsbD 0) := by
    rw [Nat.testBit_xor, Nat.testBit_shiftLeft, Nat.testBit_shiftLeft, number_cons_testBit, reverse_testBit, Nat.add_sub_cancel_left,
      hout _ (Nat.le_refl _), show w + l.length - (l.length + 1) = w - 1 by omega]
    simp [hw, show l.length + 1 ≤ w + l.length by omega, Nat.sub_lt hw Nat.one_pos]
  have hif : ∀ (top : Bool) (x y j : Nat), (if top then x ^^^ y else x).testBit j = (x.testBit j ^^ (top && y.testBit j)) := by
    intro top x y j
    cases top <;> simp
  rw [htop]
  refine Nat.eq_of_testBit_eq fun j => ?_
  rw [hif]
  simp only [Nat.testBit_xor, Nat.testBit_shiftLeft, number_cons_testBit, reverse_testBit, Nat.testBit_two_pow, feedBit_getLsbD _ _ _ hw]
  rcases Nat.lt_or_ge j l.length with hj | hj
  · simp [Nat.not_le.mpr hj, show ¬ l.length + 1 ≤ j by omega, show j - w ≠ l.length by omega]
  obtain ⟨i, rfl⟩ := Nat.exists_eq_add_of_le hj
  rw [Nat.add_sub_cancel_left]
  rcases Nat.lt_trichotomy i w with hi | rfl | hi
  · have hnumber : (decide (l.length + i ≥ w) && (decide (l.length + i - w = l.length) && b ^^ (number l).testBit (l.length + i - w))) =
        (decide (l.length + i ≥ w) && (number l).testBit (l.length + i - w)) := by
      by_cases hw' : l.length + i ≥ w
      · simp [show l.length + i - w ≠ l.length by omega]
      · simp [hw']
    have hshift : (decide (l.length + i ≥ l.length + 1) && (decide (l.length + i - (l.length + 1) < w) &&
        c.getLsbD (w - 1 - (l.length + i - (l.length + 1))))) = c.getLsbD (1 + (w - 1 - i)) := by
      cases i with
      | zero => simp [BitVec.getLsbD_of_ge c (1 + (w - 1)) (by omega)]
      | succ k =>
        rw [show l.length + (k + 1) - (l.length + 1) = k by omega, show 1 + (w - 1 - (k + 1)) = w - 1 - k by omega]
        simp [show k < w by omega]
    rw [hnumber, hshift]
    simp [hi, hi.ne']
  · simp [hw, hout _ (Nat.le_refl _), show l.length + 1 ≤ l.length + i by omega, show l.length + i - (l.length + 1) = i - 1 by omega,
      Nat.sub_lt hw Nat.one_pos]
  · have hlow : ¬ l.length + i - (l.length + 1) < w := by omega
    simp [hi.ne, Nat.not_lt.mpr hi.le, hout (l.length + i - w) (by omega), show l.length + i - w ≠ l.length by omega, hlow]

/-- What the register holds at the end is what dividing leaves, reversed. -/
theorem remainder_feedBits {p : Nat} (g c : BitVec w) (l : List Bool) (hw : 0 < w) (hp : p = 1 <<< w ^^^ g.reverse.toNat) :
    remainder p w l.length (number l <<< w ^^^ c.reverse.toNat <<< l.length) = (feedBits g c l).reverse.toNat := by
  rw [Nat.one_shiftLeft] at hp
  subst hp
  induction l generalizing c with
  | nil => simp [remainder, number, feedBits]
  | cons b l ih =>
    rw [List.length_cons, remainder, divide_cons g c b l hw, ih]
    rfl

theorem number_bits {n : Nat} (v : BitVec n) : number (bits n v.toNat) = v.reverse.toNat := by
  refine Nat.eq_of_testBit_eq fun i => ?_
  rw [number_testBit, bits_length, reverse_testBit]
  by_cases hi : i < n
  · rw [bits_getD (by omega), BitVec.testBit_toNat]
  · simp [hi]

end UdpSpeeder.Lib.Crc
