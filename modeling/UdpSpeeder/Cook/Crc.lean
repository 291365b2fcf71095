/-
  UdpSpeeder.Cook.Crc — the ways to compute a CRC-32C (`crc32c.h`).

  A bit at a time is what the code means (`crc32cBitwise`). `crc32c_sw` goes eight bytes at
  a time through eight tables, `crc32c_hw` as many as the platform's instructions take;
  these divide, as their manuals say (`crc32Insn`). Each is the same register fed the same
  bits (`Lib.Crc`), so all agree, and any of them goes on where any other stopped
  (`crc32c_paths`).
-/

import UdpSpeeder.Cook.Codec
import UdpSpeeder.Lib.Crc

namespace UdpSpeeder.Cook

open Lib

/-! ## A bit at a time -/

def poly : U32 := 0x82F63B78#32

/-- A byte into the register, the low bit first. -/
def bitwiseByte (crc : U32) (b : Byte) : U32 :=
  loop 8 (fun _ crc => if crc &&& 1#32 = 1#32 then (crc >>> 1) ^^^ poly else crc >>> 1) (crc ^^^ .ofNat 32 b.toNat)

/-- Going on from `previousCrc32`. -/
def crc32cBitwise (data : Bytes) (previousCrc32 : U32) : U32 := ~~~ data.foldl bitwiseByte (~~~ previousCrc32)

/-! ## `crc32c_sw` -/

def crc32cSw (data : Bytes) (previousCrc32 : U32) : U32 := ~~~ crc32cFold data (~~~ previousCrc32)

/-! ## `crc32c_hw` -/

/-- `CRC32` and `CRC32CB`, `CRC32CW`, `CRC32CX`: the reversed operands, the value before the
    register, modulo `0x11EDC6F41`, and reversed again. -/
def crc32Insn (n : Nat) (acc : U32) (val : BitVec n) : U32 :=
  let temp1 := val.reverse.toNat <<< 32
  let temp2 := acc.reverse.toNat <<< n
  (BitVec.ofNat 32 (Crc.remainder 0x11EDC6F41 32 n (temp1 ^^^ temp2))).reverse

/-- What `memcpy` puts into a number, on the platforms that have the instructions. -/
def leWord (p : Bytes) : Nat := p.foldr (fun b v => b.toNat + 256 * v) 0

section Loops

-- the state, and an instruction for each width
variable {σ : Type} (insn : (n : Nat) → σ → BitVec n → σ)

/-- The loops over four bytes and over single ones. -/
def hwFold4 : Bytes → σ → σ
  | p0 :: p1 :: p2 :: p3 :: p, crc => hwFold4 p (insn 32 crc (.ofNat 32 (leWord [p0, p1, p2, p3])))
  | p0 :: p, crc => hwFold4 p (insn 8 crc p0.bits)
  | [], crc => crc

/-- With the loop over eight bytes, on 64 bits. -/
def hwFold8 : Bytes → σ → σ
  | p0 :: p1 :: p2 :: p3 :: p4 :: p5 :: p6 :: p7 :: p, crc =>
    hwFold8 p (insn 64 crc (.ofNat 64 (leWord [p0, p1, p2, p3, p4, p5, p6, p7])))
  | p, crc => hwFold4 insn p crc

end Loops

/-- Which `crc32c_hw` there is. -/
inductive Hw where
  | x86_64
  | i386
  | aarch64
  | arm
  | none
  deriving DecidableEq, Repr

/-- `_mm_crc32_u64`, `_mm_crc32_u32` and `_mm_crc32_u8` on a state of 64 bits: only the low half
    goes in, and the high half comes out zero. -/
def x86Insn (n : Nat) (crc : BitVec 64) (val : BitVec n) : BitVec 64 := (crc32Insn n (crc.setWidth 32) val).setWidth 64

def crc32cHw : Hw → Bytes → U32 → U32
  | .x86_64, data, previousCrc32 => ~~~ (hwFold8 x86Insn data (~~~ previousCrc32.setWidth 64)).setWidth 32
  | .i386, data, previousCrc32 => ~~~ (hwFold4 x86Insn data (~~~ previousCrc32.setWidth 64)).setWidth 32
  | .aarch64, data, previousCrc32 => ~~~ hwFold8 crc32Insn data (~~~ previousCrc32)
  | .arm, data, previousCrc32 => ~~~ hwFold4 crc32Insn data (~~~ previousCrc32)
  | .none, data, previousCrc32 => crc32cSw data previousCrc32

/-- `crc32c_impl`. -/
inductive Crc32cImpl where
  | sw
  | hw (hw : Hw)
  deriving DecidableEq, Repr

def Crc32cImpl.run : Crc32cImpl → Bytes → U32 → U32
  | sw => crc32cSw
  | hw h => crc32cHw h

/-! ## The register and its bits -/

def bitString (data : Bytes) : List Bool := data.flatMap fun b => Crc.bits 8 b.toNat

theorem bitString_cons (b : Byte) (data : Bytes) : bitString (b :: data) = Crc.bits 8 b.toNat ++ bitString data := List.flatMap_cons

theorem bitString_append (a b : Bytes) : bitString (a ++ b) = bitString a ++ bitString b := List.flatMap_append

theorem leWord_lt (p : Bytes) : leWord p < 2 ^ (8 * p.length) := by
  induction p with
  | nil => exact Nat.one_pos
  | cons b p ih =>
    have hb := b.toNat_lt
    rw [List.length_cons, Nat.mul_succ, Nat.pow_add]
    show b.toNat + 256 * leWord p < _
    omega

theorem bits_leWord (p : Bytes) : Crc.bits (8 * p.length) (leWord p) = bitString p := by
  induction p with
  | nil => rfl
  | cons b p ih =>
    rw [bitString_cons, ← ih, List.length_cons, Nat.mul_succ, Nat.add_comm]
    exact Crc.bits_append b.toNat_lt _ _

/-- What the register holds after `data`. -/
def register (crc : U32) (data : Bytes) : U32 := Crc.feedBits poly crc (bitString data)

theorem register_append (crc : U32) (a b : Bytes) : register crc (a ++ b) = register (register crc a) b := by
  unfold register
  rw [bitString_append, Crc.feedBits_append]

theorem register_cons (crc : U32) (b : Byte) (p : Bytes) : register crc (b :: p) = register (Crc.steps poly 8 (crc ^^^ .ofNat 32 b.toNat)) p := by
  unfold register
  rw [bitString_cons, Crc.feedBits_append, Crc.feedBits_eq _ _ (by decide) b.toNat_lt]

/-- Up to four bytes at once. -/
theorem register_word (crc : U32) {p : Bytes} (hp : p.length ≤ 4) :
    register crc p = Crc.steps poly (8 * p.length) (crc ^^^ .ofNat 32 (leWord p)) := by
  unfold register
  rw [← bits_leWord, Crc.feedBits_eq _ _ (by omega) (leWord_lt p)]

theorem loop_steps (g crc : U32) (n : Nat) : loop n (fun _ => Crc.step g) crc = Crc.steps g n crc := by
  induction n with
  | zero => rfl
  | succ n ih => rw [loop_succ, ih, Crc.steps_add, Crc.steps_succ, Crc.steps_zero]

theorem low_bit (crc : U32) : crc &&& 1#32 = if crc.getLsbD 0 then 1#32 else 0#32 := by
  refine BitVec.eq_of_getLsbD_eq fun i _ => ?_
  rw [BitVec.getLsbD_and, BitVec.getLsbD_one]
  cases i <;> cases crc.getLsbD 0 <;> simp

theorem bitwise_register (data : Bytes) (crc : U32) : data.foldl bitwiseByte crc = register crc data := by
  induction data generalizing crc with
  | nil => rfl
  | cons b p ih =>
    have hstep : (fun (_ : Nat) (crc : U32) => if crc &&& 1#32 = 1#32 then (crc >>> 1) ^^^ poly else crc >>> 1) = fun _ => Crc.step poly := by
      funext _ crc
      rw [low_bit]
      unfold Crc.step
      cases crc.getLsbD 0 <;> simp
    rw [List.foldl_cons, ih, register_cons]
    unfold bitwiseByte
    rw [hstep, loop_steps]

/-! ## The tables -/

theorem crc32cTable_zero (i : Nat) : crc32cTable 0 i = Crc.steps poly 8 (.ofNat 32 i) := by
  have hstep : (fun (_ : Nat) (crc : U32) => (crc >>> 1) ^^^ (0x82F63B78#32 &&& -(crc &&& 1#32))) = fun _ => Crc.step poly := by
    funext _ crc
    rw [low_bit]
    unfold Crc.step poly
    cases crc.getLsbD 0 <;> rfl
  unfold crc32cTable
  rw [hstep, loop_steps]

theorem low_byte (crc : U32) : (crc &&& 0xff#32).toNat = crc.toNat % 2 ^ 8 := by
  rw [BitVec.toNat_and]
  exact Nat.and_two_pow_sub_one_eq_mod _ 8

/-- A byte through the first slice. -/
theorem table_step (crc : U32) : crc32cTable 0 (crc &&& 0xff#32).toNat ^^^ (crc >>> 8) = Crc.steps poly 8 crc := by
  rw [crc32cTable_zero, low_byte]
  exact (Crc.steps_add_split poly crc 8 0).symm

/-- Entry `i` of slice `s` is `i` gone on by `s + 1` bytes. -/
theorem crc32cTable_eq (s i : Nat) : crc32cTable s i = Crc.steps poly (8 * (s + 1)) (.ofNat 32 i) := by
  induction s with
  | zero => exact crc32cTable_zero i
  | succ s ih =>
    unfold crc32cTable
    simp only
    rw [table_step, ih, ← Crc.steps_add, ← Nat.mul_succ]

/-- A byte through slice `s`, and the others from there. -/
theorem table_split (crc : U32) (s : Nat) : Crc.steps poly (8 * (s + 1)) crc =
    crc32cTable s (crc &&& 0xff#32).toNat ^^^ Crc.steps poly (8 * s) (crc >>> 8) := by
  rw [crc32cTable_eq, low_byte, show 8 * (s + 1) = 8 + 8 * s by omega]
  exact Crc.steps_add_split poly crc 8 (8 * s)

/-- Four bytes through four slices. -/
theorem table_word (crc : U32) (s : Nat) : Crc.steps poly (8 * (s + 4)) crc =
    crc32cTable (s + 3) (crc &&& 0xff#32).toNat ^^^ crc32cTable (s + 2) ((crc >>> 8) &&& 0xff#32).toNat ^^^
      crc32cTable (s + 1) ((crc >>> 16) &&& 0xff#32).toNat ^^^ crc32cTable s ((crc >>> 24) &&& 0xff#32).toNat := by
  have hempty : crc >>> 32 = 0#32 := BitVec.ushiftRight_eq_zero (Nat.le_refl _)
  have hzero : Crc.steps poly (8 * s) 0#32 = 0#32 := (Crc.steps_of_low poly fun i _ => BitVec.getLsbD_zero).trans (BitVec.zero_ushiftRight)
  rw [table_split _ (s + 3), table_split _ (s + 2), table_split _ (s + 1), table_split _ s, ← BitVec.shiftRight_add,
    ← BitVec.shiftRight_add, ← BitVec.shiftRight_add, hempty, hzero, BitVec.xor_zero, ← BitVec.xor_assoc, ← BitVec.xor_assoc]

/-- The bytes of a word. -/
theorem leWord_byte (p0 p1 p2 p3 : Byte) :
    ((BitVec.ofNat 32 (leWord [p0, p1, p2, p3])) &&& 0xff#32).toNat = p0.toNat ∧
      ((BitVec.ofNat 32 (leWord [p0, p1, p2, p3]) >>> 8) &&& 0xff#32).toNat = p1.toNat ∧
      ((BitVec.ofNat 32 (leWord [p0, p1, p2, p3]) >>> 16) &&& 0xff#32).toNat = p2.toNat ∧
      ((BitVec.ofNat 32 (leWord [p0, p1, p2, p3]) >>> 24) &&& 0xff#32).toNat = p3.toNat := by
  have h0 := p0.toNat_lt
  have h1 := p1.toNat_lt
  have h2 := p2.toNat_lt
  have h3 := p3.toNat_lt
  simp only [low_byte, BitVec.toNat_ushiftRight, BitVec.toNat_ofNat, leWord, List.foldr, Nat.shiftRight_eq_div_pow]
  omega

/-- Eight bytes through all slices. -/
theorem table_eight (crc : U32) (p0 p1 p2 p3 p4 p5 p6 p7 : Byte) :
    register crc [p0, p1, p2, p3, p4, p5, p6, p7] =
      crc32cTable 7 ((crc ^^^ .ofNat 32 (leWord [p0, p1, p2, p3])) &&& 0xff#32).toNat ^^^
      crc32cTable 6 (((crc ^^^ .ofNat 32 (leWord [p0, p1, p2, p3])) >>> 8) &&& 0xff#32).toNat ^^^
      crc32cTable 5 (((crc ^^^ .ofNat 32 (leWord [p0, p1, p2, p3])) >>> 16) &&& 0xff#32).toNat ^^^
      crc32cTable 4 (((crc ^^^ .ofNat 32 (leWord [p0, p1, p2, p3])) >>> 24) &&& 0xff#32).toNat ^^^
      crc32cTable 3 p4.toNat ^^^ crc32cTable 2 p5.toNat ^^^ crc32cTable 1 p6.toNat ^^^ crc32cTable 0 p7.toNat := by
  obtain ⟨h4, h5, h6, h7⟩ := leWord_byte p4 p5 p6 p7
  have hhalves : register crc [p0, p1, p2, p3, p4, p5, p6, p7] = register (register crc [p0, p1, p2, p3]) [p4, p5, p6, p7] :=
    register_append crc [p0, p1, p2, p3] [p4, p5, p6, p7]
  have hfirst := register_word crc (p := [p0, p1, p2, p3]) (by simp)
  have hsecond := register_word (register crc [p0, p1, p2, p3]) (p := [p4, p5, p6, p7]) (by simp)
  have hlast := table_word (.ofNat 32 (leWord [p4, p5, p6, p7])) 0
  rw [h4, h5, h6, h7] at hlast
  rw [hhalves, hsecond, Crc.steps_xor, hfirst, ← Crc.steps_add]
  refine (congrArg₂ (· ^^^ ·) (table_word _ 4) hlast).trans ?_
  simp only [BitVec.xor_assoc]

theorem crc32cFold_register (data : Bytes) (crc : U32) : crc32cFold data crc = register crc data := by
  fun_induction crc32cFold data crc with
  | case1 p0 p1 p2 p3 p4 p5 p6 p7 p crc0 crc ih =>
    have hword : crc = crc0 ^^^ .ofNat 32 (leWord [p0, p1, p2, p3]) := by
      refine congrArg (fun v => crc0 ^^^ BitVec.ofNat 32 v) ?_
      simp only [leWord, List.foldr]
      omega
    rw [ih, hword, ← table_eight, ← register_append]
    rfl
  | case2 p0 p crc hshort ih =>
    have hb : (BitVec.ofNat 32 p0.toNat) >>> 8 = 0#32 := by
      refine BitVec.eq_of_toNat_eq ?_
      have := p0.toNat_lt
      simp only [BitVec.toNat_ushiftRight, BitVec.toNat_ofNat, Nat.shiftRight_eq_div_pow]
      omega
    rw [ih, register_cons, ← table_step, BitVec.ushiftRight_xor_distrib, hb, BitVec.xor_zero]
  | case3 crc => rfl

/-! ## The instructions -/

theorem poly_reverse : 0x11EDC6F41 = 1 <<< 32 ^^^ poly.reverse.toNat := by decide

theorem crc32Insn_eq (n : Nat) (acc : U32) (val : BitVec n) : crc32Insn n acc val = Crc.feedBits poly acc (Crc.bits n val.toNat) := by
  have hdiv := Crc.remainder_feedBits poly acc (Crc.bits n val.toNat) (by decide) poly_reverse
  rw [Crc.number_bits, Crc.bits_length] at hdiv
  unfold crc32Insn
  simp only
  rw [hdiv, BitVec.ofNat_toNat, BitVec.setWidth_eq, BitVec.reverse_reverse_eq]

section Loops

variable {σ : Type} {insn : (n : Nat) → σ → BitVec n → σ} {view : σ → U32}

/-- What the instructions see of the state is the register. -/
theorem insn_register (hinsn : ∀ n s v, view (insn n s v) = crc32Insn n (view s) v) (s : σ) (p : Bytes) {n : Nat} (hn : 8 * p.length = n) :
    view (insn n s (.ofNat n (leWord p))) = register (view s) p := by
  subst hn
  rw [hinsn, crc32Insn_eq, BitVec.toNat_ofNat, Nat.mod_eq_of_lt (leWord_lt p), bits_leWord]
  rfl

theorem hwFold4_register (hinsn : ∀ n s v, view (insn n s v) = crc32Insn n (view s) v) (data : Bytes) (s : σ) :
    view (hwFold4 insn data s) = register (view s) data := by
  fun_induction hwFold4 insn data s with
  | case1 p0 p1 p2 p3 p s ih =>
    rw [ih, insn_register (n := 32) hinsn s [p0, p1, p2, p3] rfl, ← register_append]
    rfl
  | case2 p0 p s hshort ih =>
    have hbits : p0.bits = .ofNat 8 (leWord [p0]) := (Byte.ofNat_toNat p0).symm
    rw [ih, hbits, insn_register (n := 8) hinsn s [p0] rfl, ← register_append]
    rfl
  | case3 s => rfl

theorem hwFold8_register (hinsn : ∀ n s v, view (insn n s v) = crc32Insn n (view s) v) (data : Bytes) (s : σ) :
    view (hwFold8 insn data s) = register (view s) data := by
  fun_induction hwFold8 insn data s with
  | case1 p0 p1 p2 p3 p4 p5 p6 p7 p s ih =>
    rw [ih, insn_register (n := 64) hinsn s [p0, p1, p2, p3, p4, p5, p6, p7] rfl, ← register_append]
    rfl
  | case2 p s hshort => exact hwFold4_register hinsn p s

end Loops

/-! ## All of them -/

theorem run_register (impl : Crc32cImpl) (data : Bytes) (previousCrc32 : U32) :
    impl.run data previousCrc32 = ~~~ register (~~~ previousCrc32) data := by
  -- the state of 64 bits has ones over the register at first, which are not looked at
  have hview : ∀ (n : Nat) (s : BitVec 64) (v : BitVec n), (x86Insn n s v).setWidth 32 = crc32Insn n (s.setWidth 32) v := by
    intro n s v
    unfold x86Insn
    rw [BitVec.setWidth_setWidth_of_le _ (by decide), BitVec.setWidth_eq]
  have hstart : (~~~ previousCrc32.setWidth 64).setWidth 32 = ~~~ previousCrc32 := by
    rw [BitVec.setWidth_not (by decide), BitVec.setWidth_setWidth_of_le _ (by decide), BitVec.setWidth_eq]
  have hsw : crc32cSw data previousCrc32 = ~~~ register (~~~ previousCrc32) data := congrArg (~~~ ·) (crc32cFold_register _ _)
  cases impl with
  | sw => exact hsw
  | hw h =>
    cases h with
    | x86_64 => exact congrArg (~~~ ·) ((hwFold8_register hview data _).trans (by rw [hstart]))
    | i386 => exact congrArg (~~~ ·) ((hwFold4_register hview data _).trans (by rw [hstart]))
    | aarch64 => exact congrArg (~~~ ·) (@hwFold8_register U32 crc32Insn id (fun _ _ _ => rfl) data _)
    | arm => exact congrArg (~~~ ·) (@hwFold4_register U32 crc32Insn id (fun _ _ _ => rfl) data _)
    | none => exact hsw

/-- Every path computes the code of the bits, and any goes on from where any other stopped. -/
theorem crc32c_paths (impl : Crc32cImpl) (a : Bytes) (previousCrc32 : U32) :
    impl.run a previousCrc32 = crc32cBitwise a previousCrc32 ∧
      ∀ (other : Crc32cImpl) (b : Bytes), other.run b (impl.run a previousCrc32) = impl.run (a ++ b) previousCrc32 := by
  refine ⟨?_, ?_⟩
  · unfold crc32cBitwise
    rw [run_register, bitwise_register]
  · intro other b
    rw [run_register, run_register, run_register, BitVec.not_not, ← register_append]

/-- A check value: `123456789`. -/
example : Crc32cImpl.run (.hw .x86_64) ([49, 50, 51, 52, 53, 54, 55, 56, 57].map Byte.ofNat) 0 = 0xE3069283#32 := by decide +kernel

end UdpSpeeder.Cook
