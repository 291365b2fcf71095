/-
  UdpSpeeder.Common — the integer types, sizes and byte-order helpers of `common.h` /
  `common.cpp`, and the ways a run stops: a failed assertion, an access outside an array,
  a null pointer followed, an `int` that overflows. A C array is a function of the index
  (`Lib.upd`); the bounds the code relies on are checked where it indexes.
-/

import UdpSpeeder.Lib.Loop
import Mathlib.Data.BitVec

namespace UdpSpeeder

open Lib

/-! ## Types and sizes -/

/-- `unsigned char`. No arithmetic of its own: `Fec.Gf` makes it the field of the code. -/
def Byte : Type := BitVec 8

namespace Byte

def ofNat (n : Nat) : Byte := BitVec.ofNat 8 n

def toNat (b : Byte) : Nat := BitVec.toNat b

/-- The bits of a byte. -/
def bits (b : Byte) : BitVec 8 := b

/-- The byte of these bits, lowest first. -/
def ofBits (f : Nat → Bool) : Byte := BitVec.ofBoolListLE [f 0, f 1, f 2, f 3, f 4, f 5, f 6, f 7]

instance : DecidableEq Byte := inferInstanceAs (DecidableEq (BitVec 8))
instance : XorOp Byte := inferInstanceAs (XorOp (BitVec 8))
instance : Zero Byte := ⟨ofNat 0⟩
instance : Inhabited Byte := ⟨0⟩

@[simp] theorem toNat_ofNat (n : Nat) : (ofNat n).toNat = n % 256 := BitVec.toNat_ofNat n 8

theorem toNat_lt (b : Byte) : b.toNat < 256 := BitVec.isLt b

@[simp] theorem ofNat_toNat (b : Byte) : ofNat b.toNat = b := BitVec.ofNat_toNat 8 b |>.trans (BitVec.setWidth_eq b)

@[simp] theorem toNat_zero : (0 : Byte).toNat = 0 := rfl

theorem bits_inj {a b : Byte} : a.bits = b.bits ↔ a = b := Iff.rfl

@[simp] theorem bits_xor (a b : Byte) : (a ^^^ b).bits = a.bits ^^^ b.bits := rfl

@[simp] theorem bits_zero : (0 : Byte).bits = 0#8 := rfl

theorem xor_comm (a b : Byte) : a ^^^ b = b ^^^ a := BitVec.xor_comm a b

theorem xor_assoc (a b c : Byte) : a ^^^ b ^^^ c = a ^^^ (b ^^^ c) := BitVec.xor_assoc a b c

@[simp] theorem xor_self (a : Byte) : a ^^^ a = 0 := BitVec.xor_self

@[simp] theorem xor_zero (a : Byte) : a ^^^ 0 = a := BitVec.xor_zero

@[simp] theorem zero_xor (a : Byte) : 0 ^^^ a = a := BitVec.zero_xor

theorem getLsbD_ofBits (f : Nat → Bool) {k : Nat} (h : k < 8) : (ofBits f).bits.getLsbD k = f k := by
  have hlist : (ofBits f).bits.getLsbD k = [f 0, f 1, f 2, f 3, f 4, f 5, f 6, f 7].getD k false := BitVec.getLsbD_ofBoolListLE
  rw [hlist]
  match k, h with
  | 0, _ | 1, _ | 2, _ | 3, _ | 4, _ | 5, _ | 6, _ | 7, _ => rfl

theorem toNat_inj {a b : Byte} : a.toNat = b.toNat ↔ a = b := BitVec.toNat_inj

end Byte

abbrev U32 := BitVec 32

abbrev Bytes := List Byte

instance : LawfulBEq Bytes := List.instLawfulBEq

def maxDataLen : Nat := 3600

def bufLen : Nat := maxDataLen + 200

def maxFecPacketNum : Nat := 255

def maxBlobPacketNum : Nat := 30000

/-- `INT_MAX`. -/
def intMax : Nat := 2147483647

/-! ## What stops a run -/

inductive Fault where
  /-- An `assert` whose condition is false. -/
  | assert (cond : String)
  /-- An index outside the array it is used on. -/
  | range (array : String)
  /-- A null pointer followed. -/
  | null (pointer : String)
  /-- A signed product or sum that does not fit an `int`. -/
  | overflow (expr : String)
  deriving DecidableEq, Repr

/-- Go on only if `c`. -/
def check (c : Prop) [Decidable c] (f : Fault) : Except Fault Unit := if c then .ok () else .error f

theorem bind_ok {α β : Type} {x : Except Fault α} {k : α → Except Fault β} {b : β} :
    (x >>= k) = .ok b ↔ ∃ a, x = .ok a ∧ k a = .ok b := by
  cases x with
  | error e => simp [bind, Except.bind]
  | ok a => simp [bind, Except.bind]

theorem check_ok {c : Prop} [Decidable c] {f : Fault} {u : Unit} : check c f = .ok u ↔ c := by
  unfold check
  split <;> simp_all

theorem check_bind {α : Type} {c : Prop} [Decidable c] {f : Fault} {k : Unit → Except Fault α} {r : α} :
    (check c f >>= k) = .ok r ↔ c ∧ k () = .ok r := by
  unfold check
  split <;> simp_all [bind, Except.bind]

@[simp] theorem check_true {c : Prop} [Decidable c] {f : Fault} (h : c) : check c f = .ok () := by simp [check, h]

@[simp] theorem check_false {c : Prop} [Decidable c] {f : Fault} (h : ¬ c) : check c f = .error f := by simp [check, h]

@[simp] theorem ok_bind {α β : Type} (a : α) (k : α → Except Fault β) : (Except.ok a >>= k) = k a := rfl

@[simp] theorem error_bind {α β : Type} (e : Fault) (k : α → Except Fault β) : (Except.error e >>= k) = .error e := rfl

/-! ## Byte order -/

/-- `write_u16`: the low 16 bits of `w`, high byte first. -/
def writeU16 (p : Nat → Byte) (off w : Nat) : Nat → Byte := upd (upd p (off + 1) (.ofNat w)) off (.ofNat (w / 256))

def readU16 (p : Nat → Byte) (off : Nat) : Nat := (p (off + 1)).toNat + (p off).toNat * 256

/-- `write_u32`: four bytes, high byte first. -/
def writeU32 (p : Nat → Byte) (off : Nat) (l : U32) : Nat → Byte :=
  upd (upd (upd (upd p (off + 3) (.ofNat l.toNat)) (off + 2) (.ofNat (l.toNat / 256)))
    (off + 1) (.ofNat (l.toNat / 65536))) off (.ofNat (l.toNat / 16777216))

def readU32 (p : Nat → Byte) (off : Nat) : U32 :=
  .ofNat 32 ((p (off + 3)).toNat + ((p (off + 2)).toNat + ((p (off + 1)).toNat + (p off).toNat * 256) * 256) * 256)

theorem readU16_congr {p q : Nat → Byte} {a b : Nat} (h0 : p a = q b) (h1 : p (a + 1) = q (b + 1)) :
    readU16 p a = readU16 q b := by simp [readU16, h0, h1]

theorem readU16_lt (p : Nat → Byte) (off : Nat) : readU16 p off < 65536 := by
  have := (p off).toNat_lt
  have := (p (off + 1)).toNat_lt
  unfold readU16; omega

theorem writeU16_out (p : Nat → Byte) {off w i : Nat} (h : i < off ∨ off + 2 ≤ i) : writeU16 p off w i = p i := by
  simp only [writeU16]
  rw [upd_ne _ _ (by omega), upd_ne _ _ (by omega)]

theorem readU32_congr {p q : Nat → Byte} {a b : Nat} (h : ∀ i < 4, p (a + i) = q (b + i)) :
    readU32 p a = readU32 q b := by
  have h0 := h 0 (by omega)
  simp only [Nat.add_zero] at h0
  simp only [readU32, h0, h 1 (by omega), h 2 (by omega), h 3 (by omega)]

theorem readU32_writeU32 (p : Nat → Byte) (off : Nat) (l : U32) : readU32 (writeU32 p off l) off = l := by
  have hl := l.isLt
  apply BitVec.eq_of_toNat_eq
  simp only [readU32, writeU32, upd_apply, Nat.add_right_cancel_iff, Nat.add_eq_left, Nat.reduceEqDiff, if_false,
    if_true, BitVec.toNat_ofNat, Byte.toNat_ofNat, show ∀ k : Nat, (off = off + (k + 1)) = False by intro k; simp]
  omega

/-- The four bytes depend on nothing but `l`. -/
theorem writeU32_in (p q : Nat → Byte) (off off' : Nat) (l : U32) {i : Nat} (h : i < 4) : writeU32 p off l (off + i) = writeU32 q off' l (off' + i) := by
  have hi : i = 0 ∨ i = 1 ∨ i = 2 ∨ i = 3 := by omega
  rcases hi with rfl | rfl | rfl | rfl <;> simp [writeU32]

theorem writeU32_out (p : Nat → Byte) {off i : Nat} {l : U32} (h : i < off ∨ off + 4 ≤ i) : writeU32 p off l i = p i := by
  simp only [writeU32]
  rw [upd_ne _ _ (by omega), upd_ne _ _ (by omega), upd_ne _ _ (by omega), upd_ne _ _ (by omega)]

/-- The memory a byte string lies in; what is past its end is never read. -/
def mem (s : Bytes) : Nat → Byte := fun i => s.getD i 0

theorem mem_append_left {s t : Bytes} {i : Nat} (h : i < s.length) : mem (s ++ t) i = mem s i := by
  simp [mem, List.getElem?_append_left h]

theorem mem_append_right (s t : Bytes) (i : Nat) : mem (s ++ t) (s.length + i) = mem t i := by
  simp [mem, List.getElem?_append_right]

theorem slice_mem (s : Bytes) : slice (mem s) 0 s.length = s := by
  apply List.ext_getElem (by simp)
  intro i h1 h2
  rw [slice_getElem]
  simp [mem, h2]

theorem mem_slice (f : Nat → Byte) (off len : Nat) {i : Nat} (h : i < len) : mem (slice f off len) i = f (off + i) := by
  simp [mem, slice, h]

/-- `round_up_div`; every caller divides by a shard count of at least 1. -/
def roundUpDiv (a b : Nat) : Nat := (a + b - 1) / b

theorem le_roundUpDiv_mul (a : Nat) {b : Nat} (hb : 0 < b) : a ≤ b * roundUpDiv a b := by
  have h1 := Nat.div_add_mod (a + b - 1) b
  have h2 := Nat.mod_lt (a + b - 1) hb
  unfold roundUpDiv; omega

theorem roundUpDiv_mul_lt (a : Nat) {b : Nat} (hb : 0 < b) : b * roundUpDiv a b < a + b := by
  have := Nat.mul_div_le (a + b - 1) b
  unfold roundUpDiv; omega

theorem roundUpDiv_le_iff {a b c : Nat} (hb : 0 < b) : roundUpDiv a b ≤ c ↔ a ≤ b * c := by
  constructor
  · intro h
    exact Nat.le_trans (le_roundUpDiv_mul a hb) (Nat.mul_le_mul_left b h)
  · intro h
    have h1 := roundUpDiv_mul_lt a hb
    have h2 : b * roundUpDiv a b < b * (c + 1) := by rw [Nat.mul_succ]; omega
    exact Nat.lt_succ_iff.mp (Nat.lt_of_mul_lt_mul_left h2)

end UdpSpeeder
