/-
  UdpSpeeder.Net.CurrentTime — `get_current_time_us` of `common.cpp`: the clock of the
  system, made one that never goes back.

  A reading behind the largest value returned so far is made up for in `value_fix`, for good.
  So the time is that of a clock whose backward steps were left out (`climb`), as long as
  no sum of a reading and the fix wraps (`currentTimes_eq`), which depends on the readings
  alone (`sumsFit_iff`).
-/

import UdpSpeeder.Net.Send

namespace UdpSpeeder.Net

open Lib

abbrev U64 := BitVec 64

/-- The statics of `get_current_time_us`. -/
structure TimeFix where
  valueFix : U64
  largestValue : U64
  deriving DecidableEq

def TimeFix.init : TimeFix := ⟨0, 0⟩

/-- `get_current_time_us`, on what `ev_time()` says in microseconds. -/
def getCurrentTimeUs (t : TimeFix) (rawValue : U64) : U64 × TimeFix :=
  let fixedValue := rawValue + t.valueFix
  let t :=
    if fixedValue < t.largestValue then { t with valueFix := t.valueFix + (t.largestValue - fixedValue) }
    else { t with largestValue := fixedValue }
  (rawValue + t.valueFix, t)

/-- The statics before each call. -/
def fixes (raw : Nat → U64) : Nat → TimeFix
  | 0 => .init
  | i + 1 => (getCurrentTimeUs (fixes raw i) (raw i)).2

/-- What the calls return. -/
def currentTimes (raw : Nat → U64) : Clock := fun i => (getCurrentTimeUs (fixes raw i) (raw i)).1.toNat

/-- `raw_value + value_fix` fits a `u64_t`, at each call. -/
def SumsFit (raw : Nat → U64) : Prop := ∀ i, (raw i).toNat + (fixes raw i).valueFix.toNat < 2 ^ 64

/-! ## Without the steps back -/

/-- A clock that goes on by the steps forward of another one. -/
def climb (r : Nat → Nat) : Nat → Nat
  | 0 => r 0
  | i + 1 => climb r i + (r (i + 1) - r i)

theorem climb_mono (r : Nat → Nat) : Monotone (climb r) := monotone_nat_of_le_succ fun _ => Nat.le_add_right _ _

/-- It stands while the other one does, or goes back. -/
theorem climb_stands {r : Nat → Nat} {n : Nat} (h : ∀ i, n ≤ i → r (i + 1) ≤ r i) (i : Nat) : climb r (n + i) = climb r n := by
  induction i with
  | zero => rfl
  | succ i ih =>
    rw [← Nat.add_assoc, climb, ih, Nat.sub_eq_zero_of_le (h (n + i) (Nat.le_add_right n i)), Nat.add_zero]

/-! ## One call -/

/-- Between two calls: the fix takes the last reading to the time returned, which was the
    largest. -/
structure Fixed (t : TimeFix) (rawValue : U64) (time : Nat) : Prop where
  fix : rawValue.toNat + t.valueFix.toNat = time
  largest : t.largestValue.toNat = time

/-- A call returns the fixed value, or the largest one if it is behind. -/
theorem getCurrentTimeUs_fixed (t : TimeFix) (rawValue : U64) (hsum : rawValue.toNat + t.valueFix.toNat < 2 ^ 64) :
    (getCurrentTimeUs t rawValue).1.toNat = max (rawValue.toNat + t.valueFix.toNat) t.largestValue.toNat ∧
      Fixed (getCurrentTimeUs t rawValue).2 rawValue (max (rawValue.toNat + t.valueFix.toNat) t.largestValue.toNat) := by
  have hfixed : (rawValue + t.valueFix).toNat = rawValue.toNat + t.valueFix.toNat := by
    rw [BitVec.toNat_add, Nat.mod_eq_of_lt hsum]
  have hlargest := t.largestValue.isLt
  unfold getCurrentTimeUs
  simp only
  by_cases hback : rawValue + t.valueFix < t.largestValue
  · rw [if_pos hback]
    rw [BitVec.lt_def, hfixed] at hback
    have hfix : (t.valueFix + (t.largestValue - (rawValue + t.valueFix))).toNat = t.largestValue.toNat - rawValue.toNat := by
      rw [BitVec.toNat_add, BitVec.toNat_sub, hfixed]
      omega
    rw [max_eq_right hback.le]
    refine ⟨?_, ?_, rfl⟩
    · rw [BitVec.toNat_add, hfix]
      omega
    · show rawValue.toNat + (t.valueFix + (t.largestValue - (rawValue + t.valueFix))).toNat = t.largestValue.toNat
      rw [hfix]
      omega
  · rw [if_neg hback]
    rw [BitVec.lt_def, hfixed] at hback
    rw [max_eq_left (Nat.not_lt.mp hback)]
    exact ⟨hfixed, rfl, hfixed⟩

/-- The time goes on by as much as the reading went forward. -/
theorem Fixed.next {t : TimeFix} {rawValue : U64} {time : Nat} (h : Fixed t rawValue time) (rawValue' : U64)
    (hsum : rawValue'.toNat + t.valueFix.toNat < 2 ^ 64) :
    (getCurrentTimeUs t rawValue').1.toNat = time + (rawValue'.toNat - rawValue.toNat) ∧
      Fixed (getCurrentTimeUs t rawValue').2 rawValue' (time + (rawValue'.toNat - rawValue.toNat)) := by
  have hfix := h.fix
  have hlargest := h.largest
  have htime : max (rawValue'.toNat + t.valueFix.toNat) t.largestValue.toNat = time + (rawValue'.toNat - rawValue.toNat) := by omega
  rw [← htime]
  exact getCurrentTimeUs_fixed t rawValue' hsum

/-! ## Any number of calls -/

/-- Each call returns the time of the clock without steps back. -/
theorem fixes_fixed {raw : Nat → U64} (i : Nat) (hsum : ∀ j ≤ i, (raw j).toNat + (fixes raw j).valueFix.toNat < 2 ^ 64) :
    currentTimes raw i = climb (fun j => (raw j).toNat) i ∧ Fixed (fixes raw (i + 1)) (raw i) (climb (fun j => (raw j).toNat) i) := by
  induction i with
  | zero =>
    have hfirst := getCurrentTimeUs_fixed .init (raw 0) (hsum 0 (le_refl 0))
    have hmax : max ((raw 0).toNat + TimeFix.init.valueFix.toNat) TimeFix.init.largestValue.toNat = (raw 0).toNat := Nat.max_zero _
    rw [hmax] at hfirst
    exact hfirst
  | succ i ih => exact (ih fun j hj => hsum j (hj.trans (Nat.le_succ i))).2.next (raw (i + 1)) (hsum (i + 1) (le_refl _))

/-- What `get_current_time_us` returns, call by call. -/
theorem currentTimes_eq {raw : Nat → U64} (hfit : SumsFit raw) : currentTimes raw = climb fun i => (raw i).toNat :=
  funext fun i => (fixes_fixed i fun j _ => hfit j).1

theorem sumsFit_iff (raw : Nat → U64) : SumsFit raw ↔ ∀ i, climb (fun j => (raw j).toNat) i < 2 ^ 64 := by
  constructor
  · intro hfit i
    rw [← congrFun (currentTimes_eq hfit) i]
    exact BitVec.isLt _
  · intro hclimb i
    induction i using Nat.strongRecOn with
    | _ i ih =>
      cases i with
      | zero => exact hclimb 0
      | succ i =>
        obtain ⟨-, hfix, -⟩ := fixes_fixed i fun j hj => ih j (Nat.lt_succ_of_le hj)
        have hnext := hclimb (i + 1)
        unfold climb at hnext
        omega

end UdpSpeeder.Net
