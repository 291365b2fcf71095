/-
  UdpSpeeder.Tunnel.Elapsed — the differences of times, under the clock that
  `get_current_time_us` makes (`Net.CurrentTime`).

  `Timely` is what holds of any readings: the clock goes on by the steps forward and never
  back, the timer of `delay_manager_t` is never set to a negative time, and a time in the list
  of `lru_collector_t` is not ahead of any later reading, so that `update`, `new_key` and
  `clear_inactive0` compare it with a time that is no earlier. `clear_inactive` also
  compares the clock with `last_clear_time`, which the constructor of `conv_manager_t` leaves
  unset: that difference is right in every run if and only if memory happens to hold no later
  time (`clock_never_back`); else it wraps (`clear_time_unset`).
-/

import UdpSpeeder.Net.CurrentTime
import UdpSpeeder.Net.Delay
import UdpSpeeder.Tunnel.Consistent
import UdpSpeeder.Tunnel.Operations

namespace UdpSpeeder.Tunnel

open Lib Net Cook

/-- `now - since` is the time from the one to the other. -/
def Elapsed (now since : Nat) : Prop := since ≤ now ∧ sub64 now since = now - since

theorem elapsed_of_le {now since : Nat} (hle : since ≤ now) (hnow : now < 2 ^ 64) : Elapsed now since := ⟨hle, sub64_eq hle hnow⟩

namespace ConvManager

variable {T σ : Type} [DecidableEq T] [Inhabited T]

/-- From a manager that is made where memory holds `lastClearTime`, when the clock is `c`:
    what its callers reach. -/
inductive ReachedFrom (f : ClearFunction T σ) (lastClearTime : Nat) (s : σ) (c : Clock) : InUse T σ → Prop
  | start : ReachedFrom f lastClearTime s c ⟨init lastClearTime, s, c, fun _ => 0⟩
  | other {u : InUse T σ} (h : ReachedFrom f lastClearTime s c u) (s' : σ) (n : Nat) :
      ReachedFrom f lastClearTime s c { u with s := s', clock := fun i => u.clock (i + n) }
  | op {u u' : InUse T σ} (h : ReachedFrom f lastClearTime s c u) {o : Op T} (ho : o.Allowed u.m) (hr : o.run f u = .ok u') :
      ReachedFrom f lastClearTime s c u'

/-- What holds of the clock made of any readings. -/
structure Timely (simd : Simd) (ctx : CookCtx) (f : ClearFunction T σ) (raw : Nat → U64) : Prop where
  mono : Monotone (currentTimes raw)
  step : ∀ i, currentTimes raw (i + 1) = currentTimes raw i + ((raw (i + 1)).toNat - (raw i).toNat)
  /-- `check` of any delay manager starts the timer for the packet in front, whose time is
      ahead of the reading, and for no longer than to that time. -/
  timer : ∀ s : Sender, Later (currentTimes raw) s.clock → ∀ v, (checkDelays simd ctx s).timer = .started v →
    ∃ due now, (checkDelays simd ctx s).sender.delayManager.delayMp.head?.map Prod.fst = some due ∧
      now ∈ (checkDelays simd ctx s).looked ∧ now < due ∧ 0 ≤ v ∧ v ≤ ((due - now : Nat) : ℚ) / 1000000
  /-- Any reading against any time in the list of any manager. -/
  stamps : ∀ lastClearTime s c u, Later (currentTimes raw) c → ReachedFrom f lastClearTime s c u →
    ∀ n ∈ u.m.lru.q, ∀ c', Later u.clock c' → Elapsed c'.now n.ts

/-! ## What an operation does to the times -/

section Step

variable {m m' : ConvManager T} {conv : U32} {c : Clock} {f : ClearFunction T σ}

theorem eraseConv_cleared {s s' : σ} (hr : m.eraseConv f conv s = .ok (m', s')) : m'.lastClearTime = m.lastClearTime := by
  obtain ⟨lru, rfl⟩ := eraseConv_inv hr
  obtain ⟨table, hfind⟩ := m.findDataByConv_inv conv
  rw [hfind]

theorem clearLoop_cleared {currentTime n : Nat} {s s' : σ} (hr : clearLoop f currentTime n m s = .ok (m', s')) :
    m'.lastClearTime = m.lastClearTime :=
  clearLoop_inv (P := fun m1 => m1.lastClearTime = m.lastClearTime) (fun _ _ _ _ _ hm hrun => (eraseConv_cleared hrun).trans hm) rfl hr

/-- The clock is read some times; `last_clear_time` stays, or is one of the readings. -/
theorem Op.run_times {u u' : InUse T σ} {o : Op T} (hr : o.run f u = .ok u') :
    Later u.clock u'.clock ∧ (u'.m.lastClearTime = u.m.lastClearTime ∨
      u'.m.lastClearTime = u.clock.tail.now ∧ Later u.clock.tail u'.clock) := by
  cases o with
  | insertConv conv data =>
    obtain ⟨⟨m, c⟩, hins, hr⟩ := bind_ok.mp hr
    cases hr
    obtain ⟨rfl, rfl⟩ := insertConv_inv hins
    exact ⟨.tail _, .inl rfl⟩
  | updateActiveTime conv =>
    obtain ⟨⟨m, c⟩, hup, hr⟩ := bind_ok.mp hr
    cases hr
    obtain ⟨rfl, q, -, rfl⟩ := updateActiveTime_inv hup
    exact ⟨.tail _, .inl rfl⟩
  | findConvByData data =>
    cases hr
    obtain ⟨table, hfind⟩ := u.m.findConvByData_inv data
    exact ⟨.refl _, .inl (by rw [hfind])⟩
  | findDataByConv conv =>
    cases hr
    obtain ⟨table, hfind⟩ := u.m.findDataByConv_inv conv
    exact ⟨.refl _, .inl (by rw [hfind])⟩
  | eraseConv conv =>
    obtain ⟨⟨m, s⟩, herase, hr⟩ := bind_ok.mp hr
    cases hr
    exact ⟨.refl _, .inl (eraseConv_cleared herase)⟩
  | clearInactive =>
    obtain ⟨⟨m, s, c⟩, hclear, hr⟩ := bind_ok.mp hr
    cases hr
    rcases clearInactive_inv hclear with ⟨rfl, rfl⟩ | ⟨rfl, n, hloop⟩
    · exact ⟨.tail _, .inl rfl⟩
    · exact ⟨⟨3, rfl⟩, .inr ⟨clearLoop_cleared hloop, ⟨2, rfl⟩⟩⟩
  | clear =>
    obtain ⟨⟨m, s⟩, hclear, hr⟩ := bind_ok.mp hr
    cases hr
    unfold ConvManager.clear at hclear
    obtain ⟨s1, -, hclear⟩ := bind_ok.mp hclear
    cases hclear
    exact ⟨.refl _, .inl rfl⟩

end Step

/-! ## Runs -/

variable {f : ClearFunction T σ} {lastClearTime : Nat} {s : σ} {c : Clock} {u : InUse T σ}

theorem ReachedFrom.reached (h : ReachedFrom f lastClearTime s c u) (hc : Monotone c) : Reached f u := by
  induction h with
  | start => exact .start lastClearTime s hc
  | other _ s' n ih => exact ih.other s' n
  | op _ ho hr ih => exact ih.op ho hr

theorem ReachedFrom.later (h : ReachedFrom f lastClearTime s c u) : Later c u.clock := by
  induction h with
  | start => exact .refl c
  | other _ s' n ih => exact ih.trans ⟨n, rfl⟩
  | op _ ho hr ih => exact ih.trans (Op.run_times hr).1

/-- A `last_clear_time` that is not ahead at first never is. -/
theorem ReachedFrom.cleared (h : ReachedFrom f lastClearTime s c u) (hc : Monotone c) (hset : lastClearTime ≤ c.now) :
    u.m.lastClearTime ≤ u.clock.now := by
  induction h with
  | start => exact hset
  | @other u h s' n ih => exact ih.trans (Later.now_le ⟨n, rfl⟩ (h.later.mono hc))
  | op h ho hr ih =>
    have hmono := h.later.mono hc
    obtain ⟨hlater, hkept | ⟨hread, hafter⟩⟩ := Op.run_times hr
    · rw [hkept]
      exact ih.trans (hlater.now_le hmono)
    · rw [hread]
      exact hafter.now_le (Clock.tail_mono hmono)

/-- A time is below 2^64 however it was made. -/
theorem currentTimes_now_lt (raw : Nat → U64) (hlater : Later (currentTimes raw) c) : c.now < 2 ^ 64 := by
  obtain ⟨n, rfl⟩ := hlater
  exact (Nat.div_le_self _ _).trans_lt (BitVec.isLt _)

/-- Whatever steps back the readings take, the clock takes none, and neither the timer nor a
    time in a list is ever ahead; `last_clear_time` is not, in any run, if and only if it was
    not when the manager was made. -/
theorem clock_never_back (simd : Simd) (ctx : CookCtx) (f : ClearFunction T σ) (raw : Nat → U64) (hfit : SumsFit raw) :
    Timely simd ctx f raw ∧ ∀ lastClearTime s c, Later (currentTimes raw) c →
      ((∀ u, ReachedFrom f lastClearTime s c u → Elapsed u.clock.now u.m.lastClearTime) ↔ lastClearTime ≤ c.now) := by
  have hmono : Monotone (currentTimes raw) := by
    rw [currentTimes_eq hfit]
    exact climb_mono _
  refine ⟨⟨hmono, fun i => by rw [currentTimes_eq hfit]; rfl, fun s hs v hv => checkDelays_timer s (hs.mono hmono) hv, ?_⟩, ?_⟩
  · intro lastClearTime s c u hc h n hn c' hc'
    have hpast := (h.reached (hc.mono hmono)).running.wf.lru.past n hn
    exact elapsed_of_le (hpast.trans (hc'.now_le ((hc.trans h.later).mono hmono))) (currentTimes_now_lt raw ((hc.trans h.later).trans hc'))
  · intro lastClearTime s c hc
    constructor
    · intro hall
      exact (hall _ .start).1
    · intro hset u h
      exact elapsed_of_le (h.cleared (hc.mono hmono) hset) (currentTimes_now_lt raw (hc.trans h.later))

/-- Readings at 10, 4 and 10 seconds, and no later ones. -/
def setBack : Nat → U64 := fun i => if i = 1 then 4000000 else 10000000

theorem setBack_fit : SumsFit setBack := by
  rw [sumsFit_iff]
  have hclimb : ∀ i, climb (fun j => (setBack j).toNat) i ≤ 16000000 := by
    intro i
    have hstands : climb (fun j => (setBack j).toNat) (2 + i) = 16000000 := climb_stands (fun j hj => by
      have h1 : j ≠ 1 := by omega
      have h2 : j + 1 ≠ 1 := by omega
      simp only [setBack, h1, h2, if_false, le_refl]) i
    rw [← hstands]
    exact climb_mono _ (Nat.le_add_left i 2)
  exact fun i => (hclimb i).trans_lt (by decide)

/-- The clock stands still while the readings are back, and goes on with them. -/
theorem clock_never_back_set : currentTimes setBack 0 = 10000000 ∧ currentTimes setBack 1 = 10000000 ∧ currentTimes setBack 2 = 16000000 ∧
    ∀ u, ReachedFrom (fun (_ : Fd64) (s : Unit) => .ok s) 0 () (currentTimes setBack) u → Elapsed u.clock.now u.m.lastClearTime := by
  obtain ⟨htimely, hset⟩ := clock_never_back .sse2 ctxPlain (fun (_ : Fd64) (s : Unit) => .ok s) setBack setBack_fit
  have h0 : currentTimes setBack 0 = 10000000 := rfl
  have h1 : currentTimes setBack 1 = 10000000 := (htimely.step 0).trans (by rw [h0]; rfl)
  exact ⟨h0, h1, (htimely.step 1).trans (by rw [h1]; rfl), (hset 0 () _ (.refl _)).mpr (Nat.zero_le _)⟩

/-- A clock that stands at 5 seconds. -/
def atFive : Nat → U64 := fun _ => 5000000

/-- A manager is made where memory holds 6000, which is a second from now: 5000 less 6000 wraps. -/
theorem clear_time_unset : ¬ ∀ (raw : Nat → U64) (lastClearTime : Nat), SumsFit raw →
    ∀ u, ReachedFrom (fun (_ : Fd64) (s : Unit) => .ok s) lastClearTime () (currentTimes raw) u →
      Elapsed u.clock.now u.m.lastClearTime := by
  intro hall
  have hfit : SumsFit atFive := by
    rw [sumsFit_iff]
    intro i
    have hstands := @climb_stands (fun j => (atFive j).toNat) 0 (fun _ _ => le_refl _) i
    rw [Nat.zero_add] at hstands
    rw [hstands]
    exact BitVec.isLt _
  have hwrap : sub64 5000 6000 = 18446744073709550616 := rfl
  have h := (hall atFive 6000 hfit _ .start).2
  have hnow : (currentTimes atFive).now = 5000 := rfl
  simp only [init, hnow, hwrap] at h
  cases h

end ConvManager

end UdpSpeeder.Tunnel
