/-
  UdpSpeeder.Net.Delay — the queue of delayed packets over whole runs (`delay_manager.cpp`).

  `add` copies a packet into the queue under the time to send it at, `check` hands the ones
  that are due to `my_send`, reading the clock again before each. A `Ledger` keeps what a
  run accepted and what it handed over; `Delivered` is what holds of it at any point: handed
  over and waiting are together what was accepted, by due time and then by arrival
  (`Lib.InOrder`), nothing was early, and the capacity is not exceeded. After a check
  nothing it saw due is left (`delay_queue`). All of it needs the due time to fit a
  `my_time_t`: one that wraps is sent at once (`delay_wraps`).
-/

import Mathlib.Data.Rat.Defs
import Mathlib.Algebra.Order.Field.Rat
import UdpSpeeder.Lib.Agenda
import UdpSpeeder.Net.Batch

namespace UdpSpeeder.Net

open Lib Cook

/-! ## `delay_manager_t::check` -/

/-- What `check` does to the timer. -/
inductive Timer where
  | kept
  | stopped
  /-- Started anew, for so many seconds. -/
  | started (seconds : ℚ)

/-- `timer_value`, of the first due time and the clock. -/
def timerValue (due now : Nat) : ℚ := max 0 (due / 1000000 - now / 1000000)

/-- What `check` did: the readings of its loop, what it handed to `my_send` and at which of
    them, and how it ended; `fault` where `my_send` stops the program. -/
structure CheckOut where
  looked : List Nat
  handed : List (Nat × Nat × DelayData)
  timer : Timer
  sender : Sender
  fault : Option Fault

def Sender.withQueue (s : Sender) (mp : List (Nat × DelayData)) : Sender :=
  { s with delayManager := { s.delayManager with delayMp := mp } }

def Sender.ticked (s : Sender) : Sender := { s with clock := s.clock.tail }

section Check

variable (simd : Simd) (ctx : CookCtx)

/-- The loop, on the queue it starts with. -/
def checkLoop : List (Nat × DelayData) → Sender → CheckOut
  | [], s => ⟨[], [], .stopped, s.withQueue [], none⟩
  | (due, d) :: rest, s =>
    let current := s.clock 0
    if due ≤ current then
      match mySend simd ctx d.dest d.packet s.ticked with
      | .error e => ⟨[current], [(current, due, d)], .kept, s.ticked.withQueue rest, some e⟩
      | .ok r =>
        let out := checkLoop rest (r.sender.withQueue rest)
        { out with looked := current :: out.looked, handed := (current, due, d) :: out.handed }
    else ⟨[current], [], .started (timerValue due (s.ticked.clock 0)), s.ticked.ticked.withQueue ((due, d) :: rest), none⟩

/-- `delay_manager_t::check`. -/
def checkDelays (s : Sender) : CheckOut :=
  if s.delayManager.delayMp = [] then ⟨[], [], .kept, s, none⟩ else checkLoop simd ctx s.delayManager.delayMp s

end Check

/-! ## Runs -/

/-- A packet as `my_send` is given it, and when. -/
structure Delayed where
  due : Nat
  dest : Dest
  bytes : Bytes
  deriving DecidableEq

def read (x : Nat × DelayData) : Delayed := ⟨x.1, x.2.dest, x.2.packet.bytes⟩

def Sender.queue (s : Sender) : List Delayed := s.delayManager.delayMp.map read

def CheckOut.sent (out : CheckOut) : List (Nat × Delayed) := out.handed.map fun x => (x.1, read x.2)

/-- What a run accepted with a delay, with the clock plus the delay as due time, and what it
    handed over, with the reading of the clock that made it. -/
structure Ledger where
  accepted : List Delayed
  handed : List (Nat × Delayed)

namespace Ledger

/-- A call of `add` noted. -/
def noteAdd (l : Ledger) (delay : Nat) (dest : Dest) (p : Packet) (s : Sender) : Ledger :=
  if s.delayManager.full ∨ delay = 0 then l
  else { l with accepted := l.accepted ++ [⟨s.clock 0 + delay, dest, p.bytes⟩] }

/-- A call of `check` noted. -/
def noteCheck (l : Ledger) (out : CheckOut) : Ledger := { l with handed := l.handed ++ out.sent }

end Ledger

section Calls

variable (simd : Simd) (ctx : CookCtx) (s0 : Sender)

/-- Calls of `add` and `check` that return, from an empty queue. In between everything but
    the queue may change, and the clock goes on. -/
inductive Calls : Ledger → Sender → Prop
  | start (hempty : s0.delayManager.delayMp = []) : Calls ⟨[], []⟩ s0
  | other {l : Ledger} {s s' : Sender} (hc : Calls l s) (hm : s'.delayManager = s.delayManager) (k : Nat)
      (hclock : s'.clock = fun i => s.clock (k + i)) : Calls l s'
  | added {l : Ledger} {s : Sender} (hc : Calls l s) {delay : Nat} {dest : Dest} {p : Packet} {r : Sent}
      (hr : add simd ctx delay dest p s = .ok r) : Calls (l.noteAdd delay dest p s) r.sender
  | checked {l : Ledger} {s : Sender} (hc : Calls l s) (hr : (checkDelays simd ctx s).fault = none) :
      Calls (l.noteCheck (checkDelays simd ctx s)) (checkDelays simd ctx s).sender

end Calls

/-- What holds between two calls: what was handed over, then what waits, is what was
    accepted, by due time and first added first; nothing was early; there is room. -/
structure Delivered (l : Ledger) (s : Sender) : Prop where
  inOrder : InOrder Delayed.due l.accepted (l.handed.map Prod.snd) s.queue
  notEarly : ∀ x ∈ l.handed, x.2.due ≤ x.1
  room : 0 < s.delayManager.capacity → (s.delayManager.delayMp.length : Int) ≤ s.delayManager.capacity

/-! ## What a check does -/

section Loop

variable {simd : Simd} {ctx : CookCtx}

/-- `my_send` leaves the queue and the clock alone. -/
theorem mySend_rest {dest : Dest} {p : Packet} {s : Sender} {r : Sent} (h : mySend simd ctx dest p s = .ok r) :
    r.sender.delayManager = s.delayManager ∧ r.sender.clock = s.clock := by
  by_cases hdest : dest.inner = .none
  · obtain ⟨⟨q, d⟩, -, h⟩ := bind_ok.mp h
    simp only [hdest] at h
    cases h
  · rw [mySend_eq hdest] at h
    obtain ⟨⟨q, d⟩, -, h⟩ := bind_ok.mp h
    have hsender : r.sender = { s with draws := d, wire := s.wire ++ dest.datagrams s.fdManager [q] } := deliver_inv h
    rw [hsender]
    exact ⟨rfl, rfl⟩

/-- A check takes a due packet off the front or stops; one lemma for all that follows. -/
theorem checkLoop_cases (due : Nat) (d : DelayData) (rest : List (Nat × DelayData)) (s : Sender) :
    (s.clock 0 < due ∧ checkLoop simd ctx ((due, d) :: rest) s =
      ⟨[s.clock 0], [], .started (timerValue due (s.ticked.clock 0)), s.ticked.ticked.withQueue ((due, d) :: rest), none⟩) ∨
    (due ≤ s.clock 0 ∧ ∃ e, checkLoop simd ctx ((due, d) :: rest) s =
      ⟨[s.clock 0], [(s.clock 0, due, d)], .kept, s.ticked.withQueue rest, some e⟩) ∨
    (due ≤ s.clock 0 ∧ ∃ s' : Sender, s'.clock = s.clock.tail ∧ s'.delayManager.capacity = s.delayManager.capacity ∧
      checkLoop simd ctx ((due, d) :: rest) s = { checkLoop simd ctx rest s' with
        looked := s.clock 0 :: (checkLoop simd ctx rest s').looked
        handed := (s.clock 0, due, d) :: (checkLoop simd ctx rest s').handed }) := by
  by_cases hdue : due ≤ s.clock 0
  · refine .inr ?_
    cases hsend : mySend simd ctx d.dest d.packet s.ticked with
    | error e =>
      refine .inl ⟨hdue, e, ?_⟩
      simp only [checkLoop, hdue, if_true, hsend]
    | ok r =>
      obtain ⟨hm, hclock⟩ := mySend_rest hsend
      refine .inr ⟨hdue, r.sender.withQueue rest, hclock, ?_, ?_⟩
      · show r.sender.delayManager.capacity = _
        rw [hm]
        rfl
      · simp only [checkLoop, hdue, if_true, hsend]
  · refine .inl ⟨by omega, ?_⟩
    simp only [checkLoop, hdue, if_false]

/-- It takes off the front what it hands over, when it is due; the capacity stays. -/
theorem checkLoop_takes (mp : List (Nat × DelayData)) (s : Sender) :
    (checkLoop simd ctx mp s).handed.map Prod.snd ++ (checkLoop simd ctx mp s).sender.delayManager.delayMp = mp ∧
      (∀ x ∈ (checkLoop simd ctx mp s).handed, x.2.1 ≤ x.1 ∧ x.1 ∈ (checkLoop simd ctx mp s).looked) ∧
      (checkLoop simd ctx mp s).sender.delayManager.capacity = s.delayManager.capacity := by
  induction mp generalizing s with
  | nil => exact ⟨rfl, fun x hx => absurd hx List.not_mem_nil, rfl⟩
  | cons x rest ih =>
    obtain ⟨due, d⟩ := x
    rcases @checkLoop_cases simd ctx due d rest s with ⟨-, h⟩ | ⟨hdue, e, h⟩ | ⟨hdue, s', -, hcap, h⟩
    · rw [h]
      exact ⟨rfl, fun x hx => absurd hx List.not_mem_nil, rfl⟩
    · rw [h]
      refine ⟨rfl, fun x hx => ?_, rfl⟩
      rw [List.mem_singleton.mp hx]
      exact ⟨hdue, List.mem_singleton_self _⟩
    · rw [h]
      obtain ⟨h1, h2, h3⟩ := ih s'
      refine ⟨by simp only [List.map_cons, List.cons_append, h1], fun x hx => ?_, h3.trans hcap⟩
      rcases List.mem_cons.mp hx with rfl | hx
      · exact ⟨hdue, List.mem_cons_self⟩
      · exact ⟨(h2 x hx).1, List.mem_cons_of_mem _ (h2 x hx).2⟩

/-- Its readings are the next ones of the clock, the first among them. -/
theorem checkLoop_clock (mp : List (Nat × DelayData)) (s : Sender) :
    ∃ k, (checkLoop simd ctx mp s).sender.clock = (fun i => s.clock (k + i)) ∧
      (∀ c ∈ (checkLoop simd ctx mp s).looked, ∃ j < k, c = s.clock j) ∧
      (mp ≠ [] → s.clock 0 ∈ (checkLoop simd ctx mp s).looked) := by
  induction mp generalizing s with
  | nil => exact ⟨0, by funext i; rw [Nat.zero_add]; rfl, fun c hc => absurd hc List.not_mem_nil, fun h => absurd rfl h⟩
  | cons x rest ih =>
    obtain ⟨due, d⟩ := x
    rcases @checkLoop_cases simd ctx due d rest s with ⟨-, h⟩ | ⟨-, e, h⟩ | ⟨-, s', hclock, -, h⟩
    · rw [h]
      refine ⟨2, by funext i; show s.clock (i + 1 + 1) = _; congr 1; omega, fun c hc => ?_, fun _ => List.mem_singleton_self _⟩
      exact ⟨0, by omega, List.mem_singleton.mp hc⟩
    · rw [h]
      refine ⟨1, by funext i; show s.clock (i + 1) = _; congr 1; omega, fun c hc => ?_, fun _ => List.mem_singleton_self _⟩
      exact ⟨0, by omega, List.mem_singleton.mp hc⟩
    · rw [h]
      obtain ⟨k, h1, h2, -⟩ := ih s'
      refine ⟨k + 1, ?_, ?_, fun _ => List.mem_cons_self⟩
      · simp only [h1, hclock, Clock.tail]
        funext i
        congr 1
        omega
      · intro c hc
        rcases List.mem_cons.mp hc with rfl | hc
        · exact ⟨0, by omega, rfl⟩
        · obtain ⟨j, hj, rfl⟩ := h2 c hc
          exact ⟨j + 1, by omega, by rw [hclock]; rfl⟩

/-- Nothing a reading found due is left behind. -/
theorem checkLoop_clears (mp : List (Nat × DelayData)) (s : Sender) (hmono : Monotone s.clock)
    (hsorted : mp.Pairwise fun a b => a.1 ≤ b.1) (hf : (checkLoop simd ctx mp s).fault = none) :
    ∀ c ∈ (checkLoop simd ctx mp s).looked, ∀ x ∈ (checkLoop simd ctx mp s).sender.delayManager.delayMp, c < x.1 := by
  induction mp generalizing s with
  | nil => exact fun c hc => absurd hc List.not_mem_nil
  | cons x rest ih =>
    obtain ⟨due, d⟩ := x
    obtain ⟨hfirst, hrest⟩ := List.pairwise_cons.mp hsorted
    rcases @checkLoop_cases simd ctx due d rest s with ⟨hlt, h⟩ | ⟨-, e, h⟩ | ⟨-, s', hclock, -, h⟩
    · rw [h]
      intro c hc x hx
      rw [List.mem_singleton.mp hc]
      rcases List.mem_cons.mp hx with rfl | hx
      · exact hlt
      · exact hlt.trans_le (hfirst x hx)
    · rw [h] at hf
      cases hf
    · rw [h] at hf ⊢
      have hmono' : Monotone s'.clock := hclock ▸ Clock.tail_mono hmono
      have hclears := ih s' hmono' hrest hf
      intro c hc x hx
      rcases List.mem_cons.mp hc with rfl | hc
      · -- what is left was looked at again, no earlier
        obtain ⟨-, -, -, hlook⟩ := @checkLoop_clock simd ctx rest s'
        have hne : rest ≠ [] := by
          rintro rfl
          cases hx
        have hnext := hclears _ (hlook hne) x hx
        rw [hclock] at hnext
        exact (hmono (Nat.zero_le 1)).trans_lt hnext
      · exact hclears c hc x hx

/-- The timer is set to what is missing at the second reading, if anything is: no more than at
    the first. -/
theorem timerValue_bounds {due now now' : Nat} (hdue : now < due) (hle : now ≤ now') :
    0 ≤ timerValue due now' ∧ timerValue due now' ≤ ((due - now : Nat) : ℚ) / 1000000 := by
  refine ⟨le_max_left _ _, max_le (div_nonneg (Nat.cast_nonneg _) (Nat.cast_nonneg 1000000)) ?_⟩
  rw [← sub_div, Nat.cast_sub hdue.le]
  exact div_le_div_of_nonneg_right (sub_le_sub_left (Nat.cast_le.mpr hle) _) (Nat.cast_nonneg 1000000)

/-- A timer that is started is for the packet now in front, which its reading found not due. -/
theorem checkLoop_timer (mp : List (Nat × DelayData)) (s : Sender) (hmono : Monotone s.clock) {v : ℚ}
    (h : (checkLoop simd ctx mp s).timer = .started v) :
    ∃ due now, (checkLoop simd ctx mp s).sender.delayManager.delayMp.head?.map Prod.fst = some due ∧
      now ∈ (checkLoop simd ctx mp s).looked ∧ now < due ∧ 0 ≤ v ∧ v ≤ ((due - now : Nat) : ℚ) / 1000000 := by
  induction mp generalizing s with
  | nil => cases h
  | cons x rest ih =>
    obtain ⟨due, d⟩ := x
    rcases @checkLoop_cases simd ctx due d rest s with ⟨hlt, hrun⟩ | ⟨-, e, hrun⟩ | ⟨-, s', hclock, -, hrun⟩
    · rw [hrun] at h ⊢
      cases h
      exact ⟨due, s.clock 0, rfl, List.mem_singleton_self _, hlt, timerValue_bounds hlt (hmono (Nat.zero_le 1))⟩
    · rw [hrun] at h
      cases h
    · rw [hrun] at h ⊢
      obtain ⟨due', now, hfront, hlook, hrest⟩ := ih s' (hclock ▸ Clock.tail_mono hmono) h
      exact ⟨due', now, hfront, List.mem_cons_of_mem _ hlook, hrest⟩

theorem checkDelays_timer (s : Sender) (hmono : Monotone s.clock) {v : ℚ} (h : (checkDelays simd ctx s).timer = .started v) :
    ∃ due now, (checkDelays simd ctx s).sender.delayManager.delayMp.head?.map Prod.fst = some due ∧
      now ∈ (checkDelays simd ctx s).looked ∧ now < due ∧ 0 ≤ v ∧ v ≤ ((due - now : Nat) : ℚ) / 1000000 := by
  unfold checkDelays at h ⊢
  split at h
  · cases h
  · rename_i hne
    rw [if_neg hne]
    exact checkLoop_timer _ s hmono h

theorem checkDelays_takes (s : Sender) :
    (checkDelays simd ctx s).sent.map Prod.snd ++ (checkDelays simd ctx s).sender.queue = s.queue ∧
      (∀ x ∈ (checkDelays simd ctx s).sent, x.2.due ≤ x.1 ∧ x.1 ∈ (checkDelays simd ctx s).looked) ∧
      (checkDelays simd ctx s).sender.delayManager.capacity = s.delayManager.capacity := by
  unfold checkDelays
  split
  · exact ⟨rfl, fun x hx => absurd hx List.not_mem_nil, rfl⟩
  · obtain ⟨h1, h2, h3⟩ := @checkLoop_takes simd ctx s.delayManager.delayMp s
    refine ⟨?_, ?_, h3⟩
    · unfold Sender.queue CheckOut.sent
      rw [List.map_map]
      conv_rhs => rw [← h1, List.map_append, List.map_map]
      rfl
    · intro x hx
      obtain ⟨y, hy, rfl⟩ := List.mem_map.mp hx
      exact h2 y hy

theorem checkDelays_clock (s : Sender) :
    ∃ k, (checkDelays simd ctx s).sender.clock = (fun i => s.clock (k + i)) ∧
      ∀ c ∈ (checkDelays simd ctx s).looked, ∃ j < k, c = s.clock j := by
  unfold checkDelays
  split
  · exact ⟨0, by funext i; rw [Nat.zero_add], fun c hc => absurd hc List.not_mem_nil⟩
  · obtain ⟨k, h1, h2, -⟩ := @checkLoop_clock simd ctx s.delayManager.delayMp s
    exact ⟨k, h1, h2⟩

theorem checkDelays_clears {s : Sender} (hmono : Monotone s.clock) (hsorted : s.queue.Pairwise fun a b => a.due ≤ b.due)
    (hf : (checkDelays simd ctx s).fault = none) :
    ∀ c ∈ (checkDelays simd ctx s).looked, ∀ x ∈ (checkDelays simd ctx s).sender.queue, c < x.due := by
  unfold checkDelays at hf ⊢
  split
  · exact fun c hc => absurd hc List.not_mem_nil
  · rename_i hne
    rw [if_neg hne] at hf
    unfold Sender.queue at hsorted
    rw [List.pairwise_map] at hsorted
    intro c hc x hx
    obtain ⟨y, hy, rfl⟩ := List.mem_map.mp hx
    exact checkLoop_clears _ s hmono hsorted hf c hc y hy

/-! ## What a call of `add` does -/

/-- The copy holds the bytes of the packet. -/
theorem copied_bytes (p : Packet) : p.copied.bytes = p.bytes := by
  refine slice_congr fun i hi => ?_
  have hi : i < p.len := hi
  show copyTo (fun _ => 0) 0 p.data.mem p.len (0 + i) = p.data.mem (0 + i)
  rw [copyTo_in _ _ hi, Nat.zero_add]

/-- A packet with a delay is copied into the queue, if there is room. -/
theorem add_waits {delay : Nat} {dest : Dest} {p : Packet} {s : Sender} {r : Sent} (hfull : ¬ s.delayManager.full) (hdelay : delay ≠ 0)
    (hr : add simd ctx delay dest p s = .ok r) : r.ret = 0 ∧ r.data = p.data ∧
      r.sender = s.ticked.withQueue (enter Prod.fst ((s.clock 0 + delay) % 2 ^ 64, ⟨dest, p.copied⟩) s.delayManager.delayMp) := by
  unfold add at hr
  rw [if_neg hfull, if_neg hdelay] at hr
  obtain ⟨u, -, hr⟩ := bind_ok.mp hr
  cases hr
  exact ⟨rfl, rfl, rfl⟩

theorem add_now {dest : Dest} {p : Packet} {s : Sender} {r : Sent} (hfull : ¬ s.delayManager.full)
    (hr : add simd ctx 0 dest p s = .ok r) : r.sender.delayManager = s.delayManager ∧ r.sender.clock = s.clock := by
  unfold add at hr
  rw [if_neg hfull, if_pos rfl] at hr
  obtain ⟨r', hsend, hr⟩ := bind_ok.mp hr
  cases hr
  show r'.sender.delayManager = s.delayManager ∧ r'.sender.clock = s.clock
  exact mySend_rest hsend

/-! ## What every run keeps -/

/-- With what the next call needs: readings so far are not ahead of the clock. -/
structure Running (l : Ledger) (s : Sender) : Prop extends Delivered l s where
  mono : Monotone s.clock
  past : ∀ x ∈ l.handed, x.1 ≤ s.clock 0

theorem Running.added {l : Ledger} {s : Sender} (h : Running l s) {delay : Nat} {dest : Dest} {p : Packet} {r : Sent}
    (hfit : ∀ x ∈ (l.noteAdd delay dest p s).accepted, x.due < 2 ^ 64) (hr : add simd ctx delay dest p s = .ok r) :
    Running (l.noteAdd delay dest p s) r.sender := by
  unfold Ledger.noteAdd at hfit ⊢
  by_cases hfull : s.delayManager.full
  · rw [add_full hfull] at hr
    cases hr
    rw [if_pos (.inl hfull)]
    exact h
  by_cases hdelay : delay = 0
  · subst hdelay
    rw [if_pos (.inr rfl)]
    obtain ⟨hm, hclock⟩ := add_now hfull hr
    have hqueue : r.sender.queue = s.queue := by unfold Sender.queue; rw [hm]
    exact {
      inOrder := hqueue ▸ h.inOrder
      notEarly := h.notEarly
      room := hm ▸ h.room
      mono := hclock ▸ h.mono
      past := hclock ▸ h.past }
  · rw [if_neg (not_or.mpr ⟨hfull, hdelay⟩)] at hfit ⊢
    obtain ⟨-, -, hsender⟩ := add_waits hfull hdelay hr
    have hdue : (s.clock 0 + delay) % 2 ^ 64 = s.clock 0 + delay :=
      Nat.mod_eq_of_lt (hfit ⟨s.clock 0 + delay, dest, p.bytes⟩ (List.mem_append_right _ (List.mem_singleton_self _)))
    have hread : read (s.clock 0 + delay, ⟨dest, p.copied⟩) = ⟨s.clock 0 + delay, dest, p.bytes⟩ := by
      unfold read
      rw [copied_bytes]
    rw [hdue] at hsender
    rw [hsender]
    exact {
      inOrder := by
        have hq : Sender.queue (s.ticked.withQueue (enter Prod.fst (s.clock 0 + delay, ⟨dest, p.copied⟩) s.delayManager.delayMp)) =
            enter Delayed.due ⟨s.clock 0 + delay, dest, p.bytes⟩ s.queue := by
          rw [← hread]
          exact @enter_map _ _ Delayed.due read _ _
        rw [hq]
        refine h.inOrder.add _ fun b hb => ?_
        obtain ⟨x, hx, rfl⟩ := List.mem_map.mp hb
        exact ((h.notEarly x hx).trans (h.past x hx)).trans (Nat.le_add_right _ _)
      notEarly := h.notEarly
      room := by
        intro hpos
        show ((enter Prod.fst _ s.delayManager.delayMp).length : Int) ≤ s.delayManager.capacity
        rw [enter_length]
        unfold DelayManager.full at hfull
        have hpos : 0 < s.delayManager.capacity := hpos
        omega
      mono := Clock.tail_mono h.mono
      past := fun x hx => (h.past x hx).trans (h.mono (Nat.zero_le 1)) }

theorem Running.checked {l : Ledger} {s : Sender} (h : Running l s) :
    Running (l.noteCheck (checkDelays simd ctx s)) (checkDelays simd ctx s).sender := by
  obtain ⟨htakes, hdue, hcap⟩ := @checkDelays_takes simd ctx s
  obtain ⟨k, hclock, hlooked⟩ := @checkDelays_clock simd ctx s
  have hpast : s.clock 0 ≤ (checkDelays simd ctx s).sender.clock 0 := by
    rw [hclock]
    exact h.mono (Nat.zero_le _)
  exact {
    inOrder := by
      have hin := h.inOrder
      rw [← htakes] at hin
      unfold Ledger.noteCheck
      simp only [List.map_append]
      exact hin.serve
    notEarly := by
      intro x hx
      rcases List.mem_append.mp hx with hx | hx
      · exact h.notEarly x hx
      · exact (hdue x hx).1
    room := by
      intro hpos
      rw [hcap] at hpos ⊢
      have hlen := congrArg List.length htakes
      simp only [Sender.queue, List.length_append, List.length_map] at hlen
      have := h.room hpos
      omega
    mono := by
      rw [hclock]
      exact fun a b hab => h.mono (Nat.add_le_add_left hab k)
    past := by
      intro x hx
      rcases List.mem_append.mp hx with hx | hx
      · exact (h.past x hx).trans hpast
      · obtain ⟨j, hj, he⟩ := hlooked x.1 (hdue x hx).2
        rw [he, hclock]
        exact h.mono (by omega) }

theorem accepted_mono {l : Ledger} {delay : Nat} {dest : Dest} {p : Packet} {s : Sender} {x : Delayed} (hx : x ∈ l.accepted) :
    x ∈ (l.noteAdd delay dest p s).accepted := by
  unfold Ledger.noteAdd
  split
  · exact hx
  · exact List.mem_append_left _ hx

theorem Calls.running {s0 s : Sender} {l : Ledger} (hc : Calls simd ctx s0 l s) (hmono : Monotone s0.clock)
    (hfit : ∀ x ∈ l.accepted, x.due < 2 ^ 64) : Running l s := by
  induction hc with
  | start hempty => exact {
      inOrder := by
        unfold Sender.queue
        rw [hempty]
        exact .nil
      notEarly := fun x hx => absurd hx List.not_mem_nil
      room := fun hpos => by rw [hempty]; exact hpos.le
      mono := hmono
      past := fun x hx => absurd hx List.not_mem_nil }
  | @other l s s' hc hm k hclock ih =>
    have h := ih hfit
    have hqueue : s'.queue = s.queue := by unfold Sender.queue; rw [hm]
    exact {
      inOrder := hqueue ▸ h.inOrder
      notEarly := h.notEarly
      room := hm ▸ h.room
      mono := by
        rw [hclock]
        exact fun a b hab => h.mono (Nat.add_le_add_left hab k)
      past := by
        intro x hx
        rw [hclock]
        exact (h.past x hx).trans (h.mono (Nat.zero_le _)) }
  | added hc hr ih => exact (ih fun x hx => hfit x (accepted_mono hx)).added hfit hr
  | checked hc hr ih => exact (ih hfit).checked

/-- Of what was accepted, everything due at a reading has been handed over, as often as it
    was accepted, once nothing that waits is due at it. -/
theorem InOrder.served_due {added served waiting : List Delayed} (h : InOrder Delayed.due added served waiting) {c : Nat}
    (hlater : ∀ x ∈ waiting, c < x.due) (hdue : Delayed → Bool) (hd : ∀ x, hdue x = true ↔ x.due ≤ c) :
    (served.filter hdue).Perm (added.filter hdue) := by
  have hnone : waiting.filter hdue = [] := List.filter_eq_nil_iff.mpr fun x hx => by
    rw [hd]
    exact Nat.not_le.mpr (hlater x hx)
  have hperm := h.perm.filter hdue
  rwa [List.filter_append, hnone, List.append_nil] at hperm

end Loop

/-- Over any run of `add` and `check`, as long as no due time wraps: what was accepted is
    handed over once, in order, not early, and by every check that read its time. -/
theorem delay_queue (simd : Simd) (ctx : CookCtx) (s0 s : Sender) (l : Ledger) (hc : Calls simd ctx s0 l s)
    (hmono : Monotone s0.clock) (hfit : ∀ x ∈ l.accepted, x.due < 2 ^ 64) :
    Delivered l s ∧ Delivered (l.noteCheck (checkDelays simd ctx s)) (checkDelays simd ctx s).sender ∧
      ((checkDelays simd ctx s).fault = none → ∀ c ∈ (checkDelays simd ctx s).looked,
        (((l.noteCheck (checkDelays simd ctx s)).handed.map Prod.snd).filter (fun x => decide (x.due ≤ c))).Perm
          (l.accepted.filter fun x => decide (x.due ≤ c))) ∧
      (s.delayManager.full → ∀ delay dest p, add simd ctx delay dest p s = .ok ⟨-1, p.data, s⟩) := by
  have h := hc.running hmono hfit
  have h' := @Running.checked simd ctx l s h
  refine ⟨h.toDelivered, h'.toDelivered, fun hf c hcl => ?_, fun hfull delay dest p => add_full hfull delay p⟩
  have hsorted := (List.pairwise_append.mp h.inOrder.sorted).2.1
  exact InOrder.served_due h'.inOrder (checkDelays_clears h.mono hsorted hf c hcl) _ fun x => decide_eq_true_iff

/-- A queue with room for so many, and a clock. -/
def idle (capacity : Int) (clock : Clock) : Sender := ⟨.init, ⟨capacity, []⟩, fun _ => 0, clock, []⟩

/-- A packet with 5 microseconds to wait, sent by the check that reads 5 or more. -/
theorem delay_queue_one : ∃ l s, Calls .sse2 ctxPlain (idle 1 fun i => 5 * i) l s ∧
    l.accepted = [⟨5, ⟨.fd 3, false⟩, [.ofNat 7]⟩] ∧
    Delivered (l.noteCheck (checkDelays .sse2 ctxPlain s)) (checkDelays .sse2 ctxPlain s).sender ∧
    (checkDelays .sse2 ctxPlain s).sent = [(5, ⟨5, ⟨.fd 3, false⟩, [.ofNat 7]⟩)] := by
  have hadd : add .sse2 ctxPlain 5 ⟨.fd 3, false⟩ oneByte (idle 1 fun i => 5 * i) =
      .ok ⟨0, oneByte.data, (idle 1 fun i => 5 * i).ticked.withQueue [(5, ⟨⟨.fd 3, false⟩, oneByte.copied⟩)]⟩ := rfl
  have hstart : Calls .sse2 ctxPlain (idle 1 fun i => 5 * i) ⟨[], []⟩ (idle 1 fun i => 5 * i) := .start rfl
  have hc := hstart.added hadd
  have hfit : ∀ x ∈ ((⟨[], []⟩ : Ledger).noteAdd 5 ⟨.fd 3, false⟩ oneByte (idle 1 fun i => 5 * i)).accepted, x.due < 2 ^ 64 := by
    intro x hx
    rw [List.mem_singleton.mp hx]
    decide
  exact ⟨_, _, hc, rfl, (delay_queue _ _ _ _ _ hc (fun a b hab => Nat.mul_le_mul_left 5 hab) hfit).2.1, rfl⟩

/-- At clock 1, a delay of 2^64 - 1 is due at 0. -/
theorem delay_wraps : ¬ ∀ (simd : Simd) (ctx : CookCtx) (s0 s : Sender) (l : Ledger), Calls simd ctx s0 l s →
    Monotone s0.clock → Delivered l s := by
  intro hall
  have hadd : add .sse2 ctxPlain (2 ^ 64 - 1) ⟨.fd 3, false⟩ oneByte (idle 0 fun _ => 1) =
      .ok ⟨0, oneByte.data, (idle 0 fun _ => 1).ticked.withQueue [(0, ⟨⟨.fd 3, false⟩, oneByte.copied⟩)]⟩ := rfl
  have hstart : Calls .sse2 ctxPlain (idle 0 fun _ => 1) ⟨[], []⟩ (idle 0 fun _ => 1) := .start rfl
  have hc := hstart.added hadd
  have hcheck := hc.checked rfl
  have hperm := (hall _ _ _ _ _ hcheck (fun _ _ _ => le_refl 1)).inOrder.perm
  have hdue := List.mem_singleton.mp (hperm.subset List.mem_cons_self)
  exact absurd (congrArg Delayed.due hdue) (by decide)

end UdpSpeeder.Net
