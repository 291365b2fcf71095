/-
  UdpSpeeder.Net.Send — from a packet to the wire (`packet.cpp`, `delay_manager.cpp`,
  `misc.cpp`).

  `do_cook` edits the packet where it lies, so every function here returns its buffer too.
  Sockets accept every datagram; what they were given, in order, is the wire.
-/

import UdpSpeeder.Net.FdManager
import UdpSpeeder.Cook.Codec
import UdpSpeeder.Lib.Pass
import Mathlib.Data.List.Sort

namespace UdpSpeeder.Net

open Lib Cook

/-! ## Destinations -/

/-- `dest_type` and the member of the union that it stands for. -/
inductive Target where
  | none
  | fd64Addr (fd64 : Fd64) (addr : Address)
  | fd64 (fd64 : Fd64)
  | fd (fd : Fd)
  | writeFd (fd : Fd)
  | fdAddr (fd : Fd) (addr : Address)
  deriving DecidableEq, Repr

/-- `dest_t`. -/
structure Dest where
  inner : Target
  cook : Bool := false
  deriving DecidableEq, Repr

/-- Some bytes, and how many of them are the packet. -/
structure Packet where
  data : Buffer
  len : Nat

/-- What a socket is given: `sendto` an address, or `send` or `write` where it is connected to. -/
structure Datagram where
  fd : Fd
  dst : Option Address
  bytes : Bytes
  deriving DecidableEq

/-- The readings of the clock from now on, in microseconds. -/
abbrev Clock := Nat → Nat

def Clock.tail (c : Clock) : Clock := fun i => c (i + 1)

/-- `get_current_time`: milliseconds. -/
def Clock.now (c : Clock) : Nat := c 0 / 1000

/-- `get_current_time_us` never goes back. -/
theorem Clock.now_le {c : Clock} (h : Monotone c) : c.now ≤ c.tail.now := Nat.div_le_div_right (h (Nat.zero_le 1))

theorem Clock.tail_mono {c : Clock} (h : Monotone c) : Monotone c.tail := fun _ _ hab => h (Nat.succ_le_succ hab)

/-- `delay_data_t`. -/
structure DelayData where
  dest : Dest
  packet : Packet

/-- `delay_manager_t`: a `multimap` by the time to send at, first added first. -/
structure DelayManager where
  capacity : Int
  delayMp : List (Nat × DelayData)

/-- What sending reads and changes. -/
structure Sender where
  fdManager : FdManager
  delayManager : DelayManager
  draws : Draws
  clock : Clock
  wire : List Datagram

/-- What a call returned, the bytes it was given, and everything else. -/
structure Sent where
  ret : Int
  data : Buffer
  sender : Sender

/-! ## `my_send` -/

section Send

variable (simd : Simd) (ctx : CookCtx)

/-- A socket takes the packet. -/
def Sender.emit (s : Sender) (fd : Fd) (dst : Option Address) (p : Packet) : Except Fault Sent := do
  p.data.within 0 p.len "data"
  .ok ⟨p.len, p.data, { s with wire := s.wire ++ [⟨fd, dst, slice p.data.mem 0 p.len⟩] }⟩

/-- `if (dest.cook) do_cook(&cook_ctx, data, len)`. -/
def cookFor (cook : Bool) (p : Packet) (d : Draws) : Except Fault (Packet × Draws) :=
  if cook then do
    let (data, len, d) ← doCook simd ctx p.data p.len d
    .ok (⟨data, len⟩, d)
  else .ok (p, d)

def mySend (dest : Dest) (p : Packet) (s : Sender) : Except Fault Sent := do
  let (p, d) ← cookFor simd ctx dest.cook p s.draws
  let s := { s with draws := d }
  match dest.inner with
  | .fdAddr fd addr => s.emit fd (some addr) p
  | .fd64Addr fd64 addr =>
    if ¬ s.fdManager.exist fd64 then .ok ⟨-1, p.data, s⟩
    else do
      let fd ← s.fdManager.toFd fd64
      s.emit fd (some addr) p
  | .fd fd => s.emit fd none p
  | .writeFd fd => s.emit fd none p
  | .fd64 fd64 =>
    if ¬ s.fdManager.exist fd64 then .ok ⟨-1, p.data, s⟩
    else do
      let fd ← s.fdManager.toFd fd64
      s.emit fd none p
  | .none => .error (.assert "0 == 1")

/-- One packet of a loop; its length stays the caller's. -/
def Packet.sent (p : Packet) (r : Sent) : Packet × Sender := ({ p with data := r.data }, r.sender)

/-- `for (int i = 0; i < count; i++) my_send(dest, data_arr[i], len_arr[i])`. -/
def mySends (dest : Dest) : List Packet → Sender → Except Fault (List Packet × Sender) :=
  passAll fun p s => p.sent <$> mySend simd ctx dest p s

/-- What a call on several packets returned, and left of them. -/
structure SentBatch where
  ret : Int
  packets : List Packet
  sender : Sender

/-- `sendmmsg` on the messages that were made of the packets; there are `max_fec_packet_num`
    of each array. -/
def sendmmsg (fd : Fd) (dst : Option Address) (ps : List Packet) (s : Sender) : Except Fault SentBatch := do
  check (ps.length ≤ maxFecPacketNum) (.range "iovecs")
  let (ps, s) ← passAll (fun p s => p.sent <$> s.emit fd dst p) ps s
  .ok ⟨ps.length, ps, s⟩

def mySendBatch (dest : Dest) (ps : List Packet) (s : Sender) : Except Fault SentBatch :=
  match ps with
  | [] => .ok ⟨0, [], s⟩
  | [p] => do
    let r ← mySend simd ctx dest p s
    .ok ⟨r.ret, [{ p with data := r.data }], r.sender⟩
  | ps => do
    let (ps, d) ← passAll (cookFor simd ctx dest.cook) ps s.draws
    let s := { s with draws := d }
    match dest.inner with
    | .fdAddr fd addr => sendmmsg fd (some addr) ps s
    | .fd64Addr fd64 addr =>
      if ¬ s.fdManager.exist fd64 then .ok ⟨-1, ps, s⟩
      else do
        let fd ← s.fdManager.toFd fd64
        sendmmsg fd (some addr) ps s
    | .fd64 fd64 =>
      if ¬ s.fdManager.exist fd64 then .ok ⟨-1, ps, s⟩
      else do
        let fd ← s.fdManager.toFd fd64
        sendmmsg fd none ps s
    | .fd fd => sendmmsg fd none ps s
    | _ => do
      let (ps, s) ← mySends simd ctx dest ps s
      .ok ⟨ps.length, ps, s⟩

/-! ## `delay_manager_t` -/

/-- It takes nothing more. -/
def DelayManager.full (m : DelayManager) : Prop := m.capacity ≠ 0 ∧ m.capacity ≤ m.delayMp.length

instance (m : DelayManager) : Decidable m.full := inferInstanceAs (Decidable (_ ∧ _))

/-- `malloc` and `memcpy`; what `malloc` leaves in the bytes behind is not read. -/
def Packet.copied (p : Packet) : Packet := { p with data := ⟨copyTo (fun _ => 0) 0 p.data.mem p.len, p.len + 100⟩ }

/-- `delay_manager_t::add`. -/
def add (delay : Nat) (dest : Dest) (p : Packet) (s : Sender) : Except Fault Sent :=
  if s.delayManager.full then .ok ⟨-1, p.data, s⟩
  else if delay = 0 then do
    let r ← mySend simd ctx dest p s
    .ok { r with ret := 0 }
  else do
    p.data.within 0 p.len "data"
    let mp := s.delayManager.delayMp.orderedInsert (fun a b => a.1 < b.1) ((s.clock 0 + delay) % 2 ^ 64, ⟨dest, p.copied⟩)
    .ok ⟨0, p.data, { s with clock := s.clock.tail, delayManager := { s.delayManager with delayMp := mp } }⟩

/-! ## `delay_send` -/

variable (randomDrop : Nat)

/-- Whether `random_drop` takes the packet, and the numbers that are left. -/
def dropped (dest : Dest) (d : Draws) : Bool × Draws :=
  if dest.cook ∧ randomDrop ≠ 0 then (((d 0).setWidth 32).toNat % 10000 < randomDrop, d.tail) else (false, d)

def delaySend (delay : Nat) (dest : Dest) (p : Packet) (s : Sender) : Except Fault Sent :=
  let (drop, d) := dropped randomDrop dest s.draws
  let s := { s with draws := d }
  if drop then .ok ⟨0, p.data, s⟩ else add simd ctx delay dest p s

/-- `for (int i = 0; i < n; i++) delay_send(delays[i], dest, data_arr[i], len_arr[i])`. -/
def delaySends (dest : Dest) : List (Nat × Packet) → Sender → Except Fault (List Packet × Sender) :=
  passAll fun x s => x.2.sent <$> delaySend simd ctx randomDrop x.1 dest x.2 s

def delaySendBatch (dest : Dest) (ps : List (Nat × Packet)) (s : Sender) : Except Fault SentBatch :=
  if 1 < ps.length ∧ randomDrop = 0 ∧ ∀ x ∈ ps, x.1 = 0 then mySendBatch simd ctx dest (ps.map Prod.snd) s
  else do
    let (ps, s) ← delaySends simd ctx randomDrop dest ps s
    .ok ⟨0, ps, s⟩

end Send

end UdpSpeeder.Net
