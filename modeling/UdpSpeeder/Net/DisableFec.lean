/-
  UdpSpeeder.Net.DisableFec — one direction of the tunnel under `disable_fec`: every packet is a
  datagram of its own, and what `de_cook` reads is handed on as it is.

  The rest of the way is that of `Net.Pipe`. What comes out was taken (`bare_brings`), and no call
  stops (`bare_never_stops`); but nothing is left that knows a datagram from its copy, so a packet
  comes out as often as the network brings it (`bare_repeats`).
-/

import UdpSpeeder.Net.Pipe

namespace UdpSpeeder.Net

open Lib Cook Manager FecDecodeManager

section Bare

variable (simd : Simd) (ctx : CookCtx)

/-- `from_normal_to_fec` with `disable_fec`, and `delay_send_batch`. The timer, with `data == 0`,
    sends nothing. -/
def sendBare (randomDrop : Nat) (dest : Dest) (data : Option Packet) (t : Sender) : Except Fault SentBatch :=
  delaySendBatch simd ctx randomDrop dest (data.toList.map fun p => (0, p)) t

/-- `client_process_remote_packet` and `server_process_tunnel_packet` with `disable_fec`, up to the
    packet that `from_fec_to_normal` hands out. -/
def receiveBare (data : Buffer) (len : Nat) : Except Fault (Option Bytes) :=
  if len = maxDataLen + 1 then .ok none
  else do
    let r ← deCook simd ctx data len
    if r.ret ≠ 0 then .ok none
    else .ok (some (slice r.data.mem 0 r.len.toNat))

end Bare

section Receive

variable {k : Peers} {x : Bytes} {data : Buffer} {len : Nat}

theorem receiveBare_refused (ht : Taken x data len) (h : ∀ q, ¬ k.Reads x q) : receiveBare k.far k.farCtx data len = .ok none := by
  have hcount := ht.count
  unfold receiveBare
  split
  · rfl
  · obtain ⟨r, hr, hret⟩ := ht.deCook_refuses (by omega) h
    rw [hr, ok_bind, if_pos hret]

theorem receiveBare_read (ht : Taken x data len) {p : Bytes} (h : k.Reads x p) :
    receiveBare k.far k.farCtx data len = .ok (if maxDataLen < x.length then none else some p) := by
  have hcount := ht.count
  unfold receiveBare
  by_cases hlong : maxDataLen < x.length
  · rw [if_pos hlong, if_pos (by omega)]
  · obtain ⟨r, hr, hret, hslice⟩ := ht.deCook_reads (by omega) h
    rw [if_neg hlong, if_neg (by omega), hr, ok_bind, if_neg (by rw [hret]; simp), hslice]

end Receive

namespace Bare

variable (u : Line)

/-- Runs of both ends: what was taken, and what was handed out. -/
inductive Run : List Bytes → List Bytes → Sender → Prop
  | start {t : Sender} (hwire : t.wire = []) (hqueue : t.delayManager.delayMp = []) : Run [] [] t
  | send {ps got : List Bytes} {t : Sender} (h : Run ps got t) {data : Option Packet} (hroom : ∀ p, data = some p → p.Sendable true)
      {randomDrop : Nat} {r : SentBatch} (hr : sendBare u.peers.near u.peers.nearCtx randomDrop u.dest data t = .ok r) :
      Run (ps ++ data.toList.map Packet.bytes) got r.sender
  | check {ps got : List Bytes} {t : Sender} (h : Run ps got t) : Run ps got (checkDelays u.peers.near u.peers.nearCtx t).sender
  | past {ps got : List Bytes} {t : Sender} (h : Run ps got t) {dest : Dest} {qs : List (Nat × Packet)}
      (hqs : ∀ x ∈ qs, Bound u.route [] dest x.2) (hlen : qs.length ≤ maxFecPacketNum) {randomDrop : Nat} {r : SentBatch}
      (hr : delaySendBatch u.peers.near u.peers.nearCtx randomDrop dest qs t = .ok r) : Run ps got r.sender
  | other {ps got : List Bytes} {t t' : Sender} (h : Run ps got t) (hwire : t'.wire = t.wire) (hqueue : t'.delayManager = t.delayManager) :
      Run ps got t'
  | recv {ps got : List Bytes} {t : Sender} (h : Run ps got t) {g : Datagram} (hg : g ∈ t.wire) (hroute : (g.fd, g.dst) = u.route)
      {x : Bytes} (hx : Pipe.Comes u g.bytes x) {data : Buffer} {len : Nat} (ht : Taken x data len) {out : Option Bytes}
      (hr : receiveBare u.peers.far u.peers.farCtx data len = .ok out) : Run ps (got ++ out.toList) t

variable {u} {ps got : List Bytes} {t : Sender}

theorem sendBare_flows (hf : Flows u.peers.ready u.route ps t) {data : Option Packet} (hroom : ∀ p, data = some p → p.Sendable true)
    (randomDrop : Nat) : ∃ r, sendBare u.peers.near u.peers.nearCtx randomDrop u.dest data t = .ok r ∧
      Flows u.peers.ready u.route (ps ++ data.toList.map Packet.bytes) r.sender := by
  apply delaySendBatch_flows
  · exact hf.mono fun x hx => List.mem_append_left _ hx
  · intro x hx
    obtain ⟨p, hp, rfl⟩ := List.mem_map.mp hx
    refine ⟨u.named, u.socket, ?_, .inr ⟨u.cook, List.mem_append_right _ (List.mem_map_of_mem hp)⟩⟩
    rw [u.cook]
    exact hroom p (Option.mem_toList.mp hp)
  · cases data with
    | none => exact Nat.zero_le _
    | some p => exact (by decide : 1 ≤ maxFecPacketNum)

/-- A datagram of the route that comes is dropped, or is a packet that was taken. -/
theorem receiveBare_flows (hf : Flows u.peers.ready u.route ps t) {g : Datagram} (hg : g ∈ t.wire) (hroute : (g.fd, g.dst) = u.route)
    {x : Bytes} (hx : Pipe.Comes u g.bytes x) {data : Buffer} {len : Nat} (ht : Taken x data len) :
    ∃ out, receiveBare u.peers.far u.peers.farCtx data len = .ok out ∧ ∀ p, out = some p → p ∈ ps := by
  obtain ⟨p, hp, hcooked⟩ := hf.wire g hg hroute
  rcases hx with rfl | hdamaged
  · refine ⟨_, receiveBare_read ht (u.peers.reads_cooked hcooked), ?_⟩
    intro q hq
    split at hq
    · cases hq
    · cases hq
      exact hp
  · exact ⟨none, receiveBare_refused ht (u.peers.reads_damaged hcooked hdamaged), fun q hq => by cases hq⟩

theorem Run.flows (h : Run u ps got t) : Flows u.peers.ready u.route ps t ∧ ∀ p ∈ got, p ∈ ps := by
  induction h with
  | start hwire hqueue => exact ⟨.nothing hwire hqueue, fun p hp => absurd hp List.not_mem_nil⟩
  | send h hroom hr ih =>
    obtain ⟨r, hr', hflows⟩ := sendBare_flows ih.1 hroom _
    rw [hr] at hr'
    cases hr'
    exact ⟨hflows, fun p hp => List.mem_append_left _ (ih.2 p hp)⟩
  | check h ih => exact ⟨(checkDelays_flows ih.1).2, ih.2⟩
  | past h hqs hlen hr ih =>
    obtain ⟨r, hr', hflows⟩ := delaySendBatch_flows ih.1 (fun x hx => (hqs x hx).mono fun _ hy => absurd hy List.not_mem_nil) hlen _
    rw [hr] at hr'
    cases hr'
    exact ⟨hflows, ih.2⟩
  | other h hwire hqueue ih => exact ⟨ih.1.congr hwire (by rw [hqueue]), ih.2⟩
  | recv h hg hroute hx ht hr ih =>
    obtain ⟨out, hr', hout⟩ := receiveBare_flows ih.1 hg hroute hx ht
    rw [hr] at hr'
    cases hr'
    refine ⟨ih.1, ?_⟩
    intro p hp
    rcases List.mem_append.mp hp with hp | hp
    · exact ih.2 p hp
    · exact hout p (Option.mem_toList.mp hp)

/-- A copy of a datagram brings its packet again. -/
theorem bare_repeats : ∃ (u : Line) (t : Sender), u.peers.options = ctxAbc ∧ t.wire.length = 1 ∧ Run u [lone] [lone, lone] t := by
  obtain ⟨u, c, l, hloaded⟩ := Pipe.exists_loaded
  have hroom : oneByte.Sendable true := oneByte_sendable true
  have hroute : u.dest.resolve (idle 0 fun _ => 0).fdManager = some u.route := by
    rw [hloaded.dest, hloaded.route]
    rfl
  obtain ⟨r, xs, hr, hxs, hwire⟩ := delaySendBatch_sends u.peers.ready u.cook u.named u.socket hroute (by decide)
    (show ∀ q ∈ [oneByte], q.Sendable true from fun q hq => by rw [List.mem_singleton.mp hq]; exact hroom) (by decide)
  obtain ⟨x, ys, hx, hys, rfl⟩ := List.forall₂_cons_left_iff.mp hxs
  cases hys
  have hrun : Run u [lone] [] r.sender :=
    .send (.start rfl rfl) (show ∀ p, some oneByte = some p → p.Sendable true from fun p hp => by cases hp; exact hroom) hr
  have hg : ⟨u.route.1, u.route.2, x⟩ ∈ r.sender.wire := by
    rw [hwire]
    simp
  obtain ⟨data, len, ht⟩ := exists_taken x
  have hread := receiveBare_read ht (u.peers.reads_cooked hx)
  have hlen := hx.length_lt
  rw [oneByte.bytes_length, show oneByte.len = 1 from rfl] at hlen
  rw [if_neg (by unfold maxDataLen; omega)] at hread
  exact ⟨u, r.sender, hloaded.key, by rw [hwire]; rfl, (hrun.recv hg rfl (.inl rfl) ht hread).recv hg rfl (.inl rfl) ht hread⟩

/-- What comes out was taken. A datagram that comes through brings the packet it was made of, if it
    is not too long, and one that was damaged brings nothing. -/
theorem bare_brings (h : Run u ps got t) : (∀ p ∈ got, p ∈ ps) ∧ ∀ g ∈ t.wire, (g.fd, g.dst) = u.route → ∃ p ∈ ps,
    Cooked u.peers.ready p g.bytes ∧ (∀ (data : Buffer) (len : Nat), Taken g.bytes data len →
      receiveBare u.peers.far u.peers.farCtx data len = .ok (if maxDataLen < g.bytes.length then none else some p)) ∧
    ∀ (x : Bytes) (data : Buffer) (len : Nat), u.peers.Damaged g.bytes x → Taken x data len →
      receiveBare u.peers.far u.peers.farCtx data len = .ok none := by
  obtain ⟨hflows, hgot⟩ := h.flows
  refine ⟨hgot, ?_⟩
  intro g hg hroute
  obtain ⟨p, hp, hcooked⟩ := hflows.wire g hg hroute
  refine ⟨p, hp, hcooked, ?_, ?_⟩
  · intro data len ht
    exact receiveBare_read ht (u.peers.reads_cooked hcooked)
  · intro x data len hx ht
    exact receiveBare_refused ht (u.peers.reads_damaged hcooked hx)

theorem bare_brings_twice : ∃ (u : Line) (t : Sender), u.peers.options = ctxAbc ∧ Run u [lone] [lone, lone] t ∧
    ∀ p ∈ [lone, lone], p ∈ [lone] := by
  obtain ⟨u, t, hkey, -, hrun⟩ := bare_repeats
  exact ⟨u, t, hkey, hrun, (bare_brings hrun).1⟩

/-- Nothing stops the process at either end. -/
theorem bare_never_stops (h : Run u ps got t) :
    (∀ (randomDrop : Nat) (data : Option Packet), (∀ p, data = some p → p.Sendable true) →
      ∃ r, sendBare u.peers.near u.peers.nearCtx randomDrop u.dest data t = .ok r) ∧
    (checkDelays u.peers.near u.peers.nearCtx t).fault = none ∧
    ∀ g ∈ t.wire, (g.fd, g.dst) = u.route → ∀ (x : Bytes) (data : Buffer) (len : Nat), Pipe.Comes u g.bytes x → Taken x data len →
      ∃ out, receiveBare u.peers.far u.peers.farCtx data len = .ok out := by
  obtain ⟨hflows, -⟩ := h.flows
  refine ⟨?_, (checkDelays_flows hflows).1, ?_⟩
  · intro randomDrop data hroom
    obtain ⟨r, hr, -⟩ := sendBare_flows hflows hroom randomDrop
    exact ⟨r, hr⟩
  · intro g hg hroute x data len hx ht
    obtain ⟨out, hout, -⟩ := receiveBare_flows hflows hg hroute hx ht
    exact ⟨out, hout⟩

theorem bare_never_stops_twice : ∃ (u : Line) (t : Sender), u.peers.options = ctxAbc ∧ Run u [lone] [lone, lone] t ∧
    (checkDelays u.peers.near u.peers.nearCtx t).fault = none := by
  obtain ⟨u, t, hkey, -, hrun⟩ := bare_repeats
  exact ⟨u, t, hkey, hrun, (bare_never_stops hrun).2.1⟩

end Bare

end UdpSpeeder.Net
