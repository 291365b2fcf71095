/-
  UdpSpeeder.Net.Flow — one flow among all that a process sends.

  All connections of a process share its wire, its delay queue, its random numbers and its table
  of sockets. A flow is what goes to one route: a descriptor, and the address it is sent to.
  `Flows` says that every datagram there was made of one of the flow's packets by `do_cook`, and
  that what waits will not make it false. Every send keeps it, of the flow or past it, at once or
  delayed, one by one or in a batch (`delaySendBatch_flows`), and so does a check of the queue
  (`checkDelays_flows`).
-/

import UdpSpeeder.Cook.Peers
import UdpSpeeder.Net.Delay

namespace UdpSpeeder.Net

open Lib Cook

abbrev Route := Fd × Option Address

/-- Nothing for it is sent on the route, whatever sockets there are. -/
def Dest.Elsewhere (route : Route) (dest : Dest) : Prop := ∀ m, dest.resolve m ≠ some route

section Flow

variable {simd : Simd} {ctx : CookCtx} (h : ctx.Ready simd)

/-- What a packet of the flow, or one that goes past it, is given to the send functions as. -/
structure Bound (route : Route) (ps : List Bytes) (dest : Dest) (p : Packet) : Prop where
  named : dest.inner ≠ .none
  socket : dest.isWrite = false
  room : p.Sendable dest.cook
  goes : dest.Elsewhere route ∨ dest.cook = true ∧ p.bytes ∈ ps

structure Flows (route : Route) (ps : List Bytes) (t : Sender) : Prop where
  wire : ∀ g ∈ t.wire, (g.fd, g.dst) = route → ∃ p ∈ ps, Cooked h p g.bytes
  queue : ∀ x ∈ t.delayManager.delayMp, Bound route ps x.2.dest x.2.packet

variable {h} {route : Route} {ps : List Bytes} {dest : Dest} {t : Sender}

theorem Bound.mono {p : Packet} (hb : Bound route ps dest p) {qs : List Bytes} (hsub : ∀ x ∈ ps, x ∈ qs) : Bound route qs dest p :=
  ⟨hb.named, hb.socket, hb.room, hb.goes.imp id fun hp => ⟨hp.1, hsub _ hp.2⟩⟩

theorem Flows.mono (hf : Flows h route ps t) {qs : List Bytes} (hsub : ∀ x ∈ ps, x ∈ qs) : Flows h route qs t := by
  refine ⟨?_, fun x hx => (hf.queue x hx).mono hsub⟩
  intro g hg hr
  obtain ⟨p, hp, hc⟩ := hf.wire g hg hr
  exact ⟨p, hsub p hp, hc⟩

theorem Flows.nothing (hwire : t.wire = []) (hqueue : t.delayManager.delayMp = []) : Flows h route ps t :=
  ⟨fun _ hg => absurd (hwire ▸ hg) List.not_mem_nil, fun _ hx => absurd (hqueue ▸ hx) List.not_mem_nil⟩

/-- Only the wire and the queue matter. -/
theorem Flows.congr (hf : Flows h route ps t) {t' : Sender} (hwire : t'.wire = t.wire) (hqueue : t'.delayManager.delayMp = t.delayManager.delayMp) :
    Flows h route ps t' :=
  ⟨by rw [hwire]; exact hf.wire, by rw [hqueue]; exact hf.queue⟩

/-! ## At once -/

/-- A packet after cooking: sent elsewhere, or the flow's. -/
def Fits (h : ctx.Ready simd) (route : Route) (ps : List Bytes) (dest : Dest) (q : Packet) : Prop :=
  q.Lies ∧ (dest.Elsewhere route ∨ ∃ p ∈ ps, Cooked h p q.bytes)

theorem cookFor_cooked {p : Packet} (hp : p.Sendable true) (d : Draws) :
    ∃ q d', cookFor simd ctx true p d = .ok (q, d') ∧ q.Lies ∧ Cooked h p.bytes q.bytes := by
  have hholds : p.data.Holds p.bytes := slice_holds (rfl : slice p.data.mem 0 p.len = p.bytes)
  obtain ⟨data', d', hdo, hdata, hlen⟩ := doCook_ok h hholds (by rw [p.bytes_length]; exact hp.short rfl)
    (by rw [p.bytes_length]; exact hp.room rfl) d (Site.encrypts_simd _ _ _)
  rw [p.bytes_length] at hdo
  exact ⟨⟨data', _⟩, d', by unfold cookFor; rw [if_pos rfl, hdo]; rfl, hlen, ((), ⟨drawnIv ctx d, drawnIv_range h.ivLe d⟩, ()), hdata.symm⟩

theorem cookFor_fits {p : Packet} (hb : Bound route ps dest p) (d : Draws) :
    ∃ q d', cookFor simd ctx dest.cook p d = .ok (q, d') ∧ Fits h route ps dest q := by
  rcases hb.goes with hpast | ⟨hcook, hp⟩
  · obtain ⟨q, d', hq, hlies⟩ := cookFor_ok h hb.room d
    exact ⟨q, d', hq, hlies, .inl hpast⟩
  · have hroom := hb.room
    rw [hcook] at hroom ⊢
    obtain ⟨q, d', hq, hlies, hcooked⟩ := cookFor_cooked (h := h) hroom d
    exact ⟨q, d', hq, hlies, .inr ⟨p.bytes, hp, hcooked⟩⟩

theorem Flows.datagrams (hf : Flows h route ps t) {qs : List Packet} (hqs : ∀ q ∈ qs, Fits h route ps dest q) (d : Draws) (m : FdManager) :
    Flows h route ps { t with draws := d, wire := t.wire ++ dest.datagrams m qs } := by
  refine ⟨?_, hf.queue⟩
  intro g hg hr
  rcases List.mem_append.mp hg with hg | hg
  · exact hf.wire g hg hr
  · unfold Dest.datagrams at hg
    cases hres : dest.resolve m with
    | none => rw [hres] at hg; cases hg
    | some r =>
      rw [hres] at hg
      obtain ⟨q, hq, rfl⟩ := List.mem_map.mp hg
      rcases (hqs q hq).2 with hpast | hp
      · exact absurd (hres.trans (congrArg some hr)) (hpast m)
      · exact hp

theorem mySend_flows (hf : Flows h route ps t) {p : Packet} (hb : Bound route ps dest p) :
    ∃ r, mySend simd ctx dest p t = .ok r ∧ Flows h route ps r.sender := by
  obtain ⟨q, d, hcook, hq⟩ := @cookFor_fits _ _ h _ _ _ _ hb t.draws
  obtain ⟨r, hr, hsender⟩ := mySend_ok hb.named hcook hq.1
  refine ⟨r, hr, ?_⟩
  rw [hsender]
  exact hf.datagrams (fun q' hq' => List.mem_singleton.mp hq' ▸ hq) d t.fdManager

theorem mySendBatch_flows (hf : Flows h route ps t) {qs : List Packet} (hqs : ∀ q ∈ qs, Bound route ps dest q)
    (hlen : qs.length ≤ maxFecPacketNum) : ∃ r, mySendBatch simd ctx dest qs t = .ok r ∧ Flows h route ps r.sender := by
  rcases Nat.lt_or_ge 1 qs.length with hmany | hfew
  · obtain ⟨xs, d, hcook, hall, -⟩ := @passAll_ok _ _ _ _ (cookFor simd ctx dest.cook) (fun _ => True) (fun _ q => Fits h route ps dest q) qs
      (fun q hq d _ => by
        obtain ⟨x, d', hx, hfits⟩ := @cookFor_fits _ _ h _ _ _ _ (hqs q hq) d
        exact ⟨x, d', hx, hfits, trivial⟩) t.draws trivial
    have hfits := forall_right hall
    have hcount : xs.length ≤ 255 := hall.length_eq ▸ hlen
    have hsocket : dest.isWrite = false := by
      obtain ⟨q, hq⟩ := List.exists_mem_of_length_pos (by omega : 0 < qs.length)
      exact (hqs q hq).socket
    have hnamed : dest.inner ≠ .none := by
      obtain ⟨q, hq⟩ := List.exists_mem_of_length_pos (by omega : 0 < qs.length)
      exact (hqs q hq).named
    have hdata := hf.datagrams hfits d t.fdManager
    rw [mySendBatch_many hnamed hmany, hcook, ok_bind]
    simp only [hsocket, Bool.false_eq_true, if_false]
    unfold Dest.datagrams at hdata
    cases hres : dest.resolve t.fdManager with
    | none => exact ⟨_, rfl, hf.congr rfl rfl⟩
    | some r =>
      rw [hres] at hdata
      obtain ⟨out, hout, hsender⟩ := sendmmsg_ok (fun x hx => (hfits x hx).1) hcount { t with draws := d } r.1 r.2
      refine ⟨out, hout, ?_⟩
      rw [hsender]
      exact hdata
  · match qs, hfew with
    | [], _ => exact ⟨_, rfl, hf⟩
    | [q], _ =>
      obtain ⟨r, hr, hsent⟩ := mySend_flows hf (hqs q List.mem_cons_self)
      simp only [mySendBatch, hr, ok_bind]
      exact ⟨_, rfl, hsent⟩

/-! ## Later -/

theorem copied_bound {p : Packet} (hb : Bound route ps dest p) : Bound route ps dest p.copied := by
  refine ⟨hb.named, hb.socket, ⟨show p.len ≤ p.len + 100 by omega, hb.room.short, fun _ => show p.len + 37 ≤ p.len + 100 by omega⟩, ?_⟩
  rw [copied_bytes]
  exact hb.goes

theorem add_flows (hf : Flows h route ps t) {p : Packet} (hb : Bound route ps dest p) (delay : Nat) :
    ∃ r, add simd ctx delay dest p t = .ok r ∧ Flows h route ps r.sender := by
  by_cases hfull : t.delayManager.full
  · exact ⟨_, add_full hfull delay p, hf⟩
  by_cases hnow : delay = 0
  · obtain ⟨r, hr, hsent⟩ := mySend_flows hf hb
    unfold add
    rw [if_neg hfull, if_pos hnow, hr]
    exact ⟨_, rfl, hsent⟩
  · unfold add
    rw [if_neg hfull, if_neg hnow, within_zero hb.room.lies, ok_bind]
    refine ⟨_, rfl, hf.wire, ?_⟩
    intro x hx
    rcases (List.mem_orderedInsert _).mp hx with rfl | hx
    · exact copied_bound hb
    · exact hf.queue x hx

theorem delaySend_flows (hf : Flows h route ps t) {p : Packet} (hb : Bound route ps dest p) (randomDrop delay : Nat) :
    ∃ r, delaySend simd ctx randomDrop delay dest p t = .ok r ∧ Flows h route ps r.sender := by
  unfold delaySend
  simp only
  split
  · exact ⟨_, rfl, hf.congr rfl rfl⟩
  · exact @add_flows simd ctx h route ps dest { t with draws := (dropped randomDrop dest t.draws).2 } (hf.congr rfl rfl) p hb delay

theorem delaySendBatch_flows (hf : Flows h route ps t) {qs : List (Nat × Packet)} (hqs : ∀ x ∈ qs, Bound route ps dest x.2)
    (hlen : qs.length ≤ maxFecPacketNum) (randomDrop : Nat) :
    ∃ r, delaySendBatch simd ctx randomDrop dest qs t = .ok r ∧ Flows h route ps r.sender := by
  unfold delaySendBatch
  split
  · refine mySendBatch_flows hf (fun q hq => ?_) (by rw [List.length_map]; exact hlen)
    obtain ⟨x, hx, rfl⟩ := List.mem_map.mp hq
    exact hqs x hx
  · obtain ⟨rs, t', hrun, -, hsent⟩ := @passAll_ok _ _ _ _ (fun (x : Nat × Packet) s => x.2.sent <$> delaySend simd ctx randomDrop x.1 dest x.2 s)
      (Flows h route ps) (fun _ _ => True) qs (fun x hx t ht => by
        obtain ⟨r, hr, hsent⟩ := delaySend_flows ht (hqs x hx) randomDrop x.1
        exact ⟨_, _, by rw [hr]; rfl, trivial, hsent⟩) t hf
    unfold delaySends
    rw [hrun]
    exact ⟨_, rfl, hsent⟩

/-- Without delays and `random_drop`, and where the queue is not full, all of it goes out at once. -/
theorem delaySendBatch_sends (h : ctx.Ready simd) (hcook : dest.cook = true) (hnamed : dest.inner ≠ .none) (hsocket : dest.isWrite = false)
    (hroute : dest.resolve t.fdManager = some route) (hroom : ¬ t.delayManager.full) {qs : List Packet} (hqs : ∀ q ∈ qs, q.Sendable true)
    (hlen : qs.length ≤ maxFecPacketNum) : ∃ r xs, delaySendBatch simd ctx 0 dest (qs.map fun p => (0, p)) t = .ok r ∧
      List.Forall₂ (fun (p : Packet) x => Cooked h p.bytes x) qs xs ∧ r.sender.wire = t.wire ++ xs.map fun x => ⟨route.1, route.2, x⟩ := by
  obtain ⟨ys, d, hall, hys, -⟩ := @passAll_ok _ _ _ _ (cookFor simd ctx true) (fun _ => True) (fun p y => y.Lies ∧ Cooked h p.bytes y.bytes) qs
    (fun q hq d _ => by
      obtain ⟨y, d', hy, hlies, hcooked⟩ := cookFor_cooked (h := h) (hqs q hq) d
      exact ⟨y, d', hy, ⟨hlies, hcooked⟩, trivial⟩) t.draws trivial
  rw [← hcook] at hall
  have hlies : ∀ y ∈ ys, y.Lies := forall_right (hys.imp fun _ _ hy => hy.1)
  have hdata : dest.datagrams t.fdManager ys = (ys.map Packet.bytes).map fun x => ⟨route.1, route.2, x⟩ := by
    unfold Dest.datagrams
    rw [hroute, List.map_map]
    rfl
  have hcooked : List.Forall₂ (fun (p : Packet) x => Cooked h p.bytes x) qs (ys.map Packet.bytes) :=
    List.forall₂_map_right_iff.mpr (hys.imp fun _ _ hy => hy.2)
  rcases Nat.lt_or_ge 1 qs.length with hmany | hfew
  · obtain ⟨r, hr, hsender⟩ := sendmmsg_ok hlies (hys.length_eq ▸ hlen) { t with draws := d } route.1 route.2
    refine ⟨r, _, ?_, hcooked, ?_⟩
    · rw [delaySendBatch_many hmany, mySendBatch_many hnamed hmany, hall, ok_bind]
      simp only [hsocket, Bool.false_eq_true, if_false, hroute]
      exact hr
    · rw [hsender, List.map_map]
      rfl
  · obtain ⟨b, hb, -, hwire⟩ := delaySends_ok hnamed hall hlies
    rw [if_neg hroom, hdata] at hwire
    refine ⟨⟨0, b.1, b.2⟩, _, ?_, hcooked, hwire⟩
    unfold delaySendBatch
    rw [if_neg (by simp; omega), hb]
    rfl

theorem Flows.withQueue (hf : Flows h route ps t) {mp : List (Nat × DelayData)} (hmp : ∀ x ∈ mp, Bound route ps x.2.dest x.2.packet) :
    Flows h route ps (t.withQueue mp) := ⟨hf.wire, hmp⟩

theorem checkLoop_flows (mp : List (Nat × DelayData)) (hmp : ∀ x ∈ mp, Bound route ps x.2.dest x.2.packet) (hf : Flows h route ps t) :
    (checkLoop simd ctx mp t).fault = none ∧ Flows h route ps (checkLoop simd ctx mp t).sender := by
  induction mp generalizing t with
  | nil => exact ⟨rfl, hf.withQueue fun _ hx => absurd hx List.not_mem_nil⟩
  | cons x rest ih =>
    obtain ⟨due, d⟩ := x
    have hrest : ∀ x ∈ rest, Bound route ps x.2.dest x.2.packet := fun x hx => hmp x (List.mem_cons_of_mem _ hx)
    obtain ⟨r, hr, hsent⟩ := @mySend_flows simd ctx h route ps d.dest t.ticked (hf.congr rfl rfl) d.packet (hmp _ List.mem_cons_self)
    by_cases hdue : due ≤ t.clock 0
    · simp only [checkLoop, hdue, if_true, hr]
      exact ih hrest (hsent.withQueue hrest)
    · simp only [checkLoop, hdue, if_false]
      exact ⟨trivial, (hf.congr rfl rfl : Flows h route ps t.ticked.ticked).withQueue hmp⟩

theorem checkDelays_flows (hf : Flows h route ps t) :
    (checkDelays simd ctx t).fault = none ∧ Flows h route ps (checkDelays simd ctx t).sender := by
  unfold checkDelays
  split
  · exact ⟨rfl, hf⟩
  · exact checkLoop_flows _ hf.queue hf

end Flow

end UdpSpeeder.Net
