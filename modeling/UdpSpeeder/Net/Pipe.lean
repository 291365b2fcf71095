/-
  UdpSpeeder.Net.Pipe — one direction of the tunnel, all of it: the encoder, `do_cook` in its
  rows, the delay queue and the sockets it shares with everything else the process sends, a
  network that loses, repeats, reorders and damages what is on its route, `de_cook` at the other
  end, on another processor, and the decoder.

  The groups are those of mode 0, whose rows are scratch. Of mode 1 this would not be true: there
  `do_cook` edits packets that are still to be coded.

  Every run is a run of the encoder and the decoder with nothing but the network between them
  (`Run.linked`), so it is a run of a channel of groups (`pipe_refines`) that loses nothing as
  long as enough of each group gets through (`pipe_loses_nothing`), and no call at either end
  stops (`pipe_never_stops`).
-/

import UdpSpeeder.Manager.Link
import UdpSpeeder.Manager.Mtu
import UdpSpeeder.Manager.Scratch
import UdpSpeeder.Net.Flow
import UdpSpeeder.Net.NormalToFec

namespace UdpSpeeder.Net

open Lib Cook Manager FecEncodeManager FecDecodeManager

/-! ## Receiving -/

/-- What came out of one datagram of the tunnel. -/
structure Received (N : FecBuffNum) where
  st : FecDecodeManager (FlatTables N)
  opened : Option Bytes
  packets : Option (List Bytes)

/-- `client_process_remote_packet` and `server_process_tunnel_packet`, up to the packets that
    `from_fec_to_normal` hands out. -/
def receive (simd : Simd) (ctx : CookCtx) (N : FecBuffNum) (st : FecDecodeManager (FlatTables N)) (data : Buffer) (len : Nat) :
    Except Fault (Received N) :=
  if len = maxDataLen + 1 then .ok ⟨st, none, none⟩
  else do
    let r ← deCook simd ctx data len
    if r.ret ≠ 0 then .ok ⟨st, none, none⟩
    else do
      let s := slice r.data.mem 0 r.len.toNat
      let out ← feedOne N st s
      .ok ⟨out.st, some s, out.packets⟩

/-- What a socket puts in `data` of a datagram: no more than `max_data_len + 1` bytes. -/
structure Taken (x : Bytes) (data : Buffer) (len : Nat) : Prop where
  size : data.size = bufLen
  count : len = min x.length (maxDataLen + 1)
  bytes : slice data.mem 0 len = x.take (maxDataLen + 1)

section Receive

variable {k : Peers} {N : FecBuffNum} {st : FecDecodeManager (FlatTables N)} {x : Bytes} {data : Buffer} {len : Nat}

theorem Taken.uncut (ht : Taken x data len) (hlen : x.length ≤ maxDataLen) : len = x.length ∧ slice data.mem 0 len = x ∧ len ≤ data.size := by
  have hcount := ht.count
  have hbytes := ht.bytes
  rw [List.take_of_length_le (by omega)] at hbytes
  refine ⟨by omega, hbytes, ?_⟩
  rw [ht.size]
  unfold bufLen
  omega

theorem Taken.deCook_refuses (ht : Taken x data len) (hlen : x.length ≤ maxDataLen) (h : ∀ q, ¬ k.Reads x q) :
    ∃ r, deCook k.far k.farCtx data len = .ok r ∧ r.ret ≠ 0 := by
  obtain ⟨-, hbytes, hsize⟩ := ht.uncut hlen
  obtain ⟨r, hr, hanswers⟩ := deCook_ok k.ready' hsize (Site.encrypts_simd _ _ _)
  rw [hbytes] at hanswers
  cases hy : (cookLayer k.ready').unwrap x with
  | ok q => exact absurd hy (h q)
  | error e =>
    rw [hy] at hanswers
    obtain ⟨he, hcode⟩ := hanswers
    exact ⟨r, hr, by omega⟩

theorem Taken.deCook_reads (ht : Taken x data len) (hlen : x.length ≤ maxDataLen) {p : Bytes} (h : k.Reads x p) :
    ∃ r, deCook k.far k.farCtx data len = .ok r ∧ r.ret = 0 ∧ slice r.data.mem 0 r.len.toNat = p := by
  obtain ⟨-, hbytes, hsize⟩ := ht.uncut hlen
  obtain ⟨r, hr, hanswers⟩ := deCook_ok k.ready' hsize (Site.encrypts_simd _ _ _)
  rw [hbytes, show (cookLayer k.ready').unwrap x = .ok p from h] at hanswers
  obtain ⟨hret, hcount, hholds⟩ := hanswers
  refine ⟨r, hr, hret, ?_⟩
  rw [hcount, Int.toNat_natCast]
  exact hholds

/-- What `de_cook` does not read does not get to the decoder. -/
theorem receive_refused (ht : Taken x data len) (h : ∀ q, ¬ k.Reads x q) : receive k.far k.farCtx N st data len = .ok ⟨st, none, none⟩ := by
  have hcount := ht.count
  unfold receive
  split
  · rfl
  · obtain ⟨r, hr, hret⟩ := ht.deCook_refuses (by omega) h
    rw [hr, ok_bind, if_pos hret]

/-- What it reads does, unless it was cut off. -/
theorem receive_read (ht : Taken x data len) {p : Bytes} (h : k.Reads x p) : receive k.far k.farCtx N st data len =
    if maxDataLen < x.length then .ok ⟨st, none, none⟩
    else (do
      let out ← feedOne N st p
      .ok ⟨out.st, some p, out.packets⟩) := by
  have hcount := ht.count
  unfold receive
  by_cases hlong : maxDataLen < x.length
  · rw [if_pos hlong, if_pos (by omega)]
  · obtain ⟨r, hr, hret, hslice⟩ := ht.deCook_reads (by omega) h
    rw [if_neg hlong, if_neg (by omega), hr, ok_bind, if_neg (by rw [hret]; simp)]
    simp only [hslice]

end Receive

theorem exists_taken (x : Bytes) : ∃ data len, Taken x data len := by
  refine ⟨⟨mem (x.take (maxDataLen + 1)), bufLen⟩, min x.length (maxDataLen + 1), rfl, rfl, ?_⟩
  have hmem := slice_mem (x.take (maxDataLen + 1))
  rw [List.length_take, Nat.min_comm] at hmem
  exact hmem

/-! ## Sending -/

/-- Ranges that `random_between` takes. -/
structure DelayOptions.InOrder (p : DelayOptions) : Prop where
  jitter : p.jitterMin ≤ p.jitterMax
  interval : p.outputIntervalMin ≤ p.outputIntervalMax

theorem randomBetween_run {a b : Nat} (hab : a ≤ b) (d : Draws) : ∃ r, randomBetween a b d = .ok r := by
  unfold randomBetween
  rw [check_true hab, ok_bind]
  split
  · exact ⟨_, rfl⟩
  · exact ⟨_, rfl⟩

theorem commonLatency_run (p : DelayOptions) {e : FecEncodeManager} (h : e.fecPar.mode = 0 → e.firstPacketTimeForOutput ≠ 0)
    (currentTime : Nat) : ∃ r, commonLatency p e currentTime = .ok r := by
  unfold commonLatency
  split
  · rename_i hfix
    rw [check_true (h hfix.2), ok_bind]
    exact ⟨_, rfl⟩
  · exact ⟨_, rfl⟩

theorem outDelay_run {p : DelayOptions} (hp : p.InOrder) {e : FecEncodeManager} {n : Nat}
    (h : n ≠ 0 → e.fecPar.mode = 0 → e.firstPacketTimeForOutput ≠ 0) (currentTime : Nat) (d : Draws) :
    ∃ r, outDelay p e currentTime n d = .ok r := by
  unfold outDelay
  split
  · exact ⟨_, rfl⟩
  · rename_i hn
    obtain ⟨latency, hlatency⟩ := commonLatency_run p (h hn) currentTime
    obtain ⟨r, hr⟩ := randomBetween_run hp.jitter d
    simp only [hlatency, hr, ok_bind]
    refine Exists.imp (fun _ h => h.1) (loopE_ok (fun _ _ => True) trivial (n - 1) ?_)
    intro i _ a _
    obtain ⟨r, hr⟩ := randomBetween_run hp.interval a.2
    rw [hr]
    exact ⟨_, rfl, trivial⟩

section Send

variable {simd : Simd} {ctx : CookCtx} {h : ctx.Ready simd} {route : Route} {ps : List Bytes} {dest : Dest} {t : Sender}
variable {p : DelayOptions} {currentTime : Nat} {e e' : FecEncodeManager} {o : EncodeOptions} {s : Option Bytes} {ret : Int}

/-- The rows handed out, as the packets of the flow that they are. -/
theorem rowPacket_bound (hcook : dest.cook = true) (hnamed : dest.inner ≠ .none) (hsocket : dest.isWrite = false) (hshort : e'.Short)
    {rows : List (Nat × Nat)} (hrows : e'.output.2 = some rows) (hps : ∀ x ∈ e'.output.1.datagrams rows, x ∈ ps) :
    rows.length ≤ maxFecPacketNum ∧ ∀ r ∈ rows, Bound route ps dest (rowPacket e'.output.1 r) := by
  have hready : e'.readyForOutput = true := by
    unfold FecEncodeManager.output at hrows
    by_contra hno
    rw [if_neg hno] at hrows
    cases hrows
  obtain ⟨hcount, hlen⟩ := hshort hready
  have hlist : rows = (List.range e'.outputN).map fun i => (e'.outputBuf i, e'.outputLen i) := by
    unfold FecEncodeManager.output at hrows
    rw [if_pos hready] at hrows
    exact (Option.some.inj hrows).symm
  refine ⟨by rw [hlist]; simpa using hcount, ?_⟩
  intro r hr
  have hr2 : r.2 ≤ maxDataLen + 18 := by
    rw [hlist] at hr
    obtain ⟨k, hk, rfl⟩ := List.mem_map.mp hr
    exact hlen k (List.mem_range.mp hk)
  unfold maxDataLen at hr2
  refine ⟨hnamed, hsocket, ⟨?_, fun _ => ?_, fun _ => ?_⟩, .inr ⟨hcook, hps _ (List.mem_map_of_mem hr)⟩⟩
  · show r.2 ≤ bufLen
    unfold bufLen maxDataLen
    omega
  · show r.2 + 4 < 3800
    omega
  · show r.2 + 37 ≤ bufLen
    unfold bufLen maxDataLen
    omega

/-- A call that returns has delays for what it hands out. -/
theorem sendPath_delays {out : PathOut} (hi : e.input o s = .ok (e', ret)) (hr : sendPath simd ctx p currentTime dest e o s t = .ok out) :
    ∃ r, outDelay p e'.output.1 currentTime (e'.output.2.getD []).length t.draws = .ok r := by
  obtain ⟨f, hf, -⟩ := bind_ok.mp hr
  unfold fromNormalToFec at hf
  rw [hi, ok_bind] at hf
  obtain ⟨r, hr, -⟩ := bind_ok.mp hf
  exact ⟨r, hr⟩

/-- Of the encoder the rest of the path edits the rows. -/
theorem sendPath_rows {out : PathOut} (hi : e.input o s = .ok (e', ret)) (hr : sendPath simd ctx p currentTime dest e o s t = .ok out) :
    ∃ m, out.st = e'.output.1.withRows m := by
  obtain ⟨f, hf, hr⟩ := bind_ok.mp hr
  obtain ⟨r, -, hr⟩ := bind_ok.mp hr
  cases hr
  unfold fromNormalToFec at hf
  rw [hi, ok_bind] at hf
  obtain ⟨x, -, hf⟩ := bind_ok.mp hf
  cases hf
  exact ⟨_, rfl⟩

/-- A call on the way out: whatever the encoder hands out joins the flow. -/
theorem sendPath_flows (hf : Flows h route ps t) (hcook : dest.cook = true) (hnamed : dest.inner ≠ .none)
    (hsocket : dest.isWrite = false) (hi : e.input o s = .ok (e', ret)) (hshort : e'.Short)
    (hdelays : ∃ r, outDelay p e'.output.1 currentTime (e'.output.2.getD []).length t.draws = .ok r)
    (hps : ∀ shards, e'.sentBy = some shards → ∀ x ∈ shards, x ∈ ps) :
    ∃ out, sendPath simd ctx p currentTime dest e o s t = .ok out ∧ Flows h route ps out.sender ∧
      out.shards = e'.sentBy.getD [] := by
  obtain ⟨⟨delays, d⟩, hdelay⟩ := hdelays
  have hshards : e'.output.1.datagrams (e'.output.2.getD []) = e'.sentBy.getD [] := by
    unfold sentBy
    cases e'.output.2 <;> rfl
  have hbound : (e'.output.2.getD []).length ≤ maxFecPacketNum ∧ ∀ r ∈ e'.output.2.getD [], Bound route ps dest (rowPacket e'.output.1 r) := by
    cases hrows : e'.output.2 with
    | none => exact ⟨Nat.zero_le _, fun r hr => absurd hr List.not_mem_nil⟩
    | some rows => exact rowPacket_bound hcook hnamed hsocket hshort hrows fun x hx => hps _ (by unfold sentBy; rw [hrows]; rfl) x hx
  obtain ⟨hlen, hbound⟩ := hbound
  obtain ⟨r, hr, hflows⟩ := @delaySendBatch_flows simd ctx h route ps dest { t with draws := d } (hf.congr rfl rfl)
    (delays.zip ((e'.output.2.getD []).map (rowPacket e'.output.1))) (fun x hx => by
      obtain ⟨row, hrow, hx⟩ := List.mem_map.mp (List.of_mem_zip hx).2
      rw [← hx]
      exact hbound row hrow) (by
      rw [List.length_zip, List.length_map]
      omega) p.randomDrop
  refine ⟨⟨e'.output.1.withRows (edited e'.output.1.inputBuf (e'.output.2.getD []) r.packets), e'.output.1.datagrams (e'.output.2.getD []),
    r.sender⟩, ?_, hflows, hshards⟩
  unfold sendPath fromNormalToFec
  simp only [hi, ok_bind, hdelay, hr]
  rfl

/-- Where nothing is held back, every shard handed out is on the wire. -/
theorem sendPath_sends (h : ctx.Ready simd) (hno : p.NoDelay) (hdrop : p.randomDrop = 0) (hcook : dest.cook = true) (hnamed : dest.inner ≠ .none)
    (hsocket : dest.isWrite = false) (hroute : dest.resolve t.fdManager = some route) (hroom : ¬ t.delayManager.full)
    (hi : e.input o s = .ok (e', ret)) (hshort : e'.Short) : ∃ out xs m, sendPath simd ctx p currentTime dest e o s t = .ok out ∧
      out.st = e'.output.1.withRows m ∧ List.Forall₂ (fun y x => Cooked h y x) (e'.sentBy.getD []) xs ∧
        out.sender.wire = t.wire ++ xs.map fun x => ⟨route.1, route.2, x⟩ := by
  have hframe : e'.output.1 = { e' with readyForOutput := false } := output_frame e'
  have hsent : e'.sentBy.getD [] = ((e'.output.2.getD []).map (rowPacket e')).map Packet.bytes := by
    unfold sentBy
    cases e'.output.2 with
    | none => rfl
    | some rows =>
      show e'.output.1.datagrams rows = _
      rw [hframe, List.map_map]
      rfl
  have hbound : (e'.output.2.getD []).length ≤ maxFecPacketNum ∧ ∀ q ∈ (e'.output.2.getD []).map (rowPacket e'), q.Sendable true := by
    cases hrows : e'.output.2 with
    | none => exact ⟨Nat.zero_le _, fun q hq => absurd hq List.not_mem_nil⟩
    | some rows =>
      obtain ⟨hlen, hall⟩ := @rowPacket_bound route (e'.sentBy.getD []) dest e' hcook hnamed hsocket hshort rows hrows fun x hx => by
        unfold sentBy
        rw [hrows]
        exact hx
      refine ⟨hlen, ?_⟩
      intro q hq
      obtain ⟨r, hr, rfl⟩ := List.mem_map.mp hq
      have hroom := (hall r hr).room
      rw [hcook, hframe] at hroom
      exact hroom
  obtain ⟨r, xs, hr, hxs, hwire⟩ := delaySendBatch_sends h hcook hnamed hsocket hroute hroom hbound.2 (by rw [List.length_map]; exact hbound.1)
  rw [List.map_map] at hr
  refine ⟨⟨{ e' with readyForOutput := false, inputBuf := edited e'.inputBuf (e'.output.2.getD []) r.packets }, e'.sentBy.getD [], r.sender⟩,
    xs, edited e'.inputBuf (e'.output.2.getD []) r.packets, ?_, by rw [hframe]; rfl, ?_, hwire⟩
  · rw [sendPath_eq hno, hi, ok_bind, hdrop]
    simp only [Function.comp_def] at hr
    simp only [hr, ok_bind]
  · rw [hsent]
    exact List.forall₂_map_left_iff.mpr hxs

/-- The encoder is what may stop it, and only under an overhead out of all bounds. -/
theorem sendPath_returns (hf : Flows h route ps t) (hp : p.InOrder) (hcook : dest.cook = true) (hnamed : dest.inner ≠ .none)
    (hsocket : dest.isWrite = false) (he : e.Steady) (he0 : e.fecPar.mode = 0) (ht : e.Timed) (ha : Link.Allowed o s)
    (h0 : o.gFecPar.mode = 0) (hnow : o.now ≠ 0) :
    Returns o.Heavy (sendPath simd ctx p currentTime dest e o s t) fun _ => True := by
  have hreturns := input_returns he ha.par ha.short
  cases hi : e.input o s with
  | error f =>
    unfold sendPath fromNormalToFec
    rw [hi]
    exact hreturns.error hi
  | ok r =>
    obtain ⟨e', ret⟩ := r
    obtain ⟨hshort, -⟩ := input_short he ha.par he0 h0 ha.short hi
    have hflows : Flows h route (ps ++ e'.sentBy.getD []) t := hf.mono fun x hx => List.mem_append_left _ hx
    -- what goes out has the time its group started at
    have hdelays := @outDelay_run p hp e'.output.1 (e'.output.2.getD []).length (fun hn hmode => by
      have hready : e'.readyForOutput = true := by
        unfold FecEncodeManager.output at hn
        by_contra hno
        rw [if_neg hno] at hn
        exact hn rfl
      rw [output_frame] at hmode ⊢
      exact (input_timed ht he.ready hnow hi).2 hready hmode) currentTime t.draws
    obtain ⟨out, hout, -⟩ := sendPath_flows hflows hcook hnamed hsocket hi hshort hdelays fun shards hs x hx => by
      rw [hs]
      exact List.mem_append_right _ hx
    exact .of_ok hout trivial

end Send

/-! ## The whole way -/

/-- What one direction was set up with: the keys at its ends, and where its datagrams go. -/
structure Line where
  peers : Peers
  dest : Dest
  route : Route
  cook : dest.cook = true
  named : dest.inner ≠ .none
  socket : dest.isWrite = false

/-- `heard` is what came to the decoder, `shards` what the encoder handed out, and `times` what the
    clock said at its calls. -/
structure Pipe (N : FecBuffNum) where
  encoder : FecEncodeManager
  sender : Sender
  decoder : FecDecodeManager (FlatTables N)
  heard : List Bytes
  shards : List Bytes
  times : List Nat

namespace Pipe

variable (u : Line) (N : FecBuffNum) (w : Nat)

/-- What the network makes of a datagram, if it does not lose it. -/
def Comes (x y : Bytes) : Prop := y = x ∨ u.peers.Damaged x y

/-- Runs of both ends in mode 0, with no datagram `w` seqs or more behind one that came before it.
    Between two calls for this direction the process may send anything past it, and open and close
    sockets, draw numbers and read the clock. -/
inductive Run : List (Channel.Event Bytes) → Pipe N → Prop
  | start {e0 e : FecEncodeManager} {g : FecParameter} {seq : U32} {t : Sender} (d0 : FecDecodeManager (FlatTables N)) (hg : g.InRange)
      (h0 : g.mode = 0) (hc : e0.construct g seq = .ok e) (hseq : e.seq ≠ emptySeq) (hwire : t.wire = [])
      (hqueue : t.delayManager.delayMp = []) : Run [] ⟨e, t, clear N d0, [], [], []⟩
  | send {es : List (Channel.Event Bytes)} {c : Pipe N} (h : Run es c) {p : DelayOptions} {currentTime : Nat} {o : EncodeOptions}
      {s : Option Bytes} (ha : Link.Allowed o s) (h0 : o.gFecPar.mode = 0) {e' : FecEncodeManager} {ret : Int}
      (hi : c.encoder.input o s = .ok (e', ret)) {out : PathOut}
      (hr : sendPath u.peers.near u.peers.nearCtx p currentTime u.dest c.encoder o s c.sender = .ok out) (hseq : out.st.seq ≠ emptySeq) :
      Run (es ++ (if ret = 0 then s.toList else []).map .took) { c with
        encoder := out.st, sender := out.sender, shards := c.shards ++ out.shards, times := c.times ++ [o.now] }
  | check {es : List (Channel.Event Bytes)} {c : Pipe N} (h : Run es c) :
      Run es { c with sender := (checkDelays u.peers.near u.peers.nearCtx c.sender).sender }
  | past {es : List (Channel.Event Bytes)} {c : Pipe N} (h : Run es c) {dest : Dest} {ps : List (Nat × Packet)}
      (hps : ∀ x ∈ ps, Bound u.route [] dest x.2) (hlen : ps.length ≤ maxFecPacketNum) {randomDrop : Nat} {r : SentBatch}
      (hr : delaySendBatch u.peers.near u.peers.nearCtx randomDrop dest ps c.sender = .ok r) : Run es { c with sender := r.sender }
  | other {es : List (Channel.Event Bytes)} {c : Pipe N} (h : Run es c) {t : Sender} (hwire : t.wire = c.sender.wire)
      (hqueue : t.delayManager = c.sender.delayManager) : Run es { c with sender := t }
  | recv {es : List (Channel.Event Bytes)} {c : Pipe N} (h : Run es c) {g : Datagram} (hg : g ∈ c.sender.wire) (hroute : (g.fd, g.dst) = u.route)
      {x : Bytes} (hx : Comes u g.bytes x) {data : Buffer} {len : Nat} (ht : Taken x data len)
      (hrecent : ∀ p, u.peers.Reads x p → ∀ t ∈ c.heard, (seqOf t).toNat < (seqOf p).toNat + w) {out : Received N}
      (hr : receive u.peers.far u.peers.farCtx N c.decoder data len = .ok out) :
      Run (es ++ out.packets.toList.map .handed) { c with decoder := out.st, heard := c.heard ++ out.opened.toList }

/-- The encoder and the decoder of a link do the same, and what is on the route or on its way
    there was made of what the link's encoder sent. -/
structure Linked (c : Pipe N) (l : Link N) : Prop where
  encoder : l.encoder.Alike c.encoder
  mode : l.encoder.fecPar.mode = 0
  flows : Flows u.peers.ready u.route (FecEncodeManager.wire l.log) c.sender
  decoder : c.decoder = l.decoder
  heard : c.heard = l.hist.map Prod.fst
  shards : c.shards = FecEncodeManager.wire l.log

variable {u N w} {c : Pipe N} {l : Link N} {es : List (Channel.Event Bytes)}

theorem Linked.sender (h : Linked u N c l) {t : Sender} (ht : Flows u.peers.ready u.route (FecEncodeManager.wire l.log) t) :
    Linked u N { c with sender := t } l := ⟨h.encoder, h.mode, ht, h.decoder, h.heard, h.shards⟩

theorem Linked.steady (h : Linked u N c l) (hl : l.encoder.Steady) : c.encoder.Steady := by
  rw [h.encoder.rest]
  exact ⟨⟨hl.held.par, hl.held.queue, hl.held.group, hl.held.fresh, hl.held.size, hl.held.rows⟩, ⟨hl.room.last, hl.room.queue, hl.room.group⟩,
    hl.ready⟩

theorem Linked.send (h : Linked u N c l) (hl : Link.Run N w es l) {p : DelayOptions} {currentTime : Nat} {o : EncodeOptions}
    {s : Option Bytes} (ha : Link.Allowed o s) (h0 : o.gFecPar.mode = 0) {e' : FecEncodeManager} {ret : Int}
    (hi : c.encoder.input o s = .ok (e', ret)) {out : PathOut}
    (hr : sendPath u.peers.near u.peers.nearCtx p currentTime u.dest c.encoder o s c.sender = .ok out) (hseq : out.st.seq ≠ emptySeq) :
    ∃ l', Linked u N { c with
        encoder := out.st, sender := out.sender, shards := c.shards ++ out.shards, times := c.times ++ [o.now] } l' ∧
      Link.Run N w (es ++ (if ret = 0 then s.toList else []).map .took) l' ∧
      FecEncodeManager.wire l'.log = FecEncodeManager.wire l.log ++ e'.sentBy.getD [] := by
  have hsteady := h.steady hl.steady
  have hmode : c.encoder.fecPar.mode = 0 := by
    rw [h.encoder.rest]
    exact h.mode
  obtain ⟨hshort, hmode'⟩ := input_short hsteady ha.par hmode h0 ha.short hi
  -- the encoder of the link does the same
  have hone : c.encoder.encodeOne o s = .ok ⟨e'.output.1, ret, e'.sentBy⟩ := by
    unfold encodeOne
    rw [hi, ok_bind]
    rfl
  obtain ⟨a, ha1, hst, hret, hsent⟩ := (encodeOne_alike h.encoder hl.steady.ready h.mode h0 s).ok_right hone
  simp only at hst hret hsent
  have hwire : FecEncodeManager.wire (l.log ++ [⟨l.encoder, o, s, a⟩]) = FecEncodeManager.wire l.log ++ a.sent.getD [] := wire_snoc _ _
  have hflows : Flows u.peers.ready u.route (FecEncodeManager.wire (l.log ++ [⟨l.encoder, o, s, a⟩])) c.sender :=
    h.flows.mono fun x hx => by rw [hwire]; exact List.mem_append_left _ hx
  obtain ⟨m, hm⟩ := sendPath_rows hi hr
  obtain ⟨out', hr', hflows', hshards⟩ := sendPath_flows hflows u.cook u.named u.socket hi hshort (sendPath_delays hi hr)
    fun shards hs x hx => by
      rw [hwire]
      apply List.mem_append_right _
      rw [← hsent, hs]
      exact hx
  rw [hr] at hr'
  cases hr'
  have hframe : e'.output.1 = { e' with readyForOutput := false } := output_frame e'
  have hready : a.st.readyForOutput = false := by
    have h1 : e'.output.1.readyForOutput = a.st.readyForOutput := by rw [hst.rest]; rfl
    rw [← h1, hframe]
  have hout : out.st = a.st.withRows m := by rw [hm, hst.rest]; rfl
  refine ⟨{ l with encoder := a.st, log := l.log ++ [⟨l.encoder, o, s, a⟩] }, ⟨?_, ?_, hflows', h.decoder, h.heard, ?_⟩, ?_, ?_⟩
  · rw [hout]
    exact .of_rows hready m
  · have h1 : e'.output.1.fecPar = a.st.fecPar := by rw [hst.rest]; rfl
    rw [← h1, hframe]
    exact hmode'
  · show c.shards ++ out.shards = _
    rw [hwire, h.shards, hshards, hsent]
  · have hnext : a.st.seq ≠ emptySeq := by
      rw [hout] at hseq
      exact hseq
    have hrun := hl.send ha ha1 hnext
    unfold EncodeCall.accepted at hrun
    rw [hret]
    exact hrun
  · rw [hwire, hsent]

theorem Linked.recv (h : Linked u N c l) (hl : Link.Run N w es l) {g : Datagram} (hg : g ∈ c.sender.wire) (hroute : (g.fd, g.dst) = u.route)
    {x : Bytes} (hx : Comes u g.bytes x) {data : Buffer} {len : Nat} (ht : Taken x data len)
    (hrecent : ∀ p, u.peers.Reads x p → ∀ t ∈ c.heard, (seqOf t).toNat < (seqOf p).toNat + w) {out : Received N}
    (hr : receive u.peers.far u.peers.farCtx N c.decoder data len = .ok out) :
    ∃ l', Linked u N { c with decoder := out.st, heard := c.heard ++ out.opened.toList } l' ∧
      Link.Run N w (es ++ out.packets.toList.map .handed) l' ∧ l'.log = l.log := by
  -- a datagram that the decoder is not given changes nothing
  have hnothing : out = ⟨c.decoder, none, none⟩ → ∃ l', Linked u N { c with decoder := out.st, heard := c.heard ++ out.opened.toList } l' ∧
      Link.Run N w (es ++ out.packets.toList.map .handed) l' ∧ l'.log = l.log := by
    intro heq
    subst heq
    refine ⟨l, ⟨h.encoder, h.mode, h.flows, h.decoder, ?_, h.shards⟩, ?_, rfl⟩
    · simpa using h.heard
    · simpa using hl
  obtain ⟨p, hp, hcooked⟩ := h.flows.wire g hg hroute
  rcases hx with rfl | hdamaged
  · have hreads := u.peers.reads_cooked hcooked
    rw [receive_read ht hreads] at hr
    split at hr
    · cases hr
      exact hnothing rfl
    · obtain ⟨fed, hfed, hr⟩ := bind_ok.mp hr
      cases hr
      rw [h.decoder] at hfed
      have hrun := hl.recv hp (fun t ht => hrecent p hreads t (h.heard ▸ ht)) hfed
      refine ⟨⟨l.encoder, l.log, fed.st, l.hist ++ [(p, fed)]⟩, ?_, hrun, rfl⟩
      exact ⟨h.encoder, h.mode, h.flows, rfl, by simp [h.heard], h.shards⟩
  · rw [receive_refused ht (u.peers.reads_damaged hcooked hdamaged)] at hr
    cases hr
    exact hnothing rfl

/-- A run of the whole way is one of the encoder and the decoder alone. -/
theorem Run.linked (h : Run u N w es c) : ∃ l, Linked u N c l ∧ Link.Run N w es l := by
  induction h with
  | start d0 hg h0 hc hseq hwire hqueue =>
    obtain ⟨p, hp, hc'⟩ := bind_ok.mp hc
    obtain ⟨-, hpar, -⟩ := FecParameter.clone_ok hp
    refine ⟨_, ⟨?_, ?_, .nothing hwire hqueue, rfl, rfl, rfl⟩, .start d0 hg hc hseq⟩
    · exact ⟨rfl, fun _ _ _ _ _ => rfl⟩
    · cases hc'
      show p.mode = 0
      rw [hpar]
      exact h0
  | send h ha h0 hi hr hseq ih =>
    obtain ⟨l, hlinked, hl⟩ := ih
    obtain ⟨l', hlinked', hl', -⟩ := hlinked.send hl ha h0 hi hr hseq
    exact ⟨l', hlinked', hl'⟩
  | check h ih =>
    obtain ⟨l, hlinked, hl⟩ := ih
    exact ⟨l, hlinked.sender (checkDelays_flows hlinked.flows).2, hl⟩
  | past h hps hlen hr ih =>
    obtain ⟨l, hlinked, hl⟩ := ih
    obtain ⟨r, hr', hflows⟩ := delaySendBatch_flows hlinked.flows (fun x hx => (hps x hx).mono fun _ hy => absurd hy List.not_mem_nil) hlen _
    rw [hr] at hr'
    cases hr'
    exact ⟨l, hlinked.sender hflows, hl⟩
  | other h hwire hqueue ih =>
    obtain ⟨l, hlinked, hl⟩ := ih
    exact ⟨l, hlinked.sender (hlinked.flows.congr hwire (by rw [hqueue])), hl⟩
  | recv h hg hroute hx ht hrecent hr ih =>
    obtain ⟨l, hlinked, hl⟩ := ih
    obtain ⟨l', hlinked', hl', -⟩ := hlinked.recv hl hg hroute hx ht hrecent hr
    exact ⟨l', hlinked', hl'⟩

/-- A datagram of the direction, as it came: it is dropped, or goes to the decoder. -/
theorem Linked.receives (hw : Width N w) (h : Linked u N c l) (hl : Link.Run N w es l) {g : Datagram} (hg : g ∈ c.sender.wire)
    (hroute : (g.fd, g.dst) = u.route) {x : Bytes} (hx : Comes u g.bytes x) {data : Buffer} {len : Nat} (ht : Taken x data len)
    (hrecent : ∀ p, u.peers.Reads x p → ∀ t ∈ c.heard, (seqOf t).toNat < (seqOf p).toNat + w) :
    ∃ out, receive u.peers.far u.peers.farCtx N c.decoder data len = .ok out := by
  obtain ⟨p, hp, hcooked⟩ := h.flows.wire g hg hroute
  rcases hx with rfl | hdamaged
  · have hreads := u.peers.reads_cooked hcooked
    rw [receive_read ht hreads]
    split
    · exact ⟨_, rfl⟩
    · rename_i hlong
      obtain ⟨seq0, gs, got, hc⟩ := hl.carries hw
      have hlen := hcooked.length_le
      obtain ⟨fed, hfed⟩ := hc.returns hw hp (by omega) fun t ht => hrecent p hreads t (h.heard ▸ ht)
      rw [h.decoder, hfed]
      exact ⟨_, rfl⟩
  · exact ⟨_, receive_refused ht (u.peers.reads_damaged hcooked hdamaged)⟩

/-- A shard that comes through whole. -/
theorem Linked.hears (hw : Width N w) (h : Linked u N c l) (hl : Link.Run N w es l) (hrun : Run u N w es c) {s x : Bytes}
    (hx : ⟨u.route.1, u.route.2, x⟩ ∈ c.sender.wire) (hcooked : Cooked u.peers.ready s x) (hlen : x.length ≤ maxDataLen)
    (hrecent : ∀ t ∈ c.heard, (seqOf t).toNat < (seqOf s).toNat + w) : ∃ (c' : Pipe N) (l' : Link N) (ps : List (List Bytes)),
      Run u N w (es ++ ps.map .handed) c' ∧ Linked u N c' l' ∧
      Link.Run N w (es ++ ps.map .handed) l' ∧ l'.log = l.log ∧ c'.sender = c.sender ∧ c'.encoder = c.encoder ∧ c'.heard = c.heard ++ [s] := by
  obtain ⟨data, len, ht⟩ := exists_taken x
  have hreads := u.peers.reads_cooked hcooked
  have honly : ∀ p, u.peers.Reads x p → ∀ t ∈ c.heard, (seqOf t).toNat < (seqOf p).toNat + w := by
    intro p hp
    obtain rfl : s = p := Except.ok.inj (hreads.symm.trans hp)
    exact hrecent
  obtain ⟨out, hout⟩ := h.receives hw hl hx rfl (.inl rfl) ht honly
  obtain ⟨l', hlinked, hl', hlog⟩ := h.recv hl hx rfl (.inl rfl) ht honly hout
  have hopened : out.opened = some s := by
    have hr := hout
    rw [receive_read ht hreads, if_neg (by omega)] at hr
    obtain ⟨fed, -, hr⟩ := bind_ok.mp hr
    cases hr
    rfl
  refine ⟨_, l', out.packets.toList, hrun.recv hx rfl (.inl rfl) ht honly hout, hlinked, hl', hlog, rfl, rfl, ?_⟩
  show c.heard ++ out.opened.toList = c.heard ++ [s]
  rw [hopened]
  rfl

/-! ## One packet -/

/-- One packet is in the encoder, and nothing is on its way. -/
structure Loaded (u : Line) (c : Pipe leastNum) (l : Link leastNum) : Prop where
  key : u.peers.options = ctxAbc
  dest : u.dest = ⟨.fd 3, true⟩
  route : u.route = (3, none)
  sender : c.sender = idle 0 fun _ => 0
  encoder : Least c.encoder 1 7
  seq : c.encoder.seq = 0
  heard : c.heard = []
  times : ∀ r ∈ c.times, r ≠ 0
  run : Run u leastNum 1 [.took lone] c
  linked : Linked u leastNum c l
  link : Link.Run leastNum 1 [.took lone] l
  wire : FecEncodeManager.wire l.log = []

theorem exists_loaded : ∃ u c l, Loaded u c l := by
  have hkey : ∀ i < 3, ctxAbc.key i ≠ 0 := by decide
  obtain ⟨near, hnear, -⟩ := prepareKey_ok (.simd .avx2) ctxAbc (by decide) hkey rfl (by decide) (by decide) (by decide)
  obtain ⟨far, hfar, -⟩ := prepareKey_ok (.simd .sse2) ctxAbc (by decide) hkey rfl (by decide) (by decide) (by decide)
  let u : Line := ⟨⟨ctxAbc, 3, by decide, hkey, rfl, by decide, by decide, by decide, .avx2, .sse2, near, far, hnear, hfar⟩, ⟨.fd 3, true⟩,
    (3, none), rfl, by decide, rfl⟩
  let t : Sender := idle 0 fun _ => 0
  obtain ⟨e0, e, hnew, hleast⟩ := exists_least
  have hseq : e.seq = 0 := by
    obtain ⟨p, -, hc⟩ := bind_ok.mp hnew
    cases hc
    rfl
  have hallowed : Link.Allowed leastOptions (some lone) := ⟨leastMtu_inRange, fun p hp => by cases hp; decide⟩
  have hstart : Run u leastNum 1 [] ⟨e, t, leastDecoder, [], [], []⟩ := .start default leastMtu_inRange rfl hnew (by rw [hseq]; decide) rfl rfl
  have hlink : Link.Run leastNum 1 [] ⟨e, [], leastDecoder, []⟩ := .start default leastMtu_inRange hnew (by rw [hseq]; decide)
  have hmode : e.fecPar.mode = 0 := by rw [hleast.fecPar]; rfl
  have hlinked : Linked u leastNum ⟨e, t, leastDecoder, [], [], []⟩ ⟨e, [], leastDecoder, []⟩ :=
    ⟨⟨rfl, fun _ _ _ _ _ => rfl⟩, hmode, .nothing rfl rfl, rfl, rfl, rfl⟩
  obtain ⟨out, he, hnext⟩ := hleast.short (s := lone) (by decide) (by decide)
  obtain ⟨e', ret, hi, rfl⟩ := encodeOne_ok he
  obtain ⟨rfl, hready, hnextSeq⟩ : ret = 0 ∧ e'.readyForOutput = false ∧ e'.seq = 0 := by
    obtain ⟨e1, htake, -, htook⟩ := input_took hi
    have hsame : e.takeUp leastOptions.gFecPar = .ok e := if_neg fun hne => hne.2 (by rw [hleast.fecPar]; rfl)
    rw [hsame] at htake
    cases htake
    have hempty := hleast.counter
    have hone : e'.counter = 1 := by
      have := hnext.counter
      rwa [output_frame] at this
    cases htook with
    | ignored => omega
    | taken hopen hfits _ happend hroom =>
      have ha := append_ok happend
      exact ⟨rfl, ha.ready.trans hleast.steady.ready, by rw [ha.seq, hseq]⟩
    | sent hopen h1 => omega
    | filled hopen hfits happend hfull hclose =>
      obtain ⟨-, hzero, -⟩ := close_frame hclose
      omega
    | overran hopen hlong hne => exact absurd hempty hne
  have hnone : e'.output.2 = none := by
    unfold FecEncodeManager.output
    rw [if_neg (by rw [hready]; decide)]
  have hpath : sendPath u.peers.near u.peers.nearCtx onTime 0 u.dest e leastOptions (some lone) t =
      .ok ⟨{ e' with readyForOutput := false, inputBuf := edited e'.inputBuf [] [] }, [], t⟩ := by
    rw [sendPath_eq onTime_noDelay, hi, ok_bind]
    simp only [hnone, sentBy_none hready]
    rfl
  have hnever : e'.seq ≠ emptySeq := by
    rw [hnextSeq]
    decide
  obtain ⟨l, hl, hlr, hwire⟩ := hlinked.send hlink hallowed rfl hi hpath hnever
  rw [output_frame] at hnext
  refine ⟨u, _, l, rfl, rfl, rfl, rfl, ⟨hl.steady hlr.steady, hnext.fecPar, hnext.counter, hnext.len⟩, hnextSeq, rfl, ?_,
    hstart.send hallowed rfl hi hpath hnever, hl, hlr, ?_⟩
  · intro r hr
    rw [List.mem_singleton.mp hr]
    decide
  · rw [hwire, sentBy_none hready]
    rfl

/-- The two shards of its group. -/
noncomputable def loneShards (B : Nat → Byte) : List Bytes := [blobShard 0 1 1 7 B 0, blobShard 0 1 1 7 B 1]

section Loaded

variable {u : Line} {c : Pipe leastNum} {l : Link leastNum} {e' : FecEncodeManager} {ret : Int}

theorem Loaded.holding (h : Loaded u c l) : Holding c.encoder [lone] := by
  obtain ⟨seq0, gs, got, hc⟩ := h.link.carries Link.lone_width
  have hpending := hc.called.pending
  have hrest := h.linked.encoder.rest
  have hlone : pendingAfter l.log = [lone] := by
    have htakens : [lone] = (gs.map FecEncodeManager.Sent.packets).flatten ++ pendingAfter l.log := hc.channel.takens
    have hlen : (pendingAfter l.log).length = 1 := by
      rw [← hpending.count, ← h.encoder.counter, hrest]
      rfl
    have hnil : (gs.map FecEncodeManager.Sent.packets).flatten = [] := by
      have := congrArg List.length htakens
      rw [List.length_append, hlen] at this
      exact List.eq_nil_of_length_eq_zero (by simpa using this)
    rw [hnil] at htakens
    exact htakens.symm
  have hblob := hpending.blob h.linked.mode
  rw [hlone] at hblob
  rw [hrest]
  exact ⟨hblob.blob, hblob.count, hblob.ready, hblob.short, hblob.few⟩

theorem Loaded.closes (h : Loaded u c l) (hi : c.encoder.input leastOptions none = .ok (e', ret)) :
    e'.counter = 0 ∧ e'.readyForOutput = true ∧ e'.seq = 1 ∧ e'.fecPar = leastMtu := by
  have hcount := h.encoder.counter
  obtain ⟨e1, htake, -, htook⟩ := input_took hi
  obtain rfl : e1 = c.encoder := (takeUp_ok htake).2 (by omega)
  cases htook with
  | ignored hempty => omega
  | flushed hopen hne hclose =>
    obtain ⟨-, hzero, hnext⟩ := close_frame hclose
    exact ⟨hzero, close_ready hclose, by rw [hnext, h.seq]; rfl, by rw [close_fecPar hclose, h.encoder.fecPar]⟩

/-- The settings have one shape. -/
theorem Loaded.shards (h : Loaded u c l) (hi : c.encoder.input leastOptions none = .ok (e', ret)) :
    ∃ B, e'.sentBy = some (loneShards B) := by
  obtain ⟨hzero, hready, -, hpar⟩ := h.closes hi
  have hone : c.encoder.encodeOne leastOptions none = .ok ⟨e'.output.1, ret, e'.sentBy⟩ := by
    unfold encodeOne
    rw [hi, ok_bind]
    rfl
  have hframe : e'.output.1 = { e' with readyForOutput := false } := output_frame e'
  have hpar' : e'.output.1.fecPar = leastMtu := by rw [hframe]; exact hpar
  rcases (encodeOne_blob h.holding hone (congrArg FecParameter.mode hpar')).2 with hnone | ⟨x, y, len, B, hs, hsent⟩
  · have hsome := sentBy_isSome e'
    rw [show e'.sentBy = none from hnone, hready] at hsome
    cases hsome
  have hgroup : EncodeOut.group ⟨e'.output.1, ret, e'.sentBy⟩ [lone] none = [lone] := by
    unfold EncodeOut.group
    simp [hframe, hzero]
  have hlen := hs.len
  have hrow := hs.row
  rw [show EncodeOut.st ⟨e'.output.1, ret, e'.sentBy⟩ = e'.output.1 from rfl, hpar'] at hrow
  obtain ⟨i, hi, hrow⟩ := hrow leastMtu_inRange.table.numbered
  obtain rfl : i = 0 := Nat.lt_one_iff.mp hi
  cases hrow
  rw [hgroup] at hlen
  obtain rfl : len = 7 := hlen
  rw [h.seq] at hsent
  exact ⟨B, hsent⟩

/-- The timer closes the group, and both shards are sent. -/
theorem Loaded.flushed (h : Loaded u c l) : ∃ (c' : Pipe leastNum) (l' : Link leastNum) (B : Nat → Byte) (xs : List Bytes),
    Run u leastNum 1 [.took lone] c' ∧ Linked u leastNum c' l' ∧ Link.Run leastNum 1 [.took lone] l' ∧
      FecEncodeManager.wire l'.log = loneShards B ∧ c'.encoder.counter = 0 ∧ c'.heard = [] ∧
      List.Forall₂ (fun y x => Cooked u.peers.ready y x) (loneShards B) xs ∧ c'.sender.wire = xs.map fun x => ⟨u.route.1, u.route.2, x⟩ := by
  have hsteady := h.encoder.steady
  have hallowed : Link.Allowed leastOptions none := ⟨leastMtu_inRange, fun p hp => by cases hp⟩
  have hmode : c.encoder.fecPar.mode = 0 := by rw [h.encoder.fecPar]; rfl
  obtain ⟨⟨e', ret⟩, hi, -⟩ := (input_returns hsteady hallowed.par hallowed.short).run leastOptions_light
  obtain ⟨hzero, -, hseq, -⟩ := h.closes hi
  obtain ⟨B, hsent⟩ := h.shards hi
  obtain ⟨hshort, -⟩ := input_short hsteady hallowed.par hmode rfl hallowed.short hi
  have hroute : u.dest.resolve c.sender.fdManager = some u.route := by
    rw [h.dest, h.route]
    rfl
  obtain ⟨out, xs, m, hpath, hst, hxs, hwire⟩ := @sendPath_sends _ _ _ _ c.sender onTime 0 _ _ _ _ _ u.peers.ready onTime_noDelay rfl u.cook u.named u.socket
    hroute (by rw [h.sender]; decide) hi hshort
  rw [output_frame] at hst
  have hnever : out.st.seq ≠ emptySeq := by
    rw [hst]
    show e'.seq ≠ emptySeq
    rw [hseq]
    decide
  have hnothing : (if ret = 0 then (none : Option Bytes).toList else []).map Channel.Event.took = [] := by split <;> rfl
  obtain ⟨l', hl, hlr, hlog⟩ := h.linked.send h.link hallowed rfl hi hpath hnever
  have hrun := h.run.send hallowed rfl hi hpath hnever
  rw [hnothing, List.append_nil] at hlr hrun
  rw [hsent] at hxs hlog
  rw [h.wire] at hlog
  refine ⟨_, l', B, xs, hrun, hl, hlr, hlog, ?_, h.heard, hxs, ?_⟩
  · show out.st.counter = 0
    rw [hst]
    exact hzero
  · show out.sender.wire = _
    rw [hwire, h.sender]
    rfl

end Loaded

theorem loneShards_header (B : Nat → Byte) {s : Bytes} (hs : s ∈ loneShards B) : seqOf s = 0 ∧ (mem s 4).toNat = 0 := by
  unfold loneShards at hs
  simp only [List.mem_cons, List.not_mem_nil, or_false] at hs
  rcases hs with rfl | rfl
  · exact ⟨mem_headerBytes.1, mem_headerBytes.2.1⟩
  · exact ⟨mem_headerBytes.1, mem_headerBytes.2.1⟩

theorem loneShards_length (B : Nat → Byte) {s : Bytes} (hs : s ∈ loneShards B) : s.length = 15 := by
  unfold loneShards blobShard at hs
  simp only [List.mem_cons, List.not_mem_nil, or_false] at hs
  rcases hs with rfl | rfl <;> simp [headerBytes, be32]

/-- Whatever group they are of, they are all of it. -/
theorem came_of_lone {B : Nat → Byte} {g : FecEncodeManager.Sent} (hg : g.Fits) (hsub : g.shards.Sublist (loneShards B)) :
    Link.Came leastNum (loneShards B) g := by
  have hlen : g.shards.length ≤ 2 := hsub.length_le
  obtain ⟨seq, ps, form⟩ := g
  cases form with
  | blob x y len B' =>
    have htotal : (FecEncodeManager.Sent.shards ⟨seq, ps, .blob x y len B'⟩).length = x + y := by
      unfold FecEncodeManager.Sent.shards
      simp
    refine ⟨?_, rfl, [], loneShards B, [], by simp, by simp, by simp [loneShards, leastNum], ?_⟩
    · show x + y < 255
      omega
    · show x ≤ (List.filter _ (FecEncodeManager.Sent.shards ⟨seq, ps, .blob x y len B'⟩)).length
      rw [List.filter_eq_self.mpr fun s hs => decide_eq_true (hsub.subset hs)]
      omega
  | rows y =>
    -- a data shard of mode 1 says so
    obtain ⟨hpos, -⟩ := hg
    obtain ⟨p, qs, rfl⟩ := List.exists_cons_of_length_pos hpos
    have hmem : packetShard seq 0 p ∈ loneShards B := hsub.subset (by simp [FecEncodeManager.Sent.shards, dataShards])
    have hmode : (mem (packetShard seq 0 p) 4).toNat = 1 := mem_headerBytes.2.1
    have hblob := (loneShards_header B hmem).2
    omega

theorem came_of_shards {B : Nat → Byte} {gs : List FecEncodeManager.Sent} (hfits : ∀ g ∈ gs, g.Fits)
    (hshards : loneShards B = gs.flatMap (·.shards)) : ∀ g ∈ gs, Link.Came leastNum (loneShards B) g := by
  intro g hg
  apply came_of_lone (hfits g hg)
  rw [hshards, List.flatMap_def]
  exact List.sublist_flatten_of_mem (List.mem_map_of_mem hg)

/-- Both shards get through, and the packet comes out. -/
theorem exists_passed : ∃ (u : Line) (c : Pipe leastNum) (es : List (Channel.Event Bytes)) (B : Nat → Byte), u.peers.options = ctxAbc ∧
    Run u leastNum 1 es c ∧ Channel.takens es = [lone] ∧ (Channel.handeds es).flatten = [lone] ∧ c.shards = loneShards B ∧
      c.heard = loneShards B := by
  obtain ⟨u, c0, l0, hloaded⟩ := exists_loaded
  obtain ⟨c1, l1, B, xs, hrun1, hlinked1, hl1, hlog1, hcount1, hheard1, hxs, hwire1⟩ := hloaded.flushed
  -- the first, and the second
  obtain ⟨x1, ys, hx1, hys, rfl⟩ := List.forall₂_cons_left_iff.mp hxs
  obtain ⟨x2, zs, hx2, hzs, rfl⟩ := List.forall₂_cons_left_iff.mp hys
  have hin1 : blobShard 0 1 1 7 B 0 ∈ loneShards B := List.mem_cons_self
  have hin2 : blobShard 0 1 1 7 B 1 ∈ loneShards B := List.mem_cons_of_mem _ List.mem_cons_self
  have hlen1 : x1.length ≤ maxDataLen := by
    have := hx1.length_lt
    rw [loneShards_length B hin1] at this
    unfold maxDataLen
    omega
  have hlen2 : x2.length ≤ maxDataLen := by
    have := hx2.length_lt
    rw [loneShards_length B hin2] at this
    unfold maxDataLen
    omega
  obtain ⟨c2, l2, ps, hrun2, hlinked2, hl2, hlog2, hsender2, hencoder2, hheard2⟩ := hlinked1.hears Link.lone_width hl1 hrun1
    (by rw [hwire1]; simp) hx1 hlen1 (by rw [hheard1]; simp)
  obtain ⟨c3, l3, qs, hrun3, hlinked3, hl3, hlog3, -, hencoder3, hheard3⟩ := hlinked2.hears Link.lone_width hl2 hrun2
    (by rw [hsender2, hwire1]; simp) hx2 hlen2 (by
      intro t ht
      rw [hheard2, hheard1, List.nil_append, List.mem_singleton] at ht
      rw [ht, (loneShards_header B hin1).1, (loneShards_header B hin2).1]
      decide)
  have hheard : c3.heard = loneShards B := by
    rw [hheard3, hheard2, hheard1]
    rfl
  have hshards : c3.shards = loneShards B := by rw [hlinked3.shards, hlog3, hlog2, hlog1]
  obtain ⟨seq0, gs, got, hc⟩ := hl3.carries Link.lone_width
  have hpending : pendingAfter l3.log = [] := by
    have hcount : l3.encoder.counter = c3.encoder.counter := by rw [hlinked3.encoder.rest]; rfl
    rw [hc.called.pending.count, hencoder3, hencoder2, hcount1] at hcount
    exact List.eq_nil_of_length_eq_zero hcount
  have hwire : loneShards B = gs.flatMap FecEncodeManager.Sent.shards := by
    have hstreamed := hc.streamed.wire
    rw [← hlinked3.shards, hshards, show l3.encoder.early _ = [] from if_pos hlinked3.mode, List.append_nil] at hstreamed
    exact hstreamed
  have hcomplete := hc.complete Link.lone_width (by
    rw [← hlinked3.heard, hheard]
    exact came_of_shards hc.streamed.fits hwire)
  have htaken : Channel.takens ([Channel.Event.took lone] ++ ps.map .handed ++ qs.map .handed) = [lone] := by
    rw [Channel.takens_append, Channel.takens_append, Channel.takens_handed, Channel.takens_handed]
    rfl
  rw [htaken, hpending, List.append_nil] at hcomplete
  exact ⟨u, c3, _, B, hloaded.key, hrun3, htaken, List.perm_singleton.mp hcomplete.symm, hshards, hheard⟩

/-- The tunnel in one direction is a channel of groups: whatever else the process sends, whatever
    the network loses, repeats, reorders or damages, and however the sends are delayed, what comes
    out is part of what was accepted, nothing of it twice, in groups of packets that came one after
    the other. -/
theorem pipe_refines (hw : Width N w) (h : Run u N w es c) : ∃ ch, Channel.Run es ch ∧
    (Channel.handeds es).flatten.Subperm (Channel.takens es) ∧ ∀ b ∈ Channel.handeds es, b <:+: Channel.takens es := by
  obtain ⟨l, -, hl⟩ := h.linked
  obtain ⟨seq0, gs, got, hc⟩ := hl.carries hw
  exact ⟨_, hc.channel, hc.channel.subperm, fun b hb => hc.channel.consecutive hb⟩

theorem pipe_refines_lone : ∃ (u : Line) (c : Pipe leastNum) (es : List (Channel.Event Bytes)), u.peers.options = ctxAbc ∧
    Run u leastNum 1 es c ∧ (Channel.handeds es).flatten = [lone] ∧ ∃ ch, Channel.Run es ch := by
  obtain ⟨u, c, es, -, hkey, hrun, -, hhanded, -⟩ := exists_passed
  obtain ⟨ch, hch, -⟩ := pipe_refines Link.lone_width hrun
  exact ⟨u, c, es, hkey, hrun, hhanded, ch, hch⟩

/-- The groups the encoder has closed in a run: what they were made of, and what they went out as. -/
structure Grouped (u : Line) (es : List (Channel.Event Bytes)) (c : Pipe N) (gs : List FecEncodeManager.Sent) (pending : List Bytes) :
    Prop where
  fits : ∀ g ∈ gs, g.Fits
  seqs : ∃ seq0 : U32, ∀ i (hi : i < gs.length), gs[i].seq = seq0 + .ofNat 32 i
  packets : Channel.takens es = gs.flatMap (·.packets) ++ pending
  shards : c.shards = gs.flatMap (·.shards)
  wire : ∀ g ∈ c.sender.wire, (g.fd, g.dst) = u.route → ∃ p ∈ c.shards, Cooked u.peers.ready p g.bytes

/-- Whatever was lost, damaged or delayed on the way: if enough of each group got through, every
    packet that was accepted has come out, once, but for those of the group that is still open. -/
theorem pipe_loses_nothing (hw : Width N w) (h : Run u N w es c) : ∃ (gs : List FecEncodeManager.Sent) (pending : List Bytes),
    Grouped u es c gs pending ∧
      ((∀ g ∈ gs, Link.Came N c.heard g) → (Channel.takens es).Perm ((Channel.handeds es).flatten ++ pending)) := by
  obtain ⟨l, hlinked, hl⟩ := h.linked
  obtain ⟨seq0, gs, got, hc⟩ := hl.carries hw
  refine ⟨gs, pendingAfter l.log, ⟨hc.streamed.fits, ⟨seq0, hc.streamed.seqs⟩, ?_, ?_, ?_⟩, ?_⟩
  · rw [hc.channel.takens, List.flatMap_def]
  · have hwire := hc.streamed.wire
    rw [show l.encoder.early (pendingAfter l.log) = [] from if_pos hlinked.mode, List.append_nil] at hwire
    rw [hlinked.shards, hwire]
  · rw [hlinked.shards]
    exact hlinked.flows.wire
  · rw [hlinked.heard]
    exact hc.complete hw

/-- Both shards of the one group came, so nothing is left of it. -/
theorem pipe_loses_nothing_lone : ∃ (u : Line) (c : Pipe leastNum) (es : List (Channel.Event Bytes)) (gs : List FecEncodeManager.Sent)
    (pending : List Bytes), u.peers.options = ctxAbc ∧ Run u leastNum 1 es c ∧ Grouped u es c gs pending ∧ c.shards.length = 2 ∧
      (∀ g ∈ gs, Link.Came leastNum c.heard g) ∧ [lone].Perm ([lone] ++ pending) := by
  obtain ⟨u, c, es, B, hkey, hrun, htaken, hhanded, hshards, hheard⟩ := exists_passed
  obtain ⟨gs, pending, hgrouped, hall⟩ := pipe_loses_nothing Link.lone_width hrun
  have hcame : ∀ g ∈ gs, Link.Came leastNum c.heard g := by
    rw [hheard]
    exact came_of_shards hgrouped.fits (by rw [← hshards, hgrouped.shards])
  have hperm := hall hcame
  rw [htaken, hhanded] at hperm
  exact ⟨u, c, es, gs, pending, hkey, hrun, hgrouped, by rw [hshards]; rfl, hcame, hperm⟩

/-- The group that is pending has the time it started at. -/
theorem Run.timed (h : Run u N w es c) (htimes : ∀ r ∈ c.times, r ≠ 0) : c.encoder.Timed := by
  induction h with
  | start d0 hg h0 hc hseq hwire hqueue =>
    obtain ⟨p, -, hc⟩ := bind_ok.mp hc
    cases hc
    exact fun hne => absurd rfl hne
  | send h ha h0 hi hr hseq ih =>
    obtain ⟨l, hlinked, hl⟩ := h.linked
    have hready := (hlinked.steady hl.steady).ready
    obtain ⟨htimed, -⟩ := input_timed (ih fun r hr => htimes r (List.mem_append_left _ hr)) hready (htimes _ (by simp)) hi
    obtain ⟨m, hm⟩ := sendPath_rows hi hr
    rw [output_frame] at hm
    rw [hm]
    exact htimed
  | check h ih => exact ih htimes
  | past h hps hlen hr ih => exact ih htimes
  | other h hwire hqueue ih => exact ih htimes
  | recv h hg hroute hx ht hrecent hr ih => exact ih htimes

/-- In every state that is reached, nothing stops the process at either end: not a packet or the
    timer on the way out, whatever delays are set, not a check of the delay queue, not what is sent
    past this direction, and not a datagram that comes out of the network. The clock never reads
    0. -/
theorem pipe_never_stops (hw : Width N w) (h : Run u N w es c) (htimes : ∀ r ∈ c.times, r ≠ 0) :
    (∀ (p : DelayOptions) (currentTime : Nat) (o : EncodeOptions) (s : Option Bytes), p.InOrder → Link.Allowed o s →
      o.gFecPar.mode = 0 → o.now ≠ 0 →
        Returns o.Heavy (sendPath u.peers.near u.peers.nearCtx p currentTime u.dest c.encoder o s c.sender) fun _ => True) ∧
    (checkDelays u.peers.near u.peers.nearCtx c.sender).fault = none ∧
    (∀ (dest : Dest) (ps : List (Nat × Packet)) (randomDrop : Nat), (∀ x ∈ ps, Bound u.route [] dest x.2) → ps.length ≤ maxFecPacketNum →
      ∃ r, delaySendBatch u.peers.near u.peers.nearCtx randomDrop dest ps c.sender = .ok r) ∧
    ∀ g ∈ c.sender.wire, (g.fd, g.dst) = u.route → ∀ (x : Bytes) (data : Buffer) (len : Nat), Comes u g.bytes x → Taken x data len →
      (∀ p, u.peers.Reads x p → ∀ t ∈ c.heard, (seqOf t).toNat < (seqOf p).toNat + w) →
        ∃ out, receive u.peers.far u.peers.farCtx N c.decoder data len = .ok out := by
  obtain ⟨l, hlinked, hl⟩ := h.linked
  have hmode : c.encoder.fecPar.mode = 0 := by
    rw [hlinked.encoder.rest]
    exact hlinked.mode
  refine ⟨?_, (checkDelays_flows hlinked.flows).1, ?_, ?_⟩
  · intro p currentTime o s hp ha h0 hnow
    exact sendPath_returns hlinked.flows hp u.cook u.named u.socket (hlinked.steady hl.steady) hmode (h.timed htimes) ha h0 hnow
  · intro dest ps randomDrop hps hlen
    obtain ⟨r, hr, -⟩ := delaySendBatch_flows hlinked.flows (fun x hx => (hps x hx).mono fun _ hy => absurd hy List.not_mem_nil) hlen randomDrop
    exact ⟨r, hr⟩
  · intro g hg hroute x data len hx ht hrecent
    exact hlinked.receives hw hl hg hroute hx ht hrecent

/-- The timer closes the group of the one packet, under `fix_latency`. -/
theorem pipe_never_stops_lone : ∃ (u : Line) (c : Pipe leastNum), u.peers.options = ctxAbc ∧ c.encoder.counter = 1 ∧
    (checkDelays u.peers.near u.peers.nearCtx c.sender).fault = none ∧
    ∃ out, sendPath u.peers.near u.peers.nearCtx { onTime with fixLatency := true } 5 u.dest c.encoder leastOptions none c.sender =
      .ok out := by
  obtain ⟨u, c, l, hloaded⟩ := exists_loaded
  obtain ⟨hsend, hcheck, -⟩ := pipe_never_stops Link.lone_width hloaded.run hloaded.times
  obtain ⟨out, hout, -⟩ := (hsend { onTime with fixLatency := true } 5 leastOptions none ⟨le_refl 0, le_refl 0⟩
    ⟨leastMtu_inRange, fun p hp => by cases hp⟩ rfl (by decide)).run leastOptions_light
  exact ⟨u, c, hloaded.key, hloaded.encoder.counter, hcheck, out, hout⟩

end Pipe

end UdpSpeeder.Net
