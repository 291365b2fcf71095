/-
  UdpSpeeder.Net.NormalToFec — packets on their way out (`misc.cpp`): into the encoder, and what
  it hands out to `delay_send_batch`.

  Nothing is copied on the way: a shard is a row of `input_buf` until it is on the wire, and
  `do_cook` edits it there. The row of a mode 1 packet that is sent as it comes in is read again
  when its group closes. `Kept` says what is in it then: the packet, and over it the IV and the
  key it was sent under. So the parity is that of the packets if and only if these left no trace
  (`send_keeps_iff`).
-/

import UdpSpeeder.Manager.Progress
import UdpSpeeder.Manager.Ledger
import UdpSpeeder.Net.Batch

namespace UdpSpeeder.Net

open Lib Cook Manager FecEncodeManager

/-! ## `from_normal_to_fec` -/

/-- The options on when packets go out, in microseconds, and `random_drop`: each an `int`, and
    none below 0, so that what `random_between` draws between two of them is neither. -/
structure DelayOptions where
  fixLatency : Bool
  jitterMin : Nat
  jitterMax : Nat
  outputIntervalMin : Nat
  outputIntervalMax : Nat
  randomDrop : Nat

/-- `common_latency` but for the jitter: `fix_latency` waits for what is left of the pending time
    of a mode 0 group, where the clock says `currentTime`. -/
def commonLatency (p : DelayOptions) (e : FecEncodeManager) (currentTime : Nat) : Except Fault Nat :=
  if p.fixLatency ∧ e.fecPar.mode = 0 then do
    check (e.firstPacketTimeForOutput ≠ 0) (.assert "first_packet_time != 0")
    let elapsed := (currentTime + 2 ^ 64 - e.firstPacketTimeForOutput) % 2 ^ 64
    .ok (if elapsed ≤ e.fecPar.timeout then e.fecPar.timeout - elapsed else 0)
  else .ok 0

/-- `out_delay` of `n` shards that the encoder has handed out. -/
def outDelay (p : DelayOptions) (e : FecEncodeManager) (currentTime n : Nat) (d : Draws) : Except Fault (List Nat × Draws) :=
  if n = 0 then .ok ([], d)
  else do
    let latency ← commonLatency p e currentTime
    let (jitter, d) ← randomBetween p.jitterMin p.jitterMax d
    loopE (n - 1) (fun i (r : List Nat × Draws) => do
      let (interval, d) ← randomBetween p.outputIntervalMin p.outputIntervalMax r.2
      .ok (r.1 ++ [r.1.getD i 0 + interval / (n - 1)], d)) ([latency + jitter], d)

/-- What `from_normal_to_fec` leaves, and points its caller to: rows of the encoder, how much of
    each, and when it is to go. -/
structure ToFec where
  st : FecEncodeManager
  rows : List (Nat × Nat)
  delays : List Nat
  draws : Draws

/-- `from_normal_to_fec`, unless `disable_fec` is set. -/
def fromNormalToFec (p : DelayOptions) (currentTime : Nat) (e : FecEncodeManager) (o : EncodeOptions) (s : Option Bytes) (d : Draws) :
    Except Fault ToFec := do
  let (e, _) ← e.input o s
  let (e, out) := e.output
  let rows := out.getD []
  let (delays, d) ← outDelay p e currentTime rows.length d
  .ok ⟨e, rows, delays, d⟩

/-! ## The send path -/

section Path

variable (simd : Simd) (ctx : CookCtx)

/-- A row of `input_buf` as a packet. -/
def rowPacket (e : FecEncodeManager) (r : Nat × Nat) : Packet := ⟨⟨e.inputBuf r.1, bufLen⟩, r.2⟩

/-- `input_buf` once packets that lie in it have been sent. -/
def edited (inputBuf : Nat → Nat → Byte) (rows : List (Nat × Nat)) (ps : List Packet) : Nat → Nat → Byte :=
  (rows.zip ps).foldl (fun m x => upd m x.1.1 x.2.data.mem) inputBuf

/-- What a call leaves, and the shards it sent as the encoder handed them out. -/
structure PathOut where
  st : FecEncodeManager
  shards : List Bytes
  sender : Sender

/-- The two calls of the tunnel, one after the other. -/
def sendPath (p : DelayOptions) (currentTime : Nat) (dest : Dest) (e : FecEncodeManager) (o : EncodeOptions) (s : Option Bytes) (t : Sender) :
    Except Fault PathOut := do
  let f ← fromNormalToFec p currentTime e o s t.draws
  let r ← delaySendBatch simd ctx p.randomDrop dest (f.delays.zip (f.rows.map (rowPacket f.st))) { t with draws := f.draws }
  .ok ⟨{ f.st with inputBuf := edited f.st.inputBuf f.rows r.packets }, f.st.datagrams f.rows, r.sender⟩

end Path

/-- No option delays anything. -/
def DelayOptions.NoDelay (p : DelayOptions) : Prop :=
  p.fixLatency = false ∧ p.jitterMin = 0 ∧ p.jitterMax = 0 ∧ p.outputIntervalMin = 0 ∧ p.outputIntervalMax = 0

theorem randomBetween_self (a : Nat) (d : Draws) : randomBetween a a d = .ok (a, d) := by
  unfold randomBetween
  rw [check_true (Nat.le_refl a), ok_bind, if_pos rfl]

theorem outDelay_zero {p : DelayOptions} (h : p.NoDelay) (e : FecEncodeManager) (currentTime n : Nat) (d : Draws) :
    outDelay p e currentTime n d = .ok (List.replicate n 0, d) := by
  obtain ⟨hfix, hjmin, hjmax, homin, homax⟩ := h
  unfold outDelay
  split
  · rename_i hn
    rw [hn]
    rfl
  · rename_i hn
    have hlatency : commonLatency p e currentTime = .ok 0 := if_neg fun hon => by rw [hfix] at hon; cases hon.1
    rw [hlatency, ok_bind, hjmin, hjmax, homin, homax, randomBetween_self, ok_bind]
    simp only [Nat.add_zero, randomBetween_self, ok_bind]
    -- after `i` rounds there are `i + 1` delays
    obtain ⟨r, hr, rfl⟩ := @loopE_ok _ _ (fun i (r : List Nat × Draws) => r = (List.replicate (i + 1) 0, d))
      (fun i r => .ok (r.1 ++ [r.1.getD i 0 + 0 / (n - 1)], r.2)) ([0], d) rfl (n - 1) fun i _ r hr => ⟨_, rfl, by
        rw [hr]
        simp [List.replicate_succ']⟩
    rw [hr, Nat.sub_add_cancel (Nat.pos_of_ne_zero hn)]

/-! ## One packet sent where it lies -/

/-- What a packet sent without delay has over byte `j` then: nothing if `random_drop` took it or
    `delay_manager` is full. -/
def sendCover (ctx : CookCtx) (randomDrop : Nat) (dest : Dest) (t : Sender) (j : Nat) : Byte :=
  if (dropped randomDrop dest t.draws).1 ∨ t.delayManager.full then 0 else ctx.cover (dropped randomDrop dest t.draws).2 j

section One

variable {simd : Simd} {ctx : CookCtx} {dest : Dest} {p : Packet} {t : Sender}

theorem deliver_data {r : Sent} (hr : dest.deliver p t = .ok r) : r.data = p.data := by
  unfold Dest.deliver at hr
  split at hr
  · unfold Sender.emit at hr
    obtain ⟨u, -, hr⟩ := bind_ok.mp hr
    cases hr
    rfl
  · cases hr
    rfl

theorem mySend_covers (h : ctx.Ready simd) (hcook : dest.cook = true) (hp : p.Lies) {r : Sent} (hr : mySend simd ctx dest p t = .ok r) :
    ∀ j < p.len, r.data.mem j = p.data.mem j ^^^ ctx.cover t.draws j := by
  have hdest : dest.inner ≠ .none := by
    intro hnone
    obtain ⟨⟨q, d⟩, -, hr⟩ := bind_ok.mp hr
    rw [hnone] at hr
    cases hr
  rw [mySend_eq hdest] at hr
  obtain ⟨⟨q, d⟩, hq, hr⟩ := bind_ok.mp hr
  rw [hcook] at hq
  obtain ⟨⟨data, len, d1⟩, hdo, heq⟩ := bind_ok.mp hq
  cases heq
  rw [deliver_data hr]
  exact doCook_covers h hp hdo

theorem delaySend_covers (h : ctx.Ready simd) (hcook : dest.cook = true) (hp : p.Lies) {randomDrop : Nat} {r : Sent}
    (hr : delaySend simd ctx randomDrop 0 dest p t = .ok r) :
    ∀ j < p.len, r.data.mem j = p.data.mem j ^^^ sendCover ctx randomDrop dest t j := by
  intro j hj
  unfold delaySend at hr
  unfold sendCover
  cases hdrop : dropped randomDrop dest t.draws with
  | mk drop d =>
  rw [hdrop] at hr
  simp only at hr ⊢
  cases drop with
  | true =>
    cases hr
    rw [if_pos (.inl rfl), Byte.xor_zero]
  | false =>
    simp only [Bool.false_eq_true, if_false, false_or] at hr ⊢
    unfold add at hr
    split at hr
    · rename_i hfull
      cases hr
      rw [if_pos hfull, Byte.xor_zero]
    · rename_i hroom
      rw [if_pos rfl] at hr
      obtain ⟨r1, hsend, hr⟩ := bind_ok.mp hr
      cases hr
      rw [if_neg hroom]
      exact mySend_covers h hcook hp hsend j hj

theorem delaySendBatch_one (h : ctx.Ready simd) (hcook : dest.cook = true) (hp : p.Lies) {randomDrop : Nat} {r : SentBatch}
    (hr : delaySendBatch simd ctx randomDrop dest [(0, p)] t = .ok r) : ∃ q, r.packets = [q] ∧
      ∀ j < p.len, q.data.mem j = p.data.mem j ^^^ sendCover ctx randomDrop dest t j := by
  unfold delaySendBatch at hr
  rw [if_neg fun hmany => absurd hmany.1 (by simp)] at hr
  obtain ⟨⟨ps, t'⟩, hsends, hr⟩ := bind_ok.mp hr
  cases hr
  obtain ⟨q, t1, qs, hone, hrest, rfl⟩ := passAll_cons.mp hsends
  cases hrest
  cases hs : delaySend simd ctx randomDrop 0 dest p t with
  | error f =>
    simp only [hs] at hone
    cases hone
  | ok r1 =>
    simp only [hs] at hone
    cases hone
    exact ⟨_, rfl, delaySend_covers h hcook hp hs⟩

end One

/-! ## Runs -/

/-- A call of the send path: the encoder before, what it was called with, and what came back. -/
structure SendCall where
  before : FecEncodeManager
  o : EncodeOptions
  s : Option Bytes
  p : DelayOptions
  dest : Dest
  sender : Sender
  out : PathOut

/-- Any calls of a new encoder's send path, to cooked destinations and without delays, whatever
    the parameters and the state of the sender at each of them. -/
inductive Sending (simd : Simd) (ctx : CookCtx) : List SendCall → FecEncodeManager → Prop
  | start {e0 e : FecEncodeManager} {g : FecParameter} {seq : U32} (hc : e0.construct g seq = .ok e) : Sending simd ctx [] e
  | call {log : List SendCall} {e : FecEncodeManager} (h : Sending simd ctx log e) {p : DelayOptions} {currentTime : Nat} {dest : Dest}
      {o : EncodeOptions} {s : Option Bytes} {t : Sender} {out : PathOut} (hno : p.NoDelay) (hcook : dest.cook = true)
      (hr : sendPath simd ctx p currentTime dest e o s t = .ok out) : Sending simd ctx (log ++ [⟨e, o, s, p, dest, t, out⟩]) out.st

namespace SendCall

/-- The mode the call was served in. -/
def mode (c : SendCall) : Nat := c.out.st.fecPar.mode

/-- It closed a mode 1 group. -/
def Closes (c : SendCall) : Prop := c.mode = 1 ∧ c.out.st.counter = 0 ∧ (c.before.counter ≠ 0 ∨ c.s.isSome)

/-- The packets of the pending mode 1 group after it, each with the call that sent it. -/
def after (c : SendCall) (l : List (SendCall × Bytes)) : List (SendCall × Bytes) :=
  if c.mode = 1 ∧ c.out.st.counter ≠ 0 then l ++ c.s.toList.map (c, ·) else []

end SendCall

/-- The packets that were sent in the rows of the pending group. -/
def earlySends (log : List SendCall) : List (SendCall × Bytes) := log.foldl (fun l c => c.after l) []

/-- What a row holds once its packet has been sent: the packet behind its length, covered. -/
def sentRow (ctx : CookCtx) (x : SendCall × Bytes) : Bytes :=
  mask (fun j => sendCover ctx x.1.p.randomDrop x.1.dest x.1.sender (8 + j)) (record x.2)

/-- What a run keeps: the rows of the pending mode 1 group as they were sent. -/
structure Kept (ctx : CookCtx) (e : FecEncodeManager) (l : List (SendCall × Bytes)) : Prop where
  ready : e.readyForOutput = false
  blob : e.fecPar.mode ≠ 1 → l = []
  count : e.fecPar.mode = 1 → e.counter = l.length
  rows : e.fecPar.mode = 1 → e.Keeps (l.map (sentRow ctx))

theorem Kept.nil {ctx : CookCtx} {e : FecEncodeManager} (hready : e.readyForOutput = false) (hcount : e.fecPar.mode = 1 → e.counter = 0) :
    Kept ctx e [] := ⟨hready, fun _ => rfl, hcount, fun _ => .nil _⟩

theorem takeUp_kept {ctx : CookCtx} {e e' : FecEncodeManager} {l : List (SendCall × Bytes)} {g : FecParameter} (h : Kept ctx e l)
    (hr : e.takeUp g = .ok e') : Kept ctx e' l := by
  obtain ⟨hsame, hkeep⟩ := takeUp_ok hr
  by_cases hc : e.counter = 0
  · -- nothing is pending, so the mode may change
    have hnone : l = [] := by
      by_cases h1 : e.fecPar.mode = 1
      · exact List.length_eq_zero_iff.mp ((h.count h1).symm.trans hc)
      · exact h.blob h1
    rw [hnone, hsame]
    exact .nil h.ready fun _ => hc
  · rw [hkeep hc]
    exact h

section Call

variable {simd : Simd} {ctx : CookCtx} {p : DelayOptions} {currentTime : Nat} {dest : Dest} {e : FecEncodeManager} {o : EncodeOptions}
  {s : Option Bytes} {t : Sender} {out : PathOut}

/-- Without delays the path is `input`, and the rows it hands out sent where they lie. -/
theorem sendPath_eq (hno : p.NoDelay) : sendPath simd ctx p currentTime dest e o s t = (do
    let (e', _) ← e.input o s
    let rows := e'.output.2.getD []
    let r ← delaySendBatch simd ctx p.randomDrop dest (rows.map fun x => (0, rowPacket e' x)) t
    .ok ⟨{ e' with readyForOutput := false, inputBuf := edited e'.inputBuf rows r.packets }, e'.sentBy.getD [], r.sender⟩) := by
  have hzip : ∀ (e : FecEncodeManager) (xs : List (Nat × Nat)), (List.replicate xs.length 0).zip (xs.map (rowPacket e)) =
      xs.map fun x => (0, rowPacket e x) := by
    intro e xs
    induction xs with
    | nil => rfl
    | cons x xs ih => rw [List.length_cons, List.replicate_succ, List.map_cons, List.zip_cons_cons, ih, List.map_cons]
  have hsent : ∀ e' : FecEncodeManager, ({ e' with readyForOutput := false } : FecEncodeManager).datagrams (e'.output.2.getD []) =
      e'.sentBy.getD [] := by
    intro e'
    rw [← output_frame]
    unfold sentBy
    cases e'.output.2 <;> rfl
  unfold sendPath fromNormalToFec
  cases e.input o s with
  | error f => rfl
  | ok x =>
    simp only [ok_bind, outDelay_zero hno, hzip, hsent, output_frame]
    rfl

theorem sendPath_took (hno : p.NoDelay) (hr : sendPath simd ctx p currentTime dest e o s t = .ok out) : ∃ e0 e' ret r,
    e.takeUp o.gFecPar = .ok e0 ∧ (e0.fecPar.mode = 0 ∨ e0.fecPar.mode = 1) ∧ Took o e0 s e' ret ∧
    delaySendBatch simd ctx p.randomDrop dest ((e'.output.2.getD []).map fun x => (0, rowPacket e' x)) t = .ok r ∧
    out.st = { e' with readyForOutput := false, inputBuf := edited e'.inputBuf (e'.output.2.getD []) r.packets } ∧
    out.shards = e'.sentBy.getD [] := by
  rw [sendPath_eq hno] at hr
  obtain ⟨⟨e', ret⟩, hin, hr⟩ := bind_ok.mp hr
  obtain ⟨r, hbatch, hr⟩ := bind_ok.mp hr
  cases hr
  obtain ⟨e0, htake, hmode, htook⟩ := input_took hin
  exact ⟨e0, e', ret, r, htake, hmode, htook, hbatch, rfl, rfl⟩

theorem mem_mask {pad : Nat → Byte} {q : Bytes} {j : Nat} (hj : j < q.length) : mem (mask pad q) j = mem q j ^^^ pad j := by
  unfold mem
  rw [List.getD_eq_getElem _ _ (by rw [mask_length]; exact hj), List.getD_eq_getElem _ _ hj]
  simp [mask]

/-- The last row, once something was laid over it. -/
theorem keeps_covered {e e' : FecEncodeManager} {rs : List Bytes} {q : Bytes} {m pad : Nat → Byte} (h : e.Keeps (rs ++ [q]))
    (hlen : e'.inputLen = e.inputLen) (hbuf : e'.inputBuf = upd e.inputBuf rs.length m)
    (hm : ∀ j < 8 + q.length, m j = e.inputBuf rs.length j ^^^ pad j) : e'.Keeps (rs ++ [mask (fun j => pad (8 + j)) q]) := by
  have hlast := h.row rs.length (by simp)
  rw [List.getElem_concat_length rfl] at hlast
  refine ⟨?_, ?_⟩
  · intro i hi
    rw [hlen, h.len i (by simpa using hi)]
    rw [List.length_append, List.length_singleton] at hi
    by_cases e : i = rs.length
    · subst e
      rw [List.getElem_concat_length rfl, List.getElem_concat_length rfl, mask_length]
    · rw [List.getElem_append_left (by omega), List.getElem_append_left (by omega)]
  · intro i hi
    rw [hbuf]
    by_cases e : i = rs.length
    · subst e
      rw [upd_same, List.getElem_concat_length rfl]
      intro j hj
      rw [mask_length] at hj
      rw [hm _ (by omega), hlast j hj, mem_mask hj]
    · have hi : i < rs.length := by rw [List.length_append, List.length_singleton] at hi; omega
      rw [upd_ne _ _ e, List.getElem_append_left hi]
      have := h.row i (by simp; omega)
      rwa [List.getElem_append_left hi] at this

/-- A mode 1 packet that leaves its group open. -/
theorem kept_sent (h : ctx.Ready simd) (hcook : dest.cook = true) {e0 e1 e2 : FecEncodeManager} {l : List (SendCall × Bytes)} {q : Bytes}
    (hk : Kept ctx e0 l) (h1 : e0.fecPar.mode = 1) (happend : e0.append o.now q = .ok e1) (hsend : e1.fastSend = .ok e2) {r : SentBatch}
    (hbatch : delaySendBatch simd ctx p.randomDrop dest ((e2.output.2.getD []).map fun x => (0, rowPacket e2 x)) t = .ok r)
    (hst : out.st = { e2 with readyForOutput := false, inputBuf := edited e2.inputBuf (e2.output.2.getD []) r.packets }) :
    out.st.counter ≠ 0 ∧ Kept ctx out.st (l ++ [(⟨e, o, some q, p, dest, t, out⟩, q)]) := by
  have ha := append_ok happend
  obtain ⟨hcount, -, hpar, -, -, -⟩ := fastSend_frame hsend
  have hcnt : e1.counter = l.length + 1 := by rw [ha.counter, hk.count h1]
  have hrows : e1.Keeps (l.map (sentRow ctx) ++ [record q]) :=
    (hk.rows h1).append (by rw [hk.count h1, List.length_map]) h1 happend
  have hlen : e1.inputLen l.length = (record q).length := by
    have := hrows.len (l.map (sentRow ctx)).length (by simp)
    rwa [List.getElem_concat_length rfl, List.length_map] at this
  -- one row is handed out, and edited
  have hout : e2.output.2 = some [(l.length, 8 + (record q).length)] := by
    rw [fastSend_output hsend, hcnt, Nat.add_sub_cancel, hlen, Nat.add_comm]
  simp only [hout, Option.getD_some, List.map_cons, List.map_nil] at hbatch hst
  have hroom : (rowPacket e2 (l.length, 8 + (record q).length)).Lies := by
    have := ((append_ok happend).row h1).2.1
    show 8 + (record q).length ≤ bufLen
    rw [record_length]
    omega
  obtain ⟨x, hx, hcover⟩ := delaySendBatch_one h hcook hroom hbatch
  rw [hx] at hst
  have hpar' : out.st.fecPar = e0.fecPar := by rw [hst]; exact hpar.trans ha.fecPar
  have hcount' : out.st.counter = l.length + 1 := by rw [hst]; exact hcount.trans hcnt
  refine ⟨by omega, by rw [hst], fun hne => absurd (hpar' ▸ h1) hne, fun _ => by simp [hcount'], fun _ => ?_⟩
  rw [List.map_append]
  refine keeps_covered (hrows.send hsend) (by rw [hst]) (m := x.data.mem) ?_ ?_
  · rw [hst, List.length_map]
    rfl
  · rw [List.length_map]
    exact hcover

/-- Each call leaves the rows of the pending group as they were sent. -/
theorem sendPath_kept (h : ctx.Ready simd) (hno : p.NoDelay) (hcook : dest.cook = true) {l : List (SendCall × Bytes)}
    (hk : Kept ctx e l) (hr : sendPath simd ctx p currentTime dest e o s t = .ok out) :
    Kept ctx out.st (SendCall.after ⟨e, o, s, p, dest, t, out⟩ l) := by
  obtain ⟨e0, e', ret, r, htake, -, htook, hbatch, hst, -⟩ := sendPath_took hno hr
  have hk := takeUp_kept hk htake
  have hpar : out.st.fecPar = e0.fecPar := by
    rw [hst]
    show e'.fecPar = e0.fecPar
    exact took_fecPar htook
  have hready : out.st.readyForOutput = false := by rw [hst]
  have hcounter : out.st.counter = e'.counter := by rw [hst]
  -- all but an early send leave no mode 1 group open
  have hnone : (out.st.fecPar.mode = 1 → out.st.counter = 0) → Kept ctx out.st (SendCall.after ⟨e, o, s, p, dest, t, out⟩ l) := by
    intro hclosed
    unfold SendCall.after SendCall.mode
    rw [if_neg fun hopen => hopen.2 (hclosed hopen.1)]
    exact .nil hready hclosed
  cases htook with
  | ignored hcount => exact hnone fun _ => hcounter.trans hcount
  | taken hopen hfits hmode happend => exact hnone fun h1 => by rw [hpar] at h1; omega
  | @sent q e1 _ tail hopen hmode happend hroom hsend =>
    obtain ⟨hopen, hkept⟩ := kept_sent (e := e) (o := o) h hcook hk hmode happend hsend hbatch hst
    unfold SendCall.after SendCall.mode
    rw [if_pos ⟨by rw [hpar]; exact hmode, hopen⟩]
    exact hkept
  | filled hopen hfits happend hfull hclose => exact hnone fun _ => hcounter.trans (close_frame hclose).2.1
  | flushed hopen hcount hclose => exact hnone fun _ => hcounter.trans (close_frame hclose).2.1
  | overran hopen hlong hcount hclose happend => exact hnone fun h1 => by rw [hpar] at h1; have := hlong.1; omega

end Call

theorem construct_kept {ctx : CookCtx} {e0 e : FecEncodeManager} {g : FecParameter} {seq : U32} (hc : e0.construct g seq = .ok e) :
    Kept ctx e [] := by
  obtain ⟨p, -, hc⟩ := bind_ok.mp hc
  cases hc
  exact .nil rfl fun _ => rfl

theorem earlySends_snoc (log : List SendCall) (c : SendCall) : earlySends (log ++ [c]) = c.after (earlySends log) := by
  simp [earlySends]

theorem Sending.kept {simd : Simd} {ctx : CookCtx} (h : ctx.Ready simd) {log : List SendCall} {e : FecEncodeManager}
    (hs : Sending simd ctx log e) : Kept ctx e (earlySends log) := by
  induction hs with
  | start hc => exact construct_kept hc
  | call _ hno hcook hr ih =>
    rw [earlySends_snoc]
    exact sendPath_kept h hno hcook ih hr

/-- A call of a run, from what the calls before it left. -/
theorem Sending.at {simd : Simd} {ctx : CookCtx} {log : List SendCall} {e : FecEncodeManager} (h : Sending simd ctx log e)
    {past later : List SendCall} {c : SendCall} (hlog : log = past ++ c :: later) : Sending simd ctx past c.before ∧
      ∃ currentTime, c.p.NoDelay ∧ sendPath simd ctx c.p currentTime c.dest c.before c.o c.s c.sender = .ok c.out := by
  induction h generalizing later with
  | start hc => simp at hlog
  | @call log e h p currentTime dest o s t out hno hcook hr ih =>
    rcases concat_split hlog with ⟨-, rfl, rfl⟩ | ⟨later', -, hlog⟩
    · exact ⟨h, currentTime, hno, hr⟩
    · exact ih hlog

/-! ## A group closes -/

/-- The encoder as `input` closes a mode 1 group: with the packet it was called with, if any. -/
def atClose (e : FecEncodeManager) (o : EncodeOptions) (s : Option Bytes) : Except Fault FecEncodeManager := do
  let e ← e.takeUp o.gFecPar
  match s with
  | some s => e.append o.now s
  | none => .ok e

/-- Each row of the group has its packet behind its length, as it was given. -/
def Intact (e : FecEncodeManager) (ps : List Bytes) : Prop :=
  e.counter = ps.length ∧ ∀ i (hi : i < ps.length), slice (e.inputBuf i) 8 (e.inputLen i) = record ps[i]

/-- The packets sent early, and the one that closes their group. -/
def groupOf (l : List (SendCall × Bytes)) (c : SendCall) : List Bytes := l.map Prod.snd ++ c.s.toList

/-- What a call that closes a mode 1 group closes: the rows as they were sent, and its own. -/
theorem closes_ok {simd : Simd} {ctx : CookCtx} {c : SendCall} {currentTime : Nat} {l : List (SendCall × Bytes)} (hno : c.p.NoDelay)
    (hk : Kept ctx c.before l) (hr : sendPath simd ctx c.p currentTime c.dest c.before c.o c.s c.sender = .ok c.out) (hc : c.Closes) :
    ∃ e1 e2, atClose c.before c.o c.s = .ok e1 ∧ e1.fecPar = c.out.st.fecPar ∧ e1.seq = c.before.seq ∧
      e1.counter = (groupOf l c).length ∧ e1.Keeps (l.map (sentRow ctx) ++ c.s.toList.map record) ∧
      e1.close c.o c.s.isSome = .ok e2 ∧ c.out.shards = e2.sentBy.getD [] := by
  obtain ⟨e0, e', ret, r, htake, -, htook, hbatch, hst, hshards⟩ := sendPath_took hno hr
  have hk := takeUp_kept hk htake
  obtain ⟨h1, hcounter, hsome⟩ := hc
  have hpar : c.out.st.fecPar = e0.fecPar := by
    rw [hst]
    show e'.fecPar = e0.fecPar
    exact took_fecPar htook
  have hsame := (takeUp_ok htake).1
  have hseq : e0.seq = c.before.seq := by rw [hsame]
  have hcount : e0.counter = c.before.counter := by rw [hsame]
  unfold SendCall.mode at h1
  rw [hpar] at h1 ⊢
  have hcounter : e'.counter = 0 := by rw [← hcounter, hst]
  unfold groupOf atClose
  rw [htake, ok_bind]
  generalize c.s = s at htook hsome ⊢
  cases htook with
  | ignored hempty hwhy =>
    rcases hsome with hne | hsome
    · omega
    · obtain ⟨q, rfl⟩ := Option.isSome_iff_exists.mp hsome
      obtain ⟨tail, -, hlong⟩ := hwhy q rfl
      have := hlong.1
      omega
  | taken hopen hfits hmode happend => omega
  | sent hopen hmode happend hroom hsend =>
    have := (fastSend_frame hsend).1
    have := (append_ok happend).counter
    omega
  | @filled q e1 _ tail hopen hfits happend hfull hclose =>
    have ha := append_ok happend
    refine ⟨e1, e', happend, ha.fecPar, ha.seq.trans hseq, ?_, ?_, hclose, hshards⟩
    · rw [ha.counter, hk.count h1]
      simp
    · exact (hk.rows h1).append (by rw [hk.count h1, List.length_map]) h1 happend
  | flushed hopen hpos hclose =>
    refine ⟨e0, e', rfl, rfl, hseq, ?_, ?_, hclose, hshards⟩
    · rw [hk.count h1]
      simp
    · simpa using hk.rows h1
  | overran hopen hlong hpos hclose happend =>
    have := hlong.1
    omega

theorem keeps_intact_iff {ctx : CookCtx} {e : FecEncodeManager} {l : List (SendCall × Bytes)} {c : SendCall}
    (h : e.Keeps (l.map (sentRow ctx) ++ c.s.toList.map record)) (hcount : e.counter = (groupOf l c).length) :
    Intact e (groupOf l c) ↔ ∀ x ∈ l, sentRow ctx x = record x.2 := by
  have hrecords : (groupOf l c).map record = l.map (fun x => record x.2) ++ c.s.toList.map record := by
    simp [groupOf]
  have hlen : (l.map (sentRow ctx) ++ c.s.toList.map record).length = (groupOf l c).length := by simp [groupOf]
  generalize hrs : l.map (sentRow ctx) ++ c.s.toList.map record = rs at h hlen
  have hrow : ∀ i (hi : i < rs.length), slice (e.inputBuf i) 8 (e.inputLen i) = rs[i] := by
    intro i hi
    rw [h.len i hi]
    exact (h.row i hi).slice_eq
  calc Intact e (groupOf l c) ↔ rs = (groupOf l c).map record := by
        constructor
        · rintro ⟨-, hall⟩
          refine List.ext_getElem (by simpa using hlen) fun i h1 h2 => ?_
          rw [List.getElem_map, ← hall i (by omega), hrow i h1]
        · intro heq
          refine ⟨hcount, fun i hi => ?_⟩
          rw [hrow i (by omega), List.getElem_of_eq heq, List.getElem_map]
    _ ↔ l.map (sentRow ctx) = l.map fun x => record x.2 := by rw [hrecords, ← hrs, List.append_left_inj]
    _ ↔ ∀ x ∈ l, sentRow ctx x = record x.2 := List.map_inj_left

/-- A packet that was sent leaves no trace: `random_drop` took it, or `delay_manager` was full,
    or the IV and the key cancel out over the packet and its length. -/
def Traceless (ctx : CookCtx) (x : SendCall × Bytes) : Prop :=
  (dropped x.1.p.randomDrop x.1.dest x.1.sender.draws).1 = true ∨ x.1.sender.delayManager.full ∨
    ∀ j < 2 + x.2.length, ctx.cover (dropped x.1.p.randomDrop x.1.dest x.1.sender.draws).2 (8 + j) = 0

theorem sentRow_eq_iff {ctx : CookCtx} {x : SendCall × Bytes} : sentRow ctx x = record x.2 ↔ Traceless ctx x := by
  unfold sentRow Traceless
  rw [mask_eq_self, show (record x.2).length = 2 + x.2.length from record_length _]
  unfold sendCover
  by_cases hoff : (dropped x.1.p.randomDrop x.1.dest x.1.sender.draws).1 = true ∨ x.1.sender.delayManager.full
  · simp only [if_pos hoff, implies_true, true_iff]
    exact hoff.imp_right .inl
  · simp only [if_neg hoff]
    constructor
    · exact fun hzero => .inr (.inr hzero)
    · rintro (hdrop | hfull | hzero)
      · exact absurd (.inl hdrop) hoff
      · exact absurd (.inr hfull) hoff
      · exact hzero

/-- The shards a call sends are those of the packets: its own, if any, and the parity. -/
def EmitsGroup (c : SendCall) (ps : List Bytes) : Prop :=
  c.out.shards = c.s.toList.map (packetShard c.before.seq (ps.length - 1)) ++
    parityShards c.before.seq ps (c.out.st.fecPar.rsPar (ps.length - 1)).y

theorem emits_group {e1 e2 : FecEncodeManager} {c : SendCall} {l : List (SendCall × Bytes)} {ctx : CookCtx}
    (h : e1.Keeps (l.map (sentRow ctx) ++ c.s.toList.map record)) (hall : ∀ x ∈ l, sentRow ctx x = record x.2)
    (hcount : e1.counter = (groupOf l c).length) (h1 : e1.fecPar.mode = 1) (hpar : e1.fecPar = c.out.st.fecPar)
    (hseq : e1.seq = c.before.seq) (hclose : e1.close c.o c.s.isSome = .ok e2) (hshards : c.out.shards = e2.sentBy.getD []) :
    EmitsGroup c (groupOf l c) := by
  have hrows : e1.HasRows (groupOf l c) := by
    have hsame : l.map (sentRow ctx) = (l.map Prod.snd).map record := by
      rw [List.map_map]
      exact List.map_congr_left hall
    rw [hsame, ← List.map_append] at h
    exact hasRows_iff.mpr h
  unfold EmitsGroup
  rw [hshards, hrows.close hcount h1 hclose, Option.getD_some, hpar, hseq]
  congr 1
  unfold groupOf
  cases c.s with
  | none => rfl
  | some q => simp

/-- What the early sends of a run left to the call that closes the group. -/
theorem Sending.closes {simd : Simd} {ctx : CookCtx} (h : ctx.Ready simd) {log : List SendCall} {e : FecEncodeManager}
    (hs : Sending simd ctx log e) {past later : List SendCall} {c : SendCall} (hlog : log = past ++ c :: later) (hc : c.Closes) :
    ∃ e1, atClose c.before c.o c.s = .ok e1 ∧ (Intact e1 (groupOf (earlySends past) c) ↔ ∀ x ∈ earlySends past, Traceless ctx x) ∧
      ((∀ x ∈ earlySends past, Traceless ctx x) → EmitsGroup c (groupOf (earlySends past) c)) := by
  obtain ⟨hpast, currentTime, hno, hr⟩ := hs.at hlog
  obtain ⟨e1, e2, hat, hpar, hseq, hcount, hkeeps, hclose, hshards⟩ := closes_ok hno (hpast.kept h) hr hc
  refine ⟨e1, hat, ?_, ?_⟩
  · rw [keeps_intact_iff hkeeps hcount]
    exact forall₂_congr fun x _ => sentRow_eq_iff
  · intro hall
    exact emits_group hkeeps (fun x hx => sentRow_eq_iff.mpr (hall x hx)) hcount (hpar ▸ hc.1) hpar hseq hclose hshards

/-- When a mode 1 group closes, its rows are the packets as they were given, and its parity is
    theirs, if and only if no early send left a trace in them. -/
theorem send_keeps_iff (simd : Simd) (ctx : CookCtx) (h : ctx.Ready simd) (log : List SendCall) (e : FecEncodeManager)
    (hs : Sending simd ctx log e) (past later : List SendCall) (c : SendCall) (hlog : log = past ++ c :: later) (hc : c.Closes) :
    ((∃ e1, atClose c.before c.o c.s = .ok e1 ∧ Intact e1 (groupOf (earlySends past) c)) ∧ EmitsGroup c (groupOf (earlySends past) c)) ↔
      ∀ x ∈ earlySends past, Traceless ctx x := by
  obtain ⟨e1, hat, hintact, hemits⟩ := hs.closes h hlog hc
  constructor
  · rintro ⟨⟨e1', hat', hgood⟩, -⟩
    rw [hat] at hat'
    cases hat'
    exact hintact.mp hgood
  · intro hall
    exact ⟨⟨e1, hat, hintact.mpr hall⟩, hemits hall⟩

/-! ## One packet, then the timer -/

/-- One packet with room for cooking is sent, whatever becomes of it. -/
theorem delaySendBatch_one_run {simd : Simd} {ctx : CookCtx} (h : ctx.Ready simd) {dest : Dest} (hdest : dest.inner ≠ .none) {p : Packet}
    (hp : p.Sendable dest.cook) (randomDrop : Nat) (t : Sender) :
    ∃ r, delaySendBatch simd ctx randomDrop dest [(0, p)] t = .ok r := by
  have hone : ∃ r, delaySend simd ctx randomDrop 0 dest p t = .ok r := by
    unfold delaySend
    simp only
    split
    · exact ⟨_, rfl⟩
    · unfold add
      split
      · exact ⟨_, rfl⟩
      · obtain ⟨q, d, hcook, hq⟩ := cookFor_ok h hp (dropped randomDrop dest t.draws).2
        obtain ⟨r, hr, -⟩ := @mySend_ok simd ctx dest hdest p q { t with draws := (dropped randomDrop dest t.draws).2 } d hcook hq
        rw [if_pos rfl, hr]
        exact ⟨_, rfl⟩
  obtain ⟨r, hr⟩ := hone
  unfold delaySendBatch
  rw [if_neg fun hmany => absurd hmany.1 (by simp)]
  simp only [delaySends, passAll, hr]
  exact ⟨_, rfl⟩

/-- A table of two rows, 1:1 and 2:1, in mode 1. -/
def duo : EncodeOptions where
  gFecPar := { (default : FecParameter) with rsCnt := 2, rsPar := fun i => ⟨i + 1, 1⟩, mtu := 1250, queueLen := 200, mode := 1 }
  shortPacketOptimize := true
  headerOverhead := 40
  now := 1

theorem duo_inRange : duo.gFecPar.InRange := by
  refine ⟨⟨by decide, fun i hi => ?_, fun i hi => ?_⟩, by decide, by decide, .inr rfl⟩
  · rfl
  · have : i < 2 := hi
    show i + 1 + 1 ≤ 255
    omega

/-- A call that hands out one short row returns. -/
theorem sendPath_one {simd : Simd} {ctx : CookCtx} (h : ctx.Ready simd) {p : DelayOptions} (hno : p.NoDelay) (currentTime : Nat) {dest : Dest}
    (hdest : dest.inner ≠ .none) {e e' : FecEncodeManager} {o : EncodeOptions} {s : Option Bytes} {ret : Int}
    (hin : e.input o s = .ok (e', ret)) {i len : Nat} (hout : e'.output.2 = some [(i, len)]) (hlen : len + 37 ≤ bufLen) (t : Sender) :
    ∃ out buf, sendPath simd ctx p currentTime dest e o s t = .ok out ∧ out.st = { e' with readyForOutput := false, inputBuf := buf } := by
  have hroom : (rowPacket e' (i, len)).Sendable dest.cook :=
    ⟨show len ≤ bufLen by omega, fun _ => show len + 4 < 3800 by unfold bufLen maxDataLen at hlen; omega, fun _ => hlen⟩
  obtain ⟨r, hr⟩ := delaySendBatch_one_run h hdest hroom p.randomDrop t
  rw [sendPath_eq hno, hin, ok_bind]
  simp only [hout, Option.getD_some, List.map_cons, List.map_nil, hr, ok_bind]
  exact ⟨_, _, rfl, rfl⟩

def onTime : DelayOptions := ⟨false, 0, 0, 0, 0, 0⟩

theorem onTime_noDelay : onTime.NoDelay := ⟨rfl, rfl, rfl, rfl, rfl⟩

/-- A packet sent early, whatever the sender is then, and its group closed by the timer. -/
theorem exists_flush {simd : Simd} {ctx : CookCtx} (h : ctx.Ready simd) (t : Sender) : ∃ c1 c2 e, Sending simd ctx [c1, c2] e ∧
    c2.Closes ∧ earlySends [c1] = [(c1, [.ofNat 7])] ∧ c1.sender = t ∧ c1.p = onTime ∧ c1.dest = ⟨.fd 3, true⟩ := by
  have hlight : ¬ duo.Heavy := by
    unfold EncodeOptions.Heavy
    decide
  let e : FecEncodeManager := clearData { (default : FecEncodeManager) with fecPar := duo.gFecPar } 0
  have hnew : construct { (default : FecEncodeManager) with fecPar := duo.gFecPar } duo.gFecPar 0 = .ok e :=
    construct_self (by decide) 0
  have hsteady := construct_steady duo_inRange hnew
  -- the packet
  obtain ⟨⟨e1, ret⟩, hin, hheld, hopen⟩ := (@input_returns e duo (some [.ofNat 7]) hsteady duo_inRange fun q hq => by
    cases hq
    exact show 1 ≤ maxDataLen + 4 by decide).run hlight
  obtain ⟨e0, htake, -, htook⟩ := input_took hin
  obtain rfl : e = e0 := Except.ok.inj ((show e.takeUp duo.gFecPar = .ok e from if_neg fun h => h.2 rfl).symm.trans htake)
  obtain ⟨hpar1, hcount1, hlen1, hout1⟩ : e1.fecPar = duo.gFecPar ∧ e1.counter = 1 ∧ e1.inputLen 0 = 3 ∧
      e1.output.2 = some [(0, 11)] := by
    cases htook with
    | ignored hempty hwhy =>
      obtain ⟨tail, -, hlong⟩ := hwhy _ rfl
      exact absurd hlong.1 Nat.one_ne_zero
    | taken hopen' hfits hmode => exact absurd hmode Nat.one_ne_zero
    | @sent _ e2 _ tail hopen' h1 happend hroom hsend =>
      have ha := append_ok happend
      obtain ⟨hcount, -, hpar, -⟩ := fastSend_frame hsend
      have hkeeps := (Keeps.nil e).append rfl h1 happend
      have hcount2 : e2.counter = 1 := ha.counter
      have hlen2 : e2.inputLen 0 = 3 := hkeeps.len 0 (by decide)
      refine ⟨hpar.trans ha.fecPar, hcount.trans hcount2, (hkeeps.send hsend).len 0 (by decide), ?_⟩
      rw [fastSend_output hsend, hcount2, hlen2]
    | @filled _ e2 _ tail hopen' hfits happend hfull hclose =>
      have htail : tail = ⟨2, 1⟩ := (Except.ok.inj hopen'.last).symm
      have hcount2 : e2.counter = 1 := (append_ok happend).counter
      rcases hfull with ⟨h0, -⟩ | ⟨-, hfull⟩
      · rw [(append_ok happend).fecPar] at h0
        exact absurd h0 Nat.one_ne_zero
      · rw [hcount2, htail] at hfull
        exact absurd hfull (by decide)
    | overran hopen' hlong => exact absurd hlong.1 Nat.one_ne_zero
  obtain ⟨out1, buf1, hrun1, hst1⟩ := sendPath_one h onTime_noDelay 0 (show (⟨.fd 3, true⟩ : Dest).inner ≠ .none by decide) hin hout1
    (by decide) t
  have hsteady1 : out1.st.Steady := by
    rw [hst1]
    exact ⟨⟨hheld.par, hheld.queue, hheld.group, hheld.fresh, hheld.size, hheld.rows⟩, ⟨hopen.last, hopen.queue, hopen.group⟩, rfl⟩
  have hst1par : out1.st.fecPar = duo.gFecPar := by rw [hst1]; exact hpar1
  have hst1count : out1.st.counter = 1 := by rw [hst1]; exact hcount1
  have hst1len : out1.st.inputLen 0 = 3 := by rw [hst1]; exact hlen1
  -- the timer
  obtain ⟨⟨e2, ret2⟩, hin2, -, -⟩ := (@input_returns out1.st duo none hsteady1 duo_inRange fun q hq => by cases hq).run hlight
  obtain ⟨e0, htake2, -, htook2⟩ := input_took hin2
  obtain rfl : e0 = out1.st := (takeUp_ok htake2).2 (by omega)
  obtain ⟨hpar2, hcount2, hout2⟩ : e2.fecPar = duo.gFecPar ∧ e2.counter = 0 ∧ e2.output.2 = some [(1, 11)] := by
    cases htook2 with
    | ignored hempty => omega
    | flushed hopen' hcount hclose =>
      obtain ⟨hc, hout⟩ := close_output (by rw [hst1par]; rfl) hclose
      refine ⟨hc.fecPar.trans hst1par, hc.counter, ?_⟩
      have hlong : FecEncodeManager.longest out1.st.inputLen 1 = 3 := by simp [FecEncodeManager.longest, loop, hst1len]
      rw [hout, hst1count, hst1par, hlong]
      simp [packetToSend, shardLen, duo]
  obtain ⟨out2, buf2, hrun2, hst2⟩ := sendPath_one h onTime_noDelay 0 (show (⟨.fd 3, true⟩ : Dest).inner ≠ .none by decide) hin2 hout2
    (by decide) t
  refine ⟨⟨e, duo, some [.ofNat 7], onTime, ⟨.fd 3, true⟩, t, out1⟩, ⟨out1.st, duo, none, onTime, ⟨.fd 3, true⟩, t, out2⟩, out2.st,
    ((Sending.start hnew).call onTime_noDelay rfl hrun1).call onTime_noDelay rfl hrun2, ⟨?_, ?_, .inl ?_⟩, ?_, rfl, rfl, rfl⟩
  · show out2.st.fecPar.mode = 1
    rw [hst2]
    exact congrArg FecParameter.mode hpar2
  · show out2.st.counter = 0
    rw [hst2]
    exact hcount2
  · show out1.st.counter ≠ 0
    omega
  · unfold earlySends SendCall.after SendCall.mode
    simp only [List.foldl_cons, List.foldl_nil, Option.toList_some, List.map_cons, List.map_nil, List.nil_append]
    rw [if_pos ⟨by rw [hst1par]; rfl, by omega⟩]

/-- Under an IV of zeros, and without a key, the group is the packet. -/
theorem send_keeps_iff_flush : ∃ c1 c2 e, Sending .avx2 ctxPlain [c1, c2] e ∧ c2.Closes ∧
    (∃ e1, atClose c2.before c2.o c2.s = .ok e1 ∧ Intact e1 (groupOf (earlySends [c1]) c2)) ∧ EmitsGroup c2 (groupOf (earlySends [c1]) c2) := by
  obtain ⟨c1, c2, e, hs, hc, hearly, ht, hp, hd⟩ := exists_flush ctxPlain_ready (waiting 0)
  refine ⟨c1, c2, e, hs, hc, (send_keeps_iff .avx2 ctxPlain ctxPlain_ready [c1, c2] e hs [c1] [] c2 rfl hc).mpr fun x hx => ?_⟩
  rw [hearly, List.mem_singleton] at hx
  rw [hx]
  simp only [Traceless, ht, hp, hd]
  exact .inr (.inr (by decide))

/-- Any other IV is over the row when its group closes. -/
theorem send_spoils_group : ¬ ∀ (simd : Simd) (ctx : CookCtx), ctx.Ready simd → ∀ (log : List SendCall) (e : FecEncodeManager),
    Sending simd ctx log e → ∀ (past later : List SendCall) (c : SendCall), log = past ++ c :: later → c.Closes →
      (∃ e1, atClose c.before c.o c.s = .ok e1 ∧ Intact e1 (groupOf (earlySends past) c)) ∧ EmitsGroup c (groupOf (earlySends past) c) := by
  intro hclaim
  obtain ⟨c1, c2, e, hs, hc, hearly, ht, hp, hd⟩ :=
    exists_flush ctxPlain_ready { waiting 0 with draws := fun _ => 0x0101010101010101#64 }
  obtain ⟨⟨e1, hat, hgood⟩, -⟩ := hclaim .avx2 ctxPlain ctxPlain_ready [c1, c2] e hs [c1] [] c2 rfl hc
  obtain ⟨e1', hat', hintact, -⟩ := @Sending.closes _ _ ctxPlain_ready _ _ hs [c1] [] c2 rfl hc
  rw [hat] at hat'
  cases hat'
  have htrace := hintact.mp hgood (c1, [.ofNat 7]) (by rw [hearly]; exact List.mem_singleton_self _)
  simp only [Traceless, ht, hp, hd] at htrace
  exact absurd htrace (by decide)

end UdpSpeeder.Net
