/-
  UdpSpeeder.Manager.Shapes — the shapes an encoder may send and those a decoder lets in.

  `rs_from_str` takes `x + y` up to 255, the decoder refuses 255 and more. A row of 255 is
  one byte away from a good table and costs the peer every shard of it: `shapes_agree` says
  that this is the only disagreement, and that every such row can be picked
  (`exists_picked`), the tail row and the ones before it alike.
-/

import UdpSpeeder.Manager.Pack

namespace UdpSpeeder.Manager

open Lib Fec

namespace FecEncodeManager

/-! ## The decoder's checks on a mode 0 shard -/

/-- The sum is the only thing a mode 0 shard can be refused for. -/
theorem refused_blob (seq : U32) {x y i : Nat} (p : Bytes) (hx : 0 < x) (hi : i < x + y) :
    (Header.mk seq 0 x y i p).refused = if maxFecPacketNum ≤ x + y then some .tooMany else none := by
  unfold Header.refused
  rw [if_neg (by simp), if_neg (by simp), if_neg (by simp; omega)]
  split
  · rfl
  · rw [if_neg (by simp; omega)]

theorem parse_blobShard (seq : U32) {x y : Nat} (len : Nat) (B : Nat → Byte) {i : Nat} (hn : x + y < 256) (hi : i < x + y) :
    ∃ p, parseHeader (blobShard seq x y len B i) = some ⟨seq, 0, x, y, i, p⟩ :=
  ⟨_, parseHeader_headerBytes _ (by omega) (by omega) (by omega) (by omega)⟩

/-- Every shard of every group sent in mode 0 with the table of `p` passes the checks of
    the decoder; whatever the other settings, and whatever the packets. -/
def AllAccepted (p : FecParameter) : Prop :=
  ∀ (e : FecEncodeManager) (ps : List Bytes) (o : EncodeOptions) (s : Option Bytes) (out : EncodeOut) (shards : List Bytes),
    Packs e ps → e.encodeOne o s = .ok out → out.st.fecPar.mode = 0 → out.st.fecPar.SameTable p → out.sent = some shards →
      ∀ t ∈ shards, ∃ h, parseHeader t = some h ∧ h.refused = none

theorem accepted_of_rows {p : FecParameter} (hrows : FecParameter.RowsBelow p.rsPar p.rsCnt)
    (hsum : ∀ i < p.rsCnt, (p.rsPar i).x + (p.rsPar i).y ≠ 255) : AllAccepted p := by
  intro e ps o s out shards hpacks he hmode hsame hsent t ht
  rcases (encodeOne_blob hpacks.holding he hmode).2 with hnone | ⟨x, y, len, B, hs, hsent'⟩
  · rw [hnone] at hsent
    cases hsent
  rw [hsent] at hsent'
  cases hsent'
  obtain ⟨i, hi, rfl⟩ := List.mem_map.mp ht
  have hi := List.mem_range.mp hi
  obtain ⟨r, hr, hrow⟩ := hs.row fun j hj => by
    rw [hsame.rsPar j hj]
    exact (hrows j (hsame.rsCnt ▸ hj)).1
  rw [hsame.rsPar r hr] at hrow
  rw [hsame.rsCnt] at hr
  have hne := hsum r hr
  rw [← hrow] at hne
  change x + y ≠ 255 at hne
  have hsmall := hs.small
  obtain ⟨q, hq⟩ := parse_blobShard e.seq len B hs.small hi
  refine ⟨_, hq, ?_⟩
  rw [refused_blob e.seq q hs.pos hi, if_neg]
  show ¬ 255 ≤ x + y
  omega

/-! ## Every row can be picked -/

/-- Against an overhead that makes row `r` cost nothing, no other row wins: the shorter ones
    are over the mtu and the tail costs something. -/
theorem pickShape_free {o : EncodeOptions} {p : FecParameter} {b : BlobEncode} {r : Nat}
    (hrows : FecParameter.RowsBelow p.rsPar p.rsCnt) (hcnt : p.rsCnt < 256) (hr : 0 < r) (hrt : r ≤ p.rsCnt)
    (hopt : o.shortPacketOptimize = true) (hover : o.headerOverhead = -(b.getShardLenNext r 0))
    (hmtu : b.getShardLenNext r 0 ≤ p.mtu) (hsize : p.mtu ≤ 2000) (hbelow : ∀ j, 0 < j → j < r → p.mtu < b.getShardLenNext j 0)
    (hlast : r < p.rsCnt → b.getShardLenNext p.rsCnt 0 < b.getShardLenNext r 0) :
    pickShape o p b (p.rsPar (p.rsCnt - 1)) = .ok (p.rsPar (r - 1)) := by
  obtain ⟨htx, hty⟩ := hrows (p.rsCnt - 1) (by omega)
  rw [Nat.sub_add_cancel (by omega)] at htx
  generalize hv : b.getShardLenNext r 0 = v at hover hmtu hlast
  generalize hw : b.getShardLenNext p.rsCnt 0 = w at hlast
  generalize hy : (p.rsPar (p.rsCnt - 1)).y = y at hty
  have hwv : w ≤ v := by
    rcases Nat.lt_or_eq_of_le hrt with h | h
    · exact Nat.le_of_lt (hlast h)
    · rw [← hw, ← hv, h]
  -- what the tail costs fits an `int`
  obtain ⟨gap, rfl⟩ : ∃ gap, v = w + gap := ⟨v - w, by omega⟩
  have hprod : gap * (p.rsCnt + y) ≤ 2000 * 511 := Nat.mul_le_mul (by omega) (by omega)
  have hcost : ((w : Int) + -((w + gap : Nat) : Int)) * ((p.rsCnt : Int) + (y : Int)) = -((gap * (p.rsCnt + y) : Nat) : Int) := by
    push_cast
    ring
  have htail : tailCost o b (p.rsPar (p.rsCnt - 1)) = .ok (.ofInt 32 (-((gap * (p.rsCnt + y) : Nat) : Int))) := by
    unfold tailCost
    simp only [htx, hy, hw, hover, hcost]
    rw [check_true (by unfold intMax; omega), ok_bind]
  have hfree : ∀ row, rowCost o (w + gap) row = 0#32 := by
    intro row
    unfold rowCost
    rw [hover, BitVec.ofInt_neg, BitVec.ofInt_natCast, BitVec.add_right_neg, BitVec.zero_mul]
  have hsome : r < p.rsCnt → 0#32 < BitVec.ofInt 32 (-((gap * (p.rsCnt + y) : Nat) : Int)) := by
    intro hlt
    have hgap : 0 < gap * (p.rsCnt + y) := Nat.mul_pos (by have := hlast hlt; omega) (by omega)
    rw [BitVec.ofInt_neg, BitVec.ofInt_natCast, BitVec.lt_def, BitVec.toNat_neg, BitVec.toNat_ofNat, BitVec.toNat_ofNat]
    omega
  obtain ⟨best, hbest, hend⟩ := @loopE_ok _ _ (fun (m : Nat) (best : Best) =>
      (m < r → best = ⟨.ofInt 32 (-((gap * (p.rsCnt + y) : Nat) : Int)), p.rsCnt⟩) ∧ (r ≤ m → best = ⟨0#32, r⟩))
    (tryRow o p b) ⟨.ofInt 32 (-((gap * (p.rsCnt + y) : Nat) : Int)), p.rsCnt⟩ ⟨fun _ => rfl, fun h => by omega⟩ (p.rsCnt - 1) (by
      rintro m hm best ⟨h1, h2⟩
      obtain ⟨hx, -⟩ := hrows m (by omega)
      unfold tryRow
      simp only
      rw [check_true hx, ok_bind, hx]
      rcases Nat.lt_trichotomy (m + 1) r with hlt | heq | hgt
      · rw [if_pos (hbelow (m + 1) (by omega) hlt)]
        exact ⟨best, rfl, fun _ => h1 (by omega), fun h => by omega⟩
      · rw [heq, hv, if_neg (by omega), hfree, h1 (by omega), if_pos (hsome (by omega))]
        exact ⟨_, rfl, fun h => by omega, fun _ => rfl⟩
      · rw [h2 (by omega)]
        simp only [BitVec.not_lt_zero, if_false, ite_self]
        exact ⟨_, rfl, fun h => by omega, fun _ => rfl⟩)
  have hnum : best.dataNum = r := by
    by_cases h : p.rsCnt - 1 < r
    · rw [hend.1 h]
      show p.rsCnt = r
      omega
    · rw [hend.2 (by omega)]
  unfold pickShape
  rw [if_pos hopt, htail, ok_bind, check_true (by omega), ok_bind, htx, hbest, ok_bind, check_true (by omega), ok_bind, hnum]
  have hrow := (hrows (r - 1) (by omega)).1
  rw [Nat.sub_add_cancel hr] at hrow
  exact congrArg Except.ok (congrArg (fun x => RsParameter.mk x _) hrow.symm)

/-! ## A run that picks a row -/

theorem append_run {e : FecEncodeManager} (now : Nat) {s : Bytes} (h0 : e.fecPar.mode = 0)
    (hfit : e.blobEncode.currentLen + s.length + 2 + 100 < blobBufSize) (hlen : s.length ≤ 65535)
    (hfew : e.blobEncode.counter + 1 ≤ maxBlobPacketNum) : ∃ e', e.append now s = .ok e' := by
  generalize hstart : (if e.counter = 0 then { e with firstPacketTime := now, timer := some e.fecPar.timeout } else e) = e1
  have hsame : e1.fecPar = e.fecPar ∧ e1.blobEncode = e.blobEncode := by
    rw [← hstart]
    split <;> exact ⟨rfl, rfl⟩
  unfold append BlobEncode.input
  simp only [hstart]
  rw [if_pos (by rw [hsame.1]; exact h0), hsame.2, check_true hfit, ok_bind, check_true hlen, ok_bind, check_true hfew, ok_bind,
    ok_bind]
  exact ⟨_, rfl⟩

/-- A mode 0 packet that fits is taken in. -/
theorem input_fits {e : FecEncodeManager} {o : EncodeOptions} {s : Bytes} {tail : RsParameter}
    (hver : e.fecPar.version = o.gFecPar.version) (h0 : e.fecPar.mode = 0) (htail : e.fecPar.getTail = .ok tail)
    (hfit : ¬ e.TooLong tail s.length) (hroom : e.counter < e.fecPar.queueLen) :
    e.input o (some s) = e.take o tail (some s) := by
  have htake : e.takeUp o.gFecPar = .ok e := by
    unfold takeUp
    rw [if_neg (fun h => h.2 hver)]
  rw [input_open htake (.inl h0) ⟨htail, fun _ => hroom, fun h1 => by omega⟩, if_neg (by simp)]
  simp only [Option.getD_some]
  rw [if_neg (fun h => hfit h.2.2), if_neg hfit]

/-- The packet that picks rows: with its length, 1993 bytes of the blob. -/
def probe : Bytes := List.replicate 1991 0

theorem probe_length : probe.length = 1991 := List.length_replicate

theorem body_probes (k : Nat) : (body (List.replicate k probe)).length = 1993 * k := by
  induction k with
  | zero => rfl
  | succ k ih =>
    rw [List.replicate_succ, body_cons, List.length_append, ih, record_length, probe_length]
    omega

/-- Settings under which `r` packets fill a group that is cut into `r` shards. -/
def probing (p : FecParameter) (r : Nat) : EncodeOptions where
  gFecPar := { p with mtu := 2000, queueLen := r, mode := 0 }
  shortPacketOptimize := true
  headerOverhead := -(roundUpDiv (6 + 1993 * r) r)
  now := 1

theorem probing_tail {p : FecParameter} (r : Nat) (hcnt : 1 ≤ p.rsCnt) :
    (probing p r).gFecPar.getTail = .ok (p.rsPar (p.rsCnt - 1)) := by
  have h : 1 ≤ (probing p r).gFecPar.rsCnt := hcnt
  unfold FecParameter.getTail
  rw [check_true h, ok_bind]
  rfl

/-- `k` of them pending. -/
structure Probed (p : FecParameter) (r k : Nat) (e : FecEncodeManager) : Prop where
  hold : Holding e (List.replicate k probe)
  fecPar : e.fecPar = (probing p r).gFecPar

section Probed

variable {p : FecParameter} {r k : Nat} {e : FecEncodeManager}

theorem Probed.counter (h : Probed p r k e) : e.counter = k := by rw [h.hold.count, List.length_replicate]

theorem Probed.currentLen (h : Probed p r k e) : e.blobEncode.currentLen = 4 + 1993 * k := by
  rw [h.hold.blob.len, body_probes]

theorem Probed.shardLen (h : Probed p r k e) (j len : Nat) :
    e.blobEncode.getShardLenNext j len = roundUpDiv (6 + 1993 * k + len) j := by
  unfold BlobEncode.getShardLenNext
  rw [h.currentLen]
  congr 1
  omega

theorem Probed.fits (h : Probed p r k e) {tail : RsParameter} (hk : k < r) (htail : r ≤ tail.x) :
    ¬ e.TooLong tail probe.length := by
  rintro ⟨-, hlong⟩
  rw [h.shardLen, h.fecPar] at hlong
  have hle : roundUpDiv (6 + 1993 * k + probe.length) tail.x ≤ 2000 := by
    rw [roundUpDiv_le_iff (by omega), probe_length]
    omega
  exact absurd hlong (by show ¬ 2000 < _; omega)

/-- The next one joins them. -/
theorem Probed.append (h : Probed p r k e) (now : Nat) (hk : k < 255) : ∃ e1, e.append now probe = .ok e1 ∧ e1.seq = e.seq ∧
    Probed p r (k + 1) e1 := by
  have h0 : e.fecPar.mode = 0 := by rw [h.fecPar]; rfl
  have hc := h.hold.blob.count
  rw [List.length_replicate] at hc
  obtain ⟨e1, happend⟩ := append_run now h0 (by
    rw [h.currentLen, probe_length]
    unfold blobBufSize maxFecPacketNum bufLen maxDataLen
    omega) (show probe.length ≤ 65535 by rw [probe_length]; omega) (by rw [hc]; unfold maxBlobPacketNum; omega)
  have ha := append_ok happend
  have hold := h.hold.append h0 happend
  rw [← List.replicate_succ'] at hold
  exact ⟨e1, happend, ha.seq, hold, ha.fecPar.trans h.fecPar⟩

theorem Probed.input (h : Probed p r k e) (hcnt : 1 ≤ p.rsCnt) (hk : k < r) (htail : r ≤ (p.rsPar (p.rsCnt - 1)).x) :
    e.input (probing p r) (some probe) = e.take (probing p r) (p.rsPar (p.rsCnt - 1)) (some probe) := by
  refine input_fits (by rw [h.fecPar]) (by rw [h.fecPar]; rfl) (by rw [h.fecPar]; exact probing_tail r hcnt) (h.fits hk htail) ?_
  rw [h.counter, h.fecPar]
  exact hk

theorem Probed.full_iff (h : Probed p r k e) (tail : RsParameter) : e.Full tail ↔ k = r := by
  unfold Full
  rw [h.counter, h.fecPar]
  show 0 = 0 ∧ k = r ∨ 0 = 1 ∧ k = tail.x ↔ k = r
  omega

theorem Probed.next (h : Probed p r k e) (hcnt : 1 ≤ p.rsCnt) (hk : k + 1 < r) (hr : r ≤ 255)
    (htail : r ≤ (p.rsPar (p.rsCnt - 1)).x) : ∃ out, e.encodeOne (probing p r) (some probe) = .ok out ∧ out.ret = 0 ∧
      out.sent = none ∧ Probed p r (k + 1) out.st := by
  obtain ⟨e1, happend, -, h1⟩ := h.append (probing p r).now (by omega)
  have hin : e.input (probing p r) (some probe) = .ok (e1, 0) := by
    rw [h.input hcnt (by omega) htail]
    simp only [take]
    rw [happend, ok_bind, if_neg (by rw [h1.full_iff]; omega), if_neg (by rw [h1.fecPar]; exact Nat.zero_ne_one)]
  refine ⟨⟨e1.output.1, 0, e1.sentBy⟩, ?_, rfl, sentBy_none h1.hold.ready, ?_, ?_⟩
  · unfold encodeOne
    rw [hin, ok_bind]
    rfl
  · rw [output_frame]
    exact ⟨h1.hold.blob, h1.hold.count, rfl, h1.hold.short, h1.hold.few⟩
  · rw [output_frame]
    exact h1.fecPar

/-- With `r` of them pending, row `r` is picked. -/
theorem Probed.pick (h : Probed p r r e) (hrows : FecParameter.RowsBelow p.rsPar p.rsCnt) (hcnt : p.rsCnt < 256) (hr : 0 < r)
    (hrt : r ≤ p.rsCnt) : pickShape (probing p r) e.fecPar e.blobEncode (p.rsPar (p.rsCnt - 1)) = .ok (p.rsPar (r - 1)) := by
  have hcost : ∀ j, e.blobEncode.getShardLenNext j 0 = roundUpDiv (6 + 1993 * r) j := fun j => h.shardLen j 0
  have htop : ¬ roundUpDiv (6 + 1993 * r) r ≤ 1992 := by
    rw [roundUpDiv_le_iff hr]
    omega
  rw [h.fecPar]
  refine @pickShape_free (probing p r) (probing p r).gFecPar e.blobEncode r hrows hcnt hr hrt rfl ?_ ?_ le_rfl ?_ ?_
  · rw [hcost]
    rfl
  · rw [hcost, roundUpDiv_le_iff hr]
    show 6 + 1993 * r ≤ r * 2000
    omega
  · intro j hj hjr
    rw [hcost]
    by_contra hle
    rw [Nat.not_lt, roundUpDiv_le_iff hj] at hle
    change 6 + 1993 * r ≤ j * 2000 at hle
    omega
  · intro hlt
    change r < p.rsCnt at hlt
    show e.blobEncode.getShardLenNext p.rsCnt 0 < _
    have hlow : roundUpDiv (6 + 1993 * r) p.rsCnt ≤ 1992 := by
      rw [roundUpDiv_le_iff (by omega)]
      omega
    rw [hcost, hcost]
    omega

/-- The last one closes the group, in the shape of the row, and none is left. -/
theorem Probed.last (h : Probed p r k e) (hrows : FecParameter.RowsBelow p.rsPar p.rsCnt) (hcnt : p.rsCnt < 256)
    (hk : k + 1 = r) (hrt : r ≤ p.rsCnt) (hsum : (p.rsPar (r - 1)).x + (p.rsPar (r - 1)).y < 256) :
    ∃ out len B, e.encodeOne (probing p r) (some probe) = .ok out ∧ out.ret = 0 ∧ Probed p r 0 out.st ∧ out.sent = some
      ((List.range ((p.rsPar (r - 1)).x + (p.rsPar (r - 1)).y)).map
        (blobShard e.seq (p.rsPar (r - 1)).x (p.rsPar (r - 1)).y len B)) := by
  have hx := (hrows (r - 1) (by omega)).1
  have htx := (hrows (p.rsCnt - 1) (by omega)).1
  rw [Nat.sub_add_cancel (by omega)] at hx htx
  obtain ⟨e1, happend, hseq, h1⟩ := h.append (probing p r).now (by omega)
  subst hk
  have hfit : 8 + roundUpDiv e1.blobEncode.currentLen (p.rsPar (k + 1 - 1)).x ≤ bufLen := by
    have : roundUpDiv e1.blobEncode.currentLen (p.rsPar (k + 1 - 1)).x ≤ 2000 := by
      rw [h1.currentLen, hx, roundUpDiv_le_iff (by omega)]
      omega
    unfold bufLen maxDataLen
    omega
  obtain ⟨e2, B, hclose, hpar, hsent⟩ := close_blob_run true (by rw [h1.fecPar]; rfl)
    (by rw [h1.fecPar]; exact probing_tail _ (by omega)) (h1.pick hrows hcnt (by omega) hrt) (by omega) hsum hfit h1.hold.ready
  have hin : e.input (probing p (k + 1)) (some probe) = .ok (e2, 0) := by
    rw [h.input (by omega) (by omega) (by omega)]
    simp only [take]
    rw [happend, ok_bind, if_pos ((h1.full_iff _).mpr rfl), hclose, ok_bind]
  refine ⟨⟨e2.output.1, 0, e2.sentBy⟩, roundUpDiv e1.blobEncode.currentLen (p.rsPar (k + 1 - 1)).x, B, ?_, rfl, ?_, ?_⟩
  · unfold encodeOne
    rw [hin, ok_bind]
    rfl
  · obtain ⟨e3, shape, fecLen, -, hc⟩ := close_ok hclose
    have hempty : e2.blobEncode.Holds [] := by
      rw [hc.blob]
      exact BlobEncode.clear_holds _
    rw [output_frame]
    exact ⟨⟨hempty, hc.counter, rfl, by simp, by simp⟩, hpar.trans h1.fecPar⟩
  · rw [← hseq]
    exact hsent

end Probed

/-- A new encoder has none of them. -/
theorem construct_probed {p : FecParameter} (r : Nat) (hcnt : 1 ≤ p.rsCnt) : ∃ e0 e : FecEncodeManager,
    e0.construct (probing p r).gFecPar 0 = .ok e ∧ e.seq = 0 ∧ Probed p r 0 e := by
  have hnew := @construct_self { (default : FecEncodeManager) with fecPar := (probing p r).gFecPar } hcnt 0
  exact ⟨_, _, hnew, rfl, (Packs.start hnew).holding, rfl⟩

/-- So they can all be sent to an encoder, one by one. -/
theorem exists_probed {p : FecParameter} {r : Nat} (hcnt : 1 ≤ p.rsCnt) (hr : r ≤ 255) (htail : r ≤ (p.rsPar (p.rsCnt - 1)).x)
    (k : Nat) (hk : k < r) : ∃ e, Packs e (List.replicate k probe) ∧ Probed p r k e := by
  induction k with
  | zero =>
    obtain ⟨e0, e, hnew, -, h⟩ := construct_probed r hcnt
    exact ⟨e, .start hnew, h⟩
  | succ k ih =>
    obtain ⟨e, hpacks, h⟩ := ih (by omega)
    obtain ⟨out, hone, hret, hsent, hnext⟩ := h.next hcnt hk hr htail
    have hmode : out.st.fecPar.mode = 0 := by rw [hnext.fecPar]; rfl
    have := hpacks.call hone hmode
    rw [EncodeOut.pending, if_neg (by rw [hret]; simp), if_pos hsent, Option.toList_some, ← List.replicate_succ'] at this
    exact ⟨out.st, this, hnext⟩

theorem rows_of_accepted {p : FecParameter} (hrows : FecParameter.RowsBelow p.rsPar p.rsCnt) (hcnt : p.rsCnt < 256)
    (h : AllAccepted p) : ∀ i < p.rsCnt, (p.rsPar i).x + (p.rsPar i).y ≠ 255 := by
  intro i hi hsum
  have hx := (hrows i hi).1
  have htx := (hrows (p.rsCnt - 1) (by omega)).1
  rw [Nat.sub_add_cancel (by omega)] at htx
  obtain ⟨e, hpacks, hp⟩ := @exists_probed p (i + 1) (by omega) (by omega) (by omega) i (by omega)
  obtain ⟨out, len, B, hone, -, hnext, hsent⟩ := hp.last hrows hcnt rfl (by omega) (by rw [Nat.add_sub_cancel, hsum]; decide)
  rw [Nat.add_sub_cancel] at hsent
  obtain ⟨h0, hparse, href⟩ := h e _ _ _ out _ hpacks hone (by rw [hnext.fecPar]; rfl)
    (by rw [hnext.fecPar]; exact ⟨rfl, fun _ _ => rfl⟩) hsent
    _ (List.mem_map_of_mem (List.mem_range.mpr (show 0 < _ by omega)))
  obtain ⟨q, hq⟩ := @parse_blobShard e.seq (p.rsPar i).x (p.rsPar i).y len B 0 (by omega) (by omega)
  rw [hq] at hparse
  cases hparse
  rw [refused_blob e.seq q (by omega) (by omega), hsum] at href
  cases href

/-! ## Tables that were parsed -/

/-- The decoder lets in every mode 0 shard sent with an accepted table if and only if no row
    of the table has `x + y` equal to 255. -/
theorem shapes_agree (p0 p : FecParameter) (s : List Char) (hs : p0.rsFromStr s = .ok (0, p)) :
    AllAccepted p ↔ ∀ i < p.rsCnt, (p.rsPar i).x + (p.rsPar i).y ≠ 255 := by
  obtain ⟨hrows, hcnt⟩ := FecParameter.rsFromStr_rows hs
  exact ⟨rows_of_accepted hrows hcnt, accepted_of_rows hrows⟩

/-- The table of the default option. -/
theorem shapes_agree_default : ∃ p, (default : FecParameter).rsFromStr "20:10".toList = .ok (0, p) ∧
    (AllAccepted p ↔ ∀ i < p.rsCnt, (p.rsPar i).x + (p.rsPar i).y ≠ 255) := by
  have hrun : ((default : FecParameter).rsFromStr "20:10".toList).toOption.map Prod.fst = some 0 := by decide +kernel
  cases h : (default : FecParameter).rsFromStr "20:10".toList with
  | error e => rw [h] at hrun; cases hrun
  | ok r =>
    obtain ⟨ret, p⟩ := r
    rw [h] at hrun
    cases hrun
    exact ⟨p, rfl, shapes_agree default p _ h⟩

/-- One data shard and 254 parity shards: the parser takes it, and the decoder takes none of
    them. -/
theorem shapes_differ : ¬ ∀ (p : FecParameter) (s : List Char), (default : FecParameter).rsFromStr s = .ok (0, p) →
    AllAccepted p := by
  intro hall
  have hrun : ((default : FecParameter).rsFromStr "1:254".toList).toOption.map (fun r => (r.1, r.2.rsCnt, r.2.rsPar 0)) =
      some (0, 1, ⟨1, 254⟩) := by decide +kernel
  cases h : (default : FecParameter).rsFromStr "1:254".toList with
  | error e => rw [h] at hrun; cases hrun
  | ok r =>
    obtain ⟨ret, p⟩ := r
    rw [h] at hrun
    simp only [Except.toOption, Option.map_some, Option.some.injEq, Prod.mk.injEq] at hrun
    obtain ⟨rfl, hcnt, hrow⟩ := hrun
    obtain ⟨hrows, hlt⟩ := FecParameter.rsFromStr_rows h
    exact rows_of_accepted hrows hlt (hall p _ h) 0 (by omega)
      (congrArg (fun r => r.x + r.y) hrow)

end FecEncodeManager

end UdpSpeeder.Manager
