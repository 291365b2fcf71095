/-
  UdpSpeeder.Manager.Pack — runs of the encoder in mode 0: the packets pending in the blob,
  and what a closed group hands out.

  `Holding` is what a run keeps: the blob holds the packets accepted since the last group was
  closed, and the encoder counts them. From it a closed group is its packets packed, cut
  into slices and coded, behind headers that say so (`encodeOne_blob`); the shape is one of
  the rows of the table (`pickShape_row`).
-/

import UdpSpeeder.Manager.Emit

namespace UdpSpeeder.Manager

open Lib Fec

/-- Shard `i` of a mode 0 group whose blob is `B`. -/
noncomputable def blobShard (seq : U32) (x y len : Nat) (B : Nat → Byte) (i : Nat) : Bytes :=
  headerBytes seq 0 x y i ++ slice (shard x (fun c j => B (len * c + j)) i) 0 len

namespace FecEncodeManager

/-! ## The shape -/

/-- With a numbered table the shape is a row of it. -/
theorem pickShape_row {o : EncodeOptions} {p : FecParameter} {b : BlobEncode} {tail shape : RsParameter} (hp : p.Numbered)
    (ht : p.getTail = .ok tail) (h : pickShape o p b tail = .ok shape) : ∃ i < p.rsCnt, shape = p.rsPar i := by
  unfold FecParameter.getTail at ht
  rw [check_bind] at ht
  obtain ⟨hcnt, ht⟩ := ht
  cases ht
  unfold pickShape at h
  split at h
  · obtain ⟨cost, -, h⟩ := bind_ok.mp h
    rw [check_bind] at h
    obtain ⟨hbest, h⟩ := h
    obtain ⟨best, -, h⟩ := bind_ok.mp h
    rw [check_bind] at h
    obtain ⟨hx, h⟩ := h
    cases h
    refine ⟨best.dataNum - 1, by omega, ?_⟩
    have hrow := hp (best.dataNum - 1) (by omega)
    rw [Nat.sub_add_cancel hx.1] at hrow
    exact congrArg (fun x => RsParameter.mk x _) hrow.symm
  · cases h
    exact ⟨p.rsCnt - 1, by omega, rfl⟩

theorem cut_blob {e e1 : FecEncodeManager} {o : EncodeOptions} {shape : RsParameter} {fecLen : Nat} (hmode : e.fecPar.mode = 0)
    (h : e.cut o = .ok (e1, shape, fecLen)) : ∃ tail blob, e.fecPar.getTail = .ok tail ∧
      pickShape o e.fecPar e.blobEncode tail = .ok shape ∧ e.blobEncode.output shape.x = .ok (blob, fecLen) ∧
        e1 = { e with blobEncode := blob } := by
  unfold cut at h
  rw [if_pos hmode] at h
  obtain ⟨tail, htail, h⟩ := bind_ok.mp h
  obtain ⟨shape', hshape, h⟩ := bind_ok.mp h
  obtain ⟨⟨blob, fecLen'⟩, hout, h⟩ := bind_ok.mp h
  cases h
  exact ⟨tail, blob, htail, hshape, hout, rfl⟩

theorem cut_rows {e e1 : FecEncodeManager} {o : EncodeOptions} {shape : RsParameter} {fecLen : Nat} (hmode : e.fecPar.mode ≠ 0)
    (h : e.cut o = .ok (e1, shape, fecLen)) : e.counter ≤ e.fecPar.rsCnt ∧ e1 = e ∧
      shape = ⟨e.counter, (e.fecPar.rsPar (e.counter - 1)).y⟩ ∧ fecLen = longest e.inputLen e.counter := by
  unfold cut at h
  rw [if_neg hmode, check_bind] at h
  obtain ⟨hle, h⟩ := h
  cases h
  exact ⟨hle, rfl, rfl, rfl⟩

/-- Cutting up a group moves nothing but the blob. -/
theorem cut_frame {e e1 : FecEncodeManager} {o : EncodeOptions} {shape : RsParameter} {fecLen : Nat}
    (h : e.cut o = .ok (e1, shape, fecLen)) : ∃ blob, e1 = { e with blobEncode := blob } := by
  by_cases h0 : e.fecPar.mode = 0
  · obtain ⟨tail, blob, -, -, -, he⟩ := cut_blob h0 h
    exact ⟨blob, he⟩
  · exact ⟨e.blobEncode, (cut_rows h0 h).2.1⟩

theorem close_fecPar {e e' : FecEncodeManager} {o : EncodeOptions} {given : Bool} (h : e.close o given = .ok e') :
    e'.fecPar = e.fecPar := by
  obtain ⟨e1, shape, fecLen, hcut, hc⟩ := close_ok h
  obtain ⟨blob, rfl⟩ := cut_frame hcut
  exact hc.fecPar

/-! ## The shards -/

/-- What `output` and the rows it points to are made of. -/
structure SameSent (e e' : FecEncodeManager) : Prop where
  inputBuf : e'.inputBuf = e.inputBuf
  ready : e'.readyForOutput = e.readyForOutput
  outputN : e'.outputN = e.outputN
  outputBuf : e'.outputBuf = e.outputBuf
  outputLen : e'.outputLen = e.outputLen

/-- The datagrams `output` hands out. -/
def sentBy (e : FecEncodeManager) : Option (List Bytes) := e.output.2.map e.output.1.datagrams

theorem SameSent.sentBy {e e' : FecEncodeManager} (h : SameSent e e') : e'.sentBy = e.sentBy := by
  unfold FecEncodeManager.sentBy output datagrams
  rw [h.ready, h.outputN, h.outputBuf, h.outputLen]
  split
  · simp only [h.inputBuf]
  · rfl

/-- A packet appended in mode 0 goes into the blob, so what was handed out stays. -/
theorem Appended.sentBy {e e' : FecEncodeManager} {now : Nat} {s : Bytes} (h : Appended e now s e') (h0 : e.fecPar.mode = 0) :
    e'.sentBy = e.sentBy := by
  obtain ⟨-, hrows, -⟩ := h.blob h0
  have hsame : SameSent e e' := ⟨hrows, h.ready, h.outputN, h.outputBuf, h.outputLen⟩
  exact hsame.sentBy

/-- The rows of a closed group, header and block. -/
theorem Closed.row {e e' : FecEncodeManager} {shape : RsParameter} {fecLen : Nat} {given : Bool}
    (hc : Closed e shape fecLen given e') (h0 : e.fecPar.mode = 0) {i : Nat} (hi : i < shape.x + shape.y) :
    HasAt (e'.inputBuf i) 0 (headerBytes e.seq 0 shape.x shape.y i) := by
  have h := putHeader_hasAt (e.inputBuf i) e.seq 0 shape.x shape.y i
  refine h.congr fun j hj => ?_
  rw [headerBytes_length] at hj
  rw [Nat.zero_add, hc.header i hi j hj]
  unfold shardRow
  rw [if_neg (by omega), h0]
  split
  · rw [copyTo_out _ _ (by omega)]
  · rfl

theorem Closed.sent_blob {e e' : FecEncodeManager} {shape : RsParameter} {fecLen : Nat} {given : Bool}
    (hc : Closed e shape fecLen given e') (h0 : e.fecPar.mode = 0)
    (hslices : ∀ i < shape.x, e.blobEncode.outputBuf i = fecLen * i) : e'.sentBy =
      some ((List.range (shape.x + shape.y)).map (blobShard e.seq shape.x shape.y fecLen e.blobEncode.inputBuf)) := by
  have hlist : e.handedOut shape given = List.range (shape.x + shape.y) := by
    unfold handedOut
    rw [if_neg (by omega)]
  have hout := @output_sent e' _ (e.shardLen shape fecLen) hc.ready hc.count hc.sent
  unfold sentBy
  rw [hout, hlist]
  simp only [Option.map_some, Option.some.injEq, datagrams, List.map_map]
  refine List.map_congr_left fun i hi => ?_
  have hi := List.mem_range.mp hi
  have hlen : e.shardLen shape fecLen i = 8 + fecLen := by
    unfold shardLen
    rw [if_neg (by omega)]
  simp only [Function.comp_apply, hlen]
  have hblock : HasAt (e'.inputBuf i) 8 (slice (shard shape.x (fun c j => e.blobEncode.inputBuf (fecLen * c + j)) i) 0 fecLen) := by
    refine fun j hj => ?_
    rw [slice_length] at hj
    rw [mem_slice _ _ _ hj, Nat.zero_add, hc.coded i hi j hj]
    refine shard_congr (fun c hc' => ?_) i
    unfold shardRow
    rw [if_neg (by omega), if_pos ⟨h0, hc'⟩, copyTo_in _ _ hj, hslices c hc']
  have := slice_row (hc.row h0 hi) hblock
  rw [slice_length, headerBytes_length] at this
  exact this

/-- A mode 0 group whose shape is one the code has, and whose shards fit their rows, can be
    closed. -/
theorem close_blob_run {e : FecEncodeManager} {o : EncodeOptions} {tail shape : RsParameter} (given : Bool)
    (h0 : e.fecPar.mode = 0) (htail : e.fecPar.getTail = .ok tail) (hshape : pickShape o e.fecPar e.blobEncode tail = .ok shape)
    (hpos : 0 < shape.x) (hsmall : shape.x + shape.y < 256) (hfit : 8 + roundUpDiv e.blobEncode.currentLen shape.x ≤ bufLen)
    (hready : e.readyForOutput = false) : ∃ e' B, e.close o given = .ok e' ∧ e'.fecPar = e.fecPar ∧ e'.sentBy = some
      ((List.range (shape.x + shape.y)).map
        (blobShard e.seq shape.x shape.y (roundUpDiv e.blobEncode.currentLen shape.x) B)) := by
  obtain ⟨blob, hout, hslices⟩ := e.blobEncode.output_run (show shape.x ≤ maxFecPacketNum + 100 by unfold maxFecPacketNum; omega)
  have hcut : e.cut o = .ok ({ e with blobEncode := blob }, shape, roundUpDiv e.blobEncode.currentLen shape.x) := by
    unfold cut
    rw [if_pos h0, htail, ok_bind, hshape, ok_bind, hout, ok_bind]
  obtain ⟨e', hclose, hc⟩ := @close_run e _ o given shape _ hcut hpos hsmall hfit (fun _ i hi => by
    show blob.outputBuf i + _ ≤ _
    rw [hslices i hi, ← Nat.mul_succ]
    have : roundUpDiv e.blobEncode.currentLen shape.x * i.succ ≤ bufLen * 255 := Nat.mul_le_mul (by omega) (by omega)
    unfold blobBufSize maxFecPacketNum
    unfold bufLen maxDataLen at *
    omega) hready
  exact ⟨e', blob.inputBuf, hclose, hc.fecPar, hc.sent_blob h0 hslices⟩

/-! ## Runs -/

/-- The packets still pending after a call: those before it and the one it took in, unless
    they made up a closed group. -/
def EncodeOut.pending (out : EncodeOut) (ps : List Bytes) (s : Option Bytes) : List Bytes :=
  if out.ret ≠ 0 then ps
  else if out.sent = none then ps ++ s.toList
  else if out.st.counter = 0 then []
  else s.toList

/-- The packets of the group a call has closed. -/
def EncodeOut.group (out : EncodeOut) (ps : List Bytes) (s : Option Bytes) : List Bytes :=
  if out.st.counter = 0 then ps ++ s.toList else ps

/-- Any calls of an encoder in mode 0, `output` called after each `input`: the encoder after
    them, and the packets it has accepted and not sent. -/
inductive Packs : FecEncodeManager → List Bytes → Prop
  | start {e0 e : FecEncodeManager} {g : FecParameter} {seq : U32} (hc : e0.construct g seq = .ok e) : Packs e []
  | call {e : FecEncodeManager} {ps : List Bytes} (hp : Packs e ps) {o : EncodeOptions} {s : Option Bytes} {out : EncodeOut}
      (he : e.encodeOne o s = .ok out) (hmode : out.st.fecPar.mode = 0) : Packs out.st (out.pending ps s)

/-- The blob holds the pending packets. -/
structure Holding (e : FecEncodeManager) (ps : List Bytes) : Prop where
  blob : e.blobEncode.Holds ps
  count : e.counter = ps.length
  ready : e.readyForOutput = false
  short : ∀ p ∈ ps, p.length ≤ 65535
  few : ps.length ≤ maxBlobPacketNum

/-- A group of the packets `ps`, as it was handed out. -/
structure Sliced (p : FecParameter) (ps : List Bytes) (x y len : Nat) (B : Nat → Byte) : Prop where
  row : p.Numbered → ∃ i < p.rsCnt, (⟨x, y⟩ : RsParameter) = p.rsPar i
  pos : 0 < x
  small : x + y < 256
  fits : 8 + len ≤ bufLen
  pack : HasAt B 0 (pack ps)
  len : len = roundUpDiv (Manager.pack ps).length x
  short : ∀ p ∈ ps, p.length ≤ 65535
  few : ps.length ≤ maxBlobPacketNum

theorem encodeOne_ok {e : FecEncodeManager} {o : EncodeOptions} {s : Option Bytes} {out : EncodeOut}
    (h : e.encodeOne o s = .ok out) : ∃ e' ret, e.input o s = .ok (e', ret) ∧ out = ⟨e'.output.1, ret, e'.sentBy⟩ := by
  obtain ⟨⟨e', ret⟩, hin, h⟩ := bind_ok.mp h
  cases h
  exact ⟨e', ret, hin, rfl⟩

theorem output_frame (e : FecEncodeManager) : e.output.1 = { e with readyForOutput := false } := by
  unfold output
  split
  · rfl
  · rename_i h
    rw [Bool.not_eq_true] at h
    rw [← h]

theorem sentBy_none {e : FecEncodeManager} (h : e.readyForOutput = false) : e.sentBy = none := by
  unfold sentBy output
  rw [if_neg (by simp [h])]
  rfl

theorem Holding.append {e e' : FecEncodeManager} {ps : List Bytes} {s : Bytes} (h : Holding e ps) (h0 : e.fecPar.mode = 0)
    {now : Nat} (hr : e.append now s = .ok e') : Holding e' (ps ++ [s]) := by
  have ha := append_ok hr
  obtain ⟨hblob, hshort, hfew⟩ := BlobEncode.input_holds h.blob (ha.blob h0).1
  refine ⟨hblob, by rw [ha.counter, h.count, List.length_append]; rfl, ha.ready.trans h.ready, fun p hp => ?_, by simpa using hfew⟩
  rcases List.mem_append.mp hp with hp | hp
  · exact h.short p hp
  · rw [List.mem_singleton.mp hp]
    exact hshort

/-- Closing hands the pending packets out, in a group of their own. -/
theorem Holding.close {e e' : FecEncodeManager} {ps : List Bytes} {o : EncodeOptions} {given : Bool} (h : Holding e ps)
    (h0 : e.fecPar.mode = 0) (hr : e.close o given = .ok e') : ∃ x y len B, Sliced e.fecPar ps x y len B ∧
      e'.sentBy = some ((List.range (x + y)).map (blobShard e.seq x y len B)) ∧ e'.fecPar = e.fecPar ∧ e'.counter = 0 ∧
        e'.blobEncode.Holds [] := by
  obtain ⟨e1, shape, fecLen, hcut, hc⟩ := close_ok hr
  obtain ⟨tail, blob, htail, hshape, hout, rfl⟩ := cut_blob h0 hcut
  have hfew := h.few
  unfold maxBlobPacketNum at hfew
  obtain ⟨hpack, hslices, hlen⟩ := BlobEncode.output_holds h.blob (by omega) hout
  refine ⟨shape.x, shape.y, fecLen, blob.inputBuf,
    ⟨fun hp => pickShape_row hp htail hshape, hc.pos, hc.small, hc.fits, hpack, hlen, h.short, h.few⟩,
    hc.sent_blob h0 hslices, hc.fecPar, hc.counter, ?_⟩
  rw [hc.blob]
  exact blob.clear_holds

/-- One call in mode 0: nothing is sent and the packet, if it was taken, is pending; or a group
    is closed, with the packet in it or before it. -/
theorem encodeOne_blob {e : FecEncodeManager} {ps : List Bytes} {o : EncodeOptions} {s : Option Bytes} {out : EncodeOut}
    (h : Holding e ps) (he : e.encodeOne o s = .ok out) (hmode : out.st.fecPar.mode = 0) :
    Holding out.st (out.pending ps s) ∧ (out.sent = none ∨ ∃ x y len B, Sliced out.st.fecPar (out.group ps s) x y len B ∧
      out.sent = some ((List.range (x + y)).map (blobShard e.seq x y len B))) := by
  obtain ⟨e', ret, hin, rfl⟩ := encodeOne_ok he
  obtain ⟨e0, htake, -, hstep⟩ := input_ok hin
  obtain ⟨hsame, -⟩ := takeUp_ok htake
  have h' : Holding e0 ps := by
    rw [hsame]
    exact ⟨h.blob, h.count, h.ready, h.short, h.few⟩
  have hseq : e0.seq = e.seq := by rw [hsame]
  simp only [EncodeOut.pending, EncodeOut.group, output_frame] at hmode ⊢
  rw [← hseq]
  cases hstep with
  | ignored => exact ⟨⟨h'.blob, h'.count, rfl, h'.short, h'.few⟩, .inl (sentBy_none h'.ready)⟩
  | @taken s e1 h0 happend =>
    have ha := h'.append h0 happend
    have hnone := sentBy_none ha.ready
    simp only [hnone, ne_eq, not_true_eq_false, if_false, if_true]
    exact ⟨⟨ha.blob, ha.count, rfl, ha.short, ha.few⟩, .inl trivial⟩
  | sent h1 happend hsend =>
    exfalso
    have hp := (append_ok happend).fecPar
    unfold fastSend at hsend
    rw [check_bind, check_bind, check_bind] at hsend
    cases hsend.2.2.2
    rw [hp] at hmode
    omega
  | @filled s e1 e2 tail htail happend hfull hclose =>
    have ha := append_ok happend
    have h0 : e0.fecPar.mode = 0 := by rwa [close_fecPar hclose, ha.fecPar] at hmode
    obtain ⟨x, y, len, B, hs, hsent, hp, hcount, hempty⟩ := (h'.append h0 happend).close (ha.fecPar ▸ h0) hclose
    simp only [hsent, hcount, ne_eq, not_true_eq_false, if_false, if_true, reduceCtorEq, Option.toList_some]
    rw [hp, ← ha.seq]
    exact ⟨⟨hempty, rfl, rfl, by simp, by simp⟩, .inr ⟨x, y, len, B, hs, rfl⟩⟩
  | @flushed e1 hcount0 hclose =>
    have h0 : e0.fecPar.mode = 0 := by rwa [close_fecPar hclose] at hmode
    obtain ⟨x, y, len, B, hs, hsent, hp, hcount, hempty⟩ := h'.close h0 hclose
    simp only [hsent, hcount, ne_eq, not_true_eq_false, if_false, if_true, reduceCtorEq, Option.toList_none, List.append_nil]
    rw [hp]
    exact ⟨⟨hempty, rfl, rfl, by simp, by simp⟩, .inr ⟨x, y, len, B, hs, rfl⟩⟩
  | @overran s e1 _ h0 hcount0 hclose happend =>
    obtain ⟨x, y, len, B, hs, hsent, hp, hcount, hempty⟩ := h'.close h0 hclose
    have ha := append_ok happend
    have hb := ha.blob (hp ▸ h0)
    obtain ⟨hblob, hshort, -⟩ := BlobEncode.input_holds hempty hb.1
    have hone : e'.counter = 1 := by rw [ha.counter, hcount]
    simp only [ha.sentBy (hp ▸ h0), hsent, hone, ne_eq, not_true_eq_false, if_false, reduceCtorEq, Option.toList_some,
      Nat.one_ne_zero]
    rw [ha.fecPar, hp]
    exact ⟨⟨hblob, rfl, rfl, by simpa using hshort, by simp [maxBlobPacketNum]⟩, .inr ⟨x, y, len, B, hs, rfl⟩⟩

theorem Packs.holding {e : FecEncodeManager} {ps : List Bytes} (h : Packs e ps) : Holding e ps := by
  induction h with
  | start hc =>
    obtain ⟨p, -, hc⟩ := bind_ok.mp hc
    cases hc
    exact ⟨BlobEncode.clear_holds _, rfl, rfl, by simp, by simp⟩
  | call hp he hmode ih => exact (encodeOne_blob ih he hmode).1

end FecEncodeManager

end UdpSpeeder.Manager
