/-
  UdpSpeeder.Manager.Emit — what one call of the encoder can do, said once (`input_ok`), and
  what a closed group puts on the wire (`close_ok`): every row its header and then its
  block of the code over the rows of the data shards.
-/

import UdpSpeeder.Manager.Group
import UdpSpeeder.Manager.Encode

namespace UdpSpeeder.Manager

open Lib Fec

/-! ## Datagrams -/

/-- The eight bytes in front of every shard. -/
def headerBytes (seq : U32) (mode dataNum redundantNum idx : Nat) : Bytes :=
  be32 seq.toNat ++ [.ofNat mode, .ofNat dataNum, .ofNat redundantNum, .ofNat idx]

@[simp] theorem headerBytes_length (seq : U32) (mode dataNum redundantNum idx : Nat) :
    (headerBytes seq mode dataNum redundantNum idx).length = 8 := rfl

theorem mem_headerBytes {seq : U32} {mode dataNum redundantNum idx : Nat} {p : Bytes} :
    let s := headerBytes seq mode dataNum redundantNum idx ++ p
    readU32 (mem s) 0 = seq ∧ (mem s 4).toNat = mode % 256 ∧ (mem s 5).toNat = dataNum % 256 ∧
      (mem s 6).toNat = redundantNum % 256 ∧ (mem s 7).toNat = idx % 256 := by
  refine ⟨?_, Byte.toNat_ofNat _, Byte.toNat_ofNat _, Byte.toNat_ofNat _, Byte.toNat_ofNat _⟩
  apply BitVec.eq_of_toNat_eq
  have h := seq.isLt
  have h0 : mem (headerBytes seq mode dataNum redundantNum idx ++ p) 0 = .ofNat (seq.toNat / 16777216) := rfl
  have h1 : mem (headerBytes seq mode dataNum redundantNum idx ++ p) 1 = .ofNat (seq.toNat / 65536) := rfl
  have h2 : mem (headerBytes seq mode dataNum redundantNum idx ++ p) 2 = .ofNat (seq.toNat / 256) := rfl
  have h3 : mem (headerBytes seq mode dataNum redundantNum idx ++ p) 3 = .ofNat seq.toNat := rfl
  simp only [readU32, Nat.zero_add, h0, h1, h2, h3, Byte.toNat_ofNat, BitVec.toNat_ofNat]
  omega

/-- A written header reads back. -/
theorem parseHeader_headerBytes {seq : U32} {mode dataNum redundantNum idx : Nat} (p : Bytes) (hm : mode < 256)
    (hd : dataNum < 256) (hr : redundantNum < 256) (hi : idx < 256) :
    parseHeader (headerBytes seq mode dataNum redundantNum idx ++ p) =
      some ⟨seq, mode, dataNum, redundantNum, idx, p⟩ := by
  obtain ⟨h0, h4, h5, h6, h7⟩ := @mem_headerBytes seq mode dataNum redundantNum idx p
  unfold parseHeader
  rw [if_neg (by simp), h0, h4, h5, h6, h7, Nat.mod_eq_of_lt hm, Nat.mod_eq_of_lt hd, Nat.mod_eq_of_lt hr,
    Nat.mod_eq_of_lt hi]
  rfl

namespace FecEncodeManager

theorem putHeader_out (row : Nat → Byte) (seq : U32) (mode dataNum redundantNum idx : Nat) {j : Nat} (hj : 8 ≤ j) :
    putHeader row seq mode dataNum redundantNum idx j = row j := by
  unfold putHeader
  rw [upd_ne _ _ (by omega), upd_ne _ _ (by omega), upd_ne _ _ (by omega), upd_ne _ _ (by omega), writeU32_out _ (by omega)]

theorem putHeader_hasAt (row : Nat → Byte) (seq : U32) (mode dataNum redundantNum idx : Nat) :
    HasAt (putHeader row seq mode dataNum redundantNum idx) 0 (headerBytes seq mode dataNum redundantNum idx) := by
  have hseq : BitVec.ofNat 32 seq.toNat = seq := BitVec.ofNat_toNat 32 seq |>.trans (BitVec.setWidth_eq seq)
  rw [headerBytes, HasAt.append]
  refine ⟨?_, ?_⟩
  · have h := writeU32_hasAt row seq.toNat seq.isLt
    rw [hseq] at h
    refine h.congr fun i hi => ?_
    have hi : i < 4 := hi
    unfold putHeader
    rw [upd_ne _ _ (by omega), upd_ne _ _ (by omega), upd_ne _ _ (by omega), upd_ne _ _ (by omega)]
  · intro i hi
    have hi : i < 4 := hi
    rcases i with _ | _ | _ | _ | i
    · rfl
    · rfl
    · rfl
    · rfl
    · omega

/-- A header and what follows it, read off a row. -/
theorem slice_row {row : Nat → Byte} {h p : Bytes} (hh : HasAt row 0 h) (hp : HasAt row h.length p) :
    slice row 0 (h.length + p.length) = h ++ p := by
  rw [slice_add, hh.slice_eq, Nat.zero_add, hp.slice_eq]

/-- A new encoder in memory that has the parameters already. -/
theorem construct_self {e : FecEncodeManager} (h : 1 ≤ e.fecPar.rsCnt) (seq : U32) :
    e.construct e.fecPar seq = .ok (e.clearData seq) := by
  unfold construct
  rw [FecParameter.clone_self h, ok_bind]

/-! ## Taking a packet in -/

/-- What `append` does, and what it leaves as it was. -/
structure Appended (e : FecEncodeManager) (now : Nat) (s : Bytes) (e' : FecEncodeManager) : Prop where
  seq : e'.seq = e.seq
  fecPar : e'.fecPar = e.fecPar
  counter : e'.counter = e.counter + 1
  ready : e'.readyForOutput = e.readyForOutput
  outputN : e'.outputN = e.outputN
  outputBuf : e'.outputBuf = e.outputBuf
  outputLen : e'.outputLen = e.outputLen
  timer : e'.timer = if e.counter = 0 then some e.fecPar.timeout else e.timer
  first : e'.firstPacketTime = if e.counter = 0 then now else e.firstPacketTime
  forOutput : e'.firstPacketTimeForOutput = e.firstPacketTimeForOutput
  blob : e.fecPar.mode = 0 → e.blobEncode.input s = .ok e'.blobEncode ∧ e'.inputBuf = e.inputBuf ∧ e'.inputLen = e.inputLen
  row : e.fecPar.mode = 1 → s.length ≤ 65535 ∧ 10 + s.length ≤ bufLen ∧ e.counter < maxFecPacketNum + 5 ∧
    e'.blobEncode = e.blobEncode ∧ e'.inputLen = upd e.inputLen e.counter (s.length + 2) ∧
      e'.inputBuf = upd e.inputBuf e.counter (copyTo (writeU16 (e.inputBuf e.counter) 8 s.length) 10 (mem s) s.length)

theorem append_ok {e e' : FecEncodeManager} {now : Nat} {s : Bytes} (h : e.append now s = .ok e') : Appended e now s e' := by
  -- the timer is started first, whatever the mode
  generalize hstart : (if e.counter = 0 then { e with firstPacketTime := now, timer := some e.fecPar.timeout } else e) = e1 at h
  have hsame : e1 = { e with
      firstPacketTime := if e.counter = 0 then now else e.firstPacketTime
      timer := if e.counter = 0 then some e.fecPar.timeout else e.timer } := by
    rw [← hstart]
    split <;> rfl
  unfold append at h
  simp only [hstart] at h
  subst hsame
  simp only at h
  split at h
  · rename_i h0
    obtain ⟨blob, hblob, h⟩ := bind_ok.mp h
    cases h
    exact ⟨rfl, rfl, rfl, rfl, rfl, rfl, rfl, rfl, rfl, rfl, fun _ => ⟨hblob, rfl, rfl⟩, fun h1 => by omega⟩
  · rename_i h0
    split at h
    · rw [check_bind] at h
      obtain ⟨hlen, h⟩ := h
      rw [check_bind] at h
      obtain ⟨hrow, h⟩ := h
      rw [check_bind] at h
      obtain ⟨hfit, h⟩ := h
      cases h
      exact ⟨rfl, rfl, rfl, rfl, rfl, rfl, rfl, rfl, rfl, rfl, fun h0' => absurd h0' h0, fun _ => ⟨hlen, hfit, hrow, rfl, rfl, rfl⟩⟩
    · cases h

/-! ## Closing a group -/

theorem writeShards_ok {e e' : FecEncodeManager} {shape : RsParameter} {fecLen : Nat}
    (h : e.writeShards shape fecLen = .ok e') : e' = { e with
      inputBuf := e'.inputBuf, outputLen := e'.outputLen, outputBuf := e'.outputBuf } ∧
    (0 < shape.x + shape.y → 8 + fecLen ≤ bufLen) ∧ ∀ i,
      e'.inputBuf i = (if i < shape.x + shape.y then e.shardRow shape fecLen i else e.inputBuf i) ∧
      (i < shape.x + shape.y → e'.outputLen i = e.shardLen shape fecLen i ∧ e'.outputBuf i = i) := by
  refine loopE_inv (fun (m : Nat) (t : FecEncodeManager) => t = { e with
      inputBuf := t.inputBuf, outputLen := t.outputLen, outputBuf := t.outputBuf } ∧ (0 < m → 8 + fecLen ≤ bufLen) ∧
    ∀ i, t.inputBuf i = (if i < m then e.shardRow shape fecLen i else e.inputBuf i) ∧
      (i < m → t.outputLen i = e.shardLen shape fecLen i ∧ t.outputBuf i = i))
    ⟨rfl, fun h => absurd h (by omega), fun i => ⟨by simp, fun h => by omega⟩⟩ _ e' h ?_
  rintro m hm t t' ⟨hsame, -, hrow⟩ ht
  rw [check_bind] at ht
  replace ht := ht.2
  rw [check_bind] at ht
  obtain ⟨hfit, ht⟩ := ht
  rw [check_bind] at ht
  replace ht := ht.2
  cases ht
  -- row `m` is made of the row as it was
  have h1 : t.shardRow shape fecLen m = e.shardRow shape fecLen m := by
    have hbuf : t.inputBuf m = e.inputBuf m := by rw [(hrow m).1, if_neg (by omega)]
    unfold shardRow
    rw [hbuf, hsame]
  have h2 : t.shardLen shape fecLen m = e.shardLen shape fecLen m := by
    unfold shardLen
    rw [hsame]
  refine ⟨by rw [hsame], fun _ => hfit, fun i => ⟨?_, fun hi => ⟨?_, ?_⟩⟩⟩
  · simp only [upd_apply, h1]
    by_cases e' : i = m
    · subst e'; simp
    · simp only [e', if_false, show i < m + 1 ↔ i < m by omega]
      exact (hrow i).1
  · simp only [upd_apply, h2]
    by_cases e' : i = m
    · subst e'; simp
    · simp only [e', if_false]
      exact ((hrow i).2 (by omega)).1
  · simp only [upd_apply]
    by_cases e' : i = m
    · simp [e']
    · simp only [e', if_false]
      exact ((hrow i).2 (by omega)).2

/-- The shards of a closed group that are handed out. -/
def handedOut (e : FecEncodeManager) (shape : RsParameter) (given : Bool) : List Nat :=
  if e.fecPar.mode = 1 then packetToSend shape given else List.range (shape.x + shape.y)

/-- A group of the encoder `e`, cut up as `shape` and `fecLen` say, and closed. -/
structure Closed (e : FecEncodeManager) (shape : RsParameter) (fecLen : Nat) (given : Bool) (e' : FecEncodeManager) : Prop where
  pos : 0 < shape.x
  small : shape.x + shape.y < 256
  fits : 8 + fecLen ≤ bufLen
  notReady : e.readyForOutput = false
  header : ∀ i < shape.x + shape.y, ∀ j < 8, e'.inputBuf i j = e.shardRow shape fecLen i j
  coded : ∀ i < shape.x + shape.y, ∀ j < fecLen,
    e'.inputBuf i (8 + j) = shard shape.x (fun c j => e.shardRow shape fecLen c (8 + j)) i j
  count : e'.outputN = (e.handedOut shape given).length
  sent : ∀ j (hj : j < (e.handedOut shape given).length), e'.outputBuf j = (e.handedOut shape given)[j] ∧
    e'.outputLen j = e.shardLen shape fecLen (e.handedOut shape given)[j]
  seq : e'.seq = e.seq + 1
  fecPar : e'.fecPar = e.fecPar
  counter : e'.counter = 0
  ready : e'.readyForOutput = true
  blob : e'.blobEncode = e.blobEncode.clear
  timer : e'.timer = none
  inputLen : e'.inputLen = e.inputLen
  forOutput : e'.firstPacketTimeForOutput = e.firstPacketTime
  first : e'.firstPacketTime = 0

theorem packetToSend_sorted {shape : RsParameter} (h : 0 < shape.x) (given : Bool) :
    (packetToSend shape given).Pairwise (· < ·) ∧ ∀ i ∈ packetToSend shape given, i < shape.x + shape.y := by
  have hparity : ((List.range shape.y).map (shape.x + ·)).Pairwise (· < ·) := by
    rw [List.pairwise_map]
    exact List.pairwise_lt_range.imp fun h => by omega
  unfold packetToSend
  cases given with
  | false => exact ⟨hparity, by simp⟩
  | true =>
    refine ⟨?_, ?_⟩
    · simp only [if_true, List.singleton_append, List.pairwise_cons]
      refine ⟨fun i hi => ?_, hparity⟩
      obtain ⟨r, -, rfl⟩ := List.mem_map.mp hi
      omega
    · intro i hi
      simp only [if_true, List.singleton_append, List.mem_cons, List.mem_map, List.mem_range] at hi
      rcases hi with rfl | ⟨r, hr, rfl⟩ <;> omega

/-- The shards are coded, each into its row. -/
theorem code_run (codes : CodeTable) (m : Mem Nat) {shape : RsParameter} {fecLen : Nat} (hpos : 0 < shape.x)
    (hsmall : shape.x + shape.y < 256) : ∃ codes' m',
      rsEncode2 shape.x (shape.x + shape.y) codes m (fun i => if i < shape.x + shape.y then some i else none) fecLen = .ok (codes', m') ∧
      Encoded shape.x (shape.x + shape.y) m id fecLen m' := by
  have hbuf : Buffers shape.x (shape.x + shape.y) (fun i => if i < shape.x + shape.y then some i else none) id :=
    ⟨fun i hi => by simp [hi], fun i _ j _ _ hne => hne⟩
  exact rsEncode2_spec codes m hpos (Nat.le_add_right _ _) hsmall hbuf

theorem close_ok {e e' : FecEncodeManager} {o : EncodeOptions} {given : Bool} (h : e.close o given = .ok e') :
    ∃ e1 shape fecLen, e.cut o = .ok (e1, shape, fecLen) ∧ Closed e1 shape fecLen given e' := by
  obtain ⟨⟨e1, shape, fecLen⟩, hcut, h⟩ := bind_ok.mp h
  obtain ⟨e2, hwrite, h⟩ := bind_ok.mp h
  obtain ⟨⟨codes, m⟩, hcode, h⟩ := bind_ok.mp h
  simp only at h
  rw [check_bind] at h
  obtain ⟨hready, h⟩ := h
  refine ⟨e1, shape, fecLen, hcut, ?_⟩
  obtain ⟨hsame, hfit, hrows⟩ := writeShards_ok hwrite
  -- only a code for a shape within the table was found
  obtain ⟨r, hget, -⟩ := bind_ok.mp hcode
  obtain ⟨hpos, -, hsmall⟩ := getCode_shape hget
  replace hfit := hfit (by omega)
  obtain ⟨codes', m', hcode', henc⟩ := code_run e2.codes (payloads e2.inputBuf) hpos hsmall
  rw [hcode] at hcode'
  cases hcode'
  -- what the two modes share
  have hblock : ∀ i < shape.x + shape.y, ∀ j < fecLen,
      withPayloads e2.inputBuf m i (8 + j) = shard shape.x (fun c j => e1.shardRow shape fecLen c (8 + j)) i j := by
    intro i hi j hj
    have hmem : ∀ c < shape.x, payloads e2.inputBuf c j = e1.shardRow shape fecLen c (8 + j) := by
      intro c hc
      unfold payloads
      rw [(hrows c).1, if_pos (by omega)]
    unfold withPayloads
    rw [if_neg (by omega), Nat.add_sub_cancel_left]
    by_cases hx : i < shape.x
    · rw [shard_data (by omega) hx]
      exact (congrFun (henc.data i hx) j).trans (hmem i hx)
    · exact (henc.parity i (by omega) hi j hj).trans (shard_congr hmem i)
  have hhead : ∀ i < shape.x + shape.y, ∀ j < 8, withPayloads e2.inputBuf m i j = e1.shardRow shape fecLen i j := by
    intro i hi j hj
    unfold withPayloads
    rw [if_pos hj, (hrows i).1, if_pos hi]
  have hmode : e2.fecPar = e1.fecPar := by rw [hsame]
  have hout : ∀ i < shape.x + shape.y, e2.outputBuf i = i ∧ e2.outputLen i = e1.shardLen shape fecLen i := fun i hi =>
    ⟨((hrows i).2 hi).2, ((hrows i).2 hi).1⟩
  have hready1 : e1.readyForOutput = false := by rw [← hready, hsame]
  have hseq : e2.seq + 1 = e1.seq + 1 := by rw [hsame]
  have hclear : e2.blobEncode.clear = e1.blobEncode.clear := by rw [hsame]
  have hlens : e2.inputLen = e1.inputLen := by rw [hsame]
  have hfirst : e2.firstPacketTime = e1.firstPacketTime := by rw [hsame]
  split at h
  · rename_i h1
    rw [hmode] at h1
    cases h
    obtain ⟨hsorted, hbelow⟩ := packetToSend_sorted hpos given
    have hlist : e1.handedOut shape given = packetToSend shape given := by unfold handedOut; rw [if_pos h1]
    refine ⟨hpos, hsmall, hfit, hready1, hhead, hblock, by rw [hlist]; rfl, ?_, hseq, hmode, rfl, rfl, hclear, rfl, hlens, hfirst, rfl⟩
    rw [hlist]
    intro j hj
    have hlt := hbelow _ (List.getElem_mem hj)
    exact ⟨(compact_sorted hsorted e2.outputBuf hj).trans (hout _ hlt).1,
      (compact_sorted hsorted e2.outputLen hj).trans (hout _ hlt).2⟩
  · rename_i h1
    rw [hmode] at h1
    cases h
    have hlist : e1.handedOut shape given = List.range (shape.x + shape.y) := by unfold handedOut; rw [if_neg h1]
    refine ⟨hpos, hsmall, hfit, hready1, hhead, hblock, by rw [hlist]; simp, ?_, hseq, hmode, rfl, rfl, hclear, rfl, hlens, hfirst, rfl⟩
    rw [hlist]
    intro j hj
    rw [List.getElem_range]
    exact hout j (by simpa using hj)

/-! ## A group that can be closed is -/

theorem writeShards_run {e : FecEncodeManager} {shape : RsParameter} {fecLen : Nat}
    (hn : shape.x + shape.y ≤ maxFecPacketNum + 5) (hfit : 8 + fecLen ≤ bufLen)
    (hblob : e.fecPar.mode = 0 → ∀ i < shape.x, e.blobEncode.outputBuf i + fecLen ≤ blobBufSize) :
    ∃ e', e.writeShards shape fecLen = .ok e' := by
  suffices h : ∃ e', e.writeShards shape fecLen = .ok e' ∧ e'.fecPar = e.fecPar ∧ e'.blobEncode = e.blobEncode by
    obtain ⟨e', h, -⟩ := h
    exact ⟨e', h⟩
  refine loopE_ok (fun (_ : Nat) (t : FecEncodeManager) => t.fecPar = e.fecPar ∧ t.blobEncode = e.blobEncode) ⟨rfl, rfl⟩ _ ?_
  rintro i hi t ⟨hp, hb⟩
  rw [check_true (by omega), ok_bind, check_true hfit, ok_bind, check_true (by rw [hp, hb]; exact fun h0 hx => hblob h0 i hx),
    ok_bind]
  exact ⟨_, rfl, hp, hb⟩

theorem close_run {e e1 : FecEncodeManager} {o : EncodeOptions} {given : Bool} {shape : RsParameter} {fecLen : Nat}
    (hcut : e.cut o = .ok (e1, shape, fecLen)) (hpos : 0 < shape.x) (hsmall : shape.x + shape.y < 256) (hfit : 8 + fecLen ≤ bufLen)
    (hblob : e1.fecPar.mode = 0 → ∀ i < shape.x, e1.blobEncode.outputBuf i + fecLen ≤ blobBufSize)
    (hready : e1.readyForOutput = false) : ∃ e', e.close o given = .ok e' ∧ Closed e1 shape fecLen given e' := by
  suffices h : ∃ e', e.close o given = .ok e' by
    obtain ⟨e', h⟩ := h
    obtain ⟨e2, shape2, fecLen2, hcut2, hc⟩ := close_ok h
    rw [hcut] at hcut2
    cases hcut2
    exact ⟨e', h, hc⟩
  obtain ⟨e2, hwrite⟩ := writeShards_run (by unfold maxFecPacketNum; omega) hfit hblob
  obtain ⟨hsame, -, -⟩ := writeShards_ok hwrite
  obtain ⟨codes, m, hcode, -⟩ := code_run e2.codes (payloads e2.inputBuf) hpos hsmall
  have hready2 : e2.readyForOutput = false := by rw [hsame]; exact hready
  unfold close
  rw [hcut, ok_bind]
  simp only
  rw [hwrite, ok_bind, hcode, ok_bind]
  simp only
  rw [check_true hready2, ok_bind]
  split
  · exact ⟨_, rfl⟩
  · exact ⟨_, rfl⟩

/-! ## One call of `input` -/

/-- The checks a call that does more than return -1 has passed. -/
structure Open (e : FecEncodeManager) (tail : RsParameter) : Prop where
  last : e.fecPar.getTail = .ok tail
  queue : e.fecPar.mode = 0 → e.counter < e.fecPar.queueLen
  group : e.fecPar.mode = 1 → e.counter < tail.x

/-- What a call of `input` can have done, from the encoder that has taken up its parameters,
    with what led to it. -/
inductive Took (o : EncodeOptions) (e : FecEncodeManager) : Option Bytes → FecEncodeManager → Int → Prop
  | ignored {s : Option Bytes} (hcount : e.counter = 0)
      (hwhy : ∀ p, s = some p → ∃ tail, e.fecPar.getTail = .ok tail ∧ e.TooLong tail p.length) : Took o e s e (-1)
  | taken {s : Bytes} {e1 : FecEncodeManager} {tail : RsParameter} (hopen : e.Open tail) (hfits : ¬ e.TooLong tail s.length)
      (hmode : e.fecPar.mode = 0) (happend : e.append o.now s = .ok e1) (hroom : ¬ e1.Full tail) : Took o e (some s) e1 0
  | sent {s : Bytes} {e1 e2 : FecEncodeManager} {tail : RsParameter} (hopen : e.Open tail) (hmode : e.fecPar.mode = 1)
      (happend : e.append o.now s = .ok e1) (hroom : ¬ e1.Full tail) (hsend : e1.fastSend = .ok e2) : Took o e (some s) e2 0
  | filled {s : Bytes} {e1 e2 : FecEncodeManager} {tail : RsParameter} (hopen : e.Open tail) (hfits : ¬ e.TooLong tail s.length)
      (happend : e.append o.now s = .ok e1) (hfull : e1.Full tail) (hclose : e1.close o true = .ok e2) : Took o e (some s) e2 0
  | flushed {e1 : FecEncodeManager} {tail : RsParameter} (hopen : e.Open tail) (hcount : e.counter ≠ 0)
      (hclose : e.close o false = .ok e1) : Took o e none e1 0
  | overran {s : Bytes} {e1 e2 : FecEncodeManager} {tail : RsParameter} (hopen : e.Open tail) (hlong : e.TooLong tail s.length)
      (hcount : e.counter ≠ 0) (hclose : e.close o true = .ok e1) (happend : e1.append o.now s = .ok e2) : Took o e (some s) e2 0

/-- The same without what led to it. -/
inductive Step (o : EncodeOptions) (e : FecEncodeManager) : Option Bytes → FecEncodeManager → Int → Prop
  | ignored {s : Option Bytes} : Step o e s e (-1)
  | taken {s : Bytes} {e1 : FecEncodeManager} (hmode : e.fecPar.mode = 0) (happend : e.append o.now s = .ok e1) : Step o e (some s) e1 0
  | sent {s : Bytes} {e1 e2 : FecEncodeManager} (hmode : e.fecPar.mode = 1) (happend : e.append o.now s = .ok e1)
      (hsend : e1.fastSend = .ok e2) : Step o e (some s) e2 0
  | filled {s : Bytes} {e1 e2 : FecEncodeManager} {tail : RsParameter} (htail : e.fecPar.getTail = .ok tail)
      (happend : e.append o.now s = .ok e1) (hfull : e1.Full tail) (hclose : e1.close o true = .ok e2) : Step o e (some s) e2 0
  | flushed {e1 : FecEncodeManager} (hcount : e.counter ≠ 0) (hclose : e.close o false = .ok e1) : Step o e none e1 0
  | overran {s : Bytes} {e1 e2 : FecEncodeManager} (hmode : e.fecPar.mode = 0) (hcount : e.counter ≠ 0)
      (hclose : e.close o true = .ok e1) (happend : e1.append o.now s = .ok e2) : Step o e (some s) e2 0

theorem takeUp_ok {e e' : FecEncodeManager} {g : FecParameter} (h : e.takeUp g = .ok e') :
    e' = { e with fecPar := e'.fecPar } ∧ (e.counter ≠ 0 → e' = e) := by
  unfold takeUp at h
  split at h
  · rename_i hc
    obtain ⟨p, -, h⟩ := bind_ok.mp h
    cases h
    exact ⟨rfl, fun hne => absurd hc.1 hne⟩
  · cases h
    exact ⟨rfl, fun _ => rfl⟩

theorem input_took {e e' : FecEncodeManager} {o : EncodeOptions} {s : Option Bytes} {ret : Int}
    (h : e.input o s = .ok (e', ret)) : ∃ e0, e.takeUp o.gFecPar = .ok e0 ∧ (e0.fecPar.mode = 0 ∨ e0.fecPar.mode = 1) ∧
      Took o e0 s e' ret := by
  obtain ⟨e0, h0, h⟩ := bind_ok.mp h
  rw [check_bind] at h
  obtain ⟨hmode, h⟩ := h
  refine ⟨e0, h0, hmode, ?_⟩
  split at h
  · rename_i hnone
    cases h
    exact .ignored hnone.2 fun p hp => by rw [hnone.1] at hp; cases hp
  rename_i hsome
  obtain ⟨tail, htail, h⟩ := bind_ok.mp h
  simp only at h
  split at h
  · rename_i hfirst
    cases h
    exact .ignored hfirst.2.1 fun p hp => ⟨tail, htail, by have h := hfirst.2.2; rw [hp] at h; exact h⟩
  rename_i hfirst
  rw [check_bind] at h
  obtain ⟨hqueue, h⟩ := h
  rw [check_bind] at h
  obtain ⟨hgroup, h⟩ := h
  have hopen : e0.Open tail := ⟨htail, hqueue, hgroup⟩
  cases s with
  | none =>
    unfold take at h
    simp only at h
    split at h
    · rename_i hcount
      cases h
      exact .ignored hcount fun p hp => by cases hp
    · rename_i hcount
      obtain ⟨e1, hclose, h⟩ := bind_ok.mp h
      cases h
      exact .flushed hopen hcount hclose
  | some s =>
    simp only at h
    split at h
    · rename_i hlong
      obtain ⟨e1, hclose, h⟩ := bind_ok.mp h
      rw [check_bind] at h
      obtain ⟨-, h⟩ := h
      obtain ⟨e2, happend, h⟩ := bind_ok.mp h
      cases h
      exact .overran hopen hlong (fun hc => hfirst ⟨rfl, hc, hlong⟩) hclose happend
    · rename_i hfits
      unfold take at h
      obtain ⟨e1, happend, h⟩ := bind_ok.mp h
      split at h
      · rename_i hfull
        obtain ⟨e2, hclose, h⟩ := bind_ok.mp h
        cases h
        exact .filled hopen hfits happend hfull hclose
      · rename_i hroom
        have hsame := (append_ok happend).fecPar
        split at h
        · rename_i h1
          obtain ⟨e2, hsend, h⟩ := bind_ok.mp h
          cases h
          exact .sent hopen (hsame ▸ h1) happend hroom hsend
        · rename_i h1
          cases h
          rw [hsame] at h1
          exact .taken hopen hfits (hmode.resolve_right h1) happend hroom

theorem input_ok {e e' : FecEncodeManager} {o : EncodeOptions} {s : Option Bytes} {ret : Int}
    (h : e.input o s = .ok (e', ret)) : ∃ e0, e.takeUp o.gFecPar = .ok e0 ∧ (e0.fecPar.mode = 0 ∨ e0.fecPar.mode = 1) ∧
      Step o e0 s e' ret := by
  obtain ⟨e0, h0, hmode, htook⟩ := input_took h
  refine ⟨e0, h0, hmode, ?_⟩
  cases htook with
  | ignored => exact .ignored
  | taken hopen hfits hmode happend => exact .taken hmode happend
  | sent hopen hmode happend hroom hsend => exact .sent hmode happend hsend
  | filled hopen hfits happend hfull hclose => exact .filled hopen.last happend hfull hclose
  | flushed hopen hcount hclose => exact .flushed hcount hclose
  | overran hopen hlong hcount hclose happend => exact .overran hlong.1 hcount hclose happend

/-- A call whose checks pass. -/
theorem input_open {e e0 : FecEncodeManager} {o : EncodeOptions} {tail : RsParameter} (htake : e.takeUp o.gFecPar = .ok e0)
    (hmode : e0.fecPar.mode = 0 ∨ e0.fecPar.mode = 1) (hopen : e0.Open tail) (s : Option Bytes) : e.input o s =
      if s = none ∧ e0.counter = 0 then .ok (e0, -1)
      else if s.isSome ∧ e0.counter = 0 ∧ e0.TooLong tail (s.getD []).length then .ok (e0, -1)
      else match s with
        | none => e0.take o tail none
        | some s => if e0.TooLong tail s.length then e0.takeAfter o s else e0.take o tail (some s) := by
  unfold input
  rw [htake, ok_bind, check_true hmode, ok_bind, hopen.last, ok_bind]
  simp only [check_true hopen.queue, check_true hopen.group, ok_bind]
  cases s <;> rfl

/-- Rows and lengths that a list names, as `output` hands them out. -/
theorem output_sent {e : FecEncodeManager} {l : List Nat} {len : Nat → Nat} (hready : e.readyForOutput = true)
    (hn : e.outputN = l.length) (hl : ∀ j (hj : j < l.length), e.outputBuf j = l[j] ∧ e.outputLen j = len l[j]) :
    e.output = ({ e with readyForOutput := false }, some (l.map fun i => (i, len i))) := by
  unfold output
  rw [if_pos hready, hn]
  congr 2
  apply List.ext_getElem (by simp)
  intro j h1 h2
  have hj : j < l.length := by simpa using h2
  simp only [List.getElem_map, List.getElem_range]
  rw [(hl j hj).1, (hl j hj).2]

end FecEncodeManager

end UdpSpeeder.Manager
