/-
  UdpSpeeder.Manager.Blob — `blob_encode_t` and `blob_decode_t` of `fec_manager.cpp`: the
  packets of a mode 0 group packed into one buffer, cut into equal slices, joined again
  and parsed.

  `pack` says what the buffer holds: a 32-bit count, then each packet behind its 16-bit
  length. Packing keeps that (`BlobEncode.input_holds`), the slices cover it and the
  parser finds it again whatever follows (`output_pack`), so packets that fit come back
  through any number of slices (`blob_round_trip`); whatever the content, what the parser
  hands out lies inside what it was given (`output_within`).
-/

import UdpSpeeder.Common
import UdpSpeeder.Lib.Pass

namespace UdpSpeeder.Manager

open Lib

/-- `sizeof(input_buf)` of both blobs. -/
def blobBufSize : Nat := (maxFecPacketNum + 5) * bufLen

/-! ## Packing -/

structure BlobEncode where
  inputBuf : Nat → Byte
  currentLen : Nat
  counter : Nat
  /-- Offsets into `inputBuf`. -/
  outputBuf : Nat → Nat
  deriving Inhabited

namespace BlobEncode

def clear (b : BlobEncode) : BlobEncode := { b with counter := 0, currentLen := 4 }

/-- `get_shard_len(n)`. -/
def getShardLen (b : BlobEncode) (n : Nat) : Nat := roundUpDiv b.currentLen n

/-- `get_shard_len(n, next_packet_len)`. -/
def getShardLenNext (b : BlobEncode) (n nextPacketLen : Nat) : Nat := roundUpDiv (b.currentLen + 2 + nextPacketLen) n

def input (b : BlobEncode) (s : Bytes) : Except Fault BlobEncode := do
  check (b.currentLen + s.length + 2 + 100 < blobBufSize) (.assert "current_len + len + sizeof(u16_t) + 100 < sizeof(input_buf)")
  check (s.length ≤ 65535) (.assert "len <= 65535 && len >= 0")
  check (b.counter + 1 ≤ maxBlobPacketNum) (.assert "counter <= max_blob_packet_num")
  let buf := writeU16 b.inputBuf b.currentLen s.length
  .ok { b with
    inputBuf := copyTo buf (b.currentLen + 2) (mem s) s.length
    currentLen := b.currentLen + 2 + s.length
    counter := b.counter + 1 }

/-- The buffer cut into `n` slices: their length, and where each starts. -/
def output (b : BlobEncode) (n : Nat) : Except Fault (BlobEncode × Nat) := do
  check (n ≤ maxFecPacketNum + 100) (.range "output_buf")
  let len := roundUpDiv b.currentLen n
  .ok ({ b with
    inputBuf := writeU32 b.inputBuf 0 (.ofNat 32 b.counter)
    outputBuf := loop n (fun i outputBuf => upd outputBuf i (len * i)) b.outputBuf }, len)

end BlobEncode

/-! ## Parsing -/

structure BlobDecode where
  inputBuf : Nat → Byte
  currentLen : Nat
  lastLen : Int
  counter : Nat
  /-- Offsets into `inputBuf`. -/
  outputBuf : Nat → Nat
  outputLen : Nat → Nat
  deriving Inhabited

namespace BlobDecode

def clear (b : BlobDecode) : BlobDecode := { b with currentLen := 0, lastLen := -1, counter := 0 }

def input (b : BlobDecode) (s : Nat → Byte) (len : Nat) : Except Fault BlobDecode := do
  check (b.lastLen ≠ -1 → b.lastLen = len) (.assert "last_len == len")
  check (b.counter + 1 ≤ maxFecPacketNum) (.assert "counter <= max_fec_packet_num")
  check (b.currentLen + len + 100 < blobBufSize) (.assert "current_len + len + 100 < (int)sizeof(input_buf)")
  .ok { b with
    inputBuf := copyTo b.inputBuf b.currentLen s len
    currentLen := b.currentLen + len
    lastLen := len
    counter := b.counter + 1 }

/-- The record at `parserPos` noted as packet `i`. -/
def noted (b : BlobDecode) (i parserPos : Nat) : BlobDecode :=
  { b with
    outputLen := upd b.outputLen i (readU16 b.inputBuf parserPos)
    outputBuf := upd b.outputBuf i (parserPos + 2) }

/-- The record loop of `output` with `n` records to go, the next one being number `i` at
    `parserPos`. -/
def parse (b : BlobDecode) : Nat → Nat → Nat → Bool × BlobDecode
  | 0, _, _ => (true, b)
  | n + 1, i, parserPos =>
    if b.currentLen < parserPos + 2 then (false, b)
    else
      let len := readU16 b.inputBuf parserPos
      if b.currentLen < parserPos + 2 + len then (false, { b with outputLen := upd b.outputLen i len })
      else parse (b.noted i parserPos) n (i + 1) (parserPos + 2 + len)

/-- What `output` writes through its reference arguments; `none` where it returns before. -/
structure Parsed where
  ret : Int
  n : Option Int
  selected : Bool
  blob : BlobDecode

/-- `(int)` of a `u32_t`. -/
def toInt (w : U32) : Int := w.toInt

def output (b : BlobDecode) : Parsed :=
  if b.currentLen < 4 then ⟨-1, none, false, b⟩
  else
    let n := toInt (readU32 b.inputBuf 0)
    if (maxBlobPacketNum : Int) < n then ⟨-1, some n, false, b⟩
    else
      let (ok, b) := b.parse n.toNat 0 4
      ⟨if ok then 0 else -1, some n, true, b⟩

/-- The first `n` packets handed out. -/
def packets (b : BlobDecode) (n : Nat) : List Bytes :=
  (List.range n).map fun i => slice b.inputBuf (b.outputBuf i) (b.outputLen i)

end BlobDecode

/-! ## The format -/

def be16 (n : Nat) : Bytes := [.ofNat (n / 256), .ofNat n]

def be32 (n : Nat) : Bytes := [.ofNat (n / 16777216), .ofNat (n / 65536), .ofNat (n / 256), .ofNat n]

/-- A packet behind its length. -/
def record (p : Bytes) : Bytes := be16 p.length ++ p

def body (ps : List Bytes) : Bytes := ps.flatMap record

def pack (ps : List Bytes) : Bytes := be32 ps.length ++ body ps

@[simp] theorem record_length (p : Bytes) : (record p).length = 2 + p.length := by
  simp [record, be16]; omega

@[simp] theorem body_nil : body [] = [] := rfl

theorem body_cons (p : Bytes) (ps : List Bytes) : body (p :: ps) = record p ++ body ps := rfl

theorem body_append (ps qs : List Bytes) : body (ps ++ qs) = body ps ++ body qs := List.flatMap_append

theorem pack_length (ps : List Bytes) : (pack ps).length = 4 + (body ps).length := by simp [pack, be32]; omega

theorem body_length (ps : List Bytes) : (body ps).length = (ps.map fun p => 2 + p.length).sum := by
  induction ps with
  | nil => rfl
  | cons p ps ih => rw [body_cons, List.length_append, ih, record_length, List.map_cons, List.sum_cons]

/-- `f` holds the bytes `s` from `off` on. -/
def HasAt (f : Nat → Byte) (off : Nat) (s : Bytes) : Prop := ∀ i < s.length, f (off + i) = mem s i

theorem HasAt.append {f : Nat → Byte} {off : Nat} {s t : Bytes} :
    HasAt f off (s ++ t) ↔ HasAt f off s ∧ HasAt f (off + s.length) t := by
  constructor
  · intro h
    refine ⟨?_, ?_⟩
    · intro i hi
      rw [h i (by rw [List.length_append]; omega), mem_append_left hi]
    · intro i hi
      rw [Nat.add_assoc, h (s.length + i) (by rw [List.length_append]; omega), mem_append_right]
  · rintro ⟨h1, h2⟩ i hi
    rw [List.length_append] at hi
    by_cases hs : i < s.length
    · rw [mem_append_left hs, h1 i hs]
    · obtain ⟨j, rfl⟩ : ∃ j, i = s.length + j := ⟨i - s.length, by omega⟩
      rw [mem_append_right, ← Nat.add_assoc, h2 j (by omega)]

theorem HasAt.congr {f g : Nat → Byte} {off : Nat} {s : Bytes} (h : HasAt f off s)
    (hfg : ∀ i < s.length, g (off + i) = f (off + i)) : HasAt g off s := fun i hi => (hfg i hi).trans (h i hi)

theorem HasAt.slice_eq {f : Nat → Byte} {off : Nat} {s : Bytes} (h : HasAt f off s) : slice f off s.length = s := by
  have : slice f off s.length = slice (mem s) 0 s.length := slice_congr fun i hi => by rw [h i hi, Nat.zero_add]
  rw [this, slice_mem]

theorem hasAt_slice (f : Nat → Byte) (off len : Nat) : HasAt f off (slice f off len) := by
  intro i hi
  rw [slice_length] at hi
  rw [mem_slice f off len hi]

/-- A written length reads back. -/
theorem hasAt_be16 {f : Nat → Byte} {off n : Nat} (h : HasAt f off (be16 n)) (hn : n ≤ 65535) : readU16 f off = n := by
  have h0 := h 0 (by simp [be16])
  have h1 := h 1 (by simp [be16])
  simp only [Nat.add_zero, mem, be16, List.getD_eq_getElem?_getD, List.getElem?_cons_zero, List.getElem?_cons_succ,
    Option.getD_some] at h0 h1
  simp only [readU16, h0, h1, Byte.toNat_ofNat]
  omega

theorem writeU16_hasAt (f : Nat → Byte) (off n : Nat) : HasAt (writeU16 f off n) off (be16 n) := by
  intro i hi
  have hi : i < 2 := hi
  rcases i with _ | _ | i
  · simp [writeU16, mem, be16]
  · simp [writeU16, mem, be16]
  · omega

theorem writeU32_hasAt (f : Nat → Byte) (n : Nat) (hn : n < 2 ^ 32) : HasAt (writeU32 f 0 (.ofNat 32 n)) 0 (be32 n) := by
  intro i hi
  have hi : i < 4 := hi
  have hw : n % 2 ^ 32 = n := Nat.mod_eq_of_lt hn
  simp only [writeU32, BitVec.toNat_ofNat, hw]
  rcases i with _ | _ | _ | _ | i
  · simp [mem, be32, upd]
  · simp [mem, be32, upd]
  · simp [mem, be32, upd]
  · simp [mem, be32, upd]
  · omega

theorem hasAt_be32 {f : Nat → Byte} {n : Nat} (h : HasAt f 0 (be32 n)) (hn : n < 2 ^ 32) :
    readU32 f 0 = .ofNat 32 n := by
  rw [← readU32_writeU32 f 0 (.ofNat 32 n)]
  apply readU32_congr
  intro i hi
  rw [h i hi, writeU32_hasAt f n hn i hi]

/-! ## What packing keeps -/

namespace BlobEncode

/-- The packets pending in the buffer. -/
structure Holds (b : BlobEncode) (ps : List Bytes) : Prop where
  count : b.counter = ps.length
  len : b.currentLen = 4 + (body ps).length
  body : HasAt b.inputBuf 4 (body ps)

theorem clear_holds (b : BlobEncode) : b.clear.Holds [] := ⟨rfl, rfl, fun i hi => absurd hi (by simp)⟩

/-- What a packet is refused for, and what becomes of the buffer else. -/
theorem input_iff {b b' : BlobEncode} {s : Bytes} : b.input s = .ok b' ↔ b.currentLen + s.length + 2 + 100 < blobBufSize ∧
    s.length ≤ 65535 ∧ b.counter + 1 ≤ maxBlobPacketNum ∧ b' = { b with
      inputBuf := copyTo (writeU16 b.inputBuf b.currentLen s.length) (b.currentLen + 2) (mem s) s.length
      currentLen := b.currentLen + 2 + s.length
      counter := b.counter + 1 } := by
  unfold input
  rw [check_bind, check_bind, check_bind, Except.ok.injEq, eq_comm]

theorem input_len {b b' : BlobEncode} {s : Bytes} (h : b.input s = .ok b') :
    b'.counter = b.counter + 1 ∧ b'.currentLen = b.currentLen + 2 + s.length := by
  obtain ⟨-, -, -, rfl⟩ := input_iff.mp h
  exact ⟨rfl, rfl⟩

theorem input_holds {b b' : BlobEncode} {ps : List Bytes} {s : Bytes} (h : b.Holds ps) (hr : b.input s = .ok b') :
    b'.Holds (ps ++ [s]) ∧ s.length ≤ 65535 ∧ ps.length + 1 ≤ maxBlobPacketNum := by
  obtain ⟨-, hs, hc, rfl⟩ := input_iff.mp hr
  refine ⟨⟨by simp [h.count], ?_, ?_⟩, hs, by rw [← h.count]; exact hc⟩
  · simp only [body_append, List.length_append, body_cons, body_nil, record_length, List.length_nil, h.len]
    omega
  · rw [body_append, HasAt.append]
    refine ⟨h.body.congr fun i hi => ?_, ?_⟩
    · simp only [h.len]
      rw [copyTo_out _ _ (by omega), writeU16_out _ (by omega)]
    · rw [← h.len, body_cons, body_nil, List.append_nil, record, HasAt.append]
      refine ⟨(writeU16_hasAt b.inputBuf b.currentLen s.length).congr fun i hi => ?_, ?_⟩
      · have hi : i < 2 := hi
        simp only
        rw [copyTo_out _ _ (by omega)]
      · intro i hi
        exact copyTo_in _ _ hi

/-- The slices of `output` are the pack, cut; what is past its end is whatever was there. -/
theorem output_holds {b b' : BlobEncode} {ps : List Bytes} {n len : Nat} (h : b.Holds ps)
    (hc : ps.length < 2 ^ 32) (hr : b.output n = .ok (b', len)) :
    HasAt b'.inputBuf 0 (pack ps) ∧ (∀ i < n, b'.outputBuf i = len * i) ∧ len = roundUpDiv (pack ps).length n := by
  unfold output at hr
  rw [check_bind] at hr
  obtain ⟨-, hr⟩ := hr
  cases hr
  refine ⟨?_, ?_, by rw [h.len, pack_length]⟩
  · rw [pack, HasAt.append]
    refine ⟨by rw [h.count]; exact writeU32_hasAt _ _ hc, ?_⟩
    rw [show 0 + (be32 ps.length).length = 4 from rfl]
    exact h.body.congr fun i hi => writeU32_out _ (by omega)
  · intro i hi
    simp only
    rw [loop_fill, if_pos hi]

theorem output_run (b : BlobEncode) {n : Nat} (hn : n ≤ maxFecPacketNum + 100) :
    ∃ b', b.output n = .ok (b', roundUpDiv b.currentLen n) ∧ ∀ i < n, b'.outputBuf i = roundUpDiv b.currentLen n * i := by
  unfold output
  rw [check_true hn, ok_bind]
  refine ⟨_, rfl, fun i hi => ?_⟩
  simp only
  rw [loop_fill, if_pos hi]

end BlobEncode

/-! ## What parsing finds -/

namespace BlobDecode

theorem parse_frame (b : BlobDecode) (n i pos : Nat) :
    (b.parse n i pos).2.inputBuf = b.inputBuf ∧ (b.parse n i pos).2.currentLen = b.currentLen ∧
      ∀ j < i, (b.parse n i pos).2.outputBuf j = b.outputBuf j ∧ (b.parse n i pos).2.outputLen j = b.outputLen j := by
  induction n generalizing b i pos with
  | zero => exact ⟨rfl, rfl, fun _ _ => ⟨rfl, rfl⟩⟩
  | succ n ih =>
    unfold parse
    split
    · exact ⟨rfl, rfl, fun _ _ => ⟨rfl, rfl⟩⟩
    · simp only
      split
      · exact ⟨rfl, rfl, fun j hj => ⟨rfl, upd_ne _ _ (by omega)⟩⟩
      · obtain ⟨h1, h2, h3⟩ := ih (b.noted i pos) (i + 1) (pos + 2 + readU16 b.inputBuf pos)
        refine ⟨h1, h2, fun j hj => ?_⟩
        obtain ⟨h3, h4⟩ := h3 j (by omega)
        exact ⟨h3.trans (upd_ne _ _ (by omega)), h4.trans (upd_ne _ _ (by omega))⟩

/-- Whatever the bytes, a record handed out ends inside the buffer. -/
theorem parse_within (b : BlobDecode) (n i pos : Nat) (h : (b.parse n i pos).1 = true) :
    ∀ j, i ≤ j → j < i + n → (b.parse n i pos).2.outputBuf j + (b.parse n i pos).2.outputLen j ≤ b.currentLen := by
  induction n generalizing b i pos with
  | zero => intro j h1 h2; omega
  | succ n ih =>
    intro j h1 h2
    unfold parse at h ⊢
    split at h
    · cases h
    · rename_i hlen
      rw [if_neg hlen]
      simp only at h ⊢
      split at h
      · cases h
      · rename_i hrec
        rw [if_neg hrec]
        by_cases e : j = i
        · subst e
          obtain ⟨-, -, hf⟩ := parse_frame (b.noted j pos) n (j + 1) (pos + 2 + readU16 b.inputBuf pos)
          obtain ⟨h3, h4⟩ := hf j (by omega)
          rw [show (b.noted j pos).outputBuf j = pos + 2 from upd_same _ _ _] at h3
          rw [show (b.noted j pos).outputLen j = readU16 b.inputBuf pos from upd_same _ _ _] at h4
          calc _ = pos + 2 + readU16 b.inputBuf pos := congrArg₂ (· + ·) h3 h4
            _ ≤ b.currentLen := by omega
        · exact ih _ (i + 1) _ h j (by omega) (by omega)

/-- Packed records are found again, whatever follows them. -/
theorem parse_body (b : BlobDecode) (ps : List Bytes) (i pos : Nat) (hlen : ∀ p ∈ ps, p.length ≤ 65535)
    (hat : HasAt b.inputBuf pos (body ps)) (hfit : pos + (body ps).length ≤ b.currentLen) :
    (b.parse ps.length i pos).1 = true ∧ ((List.range ps.length).map fun r =>
      slice b.inputBuf ((b.parse ps.length i pos).2.outputBuf (i + r)) ((b.parse ps.length i pos).2.outputLen (i + r))) = ps := by
  induction ps generalizing b i pos with
  | nil => exact ⟨rfl, rfl⟩
  | cons p ps ih =>
    rw [body_cons, HasAt.append, record, HasAt.append] at hat
    obtain ⟨⟨hlen16, hp⟩, hrest⟩ := hat
    rw [body_cons, List.length_append, record_length] at hfit
    have hread : readU16 b.inputBuf pos = p.length := hasAt_be16 hlen16 (hlen p List.mem_cons_self)
    have hl : (be16 p.length ++ p).length = 2 + p.length := record_length p
    rw [hl] at hrest
    simp only [List.length_cons]
    unfold parse
    rw [if_neg (by omega)]
    simp only [hread]
    rw [if_neg (by omega)]
    have hbuf : (b.noted i pos).inputBuf = b.inputBuf := rfl
    obtain ⟨hok, hps⟩ := ih (b.noted i pos) (i + 1) (pos + 2 + p.length) (fun q hq => hlen q (List.mem_cons_of_mem _ hq))
      (by rw [Nat.add_assoc]; exact hrest) (by show pos + 2 + p.length + _ ≤ b.currentLen; omega)
    refine ⟨hok, ?_⟩
    obtain ⟨-, -, hf⟩ := parse_frame (b.noted i pos) ps.length (i + 1) (pos + 2 + p.length)
    obtain ⟨h3, h4⟩ := hf i (by omega)
    rw [show (b.noted i pos).outputBuf i = pos + 2 from upd_same _ _ _] at h3
    rw [show (b.noted i pos).outputLen i = p.length from (upd_same _ _ _).trans hread] at h4
    generalize (b.noted i pos).parse ps.length (i + 1) (pos + 2 + p.length) = q at *
    rw [List.range_succ_eq_map, List.map_cons, List.map_map]
    congr 1
    · show slice b.inputBuf (q.2.outputBuf i) (q.2.outputLen i) = p
      rw [h3, h4]
      exact hp.slice_eq
    · refine (List.map_congr_left fun r _ => ?_).trans hps
      simp only [Function.comp_apply, Nat.succ_eq_add_one, hbuf]
      rw [show i + (r + 1) = i + 1 + r by omega]

/-- A buffer that starts with a pack parses back to its packets. -/
theorem output_pack (b : BlobDecode) (ps : List Bytes) (hlen : ∀ p ∈ ps, p.length ≤ 65535)
    (hc : ps.length ≤ maxBlobPacketNum) (hat : HasAt b.inputBuf 0 (pack ps)) (hfit : (pack ps).length ≤ b.currentLen) :
    b.output.ret = 0 ∧ b.output.n = some (ps.length : Int) ∧ b.output.selected = true ∧
      b.output.blob.packets ps.length = ps := by
  rw [pack, HasAt.append] at hat
  rw [pack_length] at hfit
  have hn : toInt (readU32 b.inputBuf 0) = ps.length := by
    unfold maxBlobPacketNum at hc
    rw [hasAt_be32 hat.1 (by omega)]
    unfold toInt
    rw [BitVec.toInt_eq_toNat_of_lt (by simp only [BitVec.toNat_ofNat]; omega), BitVec.toNat_ofNat]
    have : ps.length % 2 ^ 32 = ps.length := Nat.mod_eq_of_lt (by omega)
    rw [this]
  obtain ⟨hok, hps⟩ := parse_body b ps 0 4 hlen hat.2 hfit
  unfold output
  rw [if_neg (by omega)]
  simp only [hn]
  rw [if_neg (by omega), Int.toNat_natCast, hok]
  refine ⟨rfl, rfl, rfl, ?_⟩
  obtain ⟨hbuf, -, -⟩ := parse_frame b ps.length 0 4
  unfold packets
  rw [hbuf]
  simpa only [Nat.zero_add] using hps

/-- Whatever the buffer holds, the packets handed out lie inside it. -/
theorem output_within (b : BlobDecode) (h : b.output.ret = 0) :
    ∃ n, b.output.n = some n ∧ n ≤ maxBlobPacketNum ∧ b.output.selected = true ∧ b.output.blob.currentLen = b.currentLen ∧
      b.output.blob.inputBuf = b.inputBuf ∧
      ∀ i < n.toNat, b.output.blob.outputBuf i + b.output.blob.outputLen i ≤ b.currentLen := by
  unfold output at h ⊢
  split at h
  · cases h
  · rename_i h4
    rw [if_neg h4]
    simp only at h ⊢
    split at h
    · cases h
    · rename_i hn
      rw [if_neg hn]
      simp only at h ⊢
      have hok : (b.parse (toInt (readU32 b.inputBuf 0)).toNat 0 4).1 = true := by
        by_contra hne
        rw [if_neg hne] at h
        cases h
      obtain ⟨hbuf, hcur, -⟩ := parse_frame b (toInt (readU32 b.inputBuf 0)).toNat 0 4
      exact ⟨_, rfl, by omega, trivial, hcur, hbuf, fun i hi => parse_within b _ 0 4 hok i (Nat.zero_le i) (by omega)⟩

/-- `n` equal slices fed to a cleared decoder are joined end to end. -/
theorem inputs_joined (b : BlobDecode) (src : Nat → Nat → Byte) (n len : Nat) (hn : n ≤ maxFecPacketNum)
    (hfit : n * len + 100 < blobBufSize) :
    ∃ b', loopE n (fun i b => b.input (src i) len) b.clear = .ok b' ∧ b'.currentLen = n * len ∧
      ∀ i < n, ∀ j < len, b'.inputBuf (len * i + j) = src i j := by
  suffices h : ∃ b', loopE n (fun i b => b.input (src i) len) b.clear = .ok b' ∧ b'.currentLen = n * len ∧
      b'.counter = n ∧ (b'.lastLen ≠ -1 → b'.lastLen = len) ∧ ∀ i < n, ∀ j < len, b'.inputBuf (len * i + j) = src i j by
    obtain ⟨b', h1, h2, -, -, h3⟩ := h
    exact ⟨b', h1, h2, h3⟩
  refine loopE_ok (fun (m : Nat) (t : BlobDecode) => t.currentLen = m * len ∧ t.counter = m ∧
    (t.lastLen ≠ -1 → t.lastLen = len) ∧ ∀ i < m, ∀ j < len, t.inputBuf (len * i + j) = src i j)
    ⟨by simp [clear], rfl, fun h => absurd rfl h, fun i hi => by omega⟩ n ?_
  rintro m hm t ⟨hcur, hcnt, hlast, hval⟩
  have hle : (m + 1) * len ≤ n * len := Nat.mul_le_mul_right len hm
  rw [Nat.succ_mul] at hle
  have hrun : t.input (src m) len = .ok { t with
      inputBuf := copyTo t.inputBuf t.currentLen (src m) len
      currentLen := t.currentLen + len
      lastLen := len
      counter := t.counter + 1 } := by
    unfold input
    rw [check_true hlast, ok_bind, check_true (by omega), ok_bind, check_true (by omega), ok_bind]
  refine ⟨_, hrun, ?_, by simp [hcnt], fun _ => rfl, ?_⟩
  · simp only [hcur, Nat.succ_mul]
  · intro i hi j hj
    simp only
    by_cases e : i = m
    · subst e
      rw [hcur, Nat.mul_comm i len, copyTo_in _ _ hj]
    · have : len * i + j < len * m :=
        calc len * i + j < len * i + len := by omega
          _ = len * (i + 1) := (Nat.mul_succ len i).symm
          _ ≤ len * m := Nat.mul_le_mul_left len (by omega)
      rw [copyTo_out _ _ (by rw [hcur, Nat.mul_comm m len]; omega)]
      exact hval i (by omega) j hj

end BlobDecode

/-! ## From the packets to the slices and back -/

namespace BlobEncode

/-- Packets given to `input`, one after the other. -/
def inputs (b : BlobEncode) (ps : List Bytes) : Except Fault BlobEncode := ps.foldlM input b

/-- What `s_arr[i]` points to. -/
def shard (b : BlobEncode) (i : Nat) : Nat → Byte := fun j => b.inputBuf (b.outputBuf i + j)

/-- A packet that fits is taken. -/
theorem input_ok {b : BlobEncode} {ps : List Bytes} {s : Bytes} (h : b.Holds ps) (hlen : s.length ≤ 65535)
    (hc : ps.length + 1 ≤ maxBlobPacketNum) (hfit : (pack (ps ++ [s])).length + 100 < blobBufSize) :
    ∃ b', b.input s = .ok b' ∧ b'.Holds (ps ++ [s]) := by
  rw [pack_length, body_append, List.length_append, body_cons, body_nil, List.append_nil, record_length] at hfit
  have hcur := h.len
  have hcount := h.count
  have hrun := input_iff.mpr ⟨show b.currentLen + s.length + 2 + 100 < blobBufSize by omega, hlen, by omega, rfl⟩
  exact ⟨_, hrun, (input_holds h hrun).1⟩

/-- So are packets that fit together. -/
theorem inputs_ok {b : BlobEncode} {qs : List Bytes} (h : b.Holds qs) (ps : List Bytes) (hlen : ∀ p ∈ ps, p.length ≤ 65535)
    (hc : (qs ++ ps).length ≤ maxBlobPacketNum) (hfit : (pack (qs ++ ps)).length + 100 < blobBufSize) :
    ∃ b', b.inputs ps = .ok b' ∧ b'.Holds (qs ++ ps) := by
  induction ps generalizing b qs with
  | nil => exact ⟨b, rfl, by rw [List.append_nil]; exact h⟩
  | cons p ps ih =>
    have hsplit : qs ++ p :: ps = (qs ++ [p]) ++ ps := by rw [List.append_assoc]; rfl
    rw [hsplit] at hc hfit ⊢
    have hfirst : (pack (qs ++ [p])).length ≤ (pack ((qs ++ [p]) ++ ps)).length := by
      rw [pack_length, pack_length, body_append (qs ++ [p]), List.length_append]
      omega
    obtain ⟨b1, hrun, hholds⟩ := input_ok h (hlen p List.mem_cons_self)
      (by simp only [List.length_append, List.length_cons, List.length_nil] at hc; omega) (by omega)
    obtain ⟨b2, hrest, hall⟩ := ih hholds (fun q hq => hlen q (List.mem_cons_of_mem _ hq)) hc hfit
    exact ⟨b2, foldlM_cons_ok.mpr ⟨b1, hrun, hrest⟩, hall⟩

end BlobEncode

/-- Slices that lie end to end are, joined, what they were cut from. -/
theorem BlobDecode.inputs_shards (d : BlobDecode) {b : BlobEncode} {n len : Nat} (hn : n ≤ maxFecPacketNum)
    (hfit : n * len + 100 < blobBufSize) (hslices : ∀ i < n, b.outputBuf i = len * i) :
    ∃ d', loopE n (fun i d => d.input (b.shard i) len) d.clear = .ok d' ∧ d'.currentLen = n * len ∧
      ∀ i < n * len, d'.inputBuf i = b.inputBuf i := by
  obtain ⟨d', hrun, hcur, hval⟩ := inputs_joined d b.shard n len hn hfit
  refine ⟨d', hrun, hcur, fun i hi => ?_⟩
  have hlen : 0 < len := Nat.pos_of_ne_zero fun h => by simp [h] at hi
  have hq : i / len < n := (Nat.div_lt_iff_lt_mul hlen).mpr hi
  have hcell := hval (i / len) hq (i % len) (Nat.mod_lt i hlen)
  unfold BlobEncode.shard at hcell
  rwa [hslices _ hq, Nat.div_add_mod] at hcell

/-- Packets that fit come back as they were, however many slices the blob is cut into and
    whatever either buffer held before. -/
theorem blob_round_trip (enc : BlobEncode) (dec : BlobDecode) (ps : List Bytes) (n : Nat) (hcount : ps.length ≤ maxBlobPacketNum)
    (hlen : ∀ p ∈ ps, p.length ≤ maxDataLen + 4) (hfit : 4 + (ps.map fun p => 2 + p.length).sum ≤ 255 * 2000 + 4000)
    (hn : 1 ≤ n) (hmax : n ≤ maxFecPacketNum) :
    ∃ filled sent len joined, enc.clear.inputs ps = .ok filled ∧ filled.output n = .ok (sent, len) ∧
      (∀ i < n, sent.outputBuf i + len ≤ blobBufSize) ∧
      loopE n (fun i d => d.input (sent.shard i) len) dec.clear = .ok joined ∧
      joined.output.ret = 0 ∧ joined.output.n = some (ps.length : Int) ∧ joined.output.selected = true ∧
      joined.output.blob.packets ps.length = ps := by
  have hpack : (pack ps).length ≤ 255 * 2000 + 4000 := by rw [pack_length, body_length]; exact hfit
  have hshort : ∀ p ∈ ps, p.length ≤ 65535 := fun p hp => (hlen p hp).trans (by decide)
  have hbuf : blobBufSize = 988000 := rfl
  have hfew : maxFecPacketNum = 255 := rfl
  obtain ⟨filled, hfilled, hholds⟩ := BlobEncode.inputs_ok enc.clear_holds ps hshort hcount (by rw [List.nil_append]; omega)
  obtain ⟨sent, hsent, hslices⟩ := filled.output_run (show n ≤ maxFecPacketNum + 100 by omega)
  rw [List.nil_append] at hholds
  obtain ⟨hat, -, hcut⟩ := BlobEncode.output_holds hholds (by unfold maxBlobPacketNum at hcount; omega) hsent
  rw [hcut] at hsent hslices
  -- the slices cover the pack and end less than `n` bytes behind it
  have hcover := le_roundUpDiv_mul (pack ps).length hn
  have hend := roundUpDiv_mul_lt (pack ps).length hn
  obtain ⟨joined, hjoined, hcur, hval⟩ := dec.inputs_shards hmax (by omega) hslices
  have hout := joined.output_pack ps hshort hcount (hat.congr fun i hi => by rw [Nat.zero_add]; exact hval i (by omega)) (by omega)
  refine ⟨filled, sent, _, joined, hfilled, hsent, fun i hi => ?_, hjoined, hout⟩
  have hlast := Nat.mul_le_mul_right (roundUpDiv (pack ps).length n) (show i + 1 ≤ n from hi)
  rw [Nat.succ_mul] at hlast
  rw [hslices i hi, Nat.mul_comm]
  omega

/-- Three packets, one of them empty, in 13 bytes: of seven slices of two, the sixth ends
    between the last two bytes, and the seventh has one of what was there before. -/
theorem blob_round_trip_seven : ∃ ps : List Bytes, ps = [[.ofNat 1], [], [.ofNat 2, .ofNat 3]] ∧ ∃ filled sent len joined,
    (default : BlobEncode).clear.inputs ps = .ok filled ∧ filled.output 7 = .ok (sent, len) ∧
    loopE 7 (fun i d => d.input (sent.shard i) len) (default : BlobDecode).clear = .ok joined ∧ joined.output.blob.packets 3 = ps := by
  obtain ⟨filled, sent, len, joined, hfilled, hsent, -, hjoined, -, -, -, hout⟩ :=
    blob_round_trip default default [[.ofNat 1], [], [.ofNat 2, .ofNat 3]] 7 (by decide) (by decide) (by decide) (by decide) (by decide)
  exact ⟨_, rfl, filled, sent, len, joined, hfilled, hsent, hjoined, hout⟩

end UdpSpeeder.Manager
