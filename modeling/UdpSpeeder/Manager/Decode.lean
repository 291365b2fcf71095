/-
  UdpSpeeder.Manager.Decode — `fec_decode_manager_t` (`fec_manager.h`, `fec_manager.cpp`):
  the replay table, the group table, the ring of stored shards, and `input` / `output`.

  The decoder is written over `DecodeTables`, the operations it uses on its two tables.
  `FlatTables` are the tables of the code: arrays indexed by the low bits of the seq, in
  which 0xFFFFFFFF marks an empty slot and a released group leaves its bitmap behind.
  `MapTables` keep groups by their whole seq and replayed seqs in a set.

  `input` is cut at the points where its work changes: the header checks, the lookup, the
  checks against the group (`FecGroup.accept`), the eviction and the store (`prepare`, which
  ends where `rs_decode2` is called), then one function for each way a stored shard can
  end (`conclude`). `group` is a reference in the source; here it is a copy written back to
  its slot, which nothing else writes in between. `codes` is the process-wide table of
  `rs.cpp`.
-/

import UdpSpeeder.Fec.Erasure
import UdpSpeeder.Manager.Blob

namespace UdpSpeeder.Manager

open Lib Fec

/-! ## Sizes and datagrams -/

/-- `fec_buff_num`, as the option `--decode-buf` accepts it. -/
abbrev FecBuffNum := {n : Nat // 300 ≤ n ∧ n ≤ 20000}

/-- 0xFFFFFFFF, the owner of an empty slot. -/
def emptySeq : U32 := 0xFFFFFFFF#32

def antiReplayTableSize : Nat := 32768

/-- `while (group_table_size < fec_buff_num * 2) group_table_size <<= 1`, at most `fuel` times. -/
def growTable (want : Nat) : Nat → Nat → Nat
  | 0, size => size
  | fuel + 1, size => if size < want then growTable want fuel (size * 2) else size

/-- `group_table_size`; a `u32_t` is shifted 32 times at most. -/
def groupTableSize (n : Nat) : Nat := growTable (n * 2) 32 1

structure Header where
  seq : U32
  type : Nat
  dataNum : Nat
  redundantNum : Nat
  innerIndex : Nat
  payload : Bytes

/-- The eight header bytes read off a datagram; `none` when it is shorter than that. -/
def parseHeader (s : Bytes) : Option Header :=
  if s.length < 8 then none
  else some {
    seq := readU32 (mem s) 0
    type := (mem s 4).toNat
    dataNum := (mem s 5).toNat
    redundantNum := (mem s 6).toNat
    innerIndex := (mem s 7).toNat
    payload := s.drop 8 }

/-- Which entry check refuses a datagram. -/
inductive Refusal where
  | shortPayload
  | lenMismatch
  | noDataNum
  | tooMany
  | innerIndex
  deriving DecidableEq, Repr

/-- The entry checks of `input`, in order. -/
def Header.refused (h : Header) : Option Refusal :=
  if h.type = 1 ∧ h.payload.length < 2 then some .shortPayload
  else if h.type = 1 ∧ h.dataNum = 0 ∧ readU16 (mem h.payload) 0 + 2 ≠ h.payload.length then some .lenMismatch
  else if h.type = 0 ∧ h.dataNum = 0 then some .noDataNum
  else if maxFecPacketNum ≤ h.dataNum + h.redundantNum then some .tooMany
  else if h.dataNum + h.redundantNum ≤ h.innerIndex then some .innerIndex
  else none

/-! ## Groups -/

structure FecData where
  used : Bool
  seq : U32
  type : Nat
  dataNum : Nat
  redundantNum : Nat
  idx : Nat
  buf : Nat → Byte
  len : Nat
  deriving Inhabited

structure FecGroup where
  seq : U32
  type : Int
  dataNum : Int
  redundantNum : Int
  len : Int
  fecDone : Bool
  shardCount : Nat
  shardBitmap : Nat → U32
  /-- Only valid where the bitmap is set. -/
  shardIdx : Nat → Int
  deriving Inhabited

namespace FecGroup

/-- `shard_idx` keeps what it held. -/
def init (g : FecGroup) (seq : U32) : FecGroup where
  seq := seq
  type := -1
  dataNum := -1
  redundantNum := -1
  len := -1
  fecDone := false
  shardCount := 0
  shardBitmap := fun _ => 0
  shardIdx := g.shardIdx

def hasShard (g : FecGroup) (i : Nat) : Bool := (g.shardBitmap (i / 32)).getLsbD (i % 32)

def setShard (g : FecGroup) (i : Nat) (val : Int) : FecGroup :=
  { g with
    shardBitmap := upd g.shardBitmap (i / 32) (g.shardBitmap (i / 32) ||| BitVec.twoPow 32 (i % 32))
    shardIdx := upd g.shardIdx i val }

/-- The checks of a datagram against its group. A refusal leaves the type it may have set. -/
def accept (g : FecGroup) (h : Header) : FecGroup × Bool :=
  if g.fecDone then (g, false)
  else if g.hasShard h.innerIndex then (g, false)
  else if g.type ≠ -1 ∧ g.type ≠ h.type then (g, false)
  else
    let g := if g.type = -1 then { g with type := h.type } else g
    if h.dataNum = 0 then (g, true)
    else if g.dataNum = -1 then
      ({ g with dataNum := h.dataNum, redundantNum := h.redundantNum, len := h.payload.length }, true)
    else if g.dataNum ≠ h.dataNum ∨ g.redundantNum ≠ h.redundantNum ∨ g.len ≠ h.payload.length then (g, false)
    else (g, true)

/-- The group once an accepted shard is in the ring. -/
def joined (g : FecGroup) (h : Header) (slot : Nat) : FecGroup :=
  { g.setShard h.innerIndex slot with shardCount := g.shardCount + 1 }

end FecGroup

/-! ## Tables -/

/-- The two tables of the decoder. -/
class DecodeTables (T : Type) where
  clear : T → T
  isValid : T → U32 → Bool
  setInvaild : T → U32 → T
  groupFindOrCreate : T → U32 → T × FecGroup
  groupFind : T → U32 → Option FecGroup
  groupErase : T → U32 → T
  /-- A write through the reference `group_find_or_create` returned. -/
  groupPut : T → U32 → FecGroup → T

export DecodeTables (isValid setInvaild groupFindOrCreate groupFind groupErase groupPut)

/-- Direct-mapped tables. -/
structure FlatTables (N : FecBuffNum) where
  replay : Nat → U32
  groups : Nat → FecGroup
  deriving Inhabited

namespace FlatTables

variable {N : FecBuffNum}

/-- `seq & TABLE_MASK`. -/
def replaySlot (seq : U32) : Nat := seq.toNat &&& (antiReplayTableSize - 1)

/-- `seq & group_table_mask`. -/
def groupSlot (N : FecBuffNum) (seq : U32) : Nat := seq.toNat &&& (groupTableSize N.1 - 1)

instance : DecodeTables (FlatTables N) where
  clear t := { replay := fun _ => emptySeq, groups := fun i => { t.groups i with seq := emptySeq } }
  isValid t seq := t.replay (replaySlot seq) ≠ seq
  setInvaild t seq := { t with replay := upd t.replay (replaySlot seq) seq }
  groupFindOrCreate t seq :=
    let g := t.groups (groupSlot N seq)
    if g.seq ≠ seq then
      ({ t with groups := upd t.groups (groupSlot N seq) (g.init seq) }, g.init seq)
    else (t, g)
  groupFind t seq :=
    let g := t.groups (groupSlot N seq)
    if g.seq = seq then some g else none
  groupErase t seq :=
    let g := t.groups (groupSlot N seq)
    if g.seq = seq then { t with groups := upd t.groups (groupSlot N seq) { g with seq := emptySeq } } else t
  groupPut t seq g := { t with groups := upd t.groups (groupSlot N seq) g }

end FlatTables

/-- Groups by seq, and the set of replayed seqs. -/
structure MapTables where
  seen : U32 → Bool
  groups : U32 → Option FecGroup
  deriving Inhabited

namespace MapTables

/-- A new group of the map. -/
def newGroup (seq : U32) : FecGroup where
  seq := seq
  type := -1
  dataNum := -1
  redundantNum := -1
  len := -1
  fecDone := false
  shardCount := 0
  shardBitmap := fun _ => 0
  shardIdx := fun _ => 0

instance : DecodeTables MapTables where
  clear _ := { seen := fun _ => false, groups := fun _ => none }
  isValid t seq := !t.seen seq
  setInvaild t seq := { t with seen := fun s => if s = seq then true else t.seen s }
  groupFindOrCreate t seq :=
    match t.groups seq with
    | some g => (t, g)
    | none => ({ t with groups := fun s => if s = seq then some (newGroup seq) else t.groups s }, newGroup seq)
  groupFind t seq := t.groups seq
  groupErase t seq := { t with groups := fun s => if s = seq then none else t.groups s }
  groupPut t seq g := { t with groups := fun s => if s = seq then some g else t.groups s }

end MapTables

/-! ## The decoder -/

/-- Where `output_s_arr` points. -/
inductive OutputSrc where
  | blob
  | arr
  deriving DecidableEq, Repr, Inhabited

/-- Everything but the two tables. -/
structure DecodeState where
  fecData : Nat → FecData
  blobDecode : BlobDecode
  index : Nat
  outputN : Int
  outputSArr : OutputSrc
  readyForOutput : Bool
  /-- Pointers into the buffers of `fecData`: slot and offset. -/
  outputSArrBuf : Nat → Option (Nat × Nat)
  outputLenArrBuf : Nat → Nat
  codes : CodeTable
  deriving Inhabited

structure FecDecodeManager (T : Type) extends DecodeState where
  tables : T
  deriving Inhabited

/-- A call of `rs_decode2`: the ring slot handed over at each position, and the buffers. -/
structure DecodeCall where
  k : Nat
  n : Nat
  arr : Nat → Option Nat
  m : Mem Nat
  size : Nat

/-- Whether a stored shard gives its group up, completes it, or leaves it waiting. -/
inductive Outcome where
  | giveUp
  | complete
  | wait
  deriving DecidableEq, Repr

/-- The count decides; `g` counts the stored shard already. -/
def outcome (g : FecGroup) (h : Header) : Outcome :=
  if h.type = 0 then
    if h.dataNum < g.shardCount then .giveUp
    else if g.shardCount = h.dataNum then .complete
    else .wait
  else if g.dataNum ≠ -1 then
    if g.dataNum + 1 < g.shardCount then .giveUp
    else if g.dataNum ≤ g.shardCount then .complete
    else .wait
  else .wait

namespace DecodeState

variable (N : FecBuffNum)

/-- The buffers of the ring, as memory. -/
def bufs (d : DecodeState) : Mem Nat := fun di => (d.fecData di).buf

def withBufs (d : DecodeState) (m : Mem Nat) : DecodeState :=
  { d with fecData := fun di => { d.fecData di with buf := m di } }

/-- The record of a shard in the slot at `index`. -/
def store (d : DecodeState) (h : Header) : DecodeState :=
  let data : FecData := {
    used := true
    seq := h.seq
    type := h.type
    dataNum := h.dataNum
    redundantNum := h.redundantNum
    idx := h.innerIndex
    buf := copyTo (d.fecData d.index).buf 0 (mem h.payload) h.payload.length
    len := h.payload.length }
  { d with fecData := upd d.fecData d.index data }

/-- `fec_data[group.shard_idx[i]]`, if shard `i` is there. -/
def shardAt (g : FecGroup) (i : Nat) : Except Fault (Option Nat) := do
  check (i < 256) (.range "shard_bitmap")
  if g.hasShard i then
    check (0 ≤ g.shardIdx i ∧ g.shardIdx i < N.1 + 5) (.range "fec_data")
    .ok (some (g.shardIdx i).toNat)
  else .ok none

/-- The dimensions of the group, as `rs_decode2` indexes its table with them. -/
def codeDims (g : FecGroup) : Except Fault (Nat × Nat) := do
  check (0 ≤ g.dataNum ∧ 0 ≤ g.dataNum + g.redundantNum) (.range "table")
  .ok (g.dataNum.toNat, (g.dataNum + g.redundantNum).toNat)

/-- `fec_tmp_arr`. -/
def fecTmpArr (g : FecGroup) : Except Fault (Nat → Option Nat) :=
  loopE (g.dataNum + g.redundantNum).toNat (fun i arr => do
    let di ← shardAt N g i
    .ok (upd arr i di)) (fun _ => none)

/-- The shards of a complete type 0 group. -/
def blobCall (d : DecodeState) (g : FecGroup) (len : Nat) : Except Fault DecodeCall := do
  let arr ← fecTmpArr N g
  let (k, n) ← codeDims g
  .ok ⟨k, n, arr, d.bufs, len⟩

/-- What the first loop over the shards of another group collects. -/
structure Scan where
  arr : Nat → Option (Nat × Nat)
  maxLen : Int
  dataCheckOk : Bool

/-- One shard looked at. -/
def Scan.add (s : Scan) (d : DecodeState) (i : Nat) (di : Option Nat) : Scan :=
  match di with
  | none => { s with arr := upd s.arr i none }
  | some di =>
    let len := (d.fecData di).len
    { arr := upd s.arr i (some (di, 0))
      maxLen := if s.maxLen < len then len else s.maxLen
      dataCheckOk := s.dataCheckOk && decide (2 ≤ len) }

def scanShards (d : DecodeState) (g : FecGroup) : Except Fault Scan :=
  loopE (g.dataNum + g.redundantNum).toNat (fun i s => do
    let di ← shardAt N g i
    .ok (s.add d i di)) ⟨d.outputSArrBuf, -1, true⟩

/-- Zeros behind every shard, up to the longest. -/
def padShards (d : DecodeState) (g : FecGroup) (maxLen : Nat) : Except Fault (Mem Nat) :=
  loopE (g.dataNum + g.redundantNum).toNat (fun i m => do
    match ← shardAt N g i with
    | none => .ok m
    | some di =>
      let len := (d.fecData di).len
      check (len ≤ maxLen) (.assert "max_len >= fec_data[di].len")
      .ok (Function.update m di (copyTo (m di) len (fun _ => 0) (maxLen - len)))) d.bufs

/-- The shards of a complete group of another type; no call when they fail the data check. -/
def shardsCall (d : DecodeState) (g : FecGroup) : Except Fault (DecodeState × Option DecodeCall) := do
  let scan ← scanShards N d g
  let d := { d with outputSArrBuf := scan.arr }
  if !(scan.dataCheckOk && decide (scan.maxLen = g.len)) then .ok (d, none)
  else
    let m ← padShards N d g scan.maxLen.toNat
    let (k, n) ← codeDims g
    .ok (d, some ⟨k, n, fun i => (scan.arr i).map Prod.fst, m, scan.maxLen.toNat⟩)

/-- Up to the call of `rs_decode2`, if the stored shard leads to one. -/
def gather (d : DecodeState) (g : FecGroup) (h : Header) : Except Fault (DecodeState × Option DecodeCall) :=
  match outcome g h with
  | .complete =>
    if h.type = 0 then do
      let call ← blobCall N d g h.payload.length
      .ok (d, some call)
    else shardsCall N d g
  | _ => .ok (d, none)

/-- A type 0 group: decode, join, parse. -/
def decodeBlob (d : DecodeState) (call : DecodeCall) : Except Fault DecodeState := do
  let (ret, codes, m, arr) ← rsDecode2 call.k call.n d.codes call.m call.arr call.size
  check (ret = 0) (.assert "rs_decode2(...) == 0")
  let blob ← loopE call.k (fun i blob => do
    let p ← deref (arr i) "fec_tmp_arr"
    blob.input (m p) call.size) d.blobDecode.clear
  let out := blob.output
  let d := { d.withBufs m with
    codes := codes
    blobDecode := out.blob
    outputN := out.n.getD d.outputN
    outputSArr := if out.selected then .blob else d.outputSArr }
  if out.ret ≠ 0 then .ok d
  else
    check (d.readyForOutput = false) (.assert "ready_for_output == 0")
    .ok { d with readyForOutput := true }

/-- The packets not handed out on arrival: the lost ones and the present one. -/
def missedPackets (arr : Nat → Option (Nat × Nat)) (innerIndex k : Nat) : List Nat :=
  (List.range k).filter fun i => arr i = none ∨ i = innerIndex

/-- Lengths read off the decoded packets. -/
structure Lens where
  arr : Nat → Option (Nat × Nat)
  len : Nat → Nat
  fecResultOk : Bool

def readLens (m : Mem Nat) (k : Nat) (s : Lens) : Except Fault Lens :=
  loopE k (fun i (s : Lens) => do
    let (p, off) ← deref (s.arr i) "output_s_arr_buf"
    let len := readU16 (m p) off
    .ok {
      arr := upd s.arr i (some (p, off + 2))
      len := upd s.len i len
      fecResultOk := s.fecResultOk && decide (len ≤ maxDataLen) }) s

/-- A group of any other type: decode, and hand out what had not been. -/
def decodeShards (d : DecodeState) (innerIndex : Nat) (call : DecodeCall) : Except Fault DecodeState := do
  check (call.k ≤ maxFecPacketNum + 5) (.range "missed_packet")
  let missed := missedPackets d.outputSArrBuf innerIndex call.k
  let (ret, codes, m, arr) ← rsDecode2 call.k call.n d.codes call.m call.arr call.size
  check (ret = 0) (.assert "rs_decode2(...) == 0")
  let lens ← readLens m call.k
    ⟨fun i => if i < call.n then (arr i).map (·, 0) else d.outputSArrBuf i, d.outputLenArrBuf, true⟩
  let d := { d.withBufs m with codes := codes }
  if lens.fecResultOk then
    check (d.readyForOutput = false) (.assert "ready_for_output == 0")
    .ok { d with
      outputN := missed.length
      outputSArrBuf := compact missed.length (fun i => missed.getD i 0) lens.arr
      outputLenArrBuf := compact missed.length (fun i => missed.getD i 0) lens.len
      outputSArr := .arr
      readyForOutput := true }
  else
    .ok { d with
      outputSArrBuf := lens.arr
      outputLenArrBuf := lens.len
      readyForOutput := false }

/-- The call of `rs_decode2` and what follows it. -/
def decodeGroup (d : DecodeState) (h : Header) (call : DecodeCall) : Except Fault DecodeState :=
  if h.type = 0 then decodeBlob d call else decodeShards d h.innerIndex call

/-- A type 1 data shard handed out as it arrives. -/
def fastSend (d : DecodeState) (h : Header) : Except Fault DecodeState :=
  if h.type = 1 ∧ h.dataNum = 0 then do
    check (d.readyForOutput = false) (.assert "ready_for_output == 0")
    .ok { d with
      outputN := 1
      outputSArrBuf := upd d.outputSArrBuf 0 (some (d.index, 2))
      outputLenArrBuf := upd d.outputLenArrBuf 0 ((d.fecData d.index).len - 2)
      outputSArr := .arr
      readyForOutput := true }
  else .ok d

/-- From the call of `rs_decode2` to the `end` label; whether `h.seq` is marked as replayed. -/
def conclude (d : DecodeState) (g : FecGroup) (h : Header) (call : Option DecodeCall) :
    Except Fault (DecodeState × FecGroup × Bool) :=
  match outcome g h, call with
  | .wait, _ => do
    let d ← fastSend d h
    .ok (d, g, false)
  | .complete, some call => do
    let d ← decodeGroup d h call
    .ok (d, { g with fecDone := true }, true)
  | _, _ => .ok (d, g, true)

/-- The packet handed out at position `i`. -/
def arrPacket (d : DecodeState) (i : Nat) : Except Fault Bytes := do
  let (p, off) ← deref (d.outputSArrBuf i) "output_s_arr"
  .ok (slice (d.bufs p) off (d.outputLenArrBuf i))

/-- The packets `output` points its caller to. -/
def outputPackets (d : DecodeState) : Except Fault (List Bytes) :=
  match d.outputSArr with
  | .blob => .ok (d.blobDecode.packets d.outputN.toNat)
  | .arr => (List.range d.outputN.toNat).mapM d.arrPacket

end DecodeState

namespace FecDecodeManager

variable {T : Type} [DecodeTables T] (N : FecBuffNum)

def clear (st : FecDecodeManager T) : FecDecodeManager T :=
  { st with
    tables := DecodeTables.clear st.tables
    fecData := fun i => if i < N.1 then { st.fecData i with used := false } else st.fecData i
    readyForOutput := false
    index := 0 }

/-- Mark the owner of the slot to be reused and drop its group; whether that was `seq`. -/
def evict (d : DecodeState) (tables : T) (seq : U32) : T × Bool :=
  if (d.fecData d.index).used then
    let tmpSeq := (d.fecData d.index).seq
    let tables := setInvaild tables tmpSeq
    let tables := if (groupFind tables tmpSeq).isSome then groupErase tables tmpSeq else tables
    (tables, tmpSeq = seq)
  else (tables, false)

/-- `input` up to the call of `rs_decode2`: it has returned, or a shard is stored. -/
inductive Prepared (T : Type) where
  | stop (st : FecDecodeManager T) (ret : Int)
  | stored (tables : T) (d : DecodeState) (g : FecGroup) (h : Header) (call : Option DecodeCall)

/-- From the group lookup to the store. -/
def place (st : FecDecodeManager T) (h : Header) : Except Fault (Prepared T) := do
  let (tables, g) := groupFindOrCreate st.tables h.seq
  check (h.innerIndex < 256) (.range "shard_bitmap")
  let (g, ok) := g.accept h
  let tables := groupPut tables h.seq g
  if !ok then .ok (.stop { st with tables := tables } (-1))
  else
    check (st.index < N.1 + 5) (.range "fec_data")
    let (tables, own) := evict st.toDecodeState tables h.seq
    if own then .ok (.stop { st with tables := tables } (-1))
    else
      check (st.index < N.1) (.assert "0 <= index && index < (int)fec_buff_num")
      check (h.payload.length + 100 < bufLen) (.assert "len + 100 < buf_len")
      let d := st.toDecodeState.store h
      let g := g.joined h st.index
      let (d, call) ← d.gather N g h
      .ok (.stored tables d g h call)

def prepare (st : FecDecodeManager T) (s : Bytes) : Except Fault (Prepared T) := do
  check (s.length + 100 < bufLen) (.assert "len + 100 < buf_len")
  match parseHeader s with
  | none => .ok (.stop st (-1))
  | some h =>
    match h.refused with
    | some _ => .ok (.stop st (-1))
    | none => if !isValid st.tables h.seq then .ok (.stop st 0) else place N st h

/-- What a call of `input` leaves, and the ring slot it wrote. -/
structure InputOut (T : Type) where
  st : FecDecodeManager T
  ret : Int
  stored : Option Nat

/-- `fec_decode_manager_t::input`. -/
def input (st : FecDecodeManager T) (s : Bytes) : Except Fault (InputOut T) := do
  match ← prepare N st s with
  | .stop st ret => .ok ⟨st, ret, none⟩
  | .stored tables d g h call =>
    let (d', g, seen) ← d.conclude g h call
    let tables := groupPut tables h.seq g
    let tables := if seen then setInvaild tables h.seq else tables
    let d' := { d' with index := if d'.index + 1 = N.1 then 0 else d'.index + 1 }
    .ok ⟨{ d' with tables := tables }, 0, some d.index⟩

/-- What `output` returns: the count, and the packets where `s_arr` is not null. -/
structure OutputOut (T : Type) where
  st : FecDecodeManager T
  n : Int
  packets : Option (List Bytes)

/-- `fec_decode_manager_t::output`, and the packets its caller reads. -/
def output (st : FecDecodeManager T) : Except Fault (OutputOut T) :=
  if !st.readyForOutput then .ok ⟨st, -1, none⟩
  else do
    let packets ← st.outputPackets
    .ok ⟨{ st with readyForOutput := false }, st.outputN, some packets⟩

end FecDecodeManager

end UdpSpeeder.Manager
