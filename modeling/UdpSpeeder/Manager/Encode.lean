/-
  UdpSpeeder.Manager.Encode — `fec_encode_manager_t` (`fec_manager.h`, `fec_manager.cpp`):
  packets taken into a group, the group closed and coded, its shards handed out.

  `output_buf[i]` always points to the start of a row of `input_buf`; here it is the number
  of the row. `input` is cut where its work changes: the size checks, `append`, the shape of
  the closing group (`pickShape`), the rows (`writeShards`), the early send of mode 1.
-/

import UdpSpeeder.Fec.Erasure
import UdpSpeeder.Manager.Blob
import UdpSpeeder.Manager.Param

namespace UdpSpeeder.Manager

open Lib Fec

/-! ## State -/

/-- What `input` reads: the globals, and the clock when a group starts. -/
structure EncodeOptions where
  gFecPar : FecParameter
  shortPacketOptimize : Bool
  headerOverhead : Int
  now : Nat
  deriving Inhabited

structure FecEncodeManager where
  seq : U32
  fecPar : FecParameter
  firstPacketTime : Nat
  firstPacketTimeForOutput : Nat
  blobEncode : BlobEncode
  inputBuf : Nat → Nat → Byte
  inputLen : Nat → Nat
  /-- Rows of `inputBuf`. -/
  outputBuf : Nat → Nat
  outputLen : Nat → Nat
  counter : Nat
  readyForOutput : Bool
  outputN : Nat
  /-- The timeout the flush timer was started with, while it is running. -/
  timer : Option Nat
  codes : CodeTable
  deriving Inhabited

namespace FecEncodeManager

/-- `clear_data`; `seq` is the random number drawn. -/
def clearData (e : FecEncodeManager) (seq : U32) : FecEncodeManager :=
  { e with counter := 0, blobEncode := e.blobEncode.clear, readyForOutput := false, seq := seq, timer := none }

/-- The constructor, over the memory `e`. -/
def construct (e : FecEncodeManager) (g : FecParameter) (seq : U32) : Except Fault FecEncodeManager := do
  let fecPar ← e.fecPar.clone g
  .ok ({ e with fecPar := fecPar }.clearData seq)

/-! ## Taking a packet in -/

def append (e : FecEncodeManager) (now : Nat) (s : Bytes) : Except Fault FecEncodeManager :=
  let e := if e.counter = 0 then { e with firstPacketTime := now, timer := some e.fecPar.timeout } else e
  if e.fecPar.mode = 0 then do
    let blob ← e.blobEncode.input s
    .ok { e with blobEncode := blob, counter := e.counter + 1 }
  else if e.fecPar.mode = 1 then do
    check (s.length ≤ 65535) (.assert "len <= 65535 && len >= 0")
    check (e.counter < maxFecPacketNum + 5) (.range "input_buf")
    check (10 + s.length ≤ bufLen) (.range "input_buf[counter]")
    let row := writeU16 (e.inputBuf e.counter) 8 s.length
    .ok { e with
      inputBuf := upd e.inputBuf e.counter (copyTo row 10 (mem s) s.length)
      inputLen := upd e.inputLen e.counter (s.length + 2)
      counter := e.counter + 1 }
  else .error (.assert "0 == 1")

/-! ## The shape of a group -/

/-- `(shard_len + header_overhead) * (x + y)` of the tail row: computed as an `int`, kept as
    a `u32_t`. -/
def tailCost (o : EncodeOptions) (b : BlobEncode) (tail : RsParameter) : Except Fault U32 := do
  let cost : Int := (b.getShardLenNext tail.x 0 + o.headerOverhead) * (tail.x + tail.y)
  check (-2147483648 ≤ cost ∧ cost ≤ intMax) (.overflow "(get_shard_len(tail_x, 0) + header_overhead) * (tail_x + tail_y)")
  .ok (.ofInt 32 cost)

/-- The same of another row, as a `u32_t` throughout. -/
def rowCost (o : EncodeOptions) (shardLen : Nat) (row : RsParameter) : U32 :=
  (.ofNat 32 shardLen + .ofInt 32 o.headerOverhead) * .ofNat 32 (row.x + row.y)

/-- The cheapest row so far, and what it costs. -/
structure Best where
  len : U32
  dataNum : Nat

/-- Row `i` looked at, unless its shards would be over the mtu. -/
def tryRow (o : EncodeOptions) (p : FecParameter) (b : BlobEncode) (i : Nat) (best : Best) : Except Fault Best := do
  let row := p.rsPar i
  check (row.x = i + 1) (.assert "fec_par.rs_par[i - 1].x == i")
  let shardLen := b.getShardLenNext row.x 0
  if p.mtu < shardLen then .ok best
  else if rowCost o shardLen row < best.len then .ok ⟨rowCost o shardLen row, row.x⟩
  else .ok best

/-- The shape of a mode 0 group. -/
def pickShape (o : EncodeOptions) (p : FecParameter) (b : BlobEncode) (tail : RsParameter) : Except Fault RsParameter :=
  if o.shortPacketOptimize then do
    let cost ← tailCost o b tail
    check (tail.x ≤ p.rsCnt) (.assert "tail_x <= fec_par.rs_cnt")
    let best ← loopE (tail.x - 1) (tryRow o p b) ⟨cost, tail.x⟩
    check (1 ≤ best.dataNum ∧ best.dataNum ≤ p.rsCnt) (.assert "best_data_num >= 1 && best_data_num <= fec_par.rs_cnt")
    .ok ⟨best.dataNum, (p.rsPar (best.dataNum - 1)).y⟩
  else .ok tail

/-- The longest of the first `n` rows; there is at least one. -/
def longest (inputLen : Nat → Nat) (n : Nat) : Nat :=
  loop n (fun i fecLen => if fecLen < inputLen i then inputLen i else fecLen) 0

/-- How a group is cut up: its shape, and the length of its shards. -/
def cut (e : FecEncodeManager) (o : EncodeOptions) : Except Fault (FecEncodeManager × RsParameter × Nat) :=
  if e.fecPar.mode = 0 then do
    let tail ← e.fecPar.getTail
    let shape ← pickShape o e.fecPar e.blobEncode tail
    let (blob, fecLen) ← e.blobEncode.output shape.x
    .ok ({ e with blobEncode := blob }, shape, fecLen)
  else do
    check (e.counter ≤ e.fecPar.rsCnt) (.assert "counter <= fec_par.rs_cnt")
    .ok (e, ⟨e.counter, (e.fecPar.rsPar (e.counter - 1)).y⟩, longest e.inputLen e.counter)

/-! ## The shards -/

/-- The eight header bytes, written to a row. -/
def putHeader (row : Nat → Byte) (seq : U32) (mode dataNum redundantNum idx : Nat) : Nat → Byte :=
  upd (upd (upd (upd (writeU32 row 0 seq) 4 (.ofNat mode)) 5 (.ofNat dataNum)) 6 (.ofNat redundantNum)) 7 (.ofNat idx)

/-- Row `i` of a closing group before it is coded: a data shard of mode 1 names no shape, and
    has its packet already. -/
def shardRow (e : FecEncodeManager) (shape : RsParameter) (fecLen i : Nat) : Nat → Byte :=
  if e.fecPar.mode = 1 ∧ i < shape.x then
    copyTo (putHeader (e.inputBuf i) e.seq e.fecPar.mode 0 0 i) (8 + e.inputLen i) (fun _ => 0) (fecLen - e.inputLen i)
  else
    let row := putHeader (e.inputBuf i) e.seq e.fecPar.mode shape.x shape.y i
    if e.fecPar.mode = 0 ∧ i < shape.x then
      copyTo row 8 (fun j => e.blobEncode.inputBuf (e.blobEncode.outputBuf i + j)) fecLen
    else row

def shardLen (e : FecEncodeManager) (shape : RsParameter) (fecLen i : Nat) : Nat :=
  if e.fecPar.mode = 1 ∧ i < shape.x then 8 + e.inputLen i else 8 + fecLen

def writeShards (e : FecEncodeManager) (shape : RsParameter) (fecLen : Nat) : Except Fault FecEncodeManager :=
  loopE (shape.x + shape.y) (fun i e => do
    check (i < maxFecPacketNum + 5) (.range "input_buf")
    check (8 + fecLen ≤ bufLen) (.range "input_buf[i]")
    check (e.fecPar.mode = 0 → i < shape.x → e.blobEncode.outputBuf i + fecLen ≤ blobBufSize) (.range "blob_encode.input_buf")
    .ok { e with
      inputBuf := upd e.inputBuf i (e.shardRow shape fecLen i)
      outputLen := upd e.outputLen i (e.shardLen shape fecLen i)
      outputBuf := upd e.outputBuf i i }) e

/-- The rows from their ninth byte on, as `rs_encode2` gets them. -/
def payloads (inputBuf : Nat → Nat → Byte) : Mem Nat := fun i j => inputBuf i (8 + j)

def withPayloads (inputBuf : Nat → Nat → Byte) (m : Mem Nat) : Nat → Nat → Byte := fun i j =>
  if j < 8 then inputBuf i j else m i (j - 8)

/-- `packet_to_send` of a mode 1 group: the last data shard, unless the timer closed the
    group, and the parity shards. -/
def packetToSend (shape : RsParameter) (given : Bool) : List Nat :=
  (if given then [shape.x - 1] else []) ++ (List.range shape.y).map (shape.x + ·)

/-- Only some of the shards are handed out: those a list names. -/
def select (e : FecEncodeManager) (toSend : List Nat) : FecEncodeManager :=
  { e with
    outputN := toSend.length
    outputBuf := compact toSend.length (fun i => toSend.getD i 0) e.outputBuf
    outputLen := compact toSend.length (fun i => toSend.getD i 0) e.outputLen }

/-- The pending group closed; `given` says whether a packet or the timer did. -/
def close (e : FecEncodeManager) (o : EncodeOptions) (given : Bool) : Except Fault FecEncodeManager := do
  let (e, shape, fecLen) ← e.cut o
  let e ← e.writeShards shape fecLen
  let n := shape.x + shape.y
  let (codes, m) ← rsEncode2 shape.x n e.codes (payloads e.inputBuf) (fun i => if i < n then some i else none) fecLen
  check (e.readyForOutput = false) (.assert "ready_for_output == 0")
  let e := { e with
    codes := codes
    inputBuf := withPayloads e.inputBuf m
    readyForOutput := true
    firstPacketTimeForOutput := e.firstPacketTime
    firstPacketTime := 0
    seq := e.seq + 1
    counter := 0
    outputN := n
    blobEncode := e.blobEncode.clear
    timer := none }
  if e.fecPar.mode = 1 then .ok (e.select (packetToSend shape given)) else .ok e

/-- A mode 1 packet handed out as it comes in. -/
def fastSend (e : FecEncodeManager) : Except Fault FecEncodeManager := do
  check (1 ≤ e.counter) (.assert "counter >= 1")
  check (e.counter ≤ 255) (.assert "counter <= 255")
  check (e.readyForOutput = false) (.assert "ready_for_output == 0")
  let i := e.counter - 1
  .ok { e with
    readyForOutput := true
    firstPacketTimeForOutput := 0
    outputN := 1
    inputBuf := upd e.inputBuf i (putHeader (e.inputBuf i) e.seq e.fecPar.mode 0 0 i)
    outputLen := upd e.outputLen 0 (e.inputLen i + 8)
    outputBuf := upd e.outputBuf 0 i }

/-! ## input and output -/

/-- New parameters are taken up between groups. -/
def takeUp (e : FecEncodeManager) (g : FecParameter) : Except Fault FecEncodeManager :=
  if e.counter = 0 ∧ e.fecPar.version ≠ g.version then do
    let fecPar ← e.fecPar.clone g
    .ok { e with fecPar := fecPar }
  else .ok e

/-- A mode 0 packet that the pending group cannot take within the mtu. -/
def TooLong (e : FecEncodeManager) (tail : RsParameter) (len : Nat) : Prop :=
  e.fecPar.mode = 0 ∧ e.fecPar.mtu < e.blobEncode.getShardLenNext tail.x len

instance (e : FecEncodeManager) (tail : RsParameter) (len : Nat) : Decidable (TooLong e tail len) :=
  inferInstanceAs (Decidable (_ ∧ _))

/-- The group has as many packets as it may have. -/
def Full (e : FecEncodeManager) (tail : RsParameter) : Prop :=
  e.fecPar.mode = 0 ∧ e.counter = e.fecPar.queueLen ∨ e.fecPar.mode = 1 ∧ e.counter = tail.x

instance (e : FecEncodeManager) (tail : RsParameter) : Decidable (Full e tail) := inferInstanceAs (Decidable (_ ∨ _))

/-- A packet that fits, or the timer: append, then close the group or not. -/
def take (e : FecEncodeManager) (o : EncodeOptions) (tail : RsParameter) : Option Bytes → Except Fault (FecEncodeManager × Int)
  | none =>
    if e.counter = 0 then .ok (e, -1)
    else do
      let e ← e.close o false
      .ok (e, 0)
  | some s => do
    let e ← e.append o.now s
    if e.Full tail then
      let e ← e.close o true
      .ok (e, 0)
    else if e.fecPar.mode = 1 then
      let e ← e.fastSend
      .ok (e, 0)
    else .ok (e, 0)

/-- A packet that does not fit: the group is closed without it, and it starts the next. -/
def takeAfter (e : FecEncodeManager) (o : EncodeOptions) (s : Bytes) : Except Fault (FecEncodeManager × Int) := do
  let e ← e.close o true
  check (e.fecPar.mode ≠ 1) (.assert "fec_par.mode != 1")
  let e ← e.append o.now s
  .ok (e, 0)

/-- `fec_encode_manager_t::input`; `none` is a call with `s == 0` and `len == 0`. -/
def input (e : FecEncodeManager) (o : EncodeOptions) (s : Option Bytes) : Except Fault (FecEncodeManager × Int) := do
  let e ← e.takeUp o.gFecPar
  check (e.fecPar.mode = 0 ∨ e.fecPar.mode = 1) (.assert "fec_par.mode == 0 || fec_par.mode == 1")
  if s = none ∧ e.counter = 0 then .ok (e, -1)
  else
    let tail ← e.fecPar.getTail
    let long := e.TooLong tail (s.getD []).length
    if s.isSome ∧ e.counter = 0 ∧ long then .ok (e, -1)
    else
      check (e.fecPar.mode = 0 → e.counter < e.fecPar.queueLen) (.assert "counter < fec_par.queue_len")
      check (e.fecPar.mode = 1 → e.counter < tail.x) (.assert "counter < fec_par.get_tail().x")
      match s with
      | none => e.take o tail none
      | some s => if long then e.takeAfter o s else e.take o tail (some s)

/-- What `output` points its caller to: rows, and how much of each. -/
def output (e : FecEncodeManager) : FecEncodeManager × Option (List (Nat × Nat)) :=
  if e.readyForOutput then
    ({ e with readyForOutput := false }, some ((List.range e.outputN).map fun i => (e.outputBuf i, e.outputLen i)))
  else (e, none)

/-- The datagrams at some rows. -/
def datagrams (e : FecEncodeManager) (sent : List (Nat × Nat)) : List Bytes := sent.map fun r => slice (e.inputBuf r.1) 0 r.2

/-! ## Runs -/

/-- What `input` and the `output` after it return. -/
structure EncodeOut where
  st : FecEncodeManager
  ret : Int
  sent : Option (List Bytes)

/-- One call of `input`, and the encoder drained. -/
def encodeOne (e : FecEncodeManager) (o : EncodeOptions) (s : Option Bytes) : Except Fault EncodeOut := do
  let (e, ret) ← e.input o s
  let (e, sent) := e.output
  .ok ⟨e, ret, sent.map e.datagrams⟩

end FecEncodeManager

end UdpSpeeder.Manager
