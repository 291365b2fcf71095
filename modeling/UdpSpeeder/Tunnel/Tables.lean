/-
  UdpSpeeder.Tunnel.Tables — the tables of the server and the callbacks that change them
  (`tunnel_server.cpp`, `connection.cpp`), on the path without io_uring.

  A `conn_info_t` is an object on the heap, and what points to it (the map of the connections,
  the watchers of its sockets, its timers) holds a pointer, which may be followed only while the
  object is there. Of a datagram the tables see whether `de_cook` accepts it and what the decoder
  hands out for it; of the encoder, what it hands out. Both are part of the event. What the
  callbacks send goes to `delay_send`, which only reads `fd_manager` (`Net.Send`): here it is
  put into the outbox. What `socket` answers is a parameter, and so is what memory that was not
  written to holds. The elements that `clear_it` passes come with the event: the order of
  an `unordered_map` is not known.
-/

import UdpSpeeder.Tunnel.ConvManager

namespace UdpSpeeder.Tunnel

open Lib Net

def maxConvNum : Nat := 10000

def maxConnNum : Nat := 200

def connClearRatio : Nat := 50

def connClearMin : Nat := 1

def connClearInterval : Nat := 1000

/-- `server_conn_timeout`, in milliseconds. -/
def serverConnTimeout : Nat := convTimeout + 20000

/-- A `conn_info_t *`. -/
abbrev Ptr := Nat

/-- `conn_info_t`. `addr` is not set by its constructor, `loop` is null until it is set. -/
structure ConnInfo where
  convManager : ConvManager Fd64
  lastActiveTime : Nat
  loop : Bool
  localListenFd : Fd
  addr : Option Address

structure Server where
  fdManager : FdManager
  opened : Open
  /-- How often `socket` was called. -/
  sockets : Nat
  heap : Table Ptr ConnInfo
  /-- The next object's place. -/
  conns : Ptr
  /-- `conn_manager.mp` -/
  mp : Table Address Ptr
  lastClearTime : Nat
  clock : Clock
  /-- The delay, the destination and the bytes of what was handed to `delay_send`. -/
  outbox : List (Nat × Dest × Bytes)

/-- What `out_arr`, `out_len` and `out_delay` hold. -/
abbrev Out := List (Nat × Bytes)

namespace Server

def init (opened : Open) (clock : Clock) : Server := ⟨.init, opened, 0, ∅, 0, ∅, 0, clock, []⟩

def deref (s : Server) (p : Ptr) : Except Fault ConnInfo :=
  match s.heap.lookup p with
  | some conn => .ok conn
  | none => .error (.null "conn_info")

def setConn (s : Server) (p : Ptr) (conn : ConnInfo) : Server := { s with heap := s.heap.insert p conn }

/-- `server_clear_function`. The address is in the map, so `find_insert` finds it. -/
def clearFunction (s : Server) : ConvManager.ClearFunction Fd64 (FdManager × Open) := fun fd64 (m, opened) => do
  check (m.exist fd64) (.assert "fd_manager.exist(fd64)")
  let (m, info) ← m.getInfo fd64
  match info.addr.bind s.mp.lookup with
  | none => .error (.assert "conn_manager.exist(addr)")
  | some p => do
    let conn ← s.deref p
    check conn.loop (.null "loop")
    let m := m.setInfo fd64 { info with ioWatcher := none }
    m.fd64Close opened fd64

section Handlers

variable (os : Nat → Open → Option Fd) (garbage : Ptr → Nat)

/-! ## `conn_manager_t` -/

/-- `find_insert`. -/
def findInsert (s : Server) (addr : Address) : Server × Ptr :=
  match s.mp.lookup addr with
  | some p => (s, p)
  | none =>
    let conn := ⟨.init (garbage s.conns), garbage s.conns, false, 0, none⟩
    ({ s.setConn s.conns conn with conns := s.conns + 1, mp := s.mp.insert addr s.conns }, s.conns)

/-- `erase`: the conn's destructor clears its convs. -/
def erase (s : Server) (addr : Address) (p : Ptr) : Except Fault Server := do
  let conn ← s.deref p
  let (_, m, opened) ← conn.convManager.clear s.clearFunction (s.fdManager, s.opened)
  .ok { s with fdManager := m, opened := opened, heap := s.heap.erase p, mp := s.mp.erase addr }

/-- What `clear_inactive0` does with one element. -/
def visit (currentTime : Nat) (s : Server) (addr : Address) : Except Fault Server :=
  match s.mp.lookup addr with
  | none => .ok s
  | some p => do
    let conn ← s.deref p
    if 0 < conn.convManager.getSize then .ok s
    else if currentTime < conn.lastActiveTime + serverConnTimeout then .ok s
    else s.erase addr p

def clearInactive0 (s : Server) (visits : List Address) : Except Fault Server :=
  let size := s.mp.entries.length
  let numToClean := min (size / connClearRatio + connClearMin) size
  (visits.take numToClean).foldlM (visit s.clock.now) { s with clock := s.clock.tail }

def clearInactive (s : Server) (visits : List Address) : Except Fault Server :=
  if connClearInterval < sub64 s.clock.now s.lastClearTime then
    clearInactive0 { s with lastClearTime := s.clock.tail.now, clock := s.clock.tail.tail } visits
  else .ok { s with clock := s.clock.tail }

/-! ## `server_process_tunnel_packet` -/

/-- `get_conv`: what it returns, the conv, and the bytes behind it. -/
def getConv (input : Bytes) : Int × U32 × Bytes := (if input.length < 4 then -1 else 0, readU32 (UdpSpeeder.mem input) 0, input.drop 4)

/-- A conv that is not in the tables yet, and whether it now is. -/
def openConv (p : Ptr) (addr : Address) (conv : U32) (s : Server) : Except Fault (Bool × Server) := do
  let conn ← s.deref p
  if maxConvNum ≤ conn.convManager.getSize then .ok (false, s)
  else
    match os s.sockets s.opened with
    | none => .ok (false, { s with sockets := s.sockets + 1 })
    | some fd => do
      let (m, fd64) ← s.fdManager.create fd
      let (convManager, clock) ← conn.convManager.insertConv conv fd64 s.clock
      let (m, info) ← m.getInfo fd64
      let m := m.setInfo fd64 { info with addr := some addr }
      let (m, info) ← m.getInfo fd64
      check conn.loop (.null "loop")
      let m := m.setInfo fd64 { info with ioWatcher := some ⟨fd64, p, fd⟩ }
      let s := s.setConn p { conn with convManager := convManager }
      .ok (true, { s with fdManager := m, opened := fd :: s.opened, sockets := s.sockets + 1, clock := clock })

/-- Whether there is a conv for the packet, now at least. -/
def ensureConv (p : Ptr) (addr : Address) (conv : U32) (s : Server) : Except Fault (Bool × Server) := do
  let conn ← s.deref p
  if ¬ conn.convManager.isConvUsed conv then openConv os p addr conv s else .ok (true, s)

/-- One packet that the decoder handed out. -/
def processOut (p : Ptr) (addr : Address) (s : Server) (x : Nat × Bytes) : Except Fault Server := do
  let (ret, conv, data) := getConv x.2
  if ret ≠ 0 then .ok s
  else do
    let (there, s) ← ensureConv os p addr conv s
    if ¬ there then .ok s
    else do
      let conn ← s.deref p
      let (convManager, clock) ← conn.convManager.updateActiveTime conv s.clock
      let (convManager, fd64) := convManager.findDataByConv conv
      let s := s.setConn p { conn with convManager := convManager }
      .ok { s with clock := clock, outbox := s.outbox ++ [(x.1, ⟨.fd64 fd64, false⟩, data)] }

/-- A connection from a new address. -/
def accept (s : Server) (localListenFd : Fd) (addr : Address) : Except Fault Server := do
  let (s, p) := findInsert garbage s addr
  let conn ← s.deref p
  .ok (s.setConn p { conn with addr := some addr, loop := true, localListenFd := localListenFd })

/-- The conn's part of `server_process_tunnel_packet`. -/
def processConn (s : Server) (addr : Address) (out : Out) : Except Fault Server := do
  let (s, p) := findInsert garbage s addr
  let conn ← s.deref p
  let s := { s.setConn p { conn with lastActiveTime := s.clock.now } with clock := s.clock.tail }
  out.foldlM (processOut os p addr) s

def processTunnelPacket (s : Server) (localListenFd : Fd) (dataLen : Int) (addr : Address) (deCook : Int) (out : Out) : Except Fault Server :=
  if dataLen = maxDataLen + 1 then .ok s
  else if deCook ≠ 0 then .ok s
  else if addr ∉ s.mp then
    if maxConnNum ≤ s.mp.entries.length then .ok s
    else do
      let s ← accept garbage s localListenFd addr
      processConn os garbage s addr out
  else processConn os garbage s addr out

end Handlers

/-! ## `data_from_remote_or_fec_timeout_or_conn_timer` -/

/-- Where a conn sends what its encoder hands out. -/
def sendOut (s : Server) (conn : ConnInfo) (out : Out) : Except Fault Server :=
  match conn.addr with
  | none => .error (.assert "is_valid()")
  | some addr => .ok { s with outbox := s.outbox ++ out.map fun x => (x.1, ⟨.fdAddr conn.localListenFd addr, true⟩, x.2) }

/-- `server_process_remote_packet`. -/
def processRemotePacket (s : Server) (p : Ptr) (fd64 : Fd64) (dataLen : Int) (out : Out) : Except Fault Server := do
  let conn ← s.deref p
  check (conn.convManager.isDataUsed fd64) (.assert "conn_info.conv_manager.s.is_data_used(fd64)")
  let (convManager, conv) := conn.convManager.findConvByData fd64
  let (convManager, clock) ← convManager.updateActiveTime conv s.clock
  let conn := { conn with convManager := convManager, lastActiveTime := clock.now }
  let s := { s.setConn p conn with clock := clock.tail }
  if dataLen = maxDataLen + 1 then .ok s
  else if dataLen < 0 then .ok s
  else s.sendOut conn out

/-- What it does first in every mode: the conn, with `assert(conn_manager.exist(addr))`. -/
def connOf (s : Server) (p : Ptr) : Except Fault ConnInfo := do
  let conn ← s.deref p
  check (∃ addr ∈ conn.addr, addr ∈ s.mp) (.assert "conn_manager.exist(addr)")
  .ok conn

/-- `is_from_remote`. -/
def fromRemote (s : Server) (watcher : IoWatcher) (dataLen : Int) (out : Out) : Except Fault Server := do
  let _ ← s.connOf watcher.data
  if ¬ s.fdManager.exist watcher.u64 then .ok s
  else do
    let _ ← s.fdManager.toFd watcher.u64
    s.processRemotePacket watcher.data watcher.u64 dataLen out

/-- `is_fec_timeout`. -/
def fecTimeout (s : Server) (p : Ptr) (out : Out) : Except Fault Server := do
  let conn ← s.connOf p
  s.sendOut conn out

/-- `is_conn_timer`: what `debug_force_flush_fec` flushes is not sent. -/
def connTimer (s : Server) (p : Ptr) : Except Fault Server := do
  let conn ← s.connOf p
  let (convManager, (m, opened), clock) ← conn.convManager.clearInactive s.clearFunction (s.fdManager, s.opened) s.clock
  .ok { s.setConn p { conn with convManager := convManager } with fdManager := m, opened := opened, clock := clock }

end Server

/-! ## Runs -/

inductive Event where
  /-- `local_listen_cb`, with what `de_cook` returns and the decoder hands out. -/
  | tunnel (localListenFd : Fd) (dataLen : Int) (addr : Address) (deCook : Int) (out : Out)
  /-- `remote_cb`, with what `recv` returns and the encoder hands out. -/
  | remote (fd64 : Fd64) (dataLen : Int) (out : Out)
  /-- `fec_encode_cb` -/
  | fecTimeout (p : Ptr) (out : Out)
  /-- `conn_timer_cb` -/
  | connTimer (p : Ptr)
  /-- `global_timer_cb`, and the elements that `clear_it` passes. -/
  | globalTimer (visits : List Address)

variable (os : Nat → Open → Option Fd) (garbage : Ptr → Nat)

/-- A callback is called by a watcher that was started: one in `fd_info_mp`, or in a conn. -/
def step (s : Server) : Event → Except Fault Server
  | .tunnel localListenFd dataLen addr deCook out => s.processTunnelPacket os garbage localListenFd dataLen addr deCook out
  | .remote fd64 dataLen out =>
    match (s.fdManager.fdInfo.lookup fd64).bind FdInfo.ioWatcher with
    | some watcher => s.fromRemote watcher dataLen out
    | none => .ok s
  | .fecTimeout p out => if p ∈ s.heap then s.fecTimeout p out else .ok s
  | .connTimer p => if p ∈ s.heap then s.connTimer p else .ok s
  | .globalTimer visits => s.clearInactive visits

def run (s : Server) (es : List Event) : Except Fault Server := es.foldlM (step os garbage) s

end UdpSpeeder.Tunnel
