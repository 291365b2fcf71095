/-
  UdpSpeeder.Net.FdManager — the numbers under which the program keeps its sockets
  (`fd_manager.cpp`): a number for each descriptor, never used again.

  An `unordered_map` is a `Table`. The descriptors that the
  operating system has open are a list beside it (`Open`); `sock_close` takes one off.
-/

import UdpSpeeder.Common
import UdpSpeeder.Lib.Table

namespace UdpSpeeder.Net

open Lib

/-- `address_t` of a valid family: all of its `sockaddr`. -/
inductive Address where
  | ipv4 (addr : BitVec 32) (port : BitVec 16)
  | ipv6 (addr : BitVec 128) (port : BitVec 16) (flowinfo scopeId : BitVec 32)
  deriving DecidableEq, Repr

abbrev Fd := Int

/-- A `u64_t`, without its bound: the numbers start above 2^32, and a call of `socket` takes one
    of them at most (`Tunnel.Consistent.numbers`), so they come round after some 2^64 calls. -/
abbrev Fd64 := Nat

/-- What an `ev_io` that was started hands to its callback; `data` is a pointer to a conn. -/
structure IoWatcher where
  u64 : Fd64
  data : Nat
  fd : Fd
  deriving DecidableEq, Repr

/-- `fd_info_t`. Without an address and a watcher it is as the map makes it. -/
structure FdInfo where
  addr : Option Address
  ioWatcher : Option IoWatcher
  deriving DecidableEq, Repr

structure FdManager where
  counter : Nat
  fdToFd64 : Table Fd Fd64
  fd64ToFd : Table Fd64 Fd
  fdInfo : Table Fd64 FdInfo

/-- The descriptors that are open. -/
abbrev Open := List Fd

namespace FdManager

/-- `fd_manager_t`. -/
def init : FdManager := ⟨4294967295 + 100, ∅, ∅, ∅⟩

def fdExist (m : FdManager) (fd : Fd) : Prop := fd ∈ m.fdToFd64

def exist (m : FdManager) (fd64 : Fd64) : Prop := fd64 ∈ m.fd64ToFd

instance (m : FdManager) (fd : Fd) : Decidable (m.fdExist fd) := inferInstanceAs (Decidable (fd ∈ m.fdToFd64))

instance (m : FdManager) (fd64 : Fd64) : Decidable (m.exist fd64) := inferInstanceAs (Decidable (fd64 ∈ m.fd64ToFd))

/-- `to_fd`: a number it does not know fails the assertion. -/
def toFd (m : FdManager) (fd64 : Fd64) : Except Fault Fd :=
  match m.fd64ToFd.lookup fd64 with
  | some fd => .ok fd
  | none => .error (.assert "exist(fd64)")

def existInfo (m : FdManager) (fd64 : Fd64) : Prop := fd64 ∈ m.fdInfo

instance (m : FdManager) (fd64 : Fd64) : Decidable (m.existInfo fd64) := inferInstanceAs (Decidable (fd64 ∈ m.fdInfo))

/-- `fd64_close`. -/
def fd64Close (m : FdManager) (fds : Open) (fd64 : Fd64) : Except Fault (FdManager × Open) := do
  let fd ← m.toFd fd64
  .ok ({ m with fd64ToFd := m.fd64ToFd.erase fd64, fdToFd64 := m.fdToFd64.erase fd,
                fdInfo := if m.existInfo fd64 then m.fdInfo.erase fd64 else m.fdInfo }, fds.filter (· ≠ fd))

def create (m : FdManager) (fd : Fd) : Except Fault (FdManager × Fd64) := do
  check (¬ m.fdExist fd) (.assert "!fd_exist(fd)")
  .ok ({ m with counter := m.counter + 1, fdToFd64 := m.fdToFd64.insert fd m.counter, fd64ToFd := m.fd64ToFd.insert m.counter fd }, m.counter)

/-- `get_info`: one that is not there yet is made. -/
def getInfo (m : FdManager) (fd64 : Fd64) : Except Fault (FdManager × FdInfo) := do
  check (m.exist fd64) (.assert "exist(fd64)")
  match m.fdInfo.lookup fd64 with
  | some info => .ok (m, info)
  | none => .ok ({ m with fdInfo := m.fdInfo.insert fd64 ⟨none, none⟩ }, ⟨none, none⟩)

/-- Write through the reference that `get_info` returned. -/
def setInfo (m : FdManager) (fd64 : Fd64) (info : FdInfo) : FdManager := { m with fdInfo := m.fdInfo.insert fd64 info }

theorem toFd_ok {m : FdManager} {fd64 : Fd64} {fd : Fd} : m.toFd fd64 = .ok fd ↔ m.fd64ToFd.lookup fd64 = some fd := by
  unfold toFd
  split <;> simp_all

end FdManager

end UdpSpeeder.Net
