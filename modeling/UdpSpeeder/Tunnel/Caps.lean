/-
  UdpSpeeder.Tunnel.Caps — never more conns than `max_conn_num`, and in none of them more convs
  than `max_conv_num`.

  The two checks stand before the only two places that make entries; `operator[]` makes none,
  since it is asked for what is there, or for what is erased right after (`eraseConv_size`).
  Nothing is assumed about the operating system or the clock.
-/

import UdpSpeeder.Tunnel.Tables

namespace UdpSpeeder.Tunnel

open Lib Net

/-! ## Convs -/

namespace ConvManager

variable {T σ : Type} [DecidableEq T] [Inhabited T] {m m' : ConvManager T} {conv : U32} {c c' : Clock} {f : ClearFunction T σ} {s s' : σ}

theorem eraseConv_size (h : m.eraseConv f conv s = .ok (m', s')) : m'.getSize ≤ m.getSize := by
  obtain ⟨lru, rfl⟩ := eraseConv_inv h
  unfold getSize findDataByConv
  cases m.convToData.lookup conv with
  | some data => exact length_erase_le _ _
  | none => exact length_erase_insert_le _ _ _

theorem clearInactive_size (h : m.clearInactive f s c = .ok (m', s', c')) : m'.getSize ≤ m.getSize := by
  rcases clearInactive_inv h with ⟨-, rfl⟩ | ⟨-, n, hloop⟩
  · exact Nat.le_refl _
  · refine clearLoop_inv (P := fun m1 => m1.getSize ≤ m.getSize) (fun _ _ _ _ _ hm hrun => (eraseConv_size hrun).trans hm) ?_ hloop
    exact Nat.le_refl m.getSize

end ConvManager

/-! ## Conns -/

namespace Server

/-- The caps. -/
structure Capped (s : Server) : Prop where
  conns : s.mp.entries.length ≤ maxConnNum
  convs : ∀ p conn, s.heap.lookup p = some conn → conn.convManager.getSize ≤ maxConvNum

theorem deref_ok {s : Server} {p : Ptr} {conn : ConnInfo} : s.deref p = .ok conn ↔ s.heap.lookup p = some conn := by
  unfold deref
  split <;> simp_all

variable {os : Nat → Open → Option Fd} {garbage : Ptr → Nat} {s s' : Server} {p : Ptr} {addr : Address}

theorem Capped.setConn (h : s.Capped) (p : Ptr) (conn : ConnInfo) (hsize : conn.convManager.getSize ≤ maxConvNum) : (s.setConn p conn).Capped := by
  refine ⟨h.conns, fun q conn' hq => ?_⟩
  have hq' : (s.heap.insert p conn).lookup q = some conn' := hq
  rw [lookup_insert_eq] at hq'
  split at hq'
  · cases hq'
    exact hsize
  · exact h.convs q conn' hq'

theorem openConv_capped {conv : U32} {there : Bool} (h : s.Capped) (hrun : openConv os p addr conv s = .ok (there, s')) :
    s'.Capped ∧ (there → ∃ conn, s'.heap.lookup p = some conn ∧ conv ∈ conn.convManager.convToData) := by
  unfold openConv at hrun
  obtain ⟨conn, -, hrun⟩ := bind_ok.mp hrun
  split at hrun
  · cases hrun
    exact ⟨h, fun hthere => by cases hthere⟩
  · rename_i hroom
    split at hrun
    · cases hrun
      exact ⟨⟨h.conns, h.convs⟩, fun hthere => by cases hthere⟩
    · obtain ⟨⟨m1, fd64⟩, -, hrun⟩ := bind_ok.mp hrun
      obtain ⟨⟨convManager, clock⟩, hinsert, hrun⟩ := bind_ok.mp hrun
      obtain ⟨⟨m2, info⟩, -, hrun⟩ := bind_ok.mp hrun
      obtain ⟨⟨m3, info3⟩, -, hrun⟩ := bind_ok.mp hrun
      obtain ⟨-, -, hrun⟩ := bind_ok.mp hrun
      cases hrun
      obtain ⟨-, hconvs⟩ := ConvManager.insertConv_inv hinsert
      have hsize : convManager.getSize ≤ maxConvNum := by
        unfold ConvManager.getSize at hroom ⊢
        rw [hconvs]
        exact (length_insert_le _ _ _).trans (by omega)
      have hset := h.setConn p { conn with convManager := convManager } hsize
      refine ⟨⟨hset.conns, hset.convs⟩, fun _ => ⟨_, AList.lookup_insert _, ?_⟩⟩
      simp only [hconvs, AList.mem_insert, true_or]

theorem ensureConv_capped {conv : U32} {there : Bool} (h : s.Capped) (hrun : ensureConv os p addr conv s = .ok (there, s')) :
    s'.Capped ∧ (there → ∃ conn, s'.heap.lookup p = some conn ∧ conv ∈ conn.convManager.convToData) := by
  unfold ensureConv at hrun
  obtain ⟨conn, hconn, hrun⟩ := bind_ok.mp hrun
  split at hrun
  · exact openConv_capped h hrun
  · rename_i hused
    cases hrun
    exact ⟨h, fun _ => ⟨conn, deref_ok.mp hconn, not_not.mp hused⟩⟩

theorem processOut_capped {x : Nat × Bytes} (h : s.Capped) (hrun : processOut os p addr s x = .ok s') : s'.Capped := by
  unfold processOut at hrun
  simp only at hrun
  split at hrun
  · cases hrun
    exact h
  · obtain ⟨⟨there, s1⟩, hensure, hrun⟩ := bind_ok.mp hrun
    -- the conv is in the conn's table by now, or the packet is dropped
    obtain ⟨h1, hthere⟩ := ensureConv_capped h hensure
    simp only at hrun
    split at hrun
    · cases hrun
      exact h1
    · rename_i hyes
      obtain ⟨conn1, hlook, hmem⟩ := hthere (not_not.mp hyes)
      rw [deref_ok.mpr hlook, ok_bind] at hrun
      obtain ⟨⟨convManager, clock⟩, hupdate, hrun⟩ := bind_ok.mp hrun
      cases hrun
      obtain ⟨-, q, -, hconvs⟩ := ConvManager.updateActiveTime_inv hupdate
      obtain ⟨fd64, hfd64⟩ := exists_lookup (show (getConv x.2).2.1 ∈ convManager.convToData by rw [hconvs]; exact hmem)
      have hset := h1.setConn p { conn1 with convManager := (convManager.findDataByConv (getConv x.2).2.1).1 } (by
        rw [ConvManager.findDataByConv_ok hfd64]
        unfold ConvManager.getSize
        rw [hconvs]
        exact h1.convs p conn1 hlook)
      exact ⟨hset.conns, hset.convs⟩

theorem findInsert_mem {q : Ptr} (h : s.mp.lookup addr = some q) : findInsert garbage s addr = (s, q) := by
  unfold findInsert
  rw [h]

theorem accept_capped {localListenFd : Fd} (h : s.Capped) (hnew : addr ∉ s.mp) (hroom : s.mp.entries.length < maxConnNum)
    (hrun : accept garbage s localListenFd addr = .ok s') : s'.Capped ∧ addr ∈ s'.mp := by
  unfold accept findInsert at hrun
  rw [AList.lookup_eq_none.mpr hnew] at hrun
  obtain ⟨conn, hconn, hrun⟩ := bind_ok.mp hrun
  cases hrun
  have hconn' := deref_ok.mp hconn
  have hempty : (⟨.init (garbage s.conns), garbage s.conns, false, 0, none⟩ : ConnInfo) = conn :=
    Option.some.inj ((AList.lookup_insert s.heap).symm.trans hconn')
  have hinit := h.setConn s.conns conn (by rw [← hempty]; exact Nat.zero_le _)
  have hset := hinit.setConn s.conns { conn with addr := some addr, loop := true, localListenFd := localListenFd }
    (by rw [← hempty]; exact Nat.zero_le _)
  refine ⟨⟨(length_insert_le _ _ _).trans hroom, ?_⟩, AList.mem_insert _ |>.mpr (.inl rfl)⟩
  rw [hempty]
  exact hset.convs

theorem processConn_capped {out : Out} (h : s.Capped) (haddr : addr ∈ s.mp) (hrun : processConn os garbage s addr out = .ok s') : s'.Capped := by
  obtain ⟨q, hq⟩ := exists_lookup haddr
  unfold processConn at hrun
  rw [findInsert_mem hq] at hrun
  obtain ⟨conn, hconn, hrun⟩ := bind_ok.mp hrun
  have hset := h.setConn q { conn with lastActiveTime := s.clock.now } (h.convs q conn (deref_ok.mp hconn))
  simp only at hrun
  refine foldlM_inv (fun s x t _ hs hstep => processOut_capped hs hstep) ?_ hrun
  exact ⟨hset.conns, hset.convs⟩

theorem processTunnelPacket_capped {localListenFd : Fd} {dataLen deCook : Int} {out : Out} (h : s.Capped)
    (hrun : processTunnelPacket os garbage s localListenFd dataLen addr deCook out = .ok s') : s'.Capped := by
  unfold processTunnelPacket at hrun
  split at hrun
  · cases hrun
    exact h
  · split at hrun
    · cases hrun
      exact h
    · split at hrun
      · rename_i hnew
        split at hrun
        · cases hrun
          exact h
        · obtain ⟨s1, haccept, hrun⟩ := bind_ok.mp hrun
          obtain ⟨h1, haddr⟩ := accept_capped h hnew (by omega) haccept
          exact processConn_capped h1 haddr hrun
      · rename_i hold
        exact processConn_capped h (not_not.mp hold) hrun

theorem sendOut_capped {conn : ConnInfo} {out : Out} (h : s.Capped) (hrun : s.sendOut conn out = .ok s') : s'.Capped := by
  unfold sendOut at hrun
  split at hrun
  · cases hrun
  · cases hrun
    exact ⟨h.conns, h.convs⟩

theorem connOf_ok {conn : ConnInfo} (h : s.connOf p = .ok conn) : s.heap.lookup p = some conn := by
  unfold connOf at h
  obtain ⟨conn', hconn, h⟩ := bind_ok.mp h
  obtain ⟨-, -, h⟩ := bind_ok.mp h
  cases h
  exact deref_ok.mp hconn

theorem fromRemote_capped {watcher : IoWatcher} {dataLen : Int} {out : Out} (h : s.Capped) (hrun : s.fromRemote watcher dataLen out = .ok s') :
    s'.Capped := by
  unfold fromRemote at hrun
  obtain ⟨_, -, hrun⟩ := bind_ok.mp hrun
  split at hrun
  · cases hrun
    exact h
  · obtain ⟨_, -, hrun⟩ := bind_ok.mp hrun
    unfold processRemotePacket at hrun
    obtain ⟨conn, hconn, hrun⟩ := bind_ok.mp hrun
    obtain ⟨-, -, hrun⟩ := bind_ok.mp hrun
    obtain ⟨⟨convManager, clock⟩, hupdate, hrun⟩ := bind_ok.mp hrun
    obtain ⟨-, q, -, hinv⟩ := ConvManager.updateActiveTime_inv hupdate
    have hconvs : convManager.convToData = conn.convManager.convToData := by
      obtain ⟨table, hfind⟩ := conn.convManager.findConvByData_inv watcher.u64
      rw [hinv]
      show (conn.convManager.findConvByData watcher.u64).1.convToData = conn.convManager.convToData
      rw [hfind]
    have hset := h.setConn watcher.data { conn with convManager := convManager, lastActiveTime := clock.now } (by
      unfold ConvManager.getSize
      rw [hconvs]
      exact h.convs watcher.data conn (deref_ok.mp hconn))
    simp only at hrun
    split at hrun
    · cases hrun
      exact ⟨hset.conns, hset.convs⟩
    · split at hrun
      · cases hrun
        exact ⟨hset.conns, hset.convs⟩
      · refine sendOut_capped ?_ hrun
        exact ⟨hset.conns, hset.convs⟩

theorem connTimer_capped (h : s.Capped) (hrun : s.connTimer p = .ok s') : s'.Capped := by
  unfold connTimer at hrun
  obtain ⟨conn, hconn, hrun⟩ := bind_ok.mp hrun
  obtain ⟨⟨convManager, ⟨m, opened⟩, clock⟩, hclear, hrun⟩ := bind_ok.mp hrun
  have hset := h.setConn p { conn with convManager := convManager }
    ((ConvManager.clearInactive_size hclear).trans (h.convs p conn (connOf_ok hconn)))
  cases hrun
  exact ⟨hset.conns, hset.convs⟩

theorem visit_capped {currentTime : Nat} (h : s.Capped) (hrun : visit currentTime s addr = .ok s') : s'.Capped := by
  unfold visit at hrun
  split at hrun
  · cases hrun
    exact h
  · rename_i q hq
    obtain ⟨conn, -, hrun⟩ := bind_ok.mp hrun
    split at hrun
    · cases hrun
      exact h
    · split at hrun
      · cases hrun
        exact h
      · unfold erase at hrun
        obtain ⟨conn', -, hrun⟩ := bind_ok.mp hrun
        obtain ⟨⟨m1, m, opened⟩, -, hrun⟩ := bind_ok.mp hrun
        cases hrun
        refine ⟨(length_erase_le _ _).trans h.conns, fun q' conn1 hq' => ?_⟩
        have hq1 : (s.heap.erase q).lookup q' = some conn1 := hq'
        rw [lookup_erase_eq] at hq1
        split at hq1
        · cases hq1
        · exact h.convs q' conn1 hq1

theorem clearInactive_capped {visits : List Address} (h : s.Capped) (hrun : s.clearInactive visits = .ok s') : s'.Capped := by
  unfold clearInactive at hrun
  split at hrun
  · unfold clearInactive0 at hrun
    simp only at hrun
    refine foldlM_inv (fun s a t _ hs hstep => visit_capped hs hstep) ?_ hrun
    exact ⟨h.conns, h.convs⟩
  · cases hrun
    exact ⟨h.conns, h.convs⟩

end Server

/-! ## Runs -/

variable {os : Nat → Open → Option Fd} {garbage : Ptr → Nat} {s s' : Server}

theorem step_capped {e : Event} (h : s.Capped) (hrun : step os garbage s e = .ok s') : s'.Capped := by
  cases e with
  | tunnel localListenFd dataLen addr deCook out => exact Server.processTunnelPacket_capped h hrun
  | remote fd64 dataLen out =>
    simp only [step] at hrun
    split at hrun
    · exact Server.fromRemote_capped h hrun
    · cases hrun
      exact h
  | fecTimeout p out =>
    simp only [step] at hrun
    split at hrun
    · unfold Server.fecTimeout at hrun
      obtain ⟨conn, -, hrun⟩ := bind_ok.mp hrun
      exact Server.sendOut_capped h hrun
    · cases hrun
      exact h
  | connTimer p =>
    simp only [step] at hrun
    split at hrun
    · exact Server.connTimer_capped h hrun
    · cases hrun
      exact h
  | globalTimer visits => exact Server.clearInactive_capped h hrun

/-- In every state of every run there are at most `max_conn_num` conns, with at most
    `max_conv_num` convs each. -/
theorem caps_hold (os : Nat → Open → Option Fd) (garbage : Ptr → Nat) (opened : Open) (clock : Clock) (es : List Event) (s : Server)
    (hrun : run os garbage (.init opened clock) es = .ok s) :
    s.mp.entries.length ≤ maxConnNum ∧
      ∀ addr p conn, s.mp.lookup addr = some p → s.heap.lookup p = some conn → conn.convManager.getSize ≤ maxConvNum := by
  have hinit : (Server.init opened clock).Capped := ⟨Nat.zero_le _, fun p conn hp => by cases hp⟩
  have hs : s.Capped := foldlM_inv (fun s e t _ hs hstep => step_capped hs hstep) hinit hrun
  exact ⟨hs.conns, fun addr p conn _ hp => hs.convs p conn hp⟩

/-- An operating system that hands out the next number. -/
def nextFd (_ : Nat) (opened : Open) : Option Fd := some (opened.foldr max 2 + 1)

/-- A client with one conv, which expires, and then the client. -/
def visitor : List Event :=
  [.tunnel 3 40 (.ipv4 1 2) 0 [(0, [0, 0, 0, .ofNat 9, .ofNat 5])], .connTimer 0, .globalTimer [.ipv4 1 2]]

/-- One reading every 100 seconds. -/
def slowClock : Clock := fun i => i * 100000000

theorem caps_hold_visitor : ∃ s, run nextFd (fun _ => 0) (.init [3] slowClock) (visitor.take 1) = .ok s ∧ s.mp.entries.length = 1 ∧
    s.mp.entries.length ≤ maxConnNum :=
  ⟨_, rfl, rfl, (caps_hold nextFd (fun _ => 0) [3] slowClock (visitor.take 1) _ rfl).1⟩

end UdpSpeeder.Tunnel
