/-
  UdpSpeeder.Tunnel.Consistent — the server's tables agree with each other in every state that
  events reach, and no assertion on the way fails.

  `Sockets` is about `fd_manager` alone; `Links` is what it shares with the convs of all
  conns: every conv's number is known with its address and its watcher, no number belongs
  to two convs, and there are no others. A conv that comes adds a pair to both sides
  (`Links.opens`), one that goes takes it off (`Links.closes`, which `server_clear_function`
  does in the middle of `erase_conv`); all else leaves the view alone (`Inv.change`).
-/

import UdpSpeeder.Tunnel.Caps

namespace UdpSpeeder.Tunnel

open Lib Net

/-! ## `fd_manager` -/

/-- Two inverse maps, no number from the future, and descriptors that are open. -/
structure Sockets (m : FdManager) (opened : Open) : Prop where
  inverse : Inverse m.fdToFd64 m.fd64ToFd
  below : ∀ fd64 ∈ m.fd64ToFd, fd64 < m.counter
  infos : ∀ fd64 ∈ m.fdInfo, fd64 ∈ m.fd64ToFd
  opened : ∀ fd ∈ m.fdToFd64, fd ∈ opened

/-- Numbers are only ever new ones. -/
structure Grew (m m' : FdManager) : Prop where
  counter : m.counter ≤ m'.counter
  fresh : ∀ fd64 ∈ m'.fd64ToFd, fd64 ∈ m.fd64ToFd ∨ m.counter ≤ fd64

theorem Grew.refl (m : FdManager) : Grew m m := ⟨Nat.le_refl _, fun _ h => .inl h⟩

theorem Grew.trans {m1 m2 m3 : FdManager} (h : Grew m1 m2) (h' : Grew m2 m3) : Grew m1 m3 :=
  ⟨h.counter.trans h'.counter, fun fd64 hfd64 => (h'.fresh fd64 hfd64).elim (h.fresh fd64) fun hle => .inr (h.counter.trans hle)⟩

section Sockets

variable {m : FdManager} {opened : Open} {fd : Fd} {fd64 : Fd64}

theorem init_sockets (opened : Open) : Sockets .init opened :=
  ⟨inverse_empty, by simp [FdManager.init], by simp [FdManager.init], by simp [FdManager.init]⟩

theorem getInfo_ok {info : FdInfo} (hexist : m.exist fd64) (h : m.fdInfo.lookup fd64 = some info) : m.getInfo fd64 = .ok (m, info) := by
  unfold FdManager.getInfo
  rw [check_true hexist, ok_bind, h]

theorem getInfo_new (hexist : m.exist fd64) (h : fd64 ∉ m.fdInfo) : m.getInfo fd64 = .ok (m.setInfo fd64 ⟨none, none⟩, ⟨none, none⟩) := by
  unfold FdManager.getInfo
  rw [check_true hexist, ok_bind, AList.lookup_eq_none.mpr h]
  rfl

/-- What `create` makes of a descriptor that was not open. -/
def created (m : FdManager) (fd : Fd) : FdManager :=
  { m with counter := m.counter + 1, fdToFd64 := m.fdToFd64.insert fd m.counter, fd64ToFd := m.fd64ToFd.insert m.counter fd }

theorem Sockets.create (h : Sockets m opened) (hfd : fd ∉ opened) :
    m.create fd = .ok (created m fd, m.counter) ∧ Sockets (created m fd) (fd :: opened) ∧ m.counter ∉ m.fd64ToFd := by
  have hnew : fd ∉ m.fdToFd64 := fun hmem => hfd (h.opened fd hmem)
  have hfresh : m.counter ∉ m.fd64ToFd := fun hmem => Nat.lt_irrefl _ (h.below _ hmem)
  refine ⟨?_, ⟨h.inverse.insert hnew hfresh, fun k hk => ?_, fun k hk => ?_, fun k hk => ?_⟩, hfresh⟩
  · unfold FdManager.create
    rw [check_true (show ¬ m.fdExist fd from hnew)]
    rfl
  · rcases (AList.mem_insert _).mp hk with rfl | hk
    · exact Nat.lt_succ_self _
    · exact (h.below k hk).trans (Nat.lt_succ_self _)
  · exact (AList.mem_insert _).mpr (.inr (h.infos k hk))
  · rcases (AList.mem_insert _).mp hk with rfl | hk
    · exact List.mem_cons_self
    · exact List.mem_cons_of_mem _ (h.opened k hk)

theorem Sockets.setInfo (h : Sockets m opened) (hexist : fd64 ∈ m.fd64ToFd) (info : FdInfo) : Sockets (m.setInfo fd64 info) opened :=
  { h with infos := fun k hk => ((AList.mem_insert _).mp hk).elim (fun heq => heq ▸ hexist) (h.infos k) }

/-- What `fd64_close` makes of a number it knows. -/
def closed (m : FdManager) (fd64 : Fd64) (fd : Fd) : FdManager :=
  { m with fd64ToFd := m.fd64ToFd.erase fd64, fdToFd64 := m.fdToFd64.erase fd,
           fdInfo := if m.existInfo fd64 then m.fdInfo.erase fd64 else m.fdInfo }

theorem closed_info (m : FdManager) (fd64 : Fd64) (fd : Fd) (k : Fd64) :
    (closed m fd64 fd).fdInfo.lookup k = if k = fd64 then none else m.fdInfo.lookup k := by
  unfold closed
  simp only
  split
  · exact lookup_erase_eq _ _ _
  · rename_i hno
    split
    · rename_i heq
      exact heq ▸ AList.lookup_eq_none.mpr hno
    · rfl

theorem Sockets.close (h : Sockets m opened) (hfd : m.fd64ToFd.lookup fd64 = some fd) :
    m.fd64Close opened fd64 = .ok (closed m fd64 fd, opened.filter (· ≠ fd)) ∧
      Sockets (closed m fd64 fd) (opened.filter (· ≠ fd)) := by
  refine ⟨?_, h.inverse.erase ((h.inverse _ _).mpr hfd), fun k hk => h.below k (AList.mem_erase.mp hk).2, ?_, ?_⟩
  · unfold FdManager.fd64Close
    rw [FdManager.toFd_ok.mpr hfd]
    rfl
  · intro k hk
    obtain ⟨info, hinfo⟩ := exists_lookup hk
    rw [closed_info] at hinfo
    split at hinfo
    · cases hinfo
    · rename_i hne
      exact AList.mem_erase.mpr ⟨hne, h.infos k (mem_of_lookup hinfo)⟩
  · intro k hk
    obtain ⟨hne, hmem⟩ := AList.mem_erase.mp hk
    exact List.mem_filter.mpr ⟨h.opened k hmem, by simpa using hne⟩

theorem grew_created (m : FdManager) (fd : Fd) : Grew m (created m fd) :=
  ⟨Nat.le_succ _, fun _ hk => ((AList.mem_insert _).mp hk).elim (fun heq => .inr heq.ge) .inl⟩

theorem grew_setInfo (m : FdManager) (fd64 : Fd64) (info : FdInfo) : Grew m (m.setInfo fd64 info) := ⟨Nat.le_refl _, fun _ hk => .inl hk⟩

theorem grew_closed (m : FdManager) (fd64 : Fd64) (fd : Fd) : Grew m (closed m fd64 fd) :=
  ⟨Nat.le_refl _, fun _ hk => .inl (AList.mem_erase.mp hk).2⟩

end Sockets

/-! ## What the managers share -/

/-- The numbers of the convs, seen from the conns (`F`, with their addresses `A`) and from
    `fd_manager`. -/
structure Links (F : Ptr → U32 → Option Fd64) (A : Ptr → Option Address) (m : FdManager) : Prop where
  held : ∀ p conv fd64, F p conv = some fd64 → ∃ fd addr, m.fd64ToFd.lookup fd64 = some fd ∧ A p = some addr ∧
    m.fdInfo.lookup fd64 = some ⟨some addr, some ⟨fd64, p, fd⟩⟩
  inj : ∀ p conv q conv' fd64, F p conv = some fd64 → F q conv' = some fd64 → p = q ∧ conv = conv'
  owner : ∀ fd64 ∈ m.fd64ToFd, ∃ p conv, F p conv = some fd64

section Links

variable {F F' : Ptr → U32 → Option Fd64} {A A' : Ptr → Option Address} {m m' : FdManager} {p : Ptr} {conv : U32} {fd64 : Fd64} {fd : Fd} {addr : Address}

/-- A conv that comes. -/
theorem Links.opens (h : Links F A m) (hnew : fd64 ∉ m.fd64ToFd) (hF : ∀ q c, F' q c = if q = p ∧ c = conv then some fd64 else F q c)
    (hfree : F p conv = none) (hA : A p = some addr) (hfds : m'.fd64ToFd = m.fd64ToFd.insert fd64 fd)
    (hinfo : m'.fdInfo = m.fdInfo.insert fd64 ⟨some addr, some ⟨fd64, p, fd⟩⟩) : Links F' A m' := by
  have hold : ∀ q c, F q c ≠ some fd64 := by
    intro q c hq
    obtain ⟨fd', -, hfd', -⟩ := h.held q c fd64 hq
    exact hnew (mem_of_lookup hfd')
  refine ⟨?_, ?_, ?_⟩
  · intro q c k hq
    rw [hF] at hq
    split at hq
    · rename_i heq
      obtain ⟨rfl, rfl⟩ := heq
      cases hq
      exact ⟨fd, addr, by rw [hfds, AList.lookup_insert], hA, by rw [hinfo, AList.lookup_insert]⟩
    · have hne : k ≠ fd64 := fun heq => hold q c (heq ▸ hq)
      obtain ⟨fd', addr', h1, h2, h3⟩ := h.held q c k hq
      exact ⟨fd', addr', by rw [hfds, AList.lookup_insert_ne hne, h1], h2, by rw [hinfo, AList.lookup_insert_ne hne, h3]⟩
  · intro q c q' c' k hq hq'
    rw [hF] at hq hq'
    split at hq
    · rename_i heq
      cases hq
      split at hq'
      · rename_i heq'
        exact ⟨heq.1.trans heq'.1.symm, heq.2.trans heq'.2.symm⟩
      · exact absurd hq' (hold q' c')
    · split at hq'
      · cases hq'
        exact absurd hq (hold q c)
      · exact h.inj q c q' c' k hq hq'
  · intro k hk
    rw [hfds] at hk
    rcases (AList.mem_insert _).mp hk with rfl | hk
    · exact ⟨p, conv, by rw [hF, if_pos ⟨rfl, rfl⟩]⟩
    · obtain ⟨q, c, hq⟩ := h.owner k hk
      refine ⟨q, c, ?_⟩
      rw [hF, if_neg, hq]
      rintro ⟨rfl, rfl⟩
      rw [hfree] at hq
      cases hq

/-- A conv that goes. -/
theorem Links.closes (h : Links F A m) (hp : F p conv = some fd64) (hF : ∀ q c, F' q c = if q = p ∧ c = conv then none else F q c)
    (hfds : m'.fd64ToFd = m.fd64ToFd.erase fd64) (hinfo : ∀ k, k ≠ fd64 → m'.fdInfo.lookup k = m.fdInfo.lookup k) : Links F' A m' := by
  refine ⟨?_, ?_, ?_⟩
  · intro q c k hq
    rw [hF] at hq
    split at hq
    · cases hq
    · rename_i hother
      have hne : k ≠ fd64 := fun heq => hother (h.inj q c p conv fd64 (heq ▸ hq) hp)
      obtain ⟨fd', addr', h1, h2, h3⟩ := h.held q c k hq
      exact ⟨fd', addr', by rw [hfds, AList.lookup_erase_ne hne, h1], h2, by rw [hinfo k hne, h3]⟩
  · intro q c q' c' k hq hq'
    rw [hF] at hq hq'
    split at hq
    · cases hq
    · split at hq'
      · cases hq'
      · exact h.inj q c q' c' k hq hq'
  · intro k hk
    rw [hfds] at hk
    obtain ⟨hne, hk⟩ := AList.mem_erase.mp hk
    obtain ⟨q, c, hq⟩ := h.owner k hk
    refine ⟨q, c, ?_⟩
    rw [hF, if_neg, hq]
    rintro ⟨rfl, rfl⟩
    exact hne (Option.some.inj (hq.symm.trans hp))

/-- The addresses matter only of conns with convs. -/
theorem Links.congr (h : Links F A m) (hF : F' = F) (hA : ∀ p conv fd64, F p conv = some fd64 → A' p = A p) : Links F' A' m := by
  subst hF
  refine ⟨fun q c k hq => ?_, h.inj, h.owner⟩
  obtain ⟨fd', addr', h1, h2, h3⟩ := h.held q c k hq
  exact ⟨fd', addr', h1, (hA q c k hq).trans h2, h3⟩

end Links

/-! ## The invariant -/

/-- The number of a conv of a conn. -/
def fd64Of (heap : Table Ptr ConnInfo) (p : Ptr) (conv : U32) : Option Fd64 := (heap.lookup p).bind fun conn => conn.convManager.convToData.lookup conv

def addrOf (heap : Table Ptr ConnInfo) (p : Ptr) : Option Address := (heap.lookup p).bind ConnInfo.addr

/-- A clock read so many times. -/
def Later (c c' : Clock) : Prop := ∃ n, c' = fun i => c (i + n)

theorem Later.refl (c : Clock) : Later c c := ⟨0, rfl⟩

theorem Later.trans {c1 c2 c3 : Clock} (h : Later c1 c2) (h' : Later c2 c3) : Later c1 c3 := by
  obtain ⟨n, rfl⟩ := h
  obtain ⟨k, rfl⟩ := h'
  exact ⟨k + n, funext fun i => congrArg c1 (Nat.add_assoc i k n)⟩

theorem Later.tail (c : Clock) : Later c c.tail := ⟨1, rfl⟩

theorem Later.mono {c c' : Clock} (h : Later c c') (hc : Monotone c) : Monotone c' := by
  obtain ⟨n, rfl⟩ := h
  exact fun a b hab => hc (Nat.add_le_add_right hab n)

theorem Later.now_le {c c' : Clock} (h : Later c c') (hc : Monotone c) : c.now ≤ c'.now := by
  obtain ⟨n, rfl⟩ := h
  exact Nat.div_le_div_right (hc (Nat.zero_le _))

/-- What holds of a conn by itself. -/
structure ConnInfo.Ready (conn : ConnInfo) (now : Nat) : Prop where
  loop : conn.loop
  addr : conn.addr.isSome
  convs : conn.convManager.Wf now

theorem ConnInfo.Ready.later {conn : ConnInfo} {now now' : Nat} (h : conn.Ready now) (hle : now ≤ now') : conn.Ready now' :=
  { h with convs := h.convs.later hle }

structure Inv (s : Server) : Prop where
  clock : Monotone s.clock
  sockets : Sockets s.fdManager s.opened
  links : Links (fd64Of s.heap) (addrOf s.heap) s.fdManager
  placed : ∀ addr p, s.mp.lookup addr = some p ↔ addrOf s.heap p = some addr
  ready : ∀ p conn, s.heap.lookup p = some conn → conn.Ready s.clock.now
  below : ∀ p ∈ s.heap, p < s.conns
  numbers : s.fdManager.counter ≤ FdManager.init.counter + s.sockets

/-- What callbacks other than conn expiry do to a server. -/
structure Stays (s t : Server) : Prop where
  inv : Inv t
  grew : Grew s.fdManager t.fdManager
  later : Later s.clock t.clock
  conns : ∀ addr p, s.mp.lookup addr = some p → t.mp.lookup addr = some p

theorem Inv.stays {s : Server} (h : Inv s) : Stays s s := ⟨h, .refl _, .refl _, fun _ _ h => h⟩

theorem Stays.trans {s1 s2 s3 : Server} (h : Stays s1 s2) (h' : Stays s2 s3) : Stays s1 s3 :=
  ⟨h'.inv, h.grew.trans h'.grew, h.later.trans h'.later, fun addr p hp => h'.conns addr p (h.conns addr p hp)⟩

theorem init_inv (opened : Open) {clock : Clock} (hclock : Monotone clock) : Inv (.init opened clock) where
  clock := hclock
  sockets := init_sockets opened
  links := ⟨fun _ _ _ h => (by cases h), fun _ _ _ _ _ h => (by cases h), fun _ h => absurd h (AList.notMem_empty _)⟩
  placed addr p := by simp [Server.init, addrOf]
  ready _ _ h := by cases h
  below _ h := absurd h (AList.notMem_empty _)
  numbers := Nat.le_refl _

section Inv

variable {s : Server} {p : Ptr} {conn : ConnInfo} {addr : Address}

theorem fd64Of_eq {heap : Table Ptr ConnInfo} (h : heap.lookup p = some conn) (conv : U32) :
    fd64Of heap p conv = conn.convManager.convToData.lookup conv := by
  unfold fd64Of
  rw [h]
  rfl

theorem addrOf_eq {heap : Table Ptr ConnInfo} (h : heap.lookup p = some conn) : addrOf heap p = conn.addr := by
  unfold addrOf
  rw [h]
  rfl

theorem fd64Of_insert (heap : Table Ptr ConnInfo) (p : Ptr) (conn : ConnInfo) :
    fd64Of (heap.insert p conn) = Function.update (fd64Of heap) p fun conv => conn.convManager.convToData.lookup conv := by
  funext q conv
  unfold fd64Of
  rw [lookup_insert_eq, Function.update_apply]
  split <;> rfl

theorem addrOf_insert (heap : Table Ptr ConnInfo) (p : Ptr) (conn : ConnInfo) : addrOf (heap.insert p conn) = Function.update (addrOf heap) p conn.addr := by
  funext q
  unfold addrOf
  rw [lookup_insert_eq, Function.update_apply]
  split <;> rfl

theorem Inv.lookup_of_mp (h : Inv s) (hp : s.mp.lookup addr = some p) : ∃ conn, s.heap.lookup p = some conn ∧ conn.addr = some addr := by
  have haddr := (h.placed addr p).mp hp
  obtain ⟨conn, hconn, heq⟩ := Option.bind_eq_some_iff.mp haddr
  exact ⟨conn, hconn, heq⟩

theorem Inv.mp_of_lookup (h : Inv s) (hp : s.heap.lookup p = some conn) : ∃ addr, conn.addr = some addr ∧ s.mp.lookup addr = some p := by
  obtain ⟨addr, haddr⟩ := Option.isSome_iff_exists.mp (h.ready p conn hp).addr
  exact ⟨addr, haddr, (h.placed addr p).mpr ((addrOf_eq hp).trans haddr)⟩

/-- A conn in its place with other convs, and the descriptors that go with them. -/
theorem Inv.change (h : Inv s) (hp : s.heap.lookup p = some conn) (conn' : ConnInfo) {m : FdManager} {opened : Open} {clock : Clock} (hclock : Later s.clock clock)
    (hsockets : Sockets m opened) (haddr : conn'.addr = conn.addr) (hready : conn'.Ready clock.now)
    (hlinks : Links (Function.update (fd64Of s.heap) p fun conv => conn'.convManager.convToData.lookup conv) (addrOf s.heap) m)
    {sockets : Nat} (hnumbers : m.counter ≤ FdManager.init.counter + sockets) (outbox : List (Nat × Dest × Bytes)) :
    Inv { s.setConn p conn' with fdManager := m, opened := opened, clock := clock, sockets := sockets, outbox := outbox } := by
  have haddrs : addrOf (s.heap.insert p conn') = addrOf s.heap := by
    rw [addrOf_insert, haddr, ← addrOf_eq hp, Function.update_eq_self]
  refine ⟨hclock.mono h.clock, hsockets, ?_, ?_, ?_, ?_, hnumbers⟩
  · show Links (fd64Of (s.heap.insert p conn')) (addrOf (s.heap.insert p conn')) m
    rw [fd64Of_insert, haddrs]
    exact hlinks
  · intro a q
    show s.mp.lookup a = some q ↔ addrOf (s.heap.insert p conn') q = some a
    rw [haddrs]
    exact h.placed a q
  · intro q c hq
    have hq' : (s.heap.insert p conn').lookup q = some c := hq
    rw [lookup_insert_eq] at hq'
    split at hq'
    · cases hq'
      exact hready
    · exact (h.ready q c hq').later (hclock.now_le h.clock)
  · intro q hq
    rcases (AList.mem_insert _).mp hq with rfl | hq
    · exact h.below _ (mem_of_lookup hp)
    · exact h.below q hq

/-- A conn in its place with the same convs. -/
theorem Inv.refresh (h : Inv s) (hp : s.heap.lookup p = some conn) (conn' : ConnInfo) {clock : Clock} (hclock : Later s.clock clock)
    (haddr : conn'.addr = conn.addr) (hready : conn'.Ready clock.now) (hconvs : conn'.convManager.convToData = conn.convManager.convToData)
    (outbox : List (Nat × Dest × Bytes)) : Stays s { s.setConn p conn' with clock := clock, outbox := outbox } := by
  have hsame : (Function.update (fd64Of s.heap) p fun conv => conn'.convManager.convToData.lookup conv) = fd64Of s.heap := by
    rw [hconvs, ← funext (fd64Of_eq hp), Function.update_eq_self]
  exact ⟨h.change hp conn' hclock h.sockets haddr hready (by rw [hsame]; exact h.links) h.numbers _, .refl _, hclock, fun _ _ h => h⟩

/-! ## Convs that expire -/

/-- While the convs of the conn at `p` go, `table` are those that are left. -/
def Clearing (s : Server) (p : Ptr) (table : Table U32 Fd64) (w : FdManager × Open) : Prop :=
  Sockets w.1 w.2 ∧ Links (Function.update (fd64Of s.heap) p fun conv => table.lookup conv) (addrOf s.heap) w.1 ∧ Grew s.fdManager w.1 ∧
    w.1.counter = s.fdManager.counter

theorem Inv.clearing (h : Inv s) (hp : s.heap.lookup p = some conn) :
    Clearing s p conn.convManager.convToData (s.fdManager, s.opened) := by
  refine ⟨h.sockets, ?_, .refl _, rfl⟩
  rw [← funext (fd64Of_eq hp), Function.update_eq_self]
  exact h.links

/-- `server_clear_function` closes the conv's socket, and none of its assertions fails. -/
theorem Inv.clears (h : Inv s) (p : Ptr) : ConvManager.Clears s.clearFunction (Clearing s p) := by
  rintro table ⟨m, opened⟩ conv fd64 ⟨hsockets, hlinks, hgrew, hcounter⟩ hlook
  simp only at hsockets hlinks hgrew hcounter
  have hF : (Function.update (fd64Of s.heap) p fun conv => table.lookup conv) p conv = some fd64 := by rw [Function.update_self, hlook]
  obtain ⟨fd, addr, hfd, haddr, hinfo⟩ := hlinks.held p conv fd64 hF
  obtain ⟨conn, hconn, -⟩ := h.lookup_of_mp ((h.placed addr p).mpr haddr)
  have hexist : m.exist fd64 := mem_of_lookup hfd
  obtain ⟨hclose, hsockets'⟩ := (hsockets.setInfo hexist ⟨some addr, none⟩).close (show (m.setInfo fd64 ⟨some addr, none⟩).fd64ToFd.lookup fd64 = some fd from hfd)
  refine ⟨(closed (m.setInfo fd64 ⟨some addr, none⟩) fd64 fd, opened.filter (· ≠ fd)), ?_, hsockets', hlinks.closes hF (fun q c => ?_) rfl fun k hk => ?_,
    hgrew.trans ((grew_setInfo m fd64 ⟨some addr, none⟩).trans (grew_closed _ fd64 fd)), hcounter⟩
  · unfold Server.clearFunction
    simp only
    rw [check_true hexist, ok_bind, getInfo_ok hexist hinfo, ok_bind]
    simp only [Option.bind_some, (h.placed addr p).mpr haddr]
    rw [Server.deref_ok.mpr hconn, ok_bind, check_true (h.ready p conn hconn).loop, ok_bind]
    exact hclose
  · by_cases hq : q = p
    · subst hq
      simp only [Function.update_self, lookup_erase_eq, true_and]
    · rw [if_neg fun hqc => hq hqc.1, Function.update_of_ne hq, Function.update_of_ne hq]
  · rw [closed_info, if_neg hk]
    exact AList.lookup_insert_ne hk

theorem Inv.connOf (h : Inv s) (hp : s.heap.lookup p = some conn) : s.connOf p = .ok conn := by
  obtain ⟨addr, haddr, hmp⟩ := h.mp_of_lookup hp
  unfold Server.connOf
  rw [Server.deref_ok.mpr hp, ok_bind, check_true ⟨addr, haddr, mem_of_lookup hmp⟩]
  rfl

theorem sendOut_ok (haddr : conn.addr.isSome) (s : Server) (out : Out) : ∃ outbox, s.sendOut conn out = .ok { s with outbox := outbox } := by
  obtain ⟨addr, haddr⟩ := Option.isSome_iff_exists.mp haddr
  unfold Server.sendOut
  rw [haddr]
  exact ⟨_, rfl⟩

theorem Inv.fecTimeout (h : Inv s) (hp : s.heap.lookup p = some conn) (out : Out) : ∃ t, s.fecTimeout p out = .ok t ∧ Stays s t := by
  obtain ⟨outbox, hsend⟩ := sendOut_ok (h.ready p conn hp).addr s out
  unfold Server.fecTimeout
  rw [h.connOf hp, ok_bind, hsend]
  exact ⟨_, rfl, ⟨h.clock, h.sockets, h.links, h.placed, h.ready, h.below, h.numbers⟩, .refl _, .refl _, fun _ _ h => h⟩

theorem Inv.connTimer (h : Inv s) (hp : s.heap.lookup p = some conn) : ∃ t, s.connTimer p = .ok t ∧ Stays s t := by
  have hready := h.ready p conn hp
  obtain ⟨convManager, ⟨m, opened⟩, clock, hclear, hclock, hwf, hsockets, hlinks, hgrew, hcounter⟩ :=
    ConvManager.clearInactive_ok (h.clears p) hready.convs h.clock (h.clearing hp)
  unfold Server.connTimer
  rw [h.connOf hp, ok_bind, hclear, ok_bind]
  exact ⟨_, rfl, h.change hp { conn with convManager := convManager } hclock hsockets rfl ⟨hready.loop, hready.addr, hwf⟩ hlinks
    (hcounter.trans_le h.numbers) _, hgrew, hclock, fun _ _ h => h⟩

/-! ## A packet from a remote socket -/

/-- A watcher that was started is that of a conv's number. -/
theorem Inv.watcher (h : Inv s) {fd64 : Fd64} {watcher : IoWatcher} (hw : (s.fdManager.fdInfo.lookup fd64).bind FdInfo.ioWatcher = some watcher) :
    ∃ conn conv fd, s.heap.lookup watcher.data = some conn ∧ conn.convManager.convToData.lookup conv = some watcher.u64 ∧
      s.fdManager.fd64ToFd.lookup watcher.u64 = some fd := by
  obtain ⟨info, hinfo, hwatcher⟩ := Option.bind_eq_some_iff.mp hw
  obtain ⟨p, conv, hF⟩ := h.links.owner fd64 (h.sockets.infos fd64 (mem_of_lookup hinfo))
  obtain ⟨fd, addr, hfd, -, hinfo'⟩ := h.links.held p conv fd64 hF
  rw [hinfo] at hinfo'
  cases hinfo'
  cases hwatcher
  obtain ⟨conn, hconn, hconv⟩ := Option.bind_eq_some_iff.mp hF
  exact ⟨conn, conv, fd, hconn, hconv, hfd⟩

theorem Inv.fromRemote (h : Inv s) {watcher : IoWatcher} {conv : U32} {fd : Fd} (hp : s.heap.lookup watcher.data = some conn)
    (hconv : conn.convManager.convToData.lookup conv = some watcher.u64) (hfd : s.fdManager.fd64ToFd.lookup watcher.u64 = some fd)
    (dataLen : Int) (out : Out) : ∃ t, s.fromRemote watcher dataLen out = .ok t ∧ Stays s t := by
  have hready := h.ready _ conn hp
  have hdata := (hready.convs.inverse conv watcher.u64).mp hconv
  obtain ⟨lru, hupdate, hwf⟩ := ConvManager.updateActiveTime_ok hready.convs h.clock (mem_of_lookup hconv)
  have hlater : Later s.clock s.clock.tail.tail := (Later.tail _).trans (.tail _)
  have hstays := h.refresh hp { conn with convManager := { conn.convManager with lru := lru }, lastActiveTime := s.clock.tail.now } hlater rfl
    ⟨hready.loop, hready.addr, hwf.later (Clock.now_le (Clock.tail_mono h.clock))⟩ rfl
  unfold Server.fromRemote Server.processRemotePacket
  rw [h.connOf hp, ok_bind, if_neg (not_not.mpr (show s.fdManager.exist watcher.u64 from mem_of_lookup hfd)), FdManager.toFd_ok.mpr hfd, ok_bind,
    Server.deref_ok.mpr hp, ok_bind, check_true (show conn.convManager.isDataUsed watcher.u64 from mem_of_lookup hdata), ok_bind,
    ConvManager.findConvByData_ok hdata]
  simp only [hupdate, ok_bind]
  split
  · exact ⟨_, rfl, hstays s.outbox⟩
  · split
    · exact ⟨_, rfl, hstays s.outbox⟩
    · obtain ⟨outbox, hsend⟩ := @sendOut_ok { conn with convManager := { conn.convManager with lru := lru }, lastActiveTime := s.clock.tail.now } hready.addr
        { s.setConn watcher.data { conn with convManager := { conn.convManager with lru := lru }, lastActiveTime := s.clock.tail.now } with
          clock := s.clock.tail.tail } out
      exact ⟨_, hsend, hstays outbox⟩

/-! ## A datagram from the tunnel -/

section Tunnel

variable {os : Nat → Open → Option Fd} {garbage : Ptr → Nat}

/-- The operating system hands out no descriptor that is open. -/
def Honest (os : Nat → Open → Option Fd) : Prop := ∀ n opened fd, os n opened = some fd → fd ∉ opened

theorem Inv.openConv (hos : Honest os) (h : Inv s) (hp : s.heap.lookup p = some conn) (haddr : conn.addr = some addr) {conv : U32}
    (hconv : conv ∉ conn.convManager.convToData) : ∃ there t, Server.openConv os p addr conv s = .ok (there, t) ∧ Stays s t ∧
      (there → ∃ conn, t.heap.lookup p = some conn ∧ conv ∈ conn.convManager.convToData) := by
  have hready := h.ready p conn hp
  unfold Server.openConv
  rw [Server.deref_ok.mpr hp, ok_bind]
  split
  · exact ⟨false, s, rfl, h.stays, fun hthere => by cases hthere⟩
  · cases hanswer : os s.sockets s.opened with
    | none =>
      exact ⟨false, _, rfl, ⟨⟨h.clock, h.sockets, h.links, h.placed, h.ready, h.below, h.numbers.trans (Nat.le_succ _)⟩, .refl _, .refl _, fun _ _ h => h⟩,
        fun hthere => by cases hthere⟩
    | some fd =>
      obtain ⟨hcreate, hsockets, hfresh⟩ := h.sockets.create (hos _ _ _ hanswer)
      have hdata : s.fdManager.counter ∉ conn.convManager.dataToConv := by
        intro hmem
        obtain ⟨conv', hconv'⟩ := exists_lookup hmem
        obtain ⟨fd', -, hfd', -⟩ := h.links.held p conv' _ ((fd64Of_eq hp conv').trans ((hready.convs.inverse conv' _).mpr hconv'))
        exact hfresh (mem_of_lookup hfd')
      obtain ⟨convManager, hinsert, hwf, hconvs, -⟩ := ConvManager.insertConv_ok hready.convs h.clock hconv hdata
      generalize hm : created s.fdManager fd = m at hcreate hsockets
      generalize hfd64 : s.fdManager.counter = fd64 at *
      have hexist : m.exist fd64 := by
        rw [← hm, ← hfd64]
        exact (AList.mem_insert _).mpr (.inl rfl)
      have hnoinfo : fd64 ∉ m.fdInfo := by
        rw [← hm]
        exact fun hmem => hfresh (h.sockets.infos _ hmem)
      have hagain : ((m.setInfo fd64 ⟨none, none⟩).setInfo fd64 ⟨some addr, none⟩).getInfo fd64 =
          .ok ((m.setInfo fd64 ⟨none, none⟩).setInfo fd64 ⟨some addr, none⟩, ⟨some addr, none⟩) :=
        getInfo_ok (show fd64 ∈ m.fd64ToFd from hexist) (AList.lookup_insert _)
      have hF : ∀ q c, (Function.update (fd64Of s.heap) p fun conv => convManager.convToData.lookup conv) q c =
          if q = p ∧ c = conv then some fd64 else fd64Of s.heap q c := by
        intro q c
        by_cases hq : q = p
        · subst hq
          rw [Function.update_self, hconvs, lookup_insert_eq, fd64Of_eq hp]
          simp only [true_and]
        · rw [Function.update_of_ne hq, if_neg fun hqc => hq hqc.1]
      have hlinks := h.links.opens hfresh hF ((fd64Of_eq hp conv).trans (AList.lookup_eq_none.mpr hconv)) ((addrOf_eq hp).trans haddr)
        (show (((m.setInfo fd64 ⟨none, none⟩).setInfo fd64 ⟨some addr, none⟩).setInfo fd64 ⟨some addr, some ⟨fd64, p, fd⟩⟩).fd64ToFd = _ by
          rw [← hm, ← hfd64]
          rfl)
        (by
          simp only [FdManager.setInfo, AList.insert_insert]
          rw [← hm]
          rfl)
      simp only [hcreate, ok_bind, hinsert, getInfo_new hexist hnoinfo]
      rw [hagain, ok_bind, check_true hready.loop, ok_bind]
      refine ⟨true, _, rfl, ⟨h.change hp { conn with convManager := convManager } (.tail _)
        (((hsockets.setInfo hexist _).setInfo hexist _).setInfo hexist _) rfl ⟨hready.loop, hready.addr, hwf⟩ hlinks
        (by rw [← hm]; exact Nat.succ_le_succ h.numbers) _, ?_, .tail _, fun _ _ h => h⟩, fun _ =>
        ⟨_, AList.lookup_insert _, ?_⟩⟩
      · have hgrew : Grew s.fdManager m := hm ▸ grew_created s.fdManager fd
        exact hgrew.trans ((grew_setInfo m fd64 _).trans ((grew_setInfo _ fd64 _).trans (grew_setInfo _ fd64 _)))
      · simp only [hconvs, AList.mem_insert, true_or]

theorem Inv.ensureConv (hos : Honest os) (h : Inv s) (hmp : s.mp.lookup addr = some p) (conv : U32) :
    ∃ there t, Server.ensureConv os p addr conv s = .ok (there, t) ∧ Stays s t ∧
      (there → ∃ conn, t.heap.lookup p = some conn ∧ conv ∈ conn.convManager.convToData) := by
  obtain ⟨conn, hp, haddr⟩ := h.lookup_of_mp hmp
  unfold Server.ensureConv
  rw [Server.deref_ok.mpr hp, ok_bind]
  split
  · rename_i hconv
    exact h.openConv hos hp haddr hconv
  · rename_i hconv
    exact ⟨true, s, rfl, h.stays, fun _ => ⟨conn, hp, not_not.mp hconv⟩⟩

theorem Inv.processOut (hos : Honest os) (h : Inv s) (hmp : s.mp.lookup addr = some p) (x : Nat × Bytes) :
    ∃ t, Server.processOut os p addr s x = .ok t ∧ Stays s t := by
  unfold Server.processOut
  simp only
  split
  · exact ⟨s, rfl, h.stays⟩
  · obtain ⟨there, t, hensure, hstays, hthere⟩ := h.ensureConv hos hmp (Server.getConv x.2).2.1
    rw [hensure, ok_bind]
    simp only
    split
    · exact ⟨t, rfl, hstays⟩
    · rename_i hyes
      obtain ⟨conn, hp, hconv⟩ := hthere (not_not.mp hyes)
      have hready := hstays.inv.ready p conn hp
      obtain ⟨lru, hupdate, hwf⟩ := ConvManager.updateActiveTime_ok hready.convs hstays.inv.clock hconv
      obtain ⟨fd64, hfd64⟩ := exists_lookup hconv
      rw [Server.deref_ok.mpr hp, ok_bind, hupdate, ok_bind]
      simp only
      rw [ConvManager.findDataByConv_ok (show ({ conn.convManager with lru := lru } : ConvManager Fd64).convToData.lookup _ = some fd64 from hfd64)]
      exact ⟨_, rfl, hstays.trans (hstays.inv.refresh hp { conn with convManager := { conn.convManager with lru := lru } } (.tail _) rfl
        ⟨hready.loop, hready.addr, hwf⟩ rfl _)⟩

theorem Inv.accept (h : Inv s) (hnew : addr ∉ s.mp) (localListenFd : Fd) :
    ∃ t, Server.accept garbage s localListenFd addr = .ok t ∧ Stays s t ∧ addr ∈ t.mp := by
  have hnone := AList.lookup_eq_none.mpr hnew
  have hplace : s.heap.lookup s.conns = none := AList.lookup_eq_none.mpr fun hmem => Nat.lt_irrefl _ (h.below _ hmem)
  have hold : ∀ a q, s.mp.lookup a = some q → q ≠ s.conns := by
    intro a q hq heq
    obtain ⟨conn, hconn, -⟩ := h.lookup_of_mp hq
    rw [heq, hplace] at hconn
    cases hconn
  let conn0 : ConnInfo := ⟨.init (garbage s.conns), garbage s.conns, false, 0, none⟩
  let conn1 : ConnInfo := { conn0 with addr := some addr, loop := true, localListenFd := localListenFd }
  have hheap : (s.heap.insert s.conns conn0).insert s.conns conn1 = s.heap.insert s.conns conn1 := AList.insert_insert _
  have hF : fd64Of (s.heap.insert s.conns conn1) = fd64Of s.heap := by
    rw [fd64Of_insert, Function.update_eq_iff]
    refine ⟨funext fun conv => ?_, fun _ _ => rfl⟩
    unfold fd64Of
    rw [hplace]
    rfl
  have hA : ∀ q, addrOf (s.heap.insert s.conns conn1) q = if q = s.conns then some addr else addrOf s.heap q := by
    intro q
    rw [addrOf_insert, Function.update_apply]
  unfold Server.accept Server.findInsert
  rw [hnone]
  simp only
  rw [Server.deref_ok.mpr (show (s.heap.insert s.conns conn0).lookup s.conns = some conn0 from AList.lookup_insert _), ok_bind]
  refine ⟨_, rfl, ⟨⟨h.clock, h.sockets, ?_, fun a q => ?_, fun q c hq => ?_, fun q hq => ?_, h.numbers⟩, .refl _, .refl _, fun a q hq => ?_⟩,
    (AList.mem_insert _).mpr (.inl rfl)⟩
  · show Links (fd64Of ((s.heap.insert s.conns conn0).insert s.conns conn1)) (addrOf ((s.heap.insert s.conns conn0).insert s.conns conn1)) s.fdManager
    rw [hheap]
    refine h.links.congr hF fun q conv fd64 hq => ?_
    rw [hA, if_neg]
    rintro rfl
    unfold fd64Of at hq
    rw [hplace] at hq
    cases hq
  · show (s.mp.insert addr s.conns).lookup a = some q ↔ addrOf ((s.heap.insert s.conns conn0).insert s.conns conn1) q = some a
    rw [hheap, hA, lookup_insert_eq]
    by_cases ha : a = addr
    · subst ha
      rw [if_pos rfl]
      by_cases hq : q = s.conns
      · simp [hq]
      · rw [if_neg hq, ← h.placed, hnone]
        simp [Ne.symm hq]
    · rw [if_neg ha]
      by_cases hq : q = s.conns
      · rw [if_pos hq]
        exact ⟨fun hlook => absurd hq (hold a q hlook), fun heq => absurd (Option.some.inj heq).symm ha⟩
      · rw [if_neg hq]
        exact h.placed a q
  · have hq' : ((s.heap.insert s.conns conn0).insert s.conns conn1).lookup q = some c := hq
    rw [hheap, lookup_insert_eq] at hq'
    split at hq'
    · cases hq'
      exact ⟨rfl, rfl, ConvManager.init_wf _ _⟩
    · exact h.ready q c hq'
  · have hq' : q ∈ (s.heap.insert s.conns conn0).insert s.conns conn1 := hq
    rw [hheap] at hq'
    rcases (AList.mem_insert _).mp hq' with rfl | hq'
    · exact Nat.lt_succ_self _
    · exact (h.below q hq').trans (Nat.lt_succ_self _)
  · show (s.mp.insert addr s.conns).lookup a = some q
    rw [AList.lookup_insert_ne, hq]
    rintro rfl
    rw [hnone] at hq
    cases hq

theorem Inv.processConn (hos : Honest os) (h : Inv s) (haddr : addr ∈ s.mp) (out : Out) :
    ∃ t, Server.processConn os garbage s addr out = .ok t ∧ Stays s t := by
  obtain ⟨p, hmp⟩ := exists_lookup haddr
  obtain ⟨conn, hp, -⟩ := h.lookup_of_mp hmp
  have hready := h.ready p conn hp
  have hfirst := h.refresh hp { conn with lastActiveTime := s.clock.now } (.tail _) rfl
    ⟨hready.loop, hready.addr, hready.convs.later (Clock.now_le h.clock)⟩ rfl s.outbox
  unfold Server.processConn
  rw [Server.findInsert_mem hmp]
  simp only
  rw [Server.deref_ok.mpr hp, ok_bind]
  exact foldlM_ok (fun t x ht => by
    obtain ⟨u, hu, hstays⟩ := ht.inv.processOut hos (ht.conns addr p hmp) x
    exact ⟨u, hu, ht.trans hstays⟩) out hfirst

theorem Inv.processTunnelPacket (hos : Honest os) (h : Inv s) (localListenFd : Fd) (dataLen : Int) (addr : Address) (deCook : Int) (out : Out) :
    ∃ t, s.processTunnelPacket os garbage localListenFd dataLen addr deCook out = .ok t ∧ Stays s t := by
  unfold Server.processTunnelPacket
  split
  · exact ⟨s, rfl, h.stays⟩
  · split
    · exact ⟨s, rfl, h.stays⟩
    · split
      · rename_i hnew
        split
        · exact ⟨s, rfl, h.stays⟩
        · obtain ⟨t, haccept, hstays, haddr⟩ := @Inv.accept s addr garbage h hnew localListenFd
          obtain ⟨u, hu, hstays'⟩ := @Inv.processConn t addr os garbage hos hstays.inv haddr out
          exact ⟨u, by rw [haccept]; exact hu, hstays.trans hstays'⟩
      · rename_i hold
        exact h.processConn hos (not_not.mp hold) out

end Tunnel

end Inv

/-! ## Conns that expire -/

/-- No convs, and nothing heard for `server_conn_timeout`. -/
def Idle (now : Nat) (conn : ConnInfo) : Prop := conn.convManager.convToData = ∅ ∧ conn.lastActiveTime + serverConnTimeout ≤ now

/-- Part of a round of `clear_inactive0`: conns only go, the others are as they were. -/
structure Sweep (s : Server) (now : Nat) (t : Server) : Prop where
  inv : Inv t
  grew : Grew s.fdManager t.fdManager
  later : Later s.clock t.clock
  left : ∀ addr p, t.mp.lookup addr = some p → s.mp.lookup addr = some p ∧ t.heap.lookup p = s.heap.lookup p
  gone : ∀ addr p conn, s.mp.lookup addr = some p → s.heap.lookup p = some conn → t.mp.lookup addr = some p ∨ Idle now conn

section Sweep

variable {s t : Server} {now : Nat} {addr : Address} {p : Ptr} {conn : ConnInfo}

/-- A conn without convs, taken out. -/
theorem Inv.remove (h : Inv t) (hmp : t.mp.lookup addr = some p) (hp : t.heap.lookup p = some conn) (haddr : conn.addr = some addr)
    (hempty : conn.convManager.convToData = ∅) : Inv { t with heap := t.heap.erase p, mp := t.mp.erase addr } := by
  have hF : fd64Of (t.heap.erase p) = fd64Of t.heap := by
    funext q conv
    by_cases hq : q = p
    · rw [hq, fd64Of_eq hp, hempty]
      unfold fd64Of
      rw [AList.lookup_erase]
      rfl
    · unfold fd64Of
      rw [AList.lookup_erase_ne hq]
  have hA : ∀ q, addrOf (t.heap.erase p) q = if q = p then none else addrOf t.heap q := by
    intro q
    unfold addrOf
    rw [lookup_erase_eq]
    split <;> rfl
  refine ⟨h.clock, h.sockets, h.links.congr hF fun q conv fd64 hq => ?_, ?_, ?_, fun q hq => h.below q (AList.mem_erase.mp hq).2, h.numbers⟩
  · rw [hA, if_neg]
    rintro rfl
    rw [fd64Of_eq hp, hempty] at hq
    cases hq
  · intro a q
    show (t.mp.erase addr).lookup a = some q ↔ addrOf (t.heap.erase p) q = some a
    rw [hA, lookup_erase_eq]
    by_cases ha : a = addr
    · subst ha
      rw [if_pos rfl]
      by_cases hq : q = p
      · simp [hq]
      · rw [if_neg hq, ← h.placed, hmp]
        simp [Ne.symm hq]
    · rw [if_neg ha]
      by_cases hq : q = p
      · rw [hq, if_pos rfl, h.placed, addrOf_eq hp, haddr]
        simp [Ne.symm ha]
      · rw [if_neg hq]
        exact h.placed a q
  · intro q c hq
    have hq' : (t.heap.erase p).lookup q = some c := hq
    rw [lookup_erase_eq] at hq'
    split at hq'
    · cases hq'
    · exact h.ready q c hq'

theorem Sweep.visit (h : Sweep s now t) (addr : Address) : ∃ u, Server.visit now t addr = .ok u ∧ Sweep s now u := by
  unfold Server.visit
  cases hmp : t.mp.lookup addr with
  | none => exact ⟨t, rfl, h⟩
  | some p =>
    obtain ⟨conn, hp, haddr⟩ := h.inv.lookup_of_mp hmp
    simp only
    rw [Server.deref_ok.mpr hp, ok_bind]
    split
    · exact ⟨t, rfl, h⟩
    · rename_i hsize
      split
      · exact ⟨t, rfl, h⟩
      · rename_i htime
        have hempty : conn.convManager.convToData = ∅ := AList.ext (List.length_eq_zero_iff.mp (Nat.eq_zero_of_not_pos hsize))
        unfold Server.erase
        rw [Server.deref_ok.mpr hp, ok_bind, ConvManager.clear_empty hempty, ok_bind]
        obtain ⟨hmp', hp'⟩ := h.left addr p hmp
        refine ⟨_, rfl, h.inv.remove hmp hp haddr hempty, h.grew, h.later, ?_, ?_⟩
        · intro a q hq
          have hq' : (t.mp.erase addr).lookup a = some q := hq
          rw [lookup_erase_eq] at hq'
          split at hq'
          · cases hq'
          · rename_i hne
            obtain ⟨h1, h2⟩ := h.left a q hq'
            refine ⟨h1, ?_⟩
            have hqp : q ≠ p := by
              intro heq
              obtain ⟨c, hc, hca⟩ := h.inv.lookup_of_mp hq'
              rw [heq, hp] at hc
              cases hc
              exact hne (Option.some.inj (hca.symm.trans haddr))
            rw [← h2]
            exact AList.lookup_erase_ne hqp
        · intro a q c ha hq
          by_cases hne : a = addr
          · subst hne
            obtain rfl : q = p := Option.some.inj (ha.symm.trans hmp')
            rw [hp, hq] at hp'
            cases hp'
            exact .inr ⟨hempty, by omega⟩
          · refine (h.gone a q c ha hq).imp_left fun hlook => ?_
            show (t.mp.erase addr).lookup a = some q
            rw [AList.lookup_erase_ne hne, hlook]

theorem Inv.clearInactive (h : Inv s) (visits : List Address) : ∃ t, s.clearInactive visits = .ok t ∧ Sweep s (s.clock 2 / 1000) t := by
  have hstart : ∀ clock lastClearTime, Later s.clock clock → Sweep s (s.clock 2 / 1000) { s with clock := clock, lastClearTime := lastClearTime } :=
    fun clock _ hclock => ⟨⟨hclock.mono h.clock, h.sockets, h.links, h.placed, fun q c hq => (h.ready q c hq).later (hclock.now_le h.clock), h.below, h.numbers⟩,
      .refl _, hclock, fun _ _ hq => ⟨hq, rfl⟩, fun _ _ _ ha _ => .inl ha⟩
  unfold Server.clearInactive
  split
  · unfold Server.clearInactive0
    exact foldlM_ok (fun t addr ht => ht.visit addr) _ (hstart _ _ ⟨3, rfl⟩)
  · exact ⟨_, rfl, hstart _ _ (.tail _)⟩

end Sweep

/-! ## Runs -/

/-- What an event does to a server. -/
structure Moved (s : Server) (e : Event) (t : Server) : Prop where
  inv : Inv t
  grew : Grew s.fdManager t.fdManager
  gone : ∀ addr p conn, s.mp.lookup addr = some p → s.heap.lookup p = some conn →
    t.mp.lookup addr = some p ∨ (∃ visits, e = .globalTimer visits) ∧ Idle (s.clock 2 / 1000) conn

section Runs

variable {os : Nat → Open → Option Fd} {garbage : Ptr → Nat} {s t : Server}

theorem Stays.moved (h : Stays s t) (e : Event) : Moved s e t := ⟨h.inv, h.grew, fun addr p _ hp _ => .inl (h.conns addr p hp)⟩

/-- Every event finds its way, and leaves the tables in order. -/
theorem step_moved (hos : Honest os) (h : Inv s) (e : Event) : ∃ t, step os garbage s e = .ok t ∧ Moved s e t := by
  cases e with
  | tunnel localListenFd dataLen addr deCook out =>
    obtain ⟨t, ht, hstays⟩ := @Inv.processTunnelPacket s os garbage hos h localListenFd dataLen addr deCook out
    exact ⟨t, ht, hstays.moved _⟩
  | remote fd64 dataLen out =>
    simp only [step]
    split
    · rename_i watcher hw
      obtain ⟨conn, conv, fd, hp, hconv, hfd⟩ := h.watcher hw
      obtain ⟨t, ht, hstays⟩ := h.fromRemote hp hconv hfd dataLen out
      exact ⟨t, ht, hstays.moved _⟩
    · exact ⟨s, rfl, h.stays.moved _⟩
  | fecTimeout p out =>
    simp only [step]
    split
    · rename_i hmem
      obtain ⟨conn, hp⟩ := exists_lookup hmem
      obtain ⟨t, ht, hstays⟩ := h.fecTimeout hp out
      exact ⟨t, ht, hstays.moved _⟩
    · exact ⟨s, rfl, h.stays.moved _⟩
  | connTimer p =>
    simp only [step]
    split
    · rename_i hmem
      obtain ⟨conn, hp⟩ := exists_lookup hmem
      obtain ⟨t, ht, hstays⟩ := h.connTimer hp
      exact ⟨t, ht, hstays.moved _⟩
    · exact ⟨s, rfl, h.stays.moved _⟩
  | globalTimer visits =>
    obtain ⟨t, ht, hsweep⟩ := h.clearInactive visits
    exact ⟨t, ht, hsweep.inv, hsweep.grew, fun addr p conn hmp hp => (hsweep.gone addr p conn hmp hp).imp_right fun hidle => ⟨⟨visits, rfl⟩, hidle⟩⟩

theorem run_moved (hos : Honest os) (h : Inv s) (es : List Event) : ∃ t, run os garbage s es = .ok t ∧ Inv t ∧ Grew s.fdManager t.fdManager :=
  foldlM_ok (fun t e ⟨hinv, hgrew⟩ => by
    obtain ⟨u, hu, hmoved⟩ := step_moved hos hinv e
    exact ⟨u, hu, hmoved.inv, hgrew.trans hmoved.grew⟩) es ⟨h, .refl _⟩

theorem run_append {es es' : List Event} : run os garbage s (es ++ es') = (run os garbage s es >>= fun t => run os garbage t es') := List.foldlM_append

end Runs

/-! ## The tables -/

/-- A conv of the conn at an address has this number. -/
def Server.Holds (s : Server) (addr : Address) (conv : U32) (fd64 : Fd64) : Prop :=
  ∃ p conn, s.mp.lookup addr = some p ∧ s.heap.lookup p = some conn ∧ conn.convManager.convToData.lookup conv = some fd64

/-- The tables agree with each other, and no call of `socket` takes a second number. -/
structure Consistent (s : Server) : Prop where
  inverse : ∀ fd fd64, s.fdManager.fdToFd64.lookup fd = some fd64 ↔ s.fdManager.fd64ToFd.lookup fd64 = some fd
  conns : ∀ addr p, s.mp.lookup addr = some p → ∃ conn, s.heap.lookup p = some conn ∧ conn.addr = some addr
  held : ∀ addr p conn conv fd64, s.mp.lookup addr = some p → s.heap.lookup p = some conn → conn.convManager.convToData.lookup conv = some fd64 →
    s.fdManager.exist fd64 ∧ (∃ info, s.fdManager.fdInfo.lookup fd64 = some info ∧ info.addr = some addr) ∧
      conn.convManager.dataToConv.lookup fd64 = some conv
  owner : ∀ fd64, s.fdManager.exist fd64 → ∃! x : Address × U32, s.Holds x.1 x.2 fd64
  numbers : s.fdManager.counter ≤ FdManager.init.counter + s.sockets

theorem Inv.consistent {s : Server} (h : Inv s) : Consistent s where
  inverse := h.sockets.inverse
  conns addr p hp := h.lookup_of_mp hp
  held addr p conn conv fd64 hmp hp hconv := by
    obtain ⟨fd, addr', hfd, haddr, hinfo⟩ := h.links.held p conv fd64 ((fd64Of_eq hp conv).trans hconv)
    obtain rfl : addr = addr' := Option.some.inj (((h.placed addr p).mp hmp).symm.trans haddr)
    exact ⟨mem_of_lookup hfd, ⟨_, hinfo, rfl⟩, ((h.ready p conn hp).convs.inverse conv fd64).mp hconv⟩
  numbers := h.numbers
  owner fd64 hexist := by
    obtain ⟨p, conv, hF⟩ := h.links.owner fd64 hexist
    obtain ⟨conn, hp, hconv⟩ := Option.bind_eq_some_iff.mp hF
    obtain ⟨addr, -, hmp⟩ := h.mp_of_lookup hp
    refine ⟨(addr, conv), ⟨p, conn, hmp, hp, hconv⟩, ?_⟩
    rintro ⟨addr', conv'⟩ ⟨p', conn', hmp', hp', hconv'⟩
    obtain ⟨rfl, rfl⟩ := h.links.inj p' conv' p conv fd64 ((fd64Of_eq hp' conv').trans hconv') hF
    simp only [Prod.mk.injEq, and_true]
    exact Option.some.inj (((h.placed addr' p').mp hmp').symm.trans ((h.placed addr p').mp hmp))

/-- Whatever happens to the server, in any order and at any times: no assertion fails and no
    conn that is gone is used; the tables agree; a number that was closed never comes
    back; and a conn goes only by expiry, without convs and quiet for `server_conn_timeout`. -/
theorem tables_consistent (os : Nat → Open → Option Fd) (hos : Honest os) (garbage : Ptr → Nat) (opened : Open) (clock : Clock) (hclock : Monotone clock)
    (es : List Event) : ∃ s, run os garbage (.init opened clock) es = .ok s ∧ Consistent s ∧
      (∀ es1 es2 es3 s1 s2 fd64, es = es1 ++ es2 ++ es3 → run os garbage (.init opened clock) es1 = .ok s1 → run os garbage s1 es2 = .ok s2 →
        s1.fdManager.exist fd64 → ¬ s2.fdManager.exist fd64 → ¬ s.fdManager.exist fd64) ∧
      ∀ e, ∃ t, step os garbage s e = .ok t ∧ ∀ addr p conn, s.mp.lookup addr = some p → s.heap.lookup p = some conn → t.mp.lookup addr ≠ some p →
        (∃ visits, e = .globalTimer visits) ∧ conn.convManager.convToData = ∅ ∧ conn.lastActiveTime + serverConnTimeout ≤ s.clock 2 / 1000 := by
  have hinit := init_inv opened hclock
  obtain ⟨s, hs, hinv, -⟩ := @run_moved os garbage _ hos hinit es
  refine ⟨s, hs, hinv.consistent, ?_, ?_⟩
  · intro es1 es2 es3 s1 s2 fd64 hes h1 h2 hexist hclosed hback
    subst hes
    obtain ⟨s1', h1', hinv1, -⟩ := @run_moved os garbage _ hos hinit es1
    obtain rfl : s1 = s1' := Except.ok.inj (h1.symm.trans h1')
    obtain ⟨s2', h2', hinv2, hgrew2⟩ := @run_moved os garbage _ hos hinv1 es2
    obtain rfl : s2 = s2' := Except.ok.inj (h2.symm.trans h2')
    obtain ⟨s3, h3, -, hgrew3⟩ := @run_moved os garbage _ hos hinv2 es3
    rw [run_append, run_append, h1, ok_bind, h2, ok_bind, h3] at hs
    cases hs
    rcases hgrew3.fresh fd64 hback with hmem | hle
    · exact hclosed hmem
    · exact Nat.lt_irrefl _ ((hinv1.sockets.below fd64 hexist).trans_le (hgrew2.counter.trans hle))
  · intro e
    obtain ⟨t, ht, hmoved⟩ := @step_moved os garbage _ hos hinv e
    exact ⟨t, ht, fun addr p conn hmp hp hgone => (hmoved.gone addr p conn hmp hp).resolve_left hgone⟩

theorem nextFd_honest : Honest nextFd := by
  rintro n opened fd hfd hmem
  cases hfd
  have hle : ∀ l : List Fd, ∀ x ∈ l, x ≤ l.foldr max 2 := by
    intro l
    induction l with
    | nil => simp
    | cons y l ih =>
      intro x hx
      rcases List.mem_cons.mp hx with rfl | hx
      · exact le_max_left _ _
      · exact (ih x hx).trans (le_max_right _ _)
  exact Int.not_le.mpr (Int.lt_succ _) (hle opened _ hmem)

theorem tables_consistent_visitor : ∃ s, run nextFd (fun _ => 0) (.init [3] slowClock) visitor = .ok s ∧ Consistent s := by
  obtain ⟨s, hrun, hs, -⟩ := tables_consistent nextFd nextFd_honest (fun _ => 0) [3] slowClock (fun _ _ h => Nat.mul_le_mul_right _ h) visitor
  exact ⟨s, hrun, hs⟩

end UdpSpeeder.Tunnel
