/-
  UdpSpeeder.Tunnel.Serve — which socket a packet of the tunnel leaves by, and what a socket's
  packet is handed to.

  A callback makes a conv only for a packet that the decoder handed out for a datagram from the
  conn's address, under a number that was never used; and what it puts into the outbox for a
  socket came out of such a packet, under the socket's conv (`step_forwards`). What arrives at
  a socket goes, under its conv, to the encoder of the conn that holds it (`toEncoder_holds`).
-/

import UdpSpeeder.Tunnel.Client

namespace UdpSpeeder.Tunnel

open Lib Net

/-- What goes to sockets, and to which. -/
def toSockets (outbox : List (Nat × Dest × Bytes)) : List (Fd64 × Bytes) :=
  outbox.filterMap fun x => match x.2.1.inner with
    | .fd64 fd64 => some (fd64, x.2.2)
    | _ => none

theorem toSockets_append (l l' : List (Nat × Dest × Bytes)) : toSockets (l ++ l') = toSockets l ++ toSockets l' := List.filterMap_append

section Holds

variable {s t : Server} {p : Ptr} {addr a : Address} {conn : ConnInfo} {conv : U32} {fd64 : Fd64}

theorem holds_at (hmp : s.mp.lookup addr = some p) (hp : s.heap.lookup p = some conn) :
    s.Holds addr conv fd64 ↔ conn.convManager.convToData.lookup conv = some fd64 := by
  constructor
  · intro h
    rcases h with ⟨p', conn', hmp', hp', hconv⟩
    obtain rfl : p = p' := Option.some.inj (hmp.symm.trans hmp')
    obtain rfl : conn = conn' := Option.some.inj (hp.symm.trans hp')
    exact hconv
  · intro hconv
    exact ⟨p, conn, hmp, hp, hconv⟩

/-- With another conn in the place of the one at `addr`. -/
theorem Inv.holds_set (h : Inv s) (hmp : s.mp.lookup addr = some p) (htmp : t.mp = s.mp) (htheap : t.heap = s.heap.insert p conn) :
    t.Holds a conv fd64 ↔ a = addr ∧ conn.convManager.convToData.lookup conv = some fd64 ∨ a ≠ addr ∧ s.Holds a conv fd64 := by
  by_cases ha : a = addr
  · subst ha
    rw [holds_at (htmp ▸ hmp) (show t.heap.lookup p = some conn by rw [htheap, AList.lookup_insert])]
    simp
  · have hother : ∀ q, s.mp.lookup a = some q → q ≠ p := by
      intro q hq heq
      have hq' := (h.placed a q).mp hq
      rw [heq, (h.placed addr p).mp hmp] at hq'
      exact ha (Option.some.inj hq').symm
    unfold Server.Holds
    rw [htmp, htheap]
    constructor
    · intro h
      rcases h with ⟨q, conn', hq, hheap, hconv⟩
      rw [AList.lookup_insert_ne (hother q hq)] at hheap
      exact .inr ⟨ha, q, conn', hq, hheap, hconv⟩
    · intro h
      rcases h with ⟨heq, -⟩ | ⟨-, q, conn', hq, hheap, hconv⟩
      · exact absurd heq ha
      · exact ⟨q, conn', hq, by rw [AList.lookup_insert_ne (hother q hq), hheap], hconv⟩

/-- Convs at most those that were there. -/
theorem Inv.holds_fewer (h : Inv s) {conn' : ConnInfo} (hp : s.heap.lookup p = some conn) (htmp : t.mp = s.mp) (htheap : t.heap = s.heap.insert p conn')
    (hfewer : ∀ k n, conn'.convManager.convToData.lookup k = some n → conn.convManager.convToData.lookup k = some n)
    (ht : t.Holds a conv fd64) : s.Holds a conv fd64 := by
  obtain ⟨addr, -, hmp⟩ := h.mp_of_lookup hp
  rcases (h.holds_set hmp htmp htheap).mp ht with ⟨rfl, hconv⟩ | ⟨-, hs⟩
  · exact (holds_at hmp hp).mpr (hfewer conv fd64 hconv)
  · exact hs

end Holds

/-! ## Packets that the decoder handed out -/

/-- What packets of the decoder do, for a datagram from `addr`. -/
structure Serves (s : Server) (addr : Address) (xs : Out) (t : Server) : Prop where
  stays : Stays s t
  mp : t.mp = s.mp
  kept : ∀ a conv fd64, s.Holds a conv fd64 → t.Holds a conv fd64
  opened : ∀ a conv fd64, t.Holds a conv fd64 → s.Holds a conv fd64 ∨
    s.fdManager.counter ≤ fd64 ∧ a = addr ∧ ∃ x ∈ xs, ∃ data, Server.getConv x.2 = (0, conv, data)
  sent : ∃ sends, toSockets t.outbox = toSockets s.outbox ++ sends ∧ ∀ y ∈ sends, ∃ x ∈ xs, ∃ conv,
    Server.getConv x.2 = (0, conv, y.2) ∧ t.Holds addr conv y.1

section Serves

variable {os : Nat → Open → Option Fd} {garbage : Ptr → Nat} {s t : Server} {p : Ptr} {addr : Address} {conv : U32} {there : Bool}

theorem Inv.serves_nothing (h : Inv s) (addr : Address) (xs : Out) : Serves s addr xs s :=
  ⟨h.stays, rfl, fun _ _ _ hs => hs, fun _ _ _ ht => .inl ht, [], by simp, by simp⟩

theorem Serves.trans {s1 s2 s3 : Server} {xs ys : Out} (h : Serves s1 addr xs s2) (h' : Serves s2 addr ys s3) : Serves s1 addr (xs ++ ys) s3 := by
  obtain ⟨sends, hsends, hof⟩ := h.sent
  obtain ⟨sends', hsends', hof'⟩ := h'.sent
  refine ⟨h.stays.trans h'.stays, h'.mp.trans h.mp, fun a c k hk => h'.kept a c k (h.kept a c k hk), ?_, sends ++ sends',
    by rw [hsends', hsends, List.append_assoc], ?_⟩
  · intro a c k hk
    rcases h'.opened a c k hk with hk | ⟨hle, ha, x, hx, hget⟩
    · apply (h.opened a c k hk).imp_right
      intro h
      rcases h with ⟨hle, ha, x, hx, hget⟩
      exact ⟨hle, ha, x, List.mem_append_left _ hx, hget⟩
    · exact .inr ⟨h.stays.grew.counter.trans hle, ha, x, List.mem_append_right _ hx, hget⟩
  · intro y hy
    rcases List.mem_append.mp hy with hy | hy
    · obtain ⟨x, hx, c, hget, hk⟩ := hof y hy
      exact ⟨x, List.mem_append_left _ hx, c, hget, h'.kept _ _ _ hk⟩
    · obtain ⟨x, hx, c, hget, hk⟩ := hof' y hy
      exact ⟨x, List.mem_append_right _ hx, c, hget, hk⟩

theorem create_inv {m m' : FdManager} {fd : Fd} {fd64 : Fd64} (h : m.create fd = .ok (m', fd64)) : fd64 = m.counter := by
  unfold FdManager.create at h
  rw [check_bind] at h
  cases h.2
  rfl

/-- A conv that was not in the tables comes with a number that was never used, or not at all. -/
theorem Inv.openConv_holds (h : Inv s) (hmp : s.mp.lookup addr = some p) (hfree : ∀ fd64, ¬ s.Holds addr conv fd64)
    (hrun : Server.openConv os p addr conv s = .ok (there, t)) : t.mp = s.mp ∧ t.outbox = s.outbox ∧
      (∀ a c k, s.Holds a c k → t.Holds a c k) ∧
      ∀ a c k, t.Holds a c k → s.Holds a c k ∨ s.fdManager.counter ≤ k ∧ a = addr ∧ c = conv := by
  unfold Server.openConv at hrun
  obtain ⟨conn, hconn, hrun⟩ := bind_ok.mp hrun
  have hp := Server.deref_ok.mp hconn
  split at hrun
  · cases hrun
    exact ⟨rfl, rfl, fun _ _ _ hs => hs, fun _ _ _ ht => .inl ht⟩
  · split at hrun
    · cases hrun
      exact ⟨rfl, rfl, fun _ _ _ hs => hs, fun _ _ _ ht => .inl ht⟩
    · obtain ⟨⟨m1, fd64⟩, hcreate, hrun⟩ := bind_ok.mp hrun
      obtain ⟨⟨convManager, clock⟩, hinsert, hrun⟩ := bind_ok.mp hrun
      obtain ⟨⟨m2, info⟩, -, hrun⟩ := bind_ok.mp hrun
      obtain ⟨⟨m3, info3⟩, -, hrun⟩ := bind_ok.mp hrun
      obtain ⟨-, -, hrun⟩ := bind_ok.mp hrun
      obtain ⟨htmp, hout, hheap⟩ : t.mp = s.mp ∧ t.outbox = s.outbox ∧ t.heap = s.heap.insert p { conn with convManager := convManager } := by
        cases hrun
        exact ⟨rfl, rfl, rfl⟩
      obtain ⟨-, hconvs⟩ := ConvManager.insertConv_inv hinsert
      refine ⟨htmp, hout, ?_, ?_⟩
      · intro a c k hs
        apply (h.holds_set hmp htmp hheap).mpr
        by_cases ha : a = addr
        · subst ha
          have hc : c ≠ conv := fun heq => hfree k (heq ▸ hs)
          refine .inl ⟨rfl, ?_⟩
          simp only [hconvs]
          rw [AList.lookup_insert_ne hc]
          exact (holds_at hmp hp).mp hs
        · exact .inr ⟨ha, hs⟩
      · intro a c k ht
        rcases (h.holds_set hmp htmp hheap).mp ht with ⟨rfl, hlook⟩ | ⟨-, hs⟩
        · simp only [hconvs, lookup_insert_eq] at hlook
          split at hlook
          · rename_i hc
            cases hlook
            exact .inr ⟨(create_inv hcreate).ge, rfl, hc⟩
          · exact .inl ((holds_at hmp hp).mpr hlook)
        · exact .inl hs

theorem Inv.processOut_serves (hos : Honest os) (h : Inv s) (hmp : s.mp.lookup addr = some p) (x : Nat × Bytes) :
    ∃ t, Server.processOut os p addr s x = .ok t ∧ Serves s addr [x] t := by
  obtain ⟨t, ht, hstays⟩ := h.processOut hos hmp x
  refine ⟨t, ht, ?_⟩
  unfold Server.processOut at ht
  simp only at ht
  split at ht
  · cases ht
    exact h.serves_nothing addr _
  · rename_i hret
    have hget : Server.getConv x.2 = (0, (Server.getConv x.2).2.1, (Server.getConv x.2).2.2) := Prod.ext (not_not.mp hret) rfl
    generalize (Server.getConv x.2).2.1 = conv at *
    obtain ⟨there, t1, hensure, hstays1, hthere⟩ := h.ensureConv hos hmp conv
    have hfirst : t1.mp = s.mp ∧ t1.outbox = s.outbox ∧ (∀ a c k, s.Holds a c k → t1.Holds a c k) ∧
        ∀ a c k, t1.Holds a c k → s.Holds a c k ∨ s.fdManager.counter ≤ k ∧ a = addr ∧ c = conv := by
      unfold Server.ensureConv at hensure
      obtain ⟨conn, hconn, hensure⟩ := bind_ok.mp hensure
      split at hensure
      · rename_i hnew
        refine h.openConv_holds hmp (fun k hk => hnew ?_) hensure
        exact mem_of_lookup ((holds_at hmp (Server.deref_ok.mp hconn)).mp hk)
      · cases hensure
        exact ⟨rfl, rfl, fun _ _ _ hs => hs, fun _ _ _ ht => .inl ht⟩
    obtain ⟨hmp1, hout1, hkept1, hopened1⟩ := hfirst
    have hopened : ∀ a c k, t1.Holds a c k → s.Holds a c k ∨
        s.fdManager.counter ≤ k ∧ a = addr ∧ ∃ y ∈ [x], ∃ data, Server.getConv y.2 = (0, c, data) := by
      intro a c k hk
      apply (hopened1 a c k hk).imp_right
      intro h
      rcases h with ⟨hle, ha, rfl⟩
      exact ⟨hle, ha, x, List.mem_singleton_self x, _, hget⟩
    rw [hensure, ok_bind] at ht
    simp only at ht
    split at ht
    · cases ht
      exact ⟨hstays, hmp1, hkept1, hopened, [], by rw [hout1, List.append_nil], by simp⟩
    · rename_i hyes
      obtain ⟨conn, hp, hconv⟩ := hthere (not_not.mp hyes)
      obtain ⟨fd64, hfd64⟩ := exists_lookup hconv
      rw [Server.deref_ok.mpr hp, ok_bind] at ht
      obtain ⟨⟨convManager, clock⟩, hupdate, ht⟩ := bind_ok.mp ht
      obtain ⟨-, q, -, hconvs⟩ := ConvManager.updateActiveTime_inv hupdate
      have hfind : convManager.convToData.lookup conv = some fd64 := by rw [hconvs]; exact hfd64
      simp only at ht
      rw [ConvManager.findDataByConv_ok hfind] at ht
      obtain ⟨htmp, hout, hheap⟩ : t.mp = t1.mp ∧ t.outbox = t1.outbox ++ [(x.1, ⟨.fd64 fd64, false⟩, (Server.getConv x.2).2.2)] ∧
          t.heap = t1.heap.insert p { conn with convManager := convManager } := by
        cases ht
        exact ⟨rfl, rfl, rfl⟩
      have hmpt : t1.mp.lookup addr = some p := hmp1 ▸ hmp
      have hsame : ∀ a c k, t.Holds a c k ↔ t1.Holds a c k := by
        intro a c k
        rw [hstays1.inv.holds_set hmpt htmp hheap]
        by_cases ha : a = addr
        · subst ha
          rw [holds_at hmpt hp, hconvs]
          simp
        · simp [ha]
      refine ⟨hstays, htmp.trans hmp1, fun a c k hk => (hsame a c k).mpr (hkept1 a c k hk), fun a c k hk => hopened a c k ((hsame a c k).mp hk),
        [(fd64, (Server.getConv x.2).2.2)], by rw [hout, toSockets_append, hout1]; rfl, fun y hy => ?_⟩
      cases List.mem_singleton.mp hy
      exact ⟨x, List.mem_singleton_self x, conv, hget, (hsame _ _ _).mpr ((holds_at hmpt hp).mpr hfd64)⟩

theorem Inv.processOuts_serves (hos : Honest os) (h : Inv s) (hmp : s.mp.lookup addr = some p) (out : Out) :
    ∃ t, out.foldlM (Server.processOut os p addr) s = .ok t ∧ Serves s addr out t := by
  induction out generalizing s with
  | nil => exact ⟨s, rfl, h.serves_nothing addr []⟩
  | cons x out ih =>
    obtain ⟨s1, h1, hserves⟩ := h.processOut_serves hos hmp x
    obtain ⟨t, ht, hserves'⟩ := ih hserves.stays.inv (hserves.mp ▸ hmp)
    exact ⟨t, foldlM_cons_ok.mpr ⟨s1, h1, ht⟩, hserves.trans hserves'⟩

/-- A server that differs in nothing that is seen here. -/
theorem Serves.after {s1 : Server} {xs : Out} (hstays : Stays s s1) (hmp : s1.mp = s.mp) (hheld : ∀ a c k, s1.Holds a c k ↔ s.Holds a c k)
    (hout : s1.outbox = s.outbox) (h : Serves s1 addr xs t) : Serves s addr xs t := by
  refine ⟨hstays.trans h.stays, h.mp.trans hmp, fun a c k hk => h.kept a c k ((hheld a c k).mpr hk), ?_, hout ▸ h.sent⟩
  intro a c k hk
  rcases h.opened a c k hk with hk | ⟨hle, hrest⟩
  · exact .inl ((hheld a c k).mp hk)
  · exact .inr ⟨hstays.grew.counter.trans hle, hrest⟩

theorem Inv.processConn_serves (hos : Honest os) (h : Inv s) (haddr : addr ∈ s.mp) (out : Out) :
    ∃ t, Server.processConn os garbage s addr out = .ok t ∧ Serves s addr out t := by
  obtain ⟨p, hmp⟩ := exists_lookup haddr
  obtain ⟨conn, hp, -⟩ := h.lookup_of_mp hmp
  have hready := h.ready p conn hp
  have hfirst := h.refresh hp { conn with lastActiveTime := s.clock.now } (.tail _) rfl
    ⟨hready.loop, hready.addr, hready.convs.later (Clock.now_le h.clock)⟩ rfl s.outbox
  obtain ⟨t, ht, hserves⟩ := hfirst.inv.processOuts_serves hos hmp out
  unfold Server.processConn
  rw [Server.findInsert_mem hmp]
  simp only
  rw [Server.deref_ok.mpr hp, ok_bind]
  refine ⟨t, ht, hserves.after hfirst rfl (?_) rfl⟩
  intro a c k
  generalize htmp : ({ s.setConn p { conn with lastActiveTime := s.clock.now } with clock := s.clock.tail, outbox := s.outbox } : Server) = s1
  rw [h.holds_set hmp (show s1.mp = s.mp by rw [← htmp]; rfl) (show s1.heap = _ by rw [← htmp]; rfl)]
  by_cases ha : a = addr
  · subst ha
    rw [holds_at hmp hp]
    simp
  · simp [ha]

/-- A new conn has no convs yet. -/
theorem Inv.accept_holds (h : Inv s) (hnew : addr ∉ s.mp) {localListenFd : Fd} (hrun : Server.accept garbage s localListenFd addr = .ok t) :
    t.outbox = s.outbox ∧ ∀ a c k, t.Holds a c k ↔ s.Holds a c k := by
  have hnone := AList.lookup_eq_none.mpr hnew
  let conn0 : ConnInfo := ⟨.init (garbage s.conns), garbage s.conns, false, 0, none⟩
  unfold Server.accept Server.findInsert at hrun
  rw [hnone] at hrun
  simp only at hrun
  rw [Server.deref_ok.mpr (show (s.heap.insert s.conns conn0).lookup s.conns = some conn0 from AList.lookup_insert _), ok_bind] at hrun
  obtain ⟨htmp, hout, hheap⟩ : t.mp = s.mp.insert addr s.conns ∧ t.outbox = s.outbox ∧ t.heap = (s.heap.insert s.conns conn0).insert s.conns
      { conn0 with addr := some addr, loop := true, localListenFd := localListenFd } := by
    cases hrun
    exact ⟨rfl, rfl, rfl⟩
  rw [AList.insert_insert] at hheap
  have hplace : s.conns ∉ s.heap := fun hmem => Nat.lt_irrefl _ (h.below _ hmem)
  refine ⟨hout, ?_⟩
  intro a c k
  unfold Server.Holds
  rw [htmp, hheap]
  constructor
  · intro h
    rcases h with ⟨q, conn, hq, hlook, hconv⟩
    have hne : q ≠ s.conns := by
      intro heq
      subst heq
      rw [AList.lookup_insert] at hlook
      cases hlook
      cases hconv
    rw [lookup_insert_eq] at hq
    split at hq
    · exact absurd (Option.some.inj hq).symm hne
    · rw [AList.lookup_insert_ne hne] at hlook
      exact ⟨q, conn, hq, hlook, hconv⟩
  · intro h
    rcases h with ⟨q, conn, hq, hlook, hconv⟩
    have hne : q ≠ s.conns := fun heq => hplace (heq ▸ mem_of_lookup hlook)
    have ha : a ≠ addr := by
      intro heq
      subst heq
      rw [hnone] at hq
      cases hq
    exact ⟨q, conn, by rw [AList.lookup_insert_ne ha, hq], by rw [AList.lookup_insert_ne hne, hlook], hconv⟩

end Serves

/-! ## Events -/

/-- What an event does to the sockets: see the head of the file. -/
structure Forwards (s : Server) (e : Event) (t : Server) : Prop where
  moved : Moved s e t
  held : ∀ a conv fd64, t.Holds a conv fd64 → s.Holds a conv fd64 ∨ s.fdManager.counter ≤ fd64 ∧
    ∃ localListenFd dataLen out, e = .tunnel localListenFd dataLen a 0 out ∧ ∃ x ∈ out, ∃ data, Server.getConv x.2 = (0, conv, data)
  sent : ∃ sends, toSockets t.outbox = toSockets s.outbox ++ sends ∧ ∀ y ∈ sends, ∃ localListenFd dataLen a out,
    e = .tunnel localListenFd dataLen a 0 out ∧ ∃ x ∈ out, ∃ conv, Server.getConv x.2 = (0, conv, y.2) ∧ t.Holds a conv y.1

section Events

variable {os : Nat → Open → Option Fd} {garbage : Ptr → Nat} {s t : Server} {p : Ptr} {conn : ConnInfo}

/-- An event after which no conn has other convs than before, and no socket was sent anything. -/
theorem Forwards.quiet {e : Event} (hmoved : Moved s e t) (hheld : ∀ a conv fd64, t.Holds a conv fd64 → s.Holds a conv fd64)
    (hsent : toSockets t.outbox = toSockets s.outbox) : Forwards s e t :=
  ⟨hmoved, fun a c k hk => .inl (hheld a c k hk), [], by rw [hsent, List.append_nil], by simp⟩

theorem sendOut_sockets {out : Out} (h : s.sendOut conn out = .ok t) : t.mp = s.mp ∧ t.heap = s.heap ∧ toSockets t.outbox = toSockets s.outbox := by
  unfold Server.sendOut at h
  split at h
  · cases h
  · rename_i addr haddr
    cases h
    refine ⟨rfl, rfl, ?_⟩
    have hnone : toSockets (out.map fun x => (x.1, ⟨.fdAddr conn.localListenFd addr, true⟩, x.2)) = [] := by
      unfold toSockets
      rw [List.filterMap_map]
      exact List.filterMap_eq_nil_iff.mpr fun x hx => rfl
    rw [toSockets_append, hnone, List.append_nil]

/-- Packets that a server handles which differs in nothing that is seen here. -/
theorem Serves.forwards {s1 : Server} {addr : Address} {out : Out} (hstays : Stays s s1) (hheld : ∀ a c k, s1.Holds a c k ↔ s.Holds a c k)
    (hout : s1.outbox = s.outbox) (h : Serves s1 addr out t) (localListenFd : Fd) (dataLen : Int) :
    Forwards s (.tunnel localListenFd dataLen addr 0 out) t := by
  obtain ⟨sends, hsends, hof⟩ := h.sent
  refine ⟨(hstays.trans h.stays).moved _, ?_, sends, hout ▸ hsends, fun y hy => ⟨localListenFd, dataLen, addr, out, rfl, hof y hy⟩⟩
  intro a c k hk
  rcases h.opened a c k hk with hk | ⟨hle, rfl, hx⟩
  · exact .inl ((hheld a c k).mp hk)
  · exact .inr ⟨hstays.grew.counter.trans hle, localListenFd, dataLen, out, rfl, hx⟩

theorem Inv.tunnel_forwards (hos : Honest os) (h : Inv s) (localListenFd : Fd) (dataLen : Int) (addr : Address) (deCook : Int) (out : Out) :
    ∃ t, s.processTunnelPacket os garbage localListenFd dataLen addr deCook out = .ok t ∧
      Forwards s (.tunnel localListenFd dataLen addr deCook out) t := by
  have hidle : ∀ e, Forwards s e s := fun e => .quiet (h.stays.moved e) (fun _ _ _ hk => hk) rfl
  unfold Server.processTunnelPacket
  split
  · exact ⟨s, rfl, hidle _⟩
  · split
    · exact ⟨s, rfl, hidle _⟩
    · rename_i hcook
      obtain rfl : deCook = 0 := not_not.mp hcook
      split
      · rename_i hnew
        split
        · exact ⟨s, rfl, hidle _⟩
        · obtain ⟨s1, haccept, hstays, haddr⟩ := @Inv.accept s addr garbage h hnew localListenFd
          obtain ⟨hout, hheld⟩ := h.accept_holds hnew haccept
          obtain ⟨t, ht, hserves⟩ := @Inv.processConn_serves os garbage s1 addr hos hstays.inv haddr out
          exact ⟨t, by rw [haccept]; exact ht, hserves.forwards hstays hheld hout _ _⟩
      · rename_i hold
        obtain ⟨t, ht, hserves⟩ := @Inv.processConn_serves os garbage s addr hos h (not_not.mp hold) out
        exact ⟨t, ht, hserves.forwards h.stays (fun _ _ _ => Iff.rfl) rfl _ _⟩

theorem Inv.remote_forwards (h : Inv s) {watcher : IoWatcher} {conv : U32} {fd : Fd} (hp : s.heap.lookup watcher.data = some conn)
    (hconv : conn.convManager.convToData.lookup conv = some watcher.u64) (hfd : s.fdManager.fd64ToFd.lookup watcher.u64 = some fd)
    (dataLen : Int) (out : Out) (e : Event) : ∃ t, s.fromRemote watcher dataLen out = .ok t ∧ Forwards s e t := by
  obtain ⟨t, ht, hstays⟩ := h.fromRemote hp hconv hfd dataLen out
  refine ⟨t, ht, ?_⟩
  unfold Server.fromRemote Server.processRemotePacket at ht
  rw [h.connOf hp, ok_bind, if_neg (not_not.mpr (show s.fdManager.exist watcher.u64 from mem_of_lookup hfd)), FdManager.toFd_ok.mpr hfd, ok_bind,
    Server.deref_ok.mpr hp, ok_bind, check_bind, ConvManager.findConvByData_ok (((h.ready _ conn hp).convs.inverse conv watcher.u64).mp hconv)] at ht
  obtain ⟨-, ht⟩ := ht
  obtain ⟨⟨convManager, clock⟩, hupdate, ht⟩ := bind_ok.mp ht
  obtain ⟨-, q, -, hconvs⟩ := ConvManager.updateActiveTime_inv hupdate
  have hheap : t.mp = s.mp ∧ t.heap = s.heap.insert watcher.data { conn with convManager := convManager, lastActiveTime := clock.now } ∧
      toSockets t.outbox = toSockets s.outbox := by
    simp only at ht
    split at ht
    · cases ht
      exact ⟨rfl, rfl, rfl⟩
    · split at ht
      · cases ht
        exact ⟨rfl, rfl, rfl⟩
      · exact sendOut_sockets ht
  refine .quiet (hstays.moved e) (fun a c k hk => ?_) hheap.2.2
  exact h.holds_fewer hp hheap.1 hheap.2.1 (fun k' n hn => by simpa only [hconvs] using hn) hk

theorem Inv.fecTimeout_forwards (h : Inv s) (hp : s.heap.lookup p = some conn) (out : Out) (e : Event) :
    ∃ t, s.fecTimeout p out = .ok t ∧ Forwards s e t := by
  obtain ⟨t, ht, hstays⟩ := h.fecTimeout hp out
  refine ⟨t, ht, ?_⟩
  unfold Server.fecTimeout at ht
  rw [h.connOf hp, ok_bind] at ht
  obtain ⟨hmp, hheap, hsent⟩ := sendOut_sockets ht
  refine .quiet (hstays.moved e) (fun a c k hk => ?_) hsent
  unfold Server.Holds at hk ⊢
  rwa [hmp, hheap] at hk

theorem Inv.connTimer_forwards (h : Inv s) (hp : s.heap.lookup p = some conn) (e : Event) :
    ∃ t, s.connTimer p = .ok t ∧ Forwards s e t := by
  obtain ⟨t, ht, hstays⟩ := h.connTimer hp
  refine ⟨t, ht, ?_⟩
  unfold Server.connTimer at ht
  rw [h.connOf hp, ok_bind] at ht
  obtain ⟨⟨convManager, ⟨m, opened⟩, clock⟩, hclear, ht⟩ := bind_ok.mp ht
  obtain ⟨hmp, hheap, hsent⟩ : t.mp = s.mp ∧ t.heap = s.heap.insert p { conn with convManager := convManager } ∧
      toSockets t.outbox = toSockets s.outbox := by
    cases ht
    exact ⟨rfl, rfl, rfl⟩
  -- what the clearing loop leaves is part of what was there
  have hfewer : ∀ k n, convManager.convToData.lookup k = some n → conn.convManager.convToData.lookup k = some n := by
    have hclears : ConvManager.Clears s.clearFunction fun table w =>
        Clearing s p table w ∧ ∀ k n, table.lookup k = some n → conn.convManager.convToData.lookup k = some n := by
      intro table w conv fd64 h hlook
      rcases h with ⟨hclearing, htable⟩
      obtain ⟨w', hw', hclearing'⟩ := h.clears p table w conv fd64 hclearing hlook
      refine ⟨w', hw', hclearing', ?_⟩
      intro k n hk
      rw [lookup_erase_eq] at hk
      split at hk
      · cases hk
      · exact htable k n hk
    obtain ⟨m', w', clock', hclear', -, -, -, hleft⟩ :=
      ConvManager.clearInactive_ok hclears (h.ready p conn hp).convs h.clock ⟨h.clearing hp, fun _ _ hk => hk⟩
    rw [hclear] at hclear'
    cases hclear'
    exact hleft
  exact .quiet (hstays.moved e) (fun a c k hk => h.holds_fewer hp hmp hheap hfewer hk) hsent

theorem visit_outbox {now : Nat} {addr : Address} (h : Server.visit now s addr = .ok t) : t.outbox = s.outbox := by
  unfold Server.visit at h
  split at h
  · cases h
    rfl
  · obtain ⟨conn, -, h⟩ := bind_ok.mp h
    split at h
    · cases h
      rfl
    · split at h
      · cases h
        rfl
      · unfold Server.erase at h
        obtain ⟨conn, -, h⟩ := bind_ok.mp h
        obtain ⟨⟨m, w⟩, -, h⟩ := bind_ok.mp h
        cases h
        rfl

theorem Inv.globalTimer_forwards (h : Inv s) (visits : List Address) : ∃ t, s.clearInactive visits = .ok t ∧ Forwards s (.globalTimer visits) t := by
  obtain ⟨t, ht, hsweep⟩ := h.clearInactive visits
  refine ⟨t, ht, .quiet ⟨hsweep.inv, hsweep.grew, fun addr p conn hmp hp => (hsweep.gone addr p conn hmp hp).imp_right fun hidle => ⟨⟨visits, rfl⟩, hidle⟩⟩ ?_ ?_⟩
  · intro a c k h
    rcases h with ⟨p, conn, hmp, hp, hconv⟩
    obtain ⟨hmp', hp'⟩ := hsweep.left a p hmp
    exact ⟨p, conn, hmp', hp' ▸ hp, hconv⟩
  · have hout : t.outbox = s.outbox := by
      unfold Server.clearInactive Server.clearInactive0 at ht
      split at ht
      · simp only at ht
        refine foldlM_inv (I := fun u : Server => u.outbox = s.outbox) (fun u a v _ hu hv => ?_) ?_ ht
        · exact (visit_outbox hv).trans hu
        · rfl
      · cases ht
        rfl
    rw [hout]

/-- Every event finds its way, and opens and sends what it should. -/
theorem step_forwards (hos : Honest os) (h : Inv s) (e : Event) : ∃ t, step os garbage s e = .ok t ∧ Forwards s e t := by
  cases e with
  | tunnel localListenFd dataLen addr deCook out => exact h.tunnel_forwards hos localListenFd dataLen addr deCook out
  | remote fd64 dataLen out =>
    simp only [step]
    split
    · rename_i watcher hw
      obtain ⟨conn, conv, fd, hp, hconv, hfd⟩ := h.watcher hw
      exact h.remote_forwards hp hconv hfd dataLen out _
    · exact ⟨s, rfl, .quiet (h.stays.moved _) (fun _ _ _ hk => hk) rfl⟩
  | fecTimeout p out =>
    simp only [step]
    split
    · rename_i hmem
      obtain ⟨conn, hp⟩ := exists_lookup hmem
      exact h.fecTimeout_forwards hp out _
    · exact ⟨s, rfl, .quiet (h.stays.moved _) (fun _ _ _ hk => hk) rfl⟩
  | connTimer p =>
    simp only [step]
    split
    · rename_i hmem
      obtain ⟨conn, hp⟩ := exists_lookup hmem
      exact h.connTimer_forwards hp _
    · exact ⟨s, rfl, .quiet (h.stays.moved _) (fun _ _ _ hk => hk) rfl⟩
  | globalTimer visits => exact h.globalTimer_forwards visits

/-! ## What arrives at a socket -/

/-- What `server_process_remote_packet` hands to `from_normal_to_fec` for data that `recv` read
    from a socket, and the address of the conn whose encoder it is. -/
def Server.toEncoder (s : Server) (fd64 : Fd64) (data : Bytes) : Option (Address × Bytes) :=
  match (s.fdManager.fdInfo.lookup fd64).bind FdInfo.ioWatcher with
  | none => none
  | some watcher =>
    if ¬ s.fdManager.exist watcher.u64 then none
    else
      (s.heap.lookup watcher.data).bind fun conn =>
        if data.length = maxDataLen + 1 then none
        else conn.addr.map fun addr => (addr, putConvInplace (conn.convManager.findConvByData watcher.u64).2 data)

theorem Inv.toEncoder_holds (h : Inv s) {fd64 : Fd64} {data : Bytes} {addr : Address} {x : Bytes} (hto : s.toEncoder fd64 data = some (addr, x)) :
    ∃ conv, s.Holds addr conv fd64 ∧ x = putConvInplace conv data := by
  unfold Server.toEncoder at hto
  split at hto
  · cases hto
  · rename_i watcher hw
    obtain ⟨info, hinfo, hwatcher⟩ := Option.bind_eq_some_iff.mp hw
    obtain ⟨p, conv, hF⟩ := h.links.owner fd64 (h.sockets.infos fd64 (mem_of_lookup hinfo))
    obtain ⟨fd, a, hfd, ha, hinfo'⟩ := h.links.held p conv fd64 hF
    rw [hinfo] at hinfo'
    cases hinfo'
    cases hwatcher
    obtain ⟨conn, hp, hconv⟩ := Option.bind_eq_some_iff.mp hF
    split at hto
    · cases hto
    · obtain ⟨conn', hp', hto⟩ := Option.bind_eq_some_iff.mp hto
      obtain rfl : conn = conn' := Option.some.inj (hp.symm.trans hp')
      split at hto
      · cases hto
      · obtain ⟨addr', haddr, heq⟩ := Option.map_eq_some_iff.mp hto
        cases heq
        rw [ConvManager.findConvByData_ok (((h.ready p conn hp).convs.inverse conv fd64).mp hconv)]
        exact ⟨conv, ⟨p, conn, (h.placed addr p).mpr ((addrOf_eq hp).trans haddr), hp, hconv⟩, rfl⟩

/-- A number belongs to one conv. -/
theorem Inv.holds_unique (h : Inv s) {a a' : Address} {conv conv' : U32} {fd64 : Fd64} (hk : s.Holds a conv fd64) (hk' : s.Holds a' conv' fd64) :
    a = a' ∧ conv = conv' := by
  obtain ⟨p, conn, hmp, hp, hconv⟩ := hk
  obtain ⟨p', conn', hmp', hp', hconv'⟩ := hk'
  obtain ⟨rfl, rfl⟩ := h.links.inj p conv p' conv' fd64 ((fd64Of_eq hp conv).trans hconv) ((fd64Of_eq hp' conv').trans hconv')
  exact ⟨Option.some.inj (((h.placed a p).mp hmp).symm.trans ((h.placed a' p).mp hmp')), rfl⟩

theorem Inv.holds_below (h : Inv s) {a : Address} {conv : U32} {fd64 : Fd64} (hk : s.Holds a conv fd64) : fd64 < s.fdManager.counter := by
  obtain ⟨p, conn, -, hp, hconv⟩ := hk
  obtain ⟨fd, -, hfd, -⟩ := h.links.held p conv fd64 ((fd64Of_eq hp conv).trans hconv)
  exact h.sockets.below fd64 (mem_of_lookup hfd)

end Events

end UdpSpeeder.Tunnel
