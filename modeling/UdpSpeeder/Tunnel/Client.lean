/-
  UdpSpeeder.Tunnel.Client — the tables of the client and the callbacks that change them
  (`tunnel_client.cpp`), on the path without io_uring.

  As in `Tunnel.Tables`, of a datagram the tables see whether `de_cook` accepts it and what the
  decoder hands out for it, and of the encoder what it hands out; both are part of the event, and
  so are the numbers that `get_fake_random_number` returns during it. What goes to `delay_send`
  is put into the outbox, what goes to `from_normal_to_fec` is kept (`given`).

  Whatever happens, in any order and at any times, no assertion fails and the two maps stay
  inverse, below `max_conv_num`, with no conv 0; what a packet of the decoder carries is for the
  user whose conv it names (`client_consistent`).
-/

import UdpSpeeder.Tunnel.Consistent

namespace UdpSpeeder.Tunnel

open Lib Net

/-! ## The conv of a packet -/

/-- `put_conv_inplace`: the data lie behind four bytes of headroom. -/
def putConvInplace (conv : U32) (data : Bytes) : Bytes := slice (writeU32 (fun i => UdpSpeeder.mem data (i - 4)) 0 conv) 0 (data.length + 4)

theorem putConvInplace_length (conv : U32) (data : Bytes) : (putConvInplace conv data).length = data.length + 4 := slice_length _ _ _

/-- What `put_conv_inplace` writes, `get_conv` reads. -/
theorem getConv_putConvInplace (conv : U32) (data : Bytes) : Server.getConv (putConvInplace conv data) = (0, conv, data) := by
  unfold Server.getConv
  rw [putConvInplace_length, if_neg (by omega)]
  have hconv : readU32 (UdpSpeeder.mem (putConvInplace conv data)) 0 = conv := by
    conv_rhs => rw [← readU32_writeU32 (fun i => UdpSpeeder.mem data (i - 4)) 0 conv]
    apply readU32_congr
    intro i hi
    unfold putConvInplace
    rw [mem_slice _ _ _ (by omega), Nat.zero_add]
  have hdata : (putConvInplace conv data).drop 4 = data := by
    unfold putConvInplace
    rw [slice_drop _ _ (Nat.le_add_left _ _)]
    apply List.ext_getElem (by simp)
    intro i h1 h2
    rw [slice_getElem, writeU32_out _ (.inr (by omega))]
    simp [UdpSpeeder.mem, h2]
  rw [hconv, hdata]

theorem putConvInplace_inj {conv conv' : U32} {data data' : Bytes} (h : putConvInplace conv data = putConvInplace conv' data') :
    conv = conv' ∧ data = data' := by
  have hget := congrArg Server.getConv h
  rw [getConv_putConvInplace, getConv_putConvInplace] at hget
  exact Prod.mk.inj (Prod.mk.inj hget).2

/-! ## The client -/

/-- What `operator[]` would put under a conv that is not there. -/
instance : Inhabited Address := ⟨.ipv4 0 0⟩

namespace ConvManager

variable {T : Type}

/-- `get_new_conv`: the first of the numbers drawn that is neither zero nor in use. -/
def getNewConv (m : ConvManager T) (draws : List U32) : Option U32 := draws.find? fun conv => conv ≠ 0 ∧ ¬ m.isConvUsed conv

theorem getNewConv_some {m : ConvManager T} {draws : List U32} {conv : U32} (h : m.getNewConv draws = some conv) :
    conv ≠ 0 ∧ conv ∉ m.convToData := by
  unfold getNewConv at h
  have hfound := List.find?_some h
  exact of_decide_eq_true hfound

end ConvManager

structure Client where
  convManager : ConvManager Address
  fdManager : FdManager
  remoteFd64 : Fd64
  /-- `remote_watcher.u64` -/
  watcher : Fd64
  localListenFd : Fd
  clock : Clock
  /-- The delay, the destination and the bytes of what was handed to `delay_send`. -/
  outbox : List (Nat × Dest × Bytes)
  /-- What was handed to `from_normal_to_fec`. -/
  given : List Bytes

namespace Client

/-- `tunnel_client_event_loop`, before `ev_run`. -/
def start (localListenFd remoteFd : Fd) (garbage : Nat) (clock : Clock) : Except Fault Client := do
  let (m, fd64) ← FdManager.init.create remoteFd
  .ok ⟨.init garbage, m, fd64, fd64, localListenFd, clock, [], []⟩

/-- Where it sends what the encoder hands out. -/
def sendOut (c : Client) (out : Out) : Client := { c with outbox := c.outbox ++ out.map fun x => (x.1, ⟨.fd64 c.remoteFd64, true⟩, x.2) }

/-- The conv of a user, a new one if there is none; `none` if there are too many. -/
def convOf (c : Client) (addr : Address) (draws : List U32) : Except Fault (Option (U32 × Client)) :=
  if ¬ c.convManager.isDataUsed addr then
    if maxConvNum ≤ c.convManager.getSize then .ok none
    else
      match c.convManager.getNewConv draws with
      | none => .error (.range "draws")
      | some conv => do
        let (convManager, clock) ← c.convManager.insertConv conv addr c.clock
        .ok (some (conv, { c with convManager := convManager, clock := clock }))
  else
    let (convManager, conv) := c.convManager.findConvByData addr
    .ok (some (conv, { c with convManager := convManager }))

/-- `client_process_local_packet`. -/
def processLocalPacket (c : Client) (data : Bytes) (addr : Address) (draws : List U32) (out : Out) : Except Fault Client :=
  if data.length = maxDataLen + 1 then .ok c
  else do
    match ← c.convOf addr draws with
    | none => .ok c
    | some (conv, c) => do
      let (convManager, clock) ← c.convManager.updateActiveTime conv c.clock
      .ok (sendOut { c with convManager := convManager, clock := clock, given := c.given ++ [putConvInplace conv data] } out)

/-- One packet that the decoder handed out. -/
def processOut (c : Client) (x : Nat × Bytes) : Except Fault Client := do
  let (ret, conv, data) := Server.getConv x.2
  if ret ≠ 0 then .ok c
  else if ¬ c.convManager.isConvUsed conv then .ok c
  else do
    let (convManager, clock) ← c.convManager.updateActiveTime conv c.clock
    let (convManager, addr) := convManager.findDataByConv conv
    .ok { c with convManager := convManager, clock := clock, outbox := c.outbox ++ [(x.1, ⟨.fdAddr c.localListenFd addr, false⟩, data)] }

/-- `client_process_remote_packet`. -/
def processRemotePacket (c : Client) (dataLen deCook : Int) (out : Out) : Except Fault Client :=
  if dataLen = maxDataLen + 1 then .ok c
  else if dataLen < 0 then .ok c
  else if deCook ≠ 0 then .ok c
  else out.foldlM processOut c

/-- `remote_cb`. -/
def remote (c : Client) (dataLen deCook : Int) (out : Out) : Except Fault Client :=
  if ¬ c.fdManager.exist c.watcher then .ok c
  else do
    check (c.watcher = c.remoteFd64) (.assert "watcher->u64 == remote_fd64")
    let _ ← c.fdManager.toFd c.remoteFd64
    c.processRemotePacket dataLen deCook out

/-- `conn_timer_cb`; `out` is what `debug_force_flush_fec` flushes. The client has no
    `additional_clear_function`. -/
def connTimer (c : Client) (out : Out) : Except Fault Client := do
  let (convManager, _, clock) ← c.convManager.clearInactive (fun _ s => .ok s) () c.clock
  .ok (sendOut { c with convManager := convManager, clock := clock } out)

inductive Event where
  /-- `local_listen_cb`, with what `recvfrom` returned, the numbers drawn and what the encoder hands out. -/
  | localListen (data : Bytes) (addr : Address) (draws : List U32) (out : Out)
  /-- `remote_cb`, with what `recv` and `de_cook` return and the decoder hands out. -/
  | remote (dataLen deCook : Int) (out : Out)
  /-- `fec_encode_cb` -/
  | fecEncode (out : Out)
  | connTimer (out : Out)

def step (c : Client) : Event → Except Fault Client
  | .localListen data addr draws out => c.processLocalPacket data addr draws out
  | .remote dataLen deCook out => c.remote dataLen deCook out
  | .fecEncode out => .ok (c.sendOut out)
  | .connTimer out => c.connTimer out

/-! ## What a callback does -/

/-- What goes to users, and to whom. -/
def toUsers (outbox : List (Nat × Dest × Bytes)) : List (Address × Bytes) :=
  outbox.filterMap fun x => match x.2.1.inner with
    | .fdAddr _ addr => some (addr, x.2.2)
    | _ => none

/-- Where a new conv is asked for, the numbers drawn hold one. -/
def Event.Drawn (c : Client) : Event → Prop
  | .localListen data addr draws _ => data.length ≠ maxDataLen + 1 → addr ∉ c.convManager.dataToConv → c.convManager.getSize < maxConvNum →
      (c.convManager.getNewConv draws).isSome
  | _ => True

structure Inv (c : Client) : Prop where
  clock : Monotone c.clock
  convs : c.convManager.Wf c.clock.now
  size : c.convManager.getSize ≤ maxConvNum
  nonzero : ∀ conv ∈ c.convManager.convToData, conv ≠ 0
  socket : c.fdManager.exist c.remoteFd64
  watcher : c.watcher = c.remoteFd64

/-- What an event does: a conv is new only if it was drawn, and then its first packet goes to the
    encoder; a packet is given under the conv of its user; and what goes to a user came out of
    the decoder under his conv. -/
structure Moved (c : Client) (e : Event) (c' : Client) : Prop where
  inv : Inv c'
  convs : ∀ conv addr, c'.convManager.convToData.lookup conv = some addr → c.convManager.convToData.lookup conv = some addr ∨
    ∃ data draws out, e = .localListen data addr draws out ∧ c.convManager.getNewConv draws = some conv ∧
      c'.given = c.given ++ [putConvInplace conv data]
  given : c'.given = c.given ∨ ∃ data addr draws out conv, e = .localListen data addr draws out ∧
    c'.given = c.given ++ [putConvInplace conv data] ∧ c'.convManager.convToData.lookup conv = some addr
  users : ∃ sends, toUsers c'.outbox = toUsers c.outbox ++ sends ∧ ∀ y ∈ sends, ∃ dataLen out, e = .remote dataLen 0 out ∧
    ∃ x ∈ out, ∃ conv, Server.getConv x.2 = (0, conv, y.2) ∧ c.convManager.convToData.lookup conv = some y.1

section Steps

variable {c c' : Client} {addr : Address} {draws : List U32}

/-- A client in its place with other convs. -/
theorem Inv.change (h : Inv c) {m : ConvManager Address} {clock : Clock} (hclock : Later c.clock clock) (hm : m.Wf clock.now)
    (hsize : m.getSize ≤ maxConvNum) (hnonzero : ∀ conv ∈ m.convToData, conv ≠ 0) (outbox : List (Nat × Dest × Bytes)) (given : List Bytes) :
    Inv { c with convManager := m, clock := clock, outbox := outbox, given := given } :=
  ⟨hclock.mono h.clock, hm, hsize, hnonzero, h.socket, h.watcher⟩

theorem toUsers_append (l l' : List (Nat × Dest × Bytes)) : toUsers (l ++ l') = toUsers l ++ toUsers l' := List.filterMap_append

theorem toUsers_sendOut (c : Client) (out : Out) : toUsers (c.sendOut out).outbox = toUsers c.outbox := by
  have hnone : toUsers (out.map fun x => (x.1, ⟨.fd64 c.remoteFd64, true⟩, x.2)) = [] := by
    unfold toUsers
    rw [List.filterMap_map]
    exact List.filterMap_eq_nil_iff.mpr fun x hx => rfl
  unfold sendOut
  rw [toUsers_append, hnone, List.append_nil]

/-- Nothing happened. -/
theorem Inv.idle (h : Inv c) (e : Event) : Moved c e c :=
  ⟨h, fun conv addr hlook => .inl hlook, .inl rfl, [], by simp, by simp⟩

theorem Inv.convOf (h : Inv c) (hdraws : addr ∉ c.convManager.dataToConv → c.convManager.getSize < maxConvNum → (c.convManager.getNewConv draws).isSome) :
    c.convOf addr draws = .ok none ∨ ∃ conv m clock, c.convOf addr draws = .ok (some (conv, { c with convManager := m, clock := clock })) ∧
      Inv { c with convManager := m, clock := clock } ∧ m.convToData.lookup conv = some addr ∧ ∀ k a, m.convToData.lookup k = some a →
        c.convManager.convToData.lookup k = some a ∨ k = conv ∧ a = addr ∧ c.convManager.getNewConv draws = some conv := by
  unfold Client.convOf
  split
  · rename_i hnew
    split
    · exact .inl rfl
    · rename_i hroom
      obtain ⟨conv, hconv⟩ := Option.isSome_iff_exists.mp (hdraws hnew (Nat.lt_of_not_le hroom))
      obtain ⟨hzero, hfree⟩ := ConvManager.getNewConv_some hconv
      obtain ⟨m, hinsert, hwf, hconvs, -⟩ := ConvManager.insertConv_ok h.convs h.clock hfree hnew
      rw [hconv]
      simp only [hinsert, ok_bind]
      refine .inr ⟨conv, m, _, rfl, h.change (.tail _) hwf ?_ (fun k hk => ?_) c.outbox c.given, ?_, fun k a hk => ?_⟩
      · unfold ConvManager.getSize at hroom ⊢
        rw [hconvs]
        exact (length_insert_le _ _ _).trans (by omega)
      · rw [hconvs] at hk
        rcases (AList.mem_insert _).mp hk with rfl | hk
        · exact hzero
        · exact h.nonzero k hk
      · rw [hconvs, AList.lookup_insert]
      · rw [hconvs, lookup_insert_eq] at hk
        split at hk
        · rename_i heq
          exact .inr ⟨heq, (Option.some.inj hk).symm, rfl⟩
        · exact .inl hk
  · rename_i hold
    obtain ⟨conv, hconv⟩ := exists_lookup (not_not.mp hold)
    rw [ConvManager.findConvByData_ok hconv]
    exact .inr ⟨conv, c.convManager, c.clock, rfl, h, (h.convs.inverse conv addr).mpr hconv, fun k a hk => .inl hk⟩

theorem Inv.processLocalPacket (h : Inv c) {data : Bytes} {out : Out} (hdrawn : (Event.localListen data addr draws out).Drawn c) :
    ∃ c', c.processLocalPacket data addr draws out = .ok c' ∧ Moved c (.localListen data addr draws out) c' := by
  unfold Client.processLocalPacket
  split
  · exact ⟨c, rfl, h.idle _⟩
  · rename_i hlen
    rcases h.convOf (hdrawn hlen) with hfull | ⟨conv, m, clock, hconv, h1, hlook, hconvs⟩
    · rw [hfull]
      exact ⟨c, rfl, h.idle _⟩
    · obtain ⟨lru, hupdate, hwf⟩ := ConvManager.updateActiveTime_ok h1.convs h1.clock (mem_of_lookup hlook)
      rw [hconv, ok_bind]
      simp only [hupdate, ok_bind]
      refine ⟨_, rfl, h1.change (.tail _) hwf h1.size h1.nonzero _ _, ?_, .inr ⟨data, addr, draws, out, conv, rfl, rfl, hlook⟩, [], ?_,
        by simp⟩
      · intro k a hk
        rcases hconvs k a hk with hk | ⟨rfl, rfl, hnew⟩
        · exact .inl hk
        · exact .inr ⟨data, draws, out, rfl, hnew, rfl⟩
      · rw [toUsers_sendOut, List.append_nil]

/-- What one packet of the decoder, or several, do: the convs stay. -/
structure Served (c : Client) (xs : Out) (c' : Client) : Prop where
  inv : Inv c'
  convs : c'.convManager.convToData = c.convManager.convToData
  given : c'.given = c.given
  users : ∃ sends, toUsers c'.outbox = toUsers c.outbox ++ sends ∧ ∀ y ∈ sends, ∃ x ∈ xs, ∃ conv,
    Server.getConv x.2 = (0, conv, y.2) ∧ c.convManager.convToData.lookup conv = some y.1

theorem Inv.processOut (h : Inv c) (x : Nat × Bytes) : ∃ c', c.processOut x = .ok c' ∧ Served c [x] c' := by
  have hnothing : Served c [x] c := ⟨h, rfl, rfl, [], by simp, by simp⟩
  unfold Client.processOut
  simp only
  split
  · exact ⟨c, rfl, hnothing⟩
  · rename_i hret
    split
    · exact ⟨c, rfl, hnothing⟩
    · rename_i hused
      obtain ⟨lru, hupdate, hwf⟩ := ConvManager.updateActiveTime_ok h.convs h.clock (not_not.mp hused)
      obtain ⟨addr, haddr⟩ := exists_lookup (not_not.mp hused)
      rw [hupdate, ok_bind]
      simp only
      rw [ConvManager.findDataByConv_ok (show ({ c.convManager with lru := lru } : ConvManager Address).convToData.lookup _ = some addr from haddr)]
      refine ⟨_, rfl, h.change (.tail _) hwf h.size h.nonzero _ _, rfl, rfl, [(addr, (Server.getConv x.2).2.2)], toUsers_append _ _, ?_⟩
      intro y hy
      cases List.mem_singleton.mp hy
      exact ⟨x, List.mem_singleton_self x, _, Prod.ext (not_not.mp hret) rfl, haddr⟩

theorem Inv.processOuts (h : Inv c) (out : Out) : ∃ c', out.foldlM Client.processOut c = .ok c' ∧ Served c out c' := by
  induction out generalizing c with
  | nil => exact ⟨c, rfl, h, rfl, rfl, [], by simp, by simp⟩
  | cons x out ih =>
    obtain ⟨c1, h1, hserved⟩ := h.processOut x
    obtain ⟨c2, h2, hserved'⟩ := ih hserved.inv
    obtain ⟨sends, hsends, hof⟩ := hserved.users
    obtain ⟨sends', hsends', hof'⟩ := hserved'.users
    refine ⟨c2, foldlM_cons_ok.mpr ⟨c1, h1, h2⟩, hserved'.inv, hserved'.convs.trans hserved.convs, hserved'.given.trans hserved.given,
      sends ++ sends', by rw [hsends', hsends, List.append_assoc], fun y hy => ?_⟩
    rcases List.mem_append.mp hy with hy | hy
    · obtain ⟨x', hx', hconv⟩ := hof y hy
      exact ⟨x', List.mem_singleton.mp hx' ▸ List.mem_cons_self, hconv⟩
    · obtain ⟨x', hx', conv, hget, hlook⟩ := hof' y hy
      exact ⟨x', List.mem_cons_of_mem _ hx', conv, hget, hserved.convs ▸ hlook⟩

theorem Inv.remote (h : Inv c) (dataLen deCook : Int) (out : Out) : ∃ c', c.remote dataLen deCook out = .ok c' ∧ Moved c (.remote dataLen deCook out) c' := by
  obtain ⟨fd, hfd⟩ := exists_lookup (show c.remoteFd64 ∈ c.fdManager.fd64ToFd from h.socket)
  unfold Client.remote
  rw [if_neg (not_not.mpr (h.watcher.symm ▸ h.socket)), check_true h.watcher, ok_bind, FdManager.toFd_ok.mpr hfd, ok_bind]
  unfold Client.processRemotePacket
  split
  · exact ⟨c, rfl, h.idle _⟩
  · split
    · exact ⟨c, rfl, h.idle _⟩
    · split
      · exact ⟨c, rfl, h.idle _⟩
      · rename_i hcook
        obtain ⟨c', hrun, hserved⟩ := h.processOuts out
        obtain ⟨sends, hsends, hof⟩ := hserved.users
        obtain rfl : deCook = 0 := not_not.mp hcook
        exact ⟨c', hrun, hserved.inv, fun conv addr hlook => .inl (hserved.convs ▸ hlook), .inl hserved.given, sends, hsends,
          fun y hy => ⟨dataLen, out, rfl, hof y hy⟩⟩

theorem Inv.sendOut (h : Inv c) (out : Out) : Inv (c.sendOut out) := ⟨h.clock, h.convs, h.size, h.nonzero, h.socket, h.watcher⟩

theorem Inv.connTimer (h : Inv c) (out : Out) : ∃ c', c.connTimer out = .ok c' ∧ Moved c (.connTimer out) c' := by
  have hclears : ConvManager.Clears (fun _ s => .ok s : ConvManager.ClearFunction Address Unit) fun table _ =>
      ∀ conv a, table.lookup conv = some a → c.convManager.convToData.lookup conv = some a := by
    intro table s conv a htable hconv
    refine ⟨s, rfl, ?_⟩
    intro k b hk
    rw [lookup_erase_eq] at hk
    split at hk
    · cases hk
    · exact htable k b hk
  obtain ⟨m, s, clock, hclear, hlater, hwf, hleft⟩ := @ConvManager.clearInactive_ok Address Unit c.convManager c.clock _ _ _ () _ hclears h.convs h.clock fun _ _ hk => hk
  unfold Client.connTimer
  rw [hclear, ok_bind]
  refine ⟨_, rfl, Inv.sendOut (h.change hlater hwf ((ConvManager.clearInactive_size hclear).trans h.size) (fun conv hconv => ?_) c.outbox c.given) out,
    fun conv a hk => .inl (hleft conv a hk), .inl rfl, [], ?_, by simp⟩
  · obtain ⟨a, ha⟩ := exists_lookup hconv
    exact h.nonzero conv (mem_of_lookup (hleft conv a ha))
  · rw [toUsers_sendOut, List.append_nil]

/-- Every event finds its way. -/
theorem step_moved (h : Inv c) {e : Event} (hdrawn : e.Drawn c) : ∃ c', c.step e = .ok c' ∧ Moved c e c' := by
  cases e with
  | localListen data addr draws out => exact h.processLocalPacket hdrawn
  | remote dataLen deCook out => exact h.remote dataLen deCook out
  | fecEncode out => exact ⟨_, rfl, h.sendOut out, fun conv a hk => .inl hk, .inl rfl, [], by rw [toUsers_sendOut, List.append_nil], by simp⟩
  | connTimer out => exact h.connTimer out

end Steps

/-! ## Runs -/

/-- The client after a number of events. -/
inductive Reached : Client → Prop
  | start {localListenFd remoteFd : Fd} {garbage : Nat} {clock : Clock} {c : Client} (hclock : Monotone clock)
      (h : start localListenFd remoteFd garbage clock = .ok c) : Reached c
  | step {c c' : Client} {e : Event} (h : Reached c) (hdrawn : e.Drawn c) (hs : c.step e = .ok c') : Reached c'

theorem start_inv {localListenFd remoteFd : Fd} {garbage : Nat} {clock : Clock} (hclock : Monotone clock) :
    ∃ c, start localListenFd remoteFd garbage clock = .ok c ∧ Inv c ∧ c.convManager = .init garbage ∧ c.given = [] ∧ toUsers c.outbox = [] := by
  obtain ⟨hcreate, hsockets, -⟩ := @Sockets.create .init [] remoteFd (init_sockets []) List.not_mem_nil
  unfold Client.start
  rw [hcreate, ok_bind]
  exact ⟨_, rfl, ⟨hclock, ConvManager.init_wf _ _, Nat.zero_le _, fun conv hconv => absurd hconv (AList.notMem_empty _),
    (AList.mem_insert _).mpr (.inl rfl), rfl⟩, rfl, rfl, rfl⟩

theorem Reached.inv {c : Client} (h : Reached c) : Inv c := by
  induction h with
  | @start localListenFd remoteFd garbage clock c hclock h =>
    obtain ⟨c', h', hinv, -⟩ := @start_inv localListenFd remoteFd garbage clock hclock
    obtain rfl : c = c' := Except.ok.inj (h.symm.trans h')
    exact hinv
  | @step c c' e h hdrawn hs ih =>
    obtain ⟨c1, h1, hmoved⟩ := step_moved ih hdrawn
    obtain rfl : c' = c1 := Except.ok.inj (hs.symm.trans h1)
    exact hmoved.inv

/-- More numbers than convs: there always is a free one. -/
theorem Inv.exists_free {c : Client} (h : Inv c) : ∃ conv : U32, c.convManager.getNewConv [conv] = some conv := by
  by_contra hnone
  have hall : ∀ n < maxConvNum + 1, (.ofNat 32 (n + 1) : U32) ∈ c.convManager.convToData := by
    intro n hn
    by_contra hfree
    refine hnone ⟨.ofNat 32 (n + 1), List.find?_cons_of_pos (decide_eq_true ⟨fun hzero => ?_, hfree⟩)⟩
    have hval := congrArg BitVec.toNat hzero
    rw [BitVec.toNat_ofNat, show (0 : U32).toNat = 0 from rfl] at hval
    unfold maxConvNum at hn
    omega
  have hnodup : ((List.range (maxConvNum + 1)).map fun n => (.ofNat 32 (n + 1) : U32)).Nodup := by
    refine List.Nodup.map_on (fun a ha b hb hab => ?_) List.nodup_range
    have hval := congrArg BitVec.toNat hab
    simp only [BitVec.toNat_ofNat] at hval
    have ha' := List.mem_range.mp ha
    have hb' := List.mem_range.mp hb
    unfold maxConvNum at ha' hb'
    omega
  have hle := (hnodup.subperm fun conv hconv => show conv ∈ c.convManager.convToData.keys by
    obtain ⟨n, hn, rfl⟩ := List.mem_map.mp hconv
    exact hall n (List.mem_range.mp hn)).length_le
  have hsize := h.size
  unfold ConvManager.getSize at hsize
  rw [List.length_map, List.length_range, show c.convManager.convToData.keys.length = c.convManager.convToData.entries.length from List.length_map _] at hle
  omega

/-- In every state that events reach, in any order and at any times, the two maps are inverse to
    each other and not too large, no conv is 0 and there is one left to draw; and no event stops. -/
theorem client_consistent {c : Client} (h : Reached c) : Inverse c.convManager.convToData c.convManager.dataToConv ∧
    c.convManager.getSize ≤ maxConvNum ∧ (0 : U32) ∉ c.convManager.convToData ∧ (∃ conv, c.convManager.getNewConv [conv] = some conv) ∧
      ∀ e : Event, e.Drawn c → ∃ c', c.step e = .ok c' ∧ Moved c e c' :=
  ⟨h.inv.convs.inverse, h.inv.size, fun hzero => h.inv.nonzero 0 hzero rfl, h.inv.exists_free, fun _ hdrawn => step_moved h.inv hdrawn⟩

/-- One user; the numbers drawn are 0 and 7. -/
theorem reached_user : ∃ c, Reached c ∧ c.convManager.convToData.lookup 7 = some (.ipv4 1 1) ∧ c.convManager.getNewConv [7, 9] = some 9 := by
  have hstart := @Reached.start 3 4 0 slowClock _ (fun _ _ h => Nat.mul_le_mul_right _ h) rfl
  exact ⟨_, hstart.step (e := .localListen [.ofNat 1] (.ipv4 1 1) [0, 7] []) (fun _ _ _ => rfl) rfl, rfl, rfl⟩

/-- Another user comes; the numbers drawn for him are 7, which is taken, and 9. -/
theorem client_consistent_user : ∃ c c' : Client, c.convManager.convToData.lookup 7 = some (.ipv4 1 1) ∧
    Inverse c.convManager.convToData c.convManager.dataToConv ∧
      c.step (.localListen [.ofNat 2] (.ipv4 2 2) [7, 9] []) = .ok c' ∧ Moved c (.localListen [.ofNat 2] (.ipv4 2 2) [7, 9] []) c' := by
  obtain ⟨c, hreached, hlook, hnew⟩ := reached_user
  obtain ⟨hinverse, -, -, -, hstep⟩ := client_consistent hreached
  obtain ⟨c', hrun, hmoved⟩ := hstep (.localListen [.ofNat 2] (.ipv4 2 2) [7, 9] []) fun _ _ _ => by
    rw [hnew]
    rfl
  exact ⟨c, c', hlook, hinverse, hrun, hmoved⟩

end Client

end UdpSpeeder.Tunnel
