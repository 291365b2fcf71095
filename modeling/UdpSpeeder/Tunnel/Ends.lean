/-
  UdpSpeeder.Tunnel.Ends — clients and a server, from the users' sockets to the server's.

  Users of a client share one tunnel; at the server each has a socket of his own. The two
  tables of convs that make it so live in two programs that see each other's packets only. Any
  address may have a client (`homes`), any other may send to the server what it likes. Of the
  two links in between, `Allowed` says what `Manager.Link` proves: what a decoder hands out was
  given to the encoder at the other end. It asks one thing more, of the numbers drawn: that a
  new conv is not one that a packet of the same client carried before.

  Then, in whatever order things happen, the whole is a relay (`Lib.Relay`, `ends_relay`): what
  leaves a socket of the server came from the party the socket belongs to, one user of one
  client, and what a user gets back arrived at a socket of his. And neither side ever stops
  (`ends_never_stop`).
-/

import UdpSpeeder.Lib.Relay
import UdpSpeeder.Tunnel.Serve

namespace UdpSpeeder.Tunnel

open Lib Net

/-- A user of the client at `home`, or whoever is at an address without a client. -/
inductive Party where
  | user (home addr : Address)
  | stranger (addr : Address)
  deriving DecidableEq

/-- The clients, by the address at which the server sees them. -/
structure Ends where
  clients : Address → Client
  server : Server
  /-- What the server handed to the encoder of the conn at an address. -/
  back : Address → List Bytes

namespace Ends

inductive Event where
  | client (home : Address) (e : Client.Event)
  /-- An event of the server, other than data that `recv` read from a socket. -/
  | server (e : Tunnel.Event)
  | socket (fd64 : Fd64) (data : Bytes) (out : Out)

variable (os : Nat → Open → Option Fd) (garbage : Ptr → Nat)

def step (T : Ends) : Event → Except Fault Ends
  | .client home e => do
    let c ← (T.clients home).step e
    .ok { T with clients := Function.update T.clients home c }
  | .server e => do
    let s ← Tunnel.step os garbage T.server e
    .ok { T with server := s }
  | .socket fd64 data out => do
    let s ← Tunnel.step os garbage T.server (.remote fd64 data.length out)
    match T.server.toEncoder fd64 data with
    | some (addr, x) => .ok { T with server := s, back := Function.update T.back addr (T.back addr ++ [x]) }
    | none => .ok { T with server := s }

/-- What the links and the numbers drawn promise. -/
def Allowed (homes : List Address) (T : Ends) : Event → Prop
  | .client home e => home ∈ homes ∧ e.Drawn (T.clients home) ∧ match e with
    | .localListen _ _ draws _ => ∀ conv, (T.clients home).convManager.getNewConv draws = some conv → ∀ x ∈ (T.clients home).given, (Server.getConv x).2.1 ≠ conv
    | .remote _ _ out => ∀ x ∈ out, x.2 ∈ T.back home
    | _ => True
  | .server (.tunnel _ _ addr _ out) => addr ∈ homes → ∀ x ∈ out, x.2 ∈ (T.clients addr).given
  | .server (.remote _ dataLen _) => dataLen < 0
  | _ => True

/-- What comes in: a user's data, a stranger's packets, what a socket hears. -/
def comesIn (homes : List Address) : Event → List (Relay.Event Party Fd64 Bytes)
  | .client home (.localListen data addr _ _) => [.said (.user home addr) data]
  | .server (.tunnel _ _ addr _ out) => if addr ∈ homes then [] else out.map fun x => .said (.stranger addr) (Server.getConv x.2).2.2
  | .socket fd64 data _ => [.heard fd64 data]
  | _ => []

/-- What goes out: to the users of a client, or to the server's sockets. -/
def goesOut (T T' : Ends) : Event → List (Relay.Event Party Fd64 Bytes)
  | .client home _ =>
    ((Client.toUsers (T'.clients home).outbox).drop (Client.toUsers (T.clients home).outbox).length).map fun x => .delivered (.user home x.1) x.2
  | _ => ((toSockets T'.server.outbox).drop (toSockets T.server.outbox).length).map fun x => .forwarded x.1 x.2

/-- Everything is as it starts. -/
structure Started (T : Ends) : Prop where
  clients : ∀ home, ∃ localListenFd remoteFd garbage clock, Monotone clock ∧ Client.start localListenFd remoteFd garbage clock = .ok (T.clients home)
  server : ∃ opened clock, Monotone clock ∧ T.server = .init opened clock
  back : ∀ home, T.back home = []

/-- The ends after a number of events, with what was seen on the way. -/
inductive Run (homes : List Address) : List (Relay.Event Party Fd64 Bytes) → Ends → Prop
  | start {T : Ends} (h : Started T) : Run homes [] T
  | step {es : List (Relay.Event Party Fd64 Bytes)} {T T' : Ends} {e : Event} (h : Run homes es T) (ha : Allowed homes T e)
      (hs : T.step os garbage e = .ok T') : Run homes (es ++ (comesIn homes e ++ goesOut T T' e)) T'

/-! ## The invariant -/

/-- Whose a conv of the conn at an address is. -/
def party (homes : List Address) (user : Address → U32 → Address) (addr : Address) (conv : U32) : Party :=
  if addr ∈ homes then .user addr (user addr conv) else .stranger addr

/-- A packet of the client carried the conv. -/
def Used (T : Ends) (home : Address) (conv : U32) : Prop := ∃ x ∈ (T.clients home).given, (Server.getConv x).2.1 = conv

/-- Whose the convs of the clients are (`user`), and what follows for all that is under way. -/
structure Kept (homes : List Address) (user : Address → U32 → Address) (T : Ends) (r : Relay Party Fd64 Bytes) : Prop where
  server : Inv T.server
  clients : ∀ home, Client.Inv (T.clients home)
  given : ∀ home ∈ homes, ∀ x ∈ (T.clients home).given, ∃ conv data, x = putConvInplace conv data ∧ (.user home (user home conv), data) ∈ r.said
  convs : ∀ home ∈ homes, ∀ conv addr, (T.clients home).convManager.convToData.lookup conv = some addr → user home conv = addr ∧ T.Used home conv
  held : ∀ addr conv fd64, T.server.Holds addr conv fd64 → r.owner fd64 = some (party homes user addr conv) ∧ (addr ∈ homes → T.Used addr conv)
  below : ∀ fd64 p, r.owner fd64 = some p → fd64 < T.server.fdManager.counter
  back : ∀ home ∈ homes, ∀ x ∈ T.back home, ∃ conv data fd64, x = putConvInplace conv data ∧ T.Used home conv ∧
    r.owner fd64 = some (.user home (user home conv)) ∧ (fd64, data) ∈ r.heard

section Kept

variable {os garbage} {homes : List Address} {user user' : Address → U32 → Address} {T : Ends} {r : Relay Party Fd64 Bytes}

theorem used_of_given {home : Address} {conv : U32} {data : Bytes} (h : putConvInplace conv data ∈ (T.clients home).given) : T.Used home conv :=
  ⟨_, h, by rw [getConv_putConvInplace]⟩

/-- Whose an unused conv is does not matter. -/
theorem Kept.rename (h : Kept homes user T r) (hsame : ∀ home ∈ homes, ∀ conv, T.Used home conv → user' home conv = user home conv) : Kept homes user' T r := by
  refine ⟨h.server, h.clients, ?_, ?_, ?_, h.below, ?_⟩
  · intro home hhome x hx
    obtain ⟨conv, data, rfl, hsaid⟩ := h.given home hhome x hx
    exact ⟨conv, data, rfl, by rw [hsame home hhome conv (used_of_given hx)]; exact hsaid⟩
  · intro home hhome conv addr hlook
    obtain ⟨heq, hused⟩ := h.convs home hhome conv addr hlook
    exact ⟨(hsame home hhome conv hused).trans heq, hused⟩
  · intro addr conv fd64 hk
    obtain ⟨howner, hused⟩ := h.held addr conv fd64 hk
    refine ⟨?_, hused⟩
    rw [howner]
    unfold party
    by_cases haddr : addr ∈ homes
    · rw [if_pos haddr, if_pos haddr, hsame addr haddr conv (hused haddr)]
    · rw [if_neg haddr, if_neg haddr]
  · intro home hhome x hx
    obtain ⟨conv, data, fd64, hx, hused, howner, hheard⟩ := h.back home hhome x hx
    exact ⟨conv, data, fd64, hx, hused, by rw [hsame home hhome conv hused]; exact howner, hheard⟩

/-- More was said and heard. -/
theorem Kept.more (h : Kept homes user T r) (said : List (Party × Bytes)) (heard : List (Fd64 × Bytes)) :
    Kept homes user T { r with said := r.said ++ said, heard := r.heard ++ heard } := by
  refine ⟨h.server, h.clients, ?_, h.convs, h.held, h.below, ?_⟩
  · intro home hhome x hx
    obtain ⟨conv, data, hx, hsaid⟩ := h.given home hhome x hx
    exact ⟨conv, data, hx, List.mem_append_left _ hsaid⟩
  · intro home hhome x hx
    obtain ⟨conv, data, fd64, hx, hused, howner, hheard⟩ := h.back home hhome x hx
    exact ⟨conv, data, fd64, hx, hused, howner, List.mem_append_left _ hheard⟩

theorem Used.update {home home' : Address} {conv : U32} {c : Client} (hmore : ∀ x ∈ (T.clients home').given, x ∈ c.given) (h : T.Used home conv) :
    Used { T with clients := Function.update T.clients home' c } home conv := by
  obtain ⟨x, hx, hconv⟩ := h
  refine ⟨x, ?_, hconv⟩
  simp only [Function.update_apply]
  split
  · rename_i heq
    exact hmore x (heq ▸ hx)
  · exact hx

/-- A client that goes on: what it gave before it has given, and what is new of it is in order. -/
theorem Kept.client (h : Kept homes user T r) {home : Address} {c : Client} (hc : Client.Inv c) (hmore : ∀ x ∈ (T.clients home).given, x ∈ c.given)
    (hgiven : ∀ x ∈ c.given, x ∈ (T.clients home).given ∨ ∃ conv data, x = putConvInplace conv data ∧ (.user home (user home conv), data) ∈ r.said)
    (hconvs : ∀ conv addr, c.convManager.convToData.lookup conv = some addr → (T.clients home).convManager.convToData.lookup conv = some addr ∨
      user home conv = addr ∧ ∃ data, putConvInplace conv data ∈ c.given) :
    Kept homes user { T with clients := Function.update T.clients home c } r := by
  refine ⟨h.server, ?_, ?_, ?_, ?_, h.below, ?_⟩
  · intro home'
    simp only [Function.update_apply]
    split
    · exact hc
    · exact h.clients home'
  · intro home' hhome' x hx
    simp only [Function.update_apply] at hx
    split at hx
    · rename_i heq
      subst heq
      exact (hgiven x hx).elim (h.given home' hhome' x) id
    · exact h.given home' hhome' x hx
  · intro home' hhome' conv addr hlook
    simp only [Function.update_apply] at hlook
    split at hlook
    · rename_i heq
      subst heq
      rcases hconvs conv addr hlook with hold | ⟨heq, data, hdata⟩
      · obtain ⟨heq, hused⟩ := h.convs home' hhome' conv addr hold
        exact ⟨heq, hused.update hmore⟩
      · exact ⟨heq, used_of_given (by simpa using hdata)⟩
    · obtain ⟨heq, hused⟩ := h.convs home' hhome' conv addr hlook
      exact ⟨heq, hused.update hmore⟩
  · intro addr conv fd64 hk
    obtain ⟨howner, hused⟩ := h.held addr conv fd64 hk
    exact ⟨howner, fun haddr => (hused haddr).update hmore⟩
  · intro home' hhome' x hx
    obtain ⟨conv, data, fd64, hx, hused, hrest⟩ := h.back home' hhome' x hx
    exact ⟨conv, data, fd64, hx, hused.update hmore, hrest⟩

/-! ## Events of a client -/

/-- A user's data: he has a conv by now, or they are dropped. -/
theorem Kept.listen (h : Kept homes user T r) {home addr : Address} {data : Bytes} {draws : List U32} {out : Out} {c : Client} (hhome : home ∈ homes)
    (hfresh : ∀ conv, (T.clients home).convManager.getNewConv draws = some conv → ∀ x ∈ (T.clients home).given, (Server.getConv x).2.1 ≠ conv)
    (hmoved : Client.Moved (T.clients home) (.localListen data addr draws out) c) :
    ∃ user', Kept homes user' { T with clients := Function.update T.clients home c } { r with said := r.said ++ [(.user home addr, data)] } := by
  have hmore := h.more [(Party.user home addr, data)] []
  rw [List.append_nil] at hmore
  rcases hmoved.given with hsame | ⟨data', addr', draws', out', conv, heq, hgiven, hlook⟩
  · refine ⟨user, hmore.client hmoved.inv (fun x hx => hsame ▸ hx) (fun x hx => .inl (hsame ▸ hx)) fun conv a hk => .inl ?_⟩
    rcases hmoved.convs conv a hk with hold | ⟨data', draws', out', -, -, hgiven⟩
    · exact hold
    · exact absurd (hgiven.symm.trans hsame) (by simp)
  · cases heq
    -- whose the conv is, if it is new
    obtain ⟨user', hagree, hconv⟩ : ∃ user' : Address → U32 → Address, (∀ home' ∈ homes, ∀ k, T.Used home' k → user' home' k = user home' k) ∧
        user' home conv = addr := by
      rcases hmoved.convs conv addr hlook with hold | ⟨data', draws', out', heq, hnew, -⟩
      · exact ⟨user, fun _ _ _ _ => rfl, (h.convs home hhome conv addr hold).1⟩
      · cases heq
        refine ⟨Function.update user home (Function.update (user home) conv addr), fun home' _ k hused => ?_, by simp⟩
        by_cases heq : home' = home
        · subst heq
          rw [Function.update_self, Function.update_of_ne]
          intro heq
          subst heq
          obtain ⟨x, hx, hk⟩ := hused
          exact hfresh k hnew x hx hk
        · rw [Function.update_of_ne heq]
    refine ⟨user', (hmore.rename hagree).client hmoved.inv (fun x hx => hgiven ▸ List.mem_append_left _ hx) (fun x hx => ?_) fun k a hk => ?_⟩
    · rw [hgiven] at hx
      apply (List.mem_append.mp hx).imp_right
      intro hx
      exact ⟨conv, data, List.mem_singleton.mp hx, by rw [hconv]; exact List.mem_append_right _ List.mem_cons_self⟩
    · apply (hmoved.convs k a hk).imp_right
      intro h
      rcases h with ⟨data', draws', out', heq, -, hgiven'⟩
      cases heq
      rw [hgiven] at hgiven'
      obtain ⟨rfl, -⟩ := putConvInplace_inj (List.singleton_inj.mp (List.append_cancel_left hgiven'))
      exact ⟨hconv, data, by rw [hgiven]; exact List.mem_append_right _ List.mem_cons_self⟩

/-- No new convs and nothing for the encoder. -/
theorem Kept.others (h : Kept homes user T r) {home : Address} {e : Client.Event} {c : Client} (he : ∀ data addr draws out, e ≠ .localListen data addr draws out)
    (hmoved : Client.Moved (T.clients home) e c) : Kept homes user { T with clients := Function.update T.clients home c } r := by
  have hgiven : c.given = (T.clients home).given := by
    rcases hmoved.given with hsame | ⟨data, addr, draws, out, -, heq, -⟩
    · exact hsame
    · exact absurd heq (he data addr draws out)
  refine h.client hmoved.inv (fun x hx => hgiven ▸ hx) (fun x hx => .inl (hgiven ▸ hx)) fun conv addr hk => .inl ?_
  rcases hmoved.convs conv addr hk with hold | ⟨data, draws, out, heq, -⟩
  · exact hold
  · exact absurd heq (he data addr draws out)

/-- What reaches a user was heard by a socket of his. -/
theorem Kept.reaches (h : Kept homes user T r) {home : Address} (hhome : home ∈ homes) {out : Out} (hback : ∀ x ∈ out, x.2 ∈ T.back home) {x : Nat × Bytes}
    (hx : x ∈ out) {conv : U32} {y : Address × Bytes} (hget : Server.getConv x.2 = (0, conv, y.2))
    (hlook : (T.clients home).convManager.convToData.lookup conv = some y.1) :
    ∃ fd64, r.owner fd64 = some (.user home y.1) ∧ (fd64, y.2) ∈ r.heard := by
  obtain ⟨conv', data, fd64, hput, -, howner, hheard⟩ := h.back home hhome _ (hback x hx)
  rw [hput, getConv_putConvInplace] at hget
  obtain ⟨rfl, rfl⟩ := Prod.mk.inj (Prod.mk.inj hget).2
  rw [(h.convs home hhome _ _ hlook).1] at howner
  exact ⟨fd64, howner, hheard⟩

theorem Kept.clientStep (h : Kept homes user T r) {es : List (Relay.Event Party Fd64 Bytes)} (hr : Relay.Run es r) {home : Address} {e : Client.Event} {c : Client}
    (ha : Allowed homes T (.client home e)) (hmoved : Client.Moved (T.clients home) e c) :
    ∃ user' r', Relay.Run (es ++ (comesIn homes (.client home e) ++ goesOut T { T with clients := Function.update T.clients home c } (.client home e))) r' ∧
      Kept homes user' { T with clients := Function.update T.clients home c } r' := by
  obtain ⟨hhome, -, ha⟩ := ha
  obtain ⟨sends, hsends, hof⟩ := hmoved.users
  have hout : goesOut T { T with clients := Function.update T.clients home c } (.client home e) = sends.map fun x => .delivered (.user home x.1) x.2 := by
    unfold goesOut
    simp only [Function.update_self]
    rw [hsends, List.drop_left]
  have hquiet : (∀ n out, e ≠ .remote n 0 out) → goesOut T { T with clients := Function.update T.clients home c } (.client home e) = [] := by
    intro he
    have hnone : sends = [] := List.eq_nil_iff_forall_not_mem.mpr fun y hy => by
      obtain ⟨n, out, heq, -⟩ := hof y hy
      exact he n out heq
    rw [hout, hnone]
    rfl
  cases e with
  | localListen data addr draws out =>
    obtain ⟨user', hkept⟩ := h.listen hhome ha hmoved
    refine ⟨user', _, ?_, hkept⟩
    rw [hquiet (fun _ _ heq => by cases heq), List.append_nil]
    exact hr.step (.say (Party.user home addr) data)
  | remote dataLen deCook out =>
    refine ⟨user, r, ?_, h.others (fun _ _ _ _ heq => by cases heq) hmoved⟩
    have hall := hr.deliver_all (l := sends.map fun x => (Party.user home x.1, x.2)) fun y hy => by
      obtain ⟨x, hx, rfl⟩ := List.mem_map.mp hy
      obtain ⟨n, out', heq, z, hz, conv, hget, hlook⟩ := hof x hx
      cases heq
      exact h.reaches hhome ha hz hget hlook
    rw [List.map_map] at hall
    rw [hout]
    exact hall
  | fecEncode out =>
    refine ⟨user, r, ?_, h.others (fun _ _ _ _ heq => by cases heq) hmoved⟩
    rw [hquiet (fun _ _ heq => by cases heq)]
    simpa [comesIn] using hr
  | connTimer out =>
    refine ⟨user, r, ?_, h.others (fun _ _ _ _ heq => by cases heq) hmoved⟩
    rw [hquiet (fun _ _ heq => by cases heq)]
    simpa [comesIn] using hr

/-! ## Events of the server -/

/-- Sockets that are new get the party whose conv they were opened for. -/
theorem Kept.serve (h : Kept homes user T r) {e : Tunnel.Event} {s : Server} (hf : Forwards T.server e s)
    (hin : ∀ localListenFd n addr out, e = .tunnel localListenFd n addr 0 out → ∀ x ∈ out, (addr ∈ homes → x.2 ∈ (T.clients addr).given) ∧
      (addr ∉ homes → (.stranger addr, (Server.getConv x.2).2.2) ∈ r.said)) :
    ∃ owner, (∀ fd64 p, r.owner fd64 = some p → owner fd64 = some p) ∧ Kept homes user { T with server := s } { r with owner := owner } ∧
      ∃ sends, toSockets s.outbox = toSockets T.server.outbox ++ sends ∧ ∀ y ∈ sends, ∃ p, owner y.1 = some p ∧ (p, y.2) ∈ r.said := by
  classical
  let owner : Fd64 → Option Party := fun fd64 =>
    if fd64 < T.server.fdManager.counter then r.owner fd64
    else if hk : ∃ a : Address × U32, s.Holds a.1 a.2 fd64 then some (party homes user hk.choose.1 hk.choose.2) else none
  have hkeeps : ∀ fd64 p, r.owner fd64 = some p → owner fd64 = some p := fun fd64 p hp => (if_pos (h.below fd64 p hp)).trans hp
  have hnew : ∀ addr conv fd64, T.server.fdManager.counter ≤ fd64 → s.Holds addr conv fd64 → owner fd64 = some (party homes user addr conv) := by
    intro addr conv fd64 hle hk
    have hex : ∃ a : Address × U32, s.Holds a.1 a.2 fd64 := ⟨(addr, conv), hk⟩
    obtain ⟨h1, h2⟩ := hf.moved.inv.holds_unique hex.choose_spec hk
    show (if fd64 < T.server.fdManager.counter then r.owner fd64 else _) = _
    rw [if_neg (Nat.not_lt.mpr hle), dif_pos hex, h1, h2]
  have hheld : ∀ addr conv fd64, s.Holds addr conv fd64 → owner fd64 = some (party homes user addr conv) ∧ (addr ∈ homes → T.Used addr conv) := by
    intro addr conv fd64 hk
    rcases hf.held addr conv fd64 hk with hold | ⟨hle, localListenFd, n, out, rfl, x, hx, data, hget⟩
    · obtain ⟨howner, hused⟩ := h.held addr conv fd64 hold
      exact ⟨hkeeps _ _ howner, hused⟩
    · refine ⟨hnew addr conv fd64 hle hk, fun haddr => ⟨x.2, (hin _ _ _ _ rfl x hx).1 haddr, by rw [hget]⟩⟩
  refine ⟨owner, hkeeps, ⟨hf.moved.inv, h.clients, h.given, h.convs, hheld, fun fd64 p hp => ?_, fun home hhome x hx => ?_⟩, ?_⟩
  · by_cases hlt : fd64 < T.server.fdManager.counter
    · exact hlt.trans_le hf.moved.grew.counter
    · have hp' : (if hk : ∃ a : Address × U32, s.Holds a.1 a.2 fd64 then some (party homes user hk.choose.1 hk.choose.2) else none) = some p :=
        (if_neg hlt).symm.trans hp
      split at hp'
      · rename_i hk
        exact hf.moved.inv.holds_below hk.choose_spec
      · cases hp'
  · obtain ⟨conv, data, fd64, hx, hused, howner, hheard⟩ := h.back home hhome x hx
    exact ⟨conv, data, fd64, hx, hused, hkeeps _ _ howner, hheard⟩
  · obtain ⟨sends, hsends, hof⟩ := hf.sent
    refine ⟨sends, hsends, ?_⟩
    intro y hy
    obtain ⟨localListenFd, n, addr, out, rfl, x, hx, conv, hget, hk⟩ := hof y hy
    obtain ⟨hgiven, hstranger⟩ := hin _ _ _ _ rfl x hx
    refine ⟨_, (hheld addr conv y.1 hk).1, ?_⟩
    unfold party
    by_cases haddr : addr ∈ homes
    · obtain ⟨conv', data, hput, hsaid⟩ := h.given addr haddr _ (hgiven haddr)
      rw [hput, getConv_putConvInplace] at hget
      obtain ⟨rfl, rfl⟩ := Prod.mk.inj (Prod.mk.inj hget).2
      rw [if_pos haddr]
      exact hsaid
    · have hsaid := hstranger haddr
      rw [hget] at hsaid
      rw [if_neg haddr]
      exact hsaid

/-- The server's part of an event, after what came in. -/
theorem Kept.serverStep (h : Kept homes user T r) {es : List (Relay.Event Party Fd64 Bytes)} (hr : Relay.Run es r) {e : Tunnel.Event} {s : Server}
    (hf : Forwards T.server e s) (hin : ∀ localListenFd n addr out, e = .tunnel localListenFd n addr 0 out → ∀ x ∈ out,
      (addr ∈ homes → x.2 ∈ (T.clients addr).given) ∧ (addr ∉ homes → (.stranger addr, (Server.getConv x.2).2.2) ∈ r.said)) :
    ∃ r', Relay.Run (es ++ ((toSockets s.outbox).drop (toSockets T.server.outbox).length).map fun x => .forwarded x.1 x.2) r' ∧
      Kept homes user { T with server := s } r' ∧ (∀ fd64 p, r.owner fd64 = some p → r'.owner fd64 = some p) ∧ r'.heard = r.heard := by
  obtain ⟨owner, hkeeps, hkept, sends, hsends, hof⟩ := h.serve hf hin
  have hassign := hr.step (.assign hkeeps)
  rw [List.append_nil] at hassign
  rw [hsends, List.drop_left]
  exact ⟨_, hassign.forward_all hof, hkept, hkeeps, rfl⟩

/-- A step is one of the relay, or several. -/
theorem Kept.step (hos : Honest os) (h : Kept homes user T r) {es : List (Relay.Event Party Fd64 Bytes)} (hr : Relay.Run es r) {e : Event} {T' : Ends}
    (ha : Allowed homes T e) (hs : T.step os garbage e = .ok T') :
    ∃ user' r', Relay.Run (es ++ (comesIn homes e ++ goesOut T T' e)) r' ∧ Kept homes user' T' r' := by
  cases e with
  | client home e =>
    obtain ⟨c, hc, hmoved⟩ := Client.step_moved (h.clients home) ha.2.1
    simp only [Ends.step, hc, ok_bind] at hs
    cases hs
    exact h.clientStep hr ha hmoved
  | server e =>
    obtain ⟨s, hstep, hf⟩ := @step_forwards os garbage _ hos h.server e
    simp only [Ends.step, hstep, ok_bind] at hs
    cases hs
    by_cases htunnel : ∃ localListenFd n addr deCook out, e = .tunnel localListenFd n addr deCook out
    · obtain ⟨localListenFd, n, addr, deCook, out, rfl⟩ := htunnel
      -- a stranger's packets are what a stranger says
      obtain ⟨said, hcomes, hsaid⟩ : ∃ said : List (Party × Bytes), comesIn homes (.server (.tunnel localListenFd n addr deCook out)) =
          said.map (fun x => .said x.1 x.2) ∧ (addr ∉ homes → ∀ x ∈ out, (.stranger addr, (Server.getConv x.2).2.2) ∈ said) := by
        unfold comesIn
        by_cases haddr : addr ∈ homes
        · exact ⟨[], if_pos haddr, fun hno => absurd haddr hno⟩
        · refine ⟨out.map fun x => (.stranger addr, (Server.getConv x.2).2.2), by simp [haddr], fun _ x hx => ?_⟩
          exact List.mem_map.mpr ⟨x, hx, rfl⟩
      have hmore := h.more said []
      rw [List.append_nil] at hmore
      obtain ⟨r', hrun, hkept, -⟩ := hmore.serverStep (hr.say_all said) hf fun localListenFd' n' addr' out' heq x hx => by
        cases heq
        exact ⟨fun haddr => ha haddr x hx, fun haddr => List.mem_append_right _ (hsaid haddr x hx)⟩
      refine ⟨user, r', ?_, hkept⟩
      rw [hcomes, ← List.append_assoc]
      exact hrun
    · obtain ⟨r', hrun, hkept, -⟩ := h.serverStep hr hf fun localListenFd n addr out heq => absurd ⟨_, _, _, _, _, heq⟩ htunnel
      have hnothing : comesIn homes (.server e) = [] := by
        cases e with
        | tunnel localListenFd n addr deCook out => exact absurd ⟨_, _, _, _, _, rfl⟩ htunnel
        | remote fd64 n out => rfl
        | fecTimeout p out => rfl
        | connTimer p => rfl
        | globalTimer visits => rfl
      refine ⟨user, r', ?_, hkept⟩
      rw [hnothing]
      exact hrun
  | socket fd64 data out =>
    obtain ⟨s, hstep, hf⟩ := @step_forwards os garbage _ hos h.server (.remote fd64 data.length out)
    have hmore := h.more [] [(fd64, data)]
    rw [List.append_nil] at hmore
    obtain ⟨r', hrun, hkept, hkeeps, hheard⟩ := hmore.serverStep (hr.step (.hear fd64 data)) hf fun _ _ _ _ heq => by cases heq
    rw [List.append_assoc] at hrun
    simp only [Ends.step, hstep, ok_bind] at hs
    split at hs
    · rename_i addr x hto
      cases hs
      refine ⟨user, r', hrun, hkept.server, hkept.clients, hkept.given, hkept.convs, hkept.held, hkept.below, ?_⟩
      intro home hhome y hy
      simp only [Function.update_apply] at hy
      split at hy
      · rename_i heq
        subst heq
        rcases List.mem_append.mp hy with hy | hy
        · exact hkept.back home hhome y hy
        · obtain ⟨conv, hk, hput⟩ := h.server.toEncoder_holds hto
          obtain ⟨howner, hused⟩ := h.held _ _ _ hk
          unfold party at howner
          rw [if_pos hhome] at howner
          refine ⟨conv, data, fd64, (List.mem_singleton.mp hy).trans hput, hused hhome, hkeeps _ _ howner, ?_⟩
          rw [hheard]
          exact List.mem_append_right _ List.mem_cons_self
      · exact hkept.back home hhome y hy
    · cases hs
      exact ⟨user, r', hrun, hkept⟩

theorem Started.kept (h : Started T) : Kept homes (fun addr _ => addr) T ⟨fun _ => none, [], []⟩ := by
  obtain ⟨opened, clock, hclock, hserver⟩ := h.server
  have hclient : ∀ home, Client.Inv (T.clients home) ∧ (T.clients home).given = [] ∧ ∀ conv addr, (T.clients home).convManager.convToData.lookup conv ≠ some addr := by
    intro home
    obtain ⟨localListenFd, remoteFd, last, clock, hclock, hstart⟩ := h.clients home
    obtain ⟨c, hc, hinv, hconvs, hgiven, -⟩ := @Client.start_inv localListenFd remoteFd last clock hclock
    obtain rfl := Except.ok.inj (hstart.symm.trans hc)
    refine ⟨hinv, hgiven, ?_⟩
    intro conv addr hlook
    rw [hconvs] at hlook
    cases hlook
  refine ⟨hserver ▸ init_inv opened hclock, fun home => (hclient home).1, ?_, ?_, ?_, fun _ _ hp => (by cases hp), ?_⟩
  · intro home _ x hx
    rw [(hclient home).2.1] at hx
    cases hx
  · intro home _ conv addr hlook
    exact absurd hlook ((hclient home).2.2 conv addr)
  · intro addr conv fd64 hk
    obtain ⟨p, conn, hmp, -⟩ := hk
    rw [hserver] at hmp
    cases hmp
  · intro home _ x hx
    rw [h.back home] at hx
    cases hx

theorem Run.kept (hos : Honest os) {es : List (Relay.Event Party Fd64 Bytes)} (h : Run os garbage homes es T) :
    ∃ user r, Relay.Run es r ∧ Kept homes user T r := by
  induction h with
  | start h => exact ⟨_, _, .start, h.kept⟩
  | step h ha hs ih =>
    obtain ⟨user, r, hr, hkept⟩ := ih
    exact hkept.step hos hr ha hs

end Kept

/-! ## The whole -/

/-- The clients and the server are a relay. What leaves a socket of the server was said before
    by the party that owns the socket, and what reaches a user was heard before by a socket of
    his. A socket that the server holds for a conv of a client's address belongs to a user
    of that client, the one who has the conv there if one has it; all others are strangers'. -/
theorem ends_relay (os : Nat → Open → Option Fd) (hos : Honest os) (garbage : Ptr → Nat) (homes : List Address) {es : List (Relay.Event Party Fd64 Bytes)}
    {T : Ends} (h : Run os garbage homes es T) : ∃ r : Relay Party Fd64 Bytes, Relay.Run es r ∧
      (∀ before after fd64 data, es = before ++ .forwarded fd64 data :: after → ∃ p, r.owner fd64 = some p ∧ .said p data ∈ before) ∧
      (∀ before after p data, es = before ++ .delivered p data :: after → ∃ fd64, r.owner fd64 = some p ∧ .heard fd64 data ∈ before) ∧
      ∀ addr conv fd64, T.server.Holds addr conv fd64 → (addr ∉ homes → r.owner fd64 = some (.stranger addr)) ∧
        (addr ∈ homes → ∃ u, r.owner fd64 = some (.user addr u) ∧ ∀ u', (T.clients addr).convManager.convToData.lookup conv = some u' → u' = u) := by
  obtain ⟨user, r, hr, hkept⟩ := h.kept hos
  refine ⟨r, hr, fun before after fd64 data hes => hr.forwarded hes, fun before after p data hes => hr.delivered hes, ?_⟩
  intro addr conv fd64 hk
  obtain ⟨howner, -⟩ := hkept.held addr conv fd64 hk
  unfold party at howner
  refine ⟨fun haddr => by rw [howner, if_neg haddr], fun haddr => ⟨user addr conv, by rw [howner, if_pos haddr], fun u' hlook => ?_⟩⟩
  exact (hkept.convs addr haddr conv u' hlook).1.symm

/-- One client, at 9:9, with one socket. -/
def oneClient : Ends :=
  ⟨fun _ => ⟨.init 0, created .init 4, FdManager.init.counter, FdManager.init.counter, 3, slowClock, [], []⟩, .init [3] slowClock, fun _ => []⟩

/-- A user of the client says something: he has conv 7 there, and a socket at the server. -/
theorem one_user : ∃ es T, Run nextFd (fun _ => 0) [.ipv4 9 9] es T ∧ T.server.Holds (.ipv4 9 9) 7 FdManager.init.counter ∧
    (T.clients (.ipv4 9 9)).convManager.convToData.lookup 7 = some (.ipv4 1 1) := by
  have hclock : Monotone slowClock := fun _ _ h => Nat.mul_le_mul_right _ h
  have hstart : Run nextFd (fun _ => 0) [.ipv4 9 9] [] oneClient :=
    .start ⟨fun _ => ⟨3, 4, 0, slowClock, hclock, rfl⟩, ⟨[3], slowClock, hclock, rfl⟩, fun _ => rfl⟩
  have hsaid := hstart.step (e := .client (.ipv4 9 9) (.localListen [.ofNat 1] (.ipv4 1 1) [0, 7] []))
    ⟨List.mem_singleton_self _, fun _ _ _ => rfl, fun _ _ x hx => absurd hx List.not_mem_nil⟩ rfl
  have hpacket : putConvInplace 7 [.ofNat 1] = [0, 0, 0, .ofNat 7, .ofNat 1] := by decide
  have hforwarded := hsaid.step (e := .server (.tunnel 3 40 (.ipv4 9 9) 0 [(0, [0, 0, 0, .ofNat 7, .ofNat 1])]))
    (fun _ x hx => by cases List.mem_singleton.mp hx; rw [← hpacket]; exact List.mem_singleton_self _) rfl
  exact ⟨_, _, hforwarded, ⟨0, _, rfl, rfl, by decide⟩, rfl⟩

theorem ends_relay_one : ∃ (es : List (Relay.Event Party Fd64 Bytes)) (r : Relay Party Fd64 Bytes), Relay.Run es r ∧
    r.owner FdManager.init.counter = some (.user (.ipv4 9 9) (.ipv4 1 1)) := by
  obtain ⟨es, T, hrun, hholds, hlook⟩ := one_user
  obtain ⟨r, hr, -, -, howner⟩ := ends_relay nextFd nextFd_honest (fun _ => 0) [.ipv4 9 9] hrun
  obtain ⟨u, hu, hthis⟩ := (howner _ _ _ hholds).2 (List.mem_singleton_self _)
  exact ⟨es, r, hr, by rw [hu, hthis _ hlook]⟩

/-- Nothing that may happen stops a client or the server. -/
theorem ends_never_stop (os : Nat → Open → Option Fd) (hos : Honest os) (garbage : Ptr → Nat) (homes : List Address) {es : List (Relay.Event Party Fd64 Bytes)}
    {T : Ends} (h : Run os garbage homes es T) : Consistent T.server ∧
      (∀ home, Inverse (T.clients home).convManager.convToData (T.clients home).convManager.dataToConv) ∧
      ∀ e, Allowed homes T e → ∃ T', T.step os garbage e = .ok T' := by
  obtain ⟨user, r, -, hkept⟩ := h.kept hos
  refine ⟨hkept.server.consistent, fun home => (hkept.clients home).convs.inverse, ?_⟩
  intro e ha
  cases e with
  | client home e =>
    obtain ⟨c, hc, -⟩ := Client.step_moved (hkept.clients home) ha.2.1
    exact ⟨_, by simp only [Ends.step, hc, ok_bind]; rfl⟩
  | server e =>
    obtain ⟨s, hs, -⟩ := @step_forwards os garbage _ hos hkept.server e
    exact ⟨_, by simp only [Ends.step, hs, ok_bind]; rfl⟩
  | socket fd64 data out =>
    obtain ⟨s, hs, -⟩ := @step_forwards os garbage _ hos hkept.server (.remote fd64 data.length out)
    simp only [Ends.step, hs, ok_bind]
    split
    · exact ⟨_, rfl⟩
    · exact ⟨_, rfl⟩

/-- The answer to the user comes. -/
theorem ends_never_stop_one : ∃ T T' : Ends, T.server.Holds (.ipv4 9 9) 7 FdManager.init.counter ∧
    T.step nextFd (fun _ => 0) (.socket FdManager.init.counter [.ofNat 2] []) = .ok T' := by
  obtain ⟨es, T, hrun, hholds, -⟩ := one_user
  obtain ⟨T', hT'⟩ := (ends_never_stop nextFd nextFd_honest (fun _ => 0) [.ipv4 9 9] hrun).2.2 (.socket FdManager.init.counter [.ofNat 2] []) trivial
  exact ⟨T, T', hholds, hT'⟩

end Ends

end UdpSpeeder.Tunnel
