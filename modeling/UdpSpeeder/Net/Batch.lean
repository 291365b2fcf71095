/-
  UdpSpeeder.Net.Batch — `delay_send_batch` against `delay_send` on one packet after the other.

  Each call is its cooking, then what `Dest.datagrams` says goes to the wire (`mySends_ok`,
  `sendmmsg_ok`). One by one the packets go through `delay_manager_t::add`, which lets them all
  through or none (`delaySends_eq`, `delaySends_full`). The batch does not ask it; it refuses
  no more than its arrays hold; and where it falls back to `my_send` the packets are cooked
  twice, which shows unless cooking changes nothing (`cookFor_twice`).
-/

import UdpSpeeder.Net.Send
import UdpSpeeder.Cook.Exact

namespace UdpSpeeder.Net

open Lib Cook

/-! ## Where packets go -/

/-- The descriptor and the address; a number that was closed has none. -/
def Dest.resolve (dest : Dest) (m : FdManager) : Option (Fd × Option Address) :=
  match dest.inner with
  | .none => none
  | .fd64Addr fd64 addr => (m.fd64ToFd.lookup fd64).map fun fd => (fd, some addr)
  | .fd64 fd64 => (m.fd64ToFd.lookup fd64).map fun fd => (fd, none)
  | .fd fd => some (fd, none)
  | .writeFd fd => some (fd, none)
  | .fdAddr fd addr => some (fd, some addr)

/-- `type_write_fd`, which `my_send_batch` leaves to `my_send`. -/
def Dest.isWrite (dest : Dest) : Bool :=
  match dest.inner with
  | .writeFd _ => true
  | _ => false

def Packet.bytes (p : Packet) : Bytes := slice p.data.mem 0 p.len

theorem Packet.bytes_length (p : Packet) : p.bytes.length = p.len := slice_length _ _ _

/-- What packets are on the wire. -/
def Dest.datagrams (dest : Dest) (m : FdManager) (ps : List Packet) : List Datagram :=
  match dest.resolve m with
  | some (fd, dst) => ps.map fun p => ⟨fd, dst, p.bytes⟩
  | none => []

/-- The bytes of the packet are bytes of its buffer. -/
def Packet.Lies (p : Packet) : Prop := p.len ≤ p.data.size

section Send

variable {simd : Simd} {ctx : CookCtx} {dest : Dest}

theorem exist_toFd {α : Type} (m : FdManager) (fd64 : Fd64) (x : Except Fault α) (k : Fd → Except Fault α) :
    (if ¬ m.exist fd64 then x else m.toFd fd64 >>= k) = match m.fd64ToFd.lookup fd64 with
      | some fd => k fd
      | none => x := by
  unfold FdManager.toFd FdManager.exist
  cases hlook : m.fd64ToFd.lookup fd64 with
  | none => rw [if_pos (AList.lookup_eq_none.mp hlook)]
  | some fd =>
    rw [if_neg (not_not.mpr (mem_of_lookup hlook))]
    rfl

/-- A packet that was cooked, to where it goes. -/
def Dest.deliver (dest : Dest) (p : Packet) (s : Sender) : Except Fault Sent :=
  match dest.resolve s.fdManager with
  | some (fd, dst) => s.emit fd dst p
  | none => .ok ⟨-1, p.data, s⟩

theorem mySend_eq (hdest : dest.inner ≠ .none) (p : Packet) (s : Sender) : mySend simd ctx dest p s = (do
    let (p, d) ← cookFor simd ctx dest.cook p s.draws
    dest.deliver p { s with draws := d }) := by
  unfold mySend
  congr 1
  funext r
  obtain ⟨p, d⟩ := r
  unfold Dest.deliver Dest.resolve
  cases hinner : dest.inner with
  | none => exact absurd hinner hdest
  | fd64Addr fd64 addr =>
    simp only [exist_toFd]
    cases s.fdManager.fd64ToFd.lookup fd64 <;> rfl
  | fd64 fd64 =>
    simp only [exist_toFd]
    cases s.fdManager.fd64ToFd.lookup fd64 <;> rfl
  | fd fd => rfl
  | writeFd fd => rfl
  | fdAddr fd addr => rfl

theorem emit_ok {p : Packet} (hp : p.Lies) (s : Sender) (fd : Fd) (dst : Option Address) :
    s.emit fd dst p = .ok ⟨p.len, p.data, { s with wire := s.wire ++ [⟨fd, dst, p.bytes⟩] }⟩ := by
  unfold Sender.emit
  rw [within_zero hp]
  rfl

theorem deliver_ok (dest : Dest) {p : Packet} (hp : p.Lies) (s : Sender) :
    ∃ r, dest.deliver p s = .ok r ∧ r.sender = { s with wire := s.wire ++ dest.datagrams s.fdManager [p] } := by
  unfold Dest.deliver Dest.datagrams
  cases dest.resolve s.fdManager with
  | none => exact ⟨_, rfl, by simp⟩
  | some x => exact ⟨_, emit_ok hp s x.1 x.2, rfl⟩

theorem deliver_inv {p : Packet} {s : Sender} {r : Sent} (h : dest.deliver p s = .ok r) :
    r.sender = { s with wire := s.wire ++ dest.datagrams s.fdManager [p] } := by
  unfold Dest.deliver at h
  unfold Dest.datagrams
  cases hres : dest.resolve s.fdManager with
  | none =>
    rw [hres] at h
    cases h
    simp
  | some x =>
    rw [hres] at h
    unfold Sender.emit at h
    obtain ⟨-, -, h⟩ := bind_ok.mp h
    cases h
    rfl

theorem datagrams_cons (dest : Dest) (m : FdManager) (p : Packet) (ps : List Packet) :
    dest.datagrams m (p :: ps) = dest.datagrams m [p] ++ dest.datagrams m ps := by
  unfold Dest.datagrams
  cases dest.resolve m <;> rfl

/-- What `my_send` makes of a packet that can be cooked. -/
theorem mySend_ok (hdest : dest.inner ≠ .none) {p q : Packet} {s : Sender} {d : Draws} (hcook : cookFor simd ctx dest.cook p s.draws = .ok (q, d))
    (hq : q.Lies) : ∃ r, mySend simd ctx dest p s = .ok r ∧ r.sender = { s with draws := d, wire := s.wire ++ dest.datagrams s.fdManager [q] } := by
  obtain ⟨r, hr, hsender⟩ := deliver_ok dest hq { s with draws := d }
  exact ⟨r, by rw [mySend_eq hdest, hcook]; exact hr, hsender⟩

theorem mySends_ok (hdest : dest.inner ≠ .none) {ps qs : List Packet} {s : Sender} {d : Draws}
    (hcook : passAll (cookFor simd ctx dest.cook) ps s.draws = .ok (qs, d)) (hqs : ∀ q ∈ qs, q.Lies) :
    ∃ rs, mySends simd ctx dest ps s = .ok (rs, { s with draws := d, wire := s.wire ++ dest.datagrams s.fdManager qs }) := by
  unfold mySends
  induction ps generalizing s qs with
  | nil =>
    cases hcook
    refine ⟨[], ?_⟩
    unfold Dest.datagrams
    cases dest.resolve s.fdManager <;> simp
  | cons p ps ih =>
    obtain ⟨q, d1, qs, hone, hrest, rfl⟩ := passAll_cons.mp hcook
    obtain ⟨r, hr, hsender⟩ := mySend_ok hdest hone (hqs q List.mem_cons_self)
    have hdraws : r.sender.draws = d1 := by rw [hsender]
    obtain ⟨rs, hrs⟩ := @ih qs r.sender (hdraws.symm ▸ hrest) fun q hq => hqs q (List.mem_cons_of_mem _ hq)
    have hend : ({ r.sender with draws := d, wire := r.sender.wire ++ dest.datagrams r.sender.fdManager qs } : Sender) =
        { s with draws := d, wire := s.wire ++ dest.datagrams s.fdManager (q :: qs) } := by
      rw [hsender, datagrams_cons dest s.fdManager q qs, ← List.append_assoc]
    exact ⟨_, passAll_cons.mpr ⟨_, r.sender, rs, by rw [hr]; rfl, hend ▸ hrs, rfl⟩⟩

/-- And what calls that came back had made of their packets. -/
theorem mySends_inv (hdest : dest.inner ≠ .none) {ps xs : List Packet} {s t : Sender} (h : mySends simd ctx dest ps s = .ok (xs, t)) :
    ∃ qs d, passAll (cookFor simd ctx dest.cook) ps s.draws = .ok (qs, d) ∧
      t = { s with draws := d, wire := s.wire ++ dest.datagrams s.fdManager qs } := by
  unfold mySends at h
  induction ps generalizing s xs with
  | nil =>
    cases h
    refine ⟨[], _, rfl, ?_⟩
    unfold Dest.datagrams
    cases dest.resolve t.fdManager <;> simp
  | cons p ps ih =>
    obtain ⟨x, s', xs', hone, hrest, rfl⟩ := passAll_cons.mp h
    obtain ⟨r, hr, heq⟩ : ∃ r, mySend simd ctx dest p s = .ok r ∧ p.sent r = (x, s') := by
      cases hr : mySend simd ctx dest p s with
      | error e =>
        rw [hr] at hone
        cases hone
      | ok r =>
        rw [hr] at hone
        exact ⟨r, rfl, Except.ok.inj hone⟩
    obtain ⟨-, rfl⟩ := Prod.ext_iff.mp heq
    rw [mySend_eq hdest] at hr
    obtain ⟨⟨q, d⟩, hcook, hr⟩ := bind_ok.mp hr
    have hsender : r.sender = { s with draws := d, wire := s.wire ++ dest.datagrams s.fdManager [q] } := deliver_inv hr
    obtain ⟨qs, d', hall, rfl⟩ := ih hrest
    refine ⟨q :: qs, d', passAll_cons.mpr ⟨q, d, qs, hcook, ?_, rfl⟩, ?_⟩
    · rw [show (p.sent r).2.draws = d by rw [Packet.sent, hsender]] at hall
      exact hall
    · rw [Packet.sent, hsender, datagrams_cons dest s.fdManager q qs, ← List.append_assoc]

theorem sendmmsg_ok {ps : List Packet} (hps : ∀ p ∈ ps, p.Lies) (hlen : ps.length ≤ 255) (s : Sender) (fd : Fd) (dst : Option Address) :
    ∃ r, sendmmsg fd dst ps s = .ok r ∧ r.sender = { s with wire := s.wire ++ ps.map fun p => ⟨fd, dst, p.bytes⟩ } := by
  have hpass : ∀ s : Sender, ∃ rs, passAll (fun p s => p.sent <$> s.emit fd dst p) ps s =
      .ok (rs, { s with wire := s.wire ++ ps.map fun p => ⟨fd, dst, p.bytes⟩ }) := by
    clear hlen
    induction ps with
    | nil => exact fun s => ⟨[], by simp⟩
    | cons p ps ih =>
      intro s
      obtain ⟨rs, hrs⟩ := ih (fun p hp => hps p (List.mem_cons_of_mem _ hp)) { s with wire := s.wire ++ [⟨fd, dst, p.bytes⟩] }
      refine ⟨_, passAll_cons.mpr ⟨_, _, rs, by rw [emit_ok (hps p List.mem_cons_self)]; rfl, ?_, rfl⟩⟩
      simp only
      rw [hrs, List.append_assoc]
      rfl
  obtain ⟨rs, hrs⟩ := hpass s
  unfold sendmmsg
  rw [check_true (by exact hlen), ok_bind, hrs, ok_bind]
  exact ⟨_, rfl, rfl⟩

theorem mySendBatch_many (hdest : dest.inner ≠ .none) {ps : List Packet} (hmany : 1 < ps.length) (s : Sender) :
    mySendBatch simd ctx dest ps s = (do
      let (ps, d) ← passAll (cookFor simd ctx dest.cook) ps s.draws
      let s := { s with draws := d }
      if dest.isWrite then do
        let (ps, s) ← mySends simd ctx dest ps s
        .ok ⟨ps.length, ps, s⟩
      else
        match dest.resolve s.fdManager with
        | some (fd, dst) => sendmmsg fd dst ps s
        | none => .ok ⟨-1, ps, s⟩) := by
  obtain ⟨p, q, ps, rfl⟩ : ∃ p q ps', ps = p :: q :: ps' := by
    match ps, hmany with
    | p :: q :: ps', _ => exact ⟨p, q, ps', rfl⟩
  simp only [mySendBatch]
  congr 1
  funext r
  obtain ⟨rs, d⟩ := r
  unfold Dest.resolve Dest.isWrite
  cases hinner : dest.inner with
  | none => exact absurd hinner hdest
  | fd64Addr fd64 addr =>
    simp only [exist_toFd]
    cases s.fdManager.fd64ToFd.lookup fd64 <;> rfl
  | fd64 fd64 =>
    simp only [exist_toFd]
    cases s.fdManager.fd64ToFd.lookup fd64 <;> rfl
  | fd fd => rfl
  | writeFd fd => rfl
  | fdAddr fd addr => rfl

/-! ## One by one -/

theorem add_full {s : Sender} (h : s.delayManager.full) (delay : Nat) (p : Packet) : add simd ctx delay dest p s = .ok ⟨-1, p.data, s⟩ := if_pos h

/-- Without `random_drop` a packet without delay is sent at once, or not at all. -/
theorem delaySend_zero (p : Packet) (s : Sender) : delaySend simd ctx 0 0 dest p s = add simd ctx 0 dest p s := by
  unfold delaySend dropped
  simp

theorem delaySends_full {s : Sender} (h : s.delayManager.full) (ps : List Packet) :
    ∃ rs, delaySends simd ctx 0 dest (ps.map fun p => (0, p)) s = .ok (rs, s) := by
  unfold delaySends
  induction ps with
  | nil => exact ⟨[], rfl⟩
  | cons p ps ih =>
    obtain ⟨rs, hrs⟩ := ih
    exact ⟨_, passAll_cons.mpr ⟨_, s, rs, by simp only [delaySend_zero]; rw [add_full h]; rfl, hrs, rfl⟩⟩

theorem mySend_frame (hdest : dest.inner ≠ .none) {p : Packet} {s : Sender} {r : Sent} (h : mySend simd ctx dest p s = .ok r) :
    r.sender.delayManager = s.delayManager := by
  rw [mySend_eq hdest] at h
  obtain ⟨⟨q, d⟩, -, h⟩ := bind_ok.mp h
  have hsender : r.sender = { s with draws := d, wire := s.wire ++ dest.datagrams s.fdManager [q] } := deliver_inv h
  rw [hsender]

/-- `delay_manager_t::add` with room lets every packet through. -/
theorem delaySends_eq (hdest : dest.inner ≠ .none) {s : Sender} (h : ¬ s.delayManager.full) (ps : List Packet) :
    delaySends simd ctx 0 dest (ps.map fun p => (0, p)) s = mySends simd ctx dest ps s := by
  unfold delaySends mySends
  induction ps generalizing s with
  | nil => rfl
  | cons p ps ih =>
    have hstep : p.sent <$> delaySend simd ctx 0 0 dest p s = p.sent <$> mySend simd ctx dest p s := by
      rw [delaySend_zero]
      unfold add
      rw [if_neg h, if_pos rfl]
      cases mySend simd ctx dest p s <;> rfl
    simp only [List.map_cons, passAll]
    rw [hstep]
    cases hr : mySend simd ctx dest p s with
    | error e => rfl
    | ok r =>
      have hframe := mySend_frame hdest hr
      have hmap : p.sent <$> (Except.ok r : Except Fault Sent) = .ok (p.sent r) := rfl
      rw [hmap, ok_bind, ok_bind]
      simp only [Packet.sent] at ih ⊢
      rw [@ih r.sender (hframe ▸ h)]

end Send

/-! ## Cooking -/

/-- What the program sends: bytes of a buffer, with the room that cooking them takes. -/
structure Packet.Sendable (cook : Bool) (p : Packet) : Prop where
  lies : p.Lies
  short : cook → p.len + 4 < 3800
  room : cook → p.len + 37 ≤ p.data.size

theorem forall_right {α β : Type} {P : β → Prop} {l : List α} {l' : List β} (h : List.Forall₂ (fun _ b => P b) l l') : ∀ b ∈ l', P b := by
  induction h with
  | nil => simp
  | cons hb _ ih => simpa using ⟨hb, ih⟩

/-- Cooking these packets changes nothing: no checksum, no IV, and no key over their bytes. -/
def Plain (ctx : CookCtx) (ps : List Packet) : Prop :=
  ctx.disableChecksum ∧ ctx.disableObscure ∧ (ctx.disableXor ∨ ∀ p ∈ ps, ∀ j < p.len, ctx.pad j = 0)

section Cooking

variable {simd : Simd} {ctx : CookCtx} {ps : List Packet}

theorem cookFor_ok (h : ctx.Ready simd) {cook : Bool} {p : Packet} (hp : p.Sendable cook) (d : Draws) :
    ∃ q d', cookFor simd ctx cook p d = .ok (q, d') ∧ q.Lies := by
  unfold cookFor
  cases cook with
  | false => exact ⟨p, d, rfl, hp.lies⟩
  | true =>
    have hholds : p.data.Holds p.bytes := slice_holds (rfl : slice p.data.mem 0 p.len = p.bytes)
    obtain ⟨data', d', hcook, -, hroom⟩ := doCook_ok h hholds (by rw [p.bytes_length]; exact hp.short rfl)
      (by rw [p.bytes_length]; exact hp.room rfl) d (Site.encrypts_simd _ _ _)
    rw [p.bytes_length] at hcook
    exact ⟨⟨data', _⟩, d', by rw [if_pos rfl, hcook]; rfl, hroom⟩

theorem cookAll_ok (h : ctx.Ready simd) {cook : Bool} {ps : List Packet} (hps : ∀ p ∈ ps, p.Sendable cook) (d : Draws) :
    ∃ qs d', passAll (cookFor simd ctx cook) ps d = .ok (qs, d') ∧ (∀ q ∈ qs, q.Lies) ∧ qs.length = ps.length := by
  obtain ⟨qs, d', hcook, hall, -⟩ := @passAll_ok _ _ _ _ (cookFor simd ctx cook) (fun _ => True) (fun _ q => q.Lies) ps
    (fun p hp d _ => by
      obtain ⟨q, d', hq, hlies⟩ := cookFor_ok h (hps p hp) d
      exact ⟨q, d', hq, hlies, trivial⟩) d trivial
  exact ⟨qs, d', hcook, forall_right hall, hall.length_eq.symm⟩

theorem cookFor_false (p : Packet) (d : Draws) : cookFor simd ctx false p d = .ok (p, d) := rfl

theorem cookAll_false (ps : List Packet) (d : Draws) : passAll (cookFor simd ctx false) ps d = .ok (ps, d) := by
  induction ps generalizing d with
  | nil => rfl
  | cons p ps ih => exact passAll_cons.mpr ⟨p, d, ps, cookFor_false p d, ih d, rfl⟩

theorem cookFor_grows {p q : Packet} {d d' : Draws} (hcook : cookFor simd ctx true p d = .ok (q, d')) : p.len ≤ q.len := by
  obtain ⟨⟨data', len', d1⟩, hdo, heq⟩ := bind_ok.mp hcook
  cases heq
  exact (doCook_grows hdo).1

/-- A packet that is as long after cooking as before met nothing but the key. -/
theorem cookFor_len (h : ctx.Ready simd) {p q : Packet} {d d' : Draws} (hp : p.Lies) (hcook : cookFor simd ctx true p d = .ok (q, d'))
    (hlen : q.len = p.len) : ctx.disableChecksum ∧ ctx.disableObscure ∧ q.Lies ∧
      q.bytes = if ctx.disableXor then p.bytes else mask ctx.pad p.bytes := by
  obtain ⟨⟨data', len', d1⟩, hdo, heq⟩ := bind_ok.mp hcook
  cases heq
  obtain ⟨hcrc, hob⟩ := (doCook_grows hdo).2 hlen
  rw [doCook_key h hcrc hob hp _ (Site.encrypts_simd _ _ _)] at hdo
  cases hdo
  refine ⟨hcrc, hob, ?_, ?_⟩
  · unfold Packet.Lies
    split
    · exact hp
    · exact hp
  · unfold Packet.bytes
    split
    · rfl
    · exact masked_slice _ _ _

theorem mask_eq_self {pad : Nat → Byte} {p : Bytes} : mask pad p = p ↔ ∀ j < p.length, pad j = 0 := by
  constructor
  · intro h j hj
    have hbyte : p[j] ^^^ pad j = p[j] := by
      have := List.getElem_of_eq h (show j < (mask pad p).length by rw [mask_length]; exact hj)
      simpa [mask] using this
    calc pad j = p[j] ^^^ (p[j] ^^^ pad j) := by rw [← Byte.xor_assoc, Byte.xor_self, Byte.zero_xor]
      _ = p[j] ^^^ p[j] := by rw [hbyte]
      _ = 0 := Byte.xor_self _
  · intro h
    refine List.ext_getElem (by simp) fun j h1 h2 => ?_
    simp [mask, h j h2]

theorem Plain.pad (hplain : Plain ctx ps) (hxor : ¬ ctx.disableXor) {p : Packet} (hp : p ∈ ps) : mask ctx.pad p.bytes = p.bytes :=
  mask_eq_self.mpr fun j hj => hplain.2.2.resolve_left hxor p hp j (by rwa [p.bytes_length] at hj)

/-- Packets that cooking does not change. -/
theorem cookAll_plain (h : ctx.Ready simd) {ps : List Packet} (hps : ∀ p ∈ ps, p.Lies) (hplain : Plain ctx ps) {d d' : Draws} {qs : List Packet}
    (hcook : passAll (cookFor simd ctx true) ps d = .ok (qs, d')) : List.Forall₂ (fun p q => q.Lies ∧ q.bytes = p.bytes) ps qs := by
  refine passAll_rel (fun p hp d q d' hq => ?_) hcook
  have hlen : q.len = p.len := by
    obtain ⟨⟨data', len', d1⟩, hdo, heq⟩ := bind_ok.mp hq
    cases heq
    rw [doCook_key h hplain.1 hplain.2.1 (hps p hp) _ (Site.encrypts_simd _ _ _)] at hdo
    cases hdo
    rfl
  obtain ⟨-, -, hlies, hbytes⟩ := cookFor_len h (hps p hp) hq hlen
  refine ⟨hlies, hbytes.trans ?_⟩
  split
  · rfl
  · exact hplain.pad (by assumption) hp

/-- A packet with only the key to meet can be cooked again and again. -/
theorem cookAll_key (h : ctx.Ready simd) (hcrc : ctx.disableChecksum) (hob : ctx.disableObscure) (hps : ∀ p ∈ ps, p.Lies) (d : Draws) :
    ∃ qs d', passAll (cookFor simd ctx true) ps d = .ok (qs, d') ∧ ∀ q ∈ qs, q.Lies := by
  obtain ⟨qs, d', hcook, hall, -⟩ := @passAll_ok _ _ _ _ (cookFor simd ctx true) (fun _ => True) (fun _ q => q.Lies) ps
    (fun p hp d _ => by
      refine ⟨⟨if ctx.disableXor then p.data else p.data.masked p.len ctx.pad, p.len⟩, d, ?_, ?_, trivial⟩
      · unfold cookFor
        rw [if_pos rfl, doCook_key h hcrc hob (hps p hp) _ (Site.encrypts_simd _ _ _)]
        rfl
      · unfold Packet.Lies
        split <;> exact hps p hp) d trivial
  exact ⟨qs, d', hcook, forall_right hall⟩

/-- Cooking twice shows, unless it changes nothing. -/
theorem cookAll_twice (h : ctx.Ready simd) {ps qs rs : List Packet} (hps : ∀ p ∈ ps, p.Lies) (hqs : ∀ q ∈ qs, q.Lies) (hne : ps ≠ []) {d d1 d2 : Draws}
    (hone : passAll (cookFor simd ctx true) ps d = .ok (qs, d1)) (htwo : passAll (cookFor simd ctx true) qs d1 = .ok (rs, d2)) :
    rs.map Packet.bytes = qs.map Packet.bytes ↔ Plain ctx ps := by
  constructor
  · intro hsame
    have hfirst := @passAll_rel _ _ _ _ (cookFor simd ctx true) (fun p q => ∃ d d', cookFor simd ctx true p d = .ok (q, d')) ps
      (fun p _ d q d' hq => ⟨d, d', hq⟩) d d1 qs hone
    have hsecond := @passAll_rel _ _ _ _ (cookFor simd ctx true) (fun p q => ∃ d d', cookFor simd ctx true p d = .ok (q, d')) qs
      (fun p _ d q d' hq => ⟨d, d', hq⟩) d1 d2 rs htwo
    have hlen1 := hfirst.length_eq
    have hlen2 := hsecond.length_eq
    -- the second time every packet keeps its length, so there was only the key
    have hkey : ∀ i (hi : i < ps.length), ctx.disableChecksum ∧ ctx.disableObscure ∧ (ctx.disableXor ∨ ∀ j < ps[i].len, ctx.pad j = 0) := by
      intro i hi
      obtain ⟨e1, e2, hq⟩ := hfirst.get hi (by omega)
      obtain ⟨e3, e4, hr⟩ := hsecond.get (show i < qs.length by omega) (by omega)
      have hbytes : (rs.get ⟨i, by omega⟩).bytes = (qs.get ⟨i, by omega⟩).bytes := by
        have := List.getElem_of_eq hsame (show i < (rs.map Packet.bytes).length by simp; omega)
        simpa using this
      have hlen : (rs.get ⟨i, by omega⟩).len = (qs.get ⟨i, by omega⟩).len := by
        rw [← Packet.bytes_length, hbytes, Packet.bytes_length]
      obtain ⟨hcrc, hob, -, hmask⟩ := cookFor_len h (hqs _ (List.get_mem _ _)) hr hlen
      refine ⟨hcrc, hob, ?_⟩
      by_cases hxor : ctx.disableXor
      · exact .inl hxor
      · rw [if_neg hxor, hbytes] at hmask
        have hgrow : ps[i].len ≤ _ := cookFor_grows hq
        exact .inr fun j hj => mask_eq_self.mp hmask.symm j (by rw [Packet.bytes_length]; omega)
    obtain ⟨hcrc, hob, -⟩ := hkey 0 (List.length_pos_of_ne_nil hne)
    refine ⟨hcrc, hob, ?_⟩
    by_cases hxor : ctx.disableXor
    · exact .inl hxor
    · refine .inr fun p hp => ?_
      obtain ⟨i, hi, rfl⟩ := List.mem_iff_getElem.mp hp
      exact (hkey i hi).2.2.resolve_left hxor
  · intro hplain
    have hfirst := cookAll_plain h hps hplain hone
    have hplain' : Plain ctx qs := ⟨hplain.1, hplain.2.1, hplain.2.2.imp_right fun hpad q hq j hj => by
      obtain ⟨i, hi, rfl⟩ := List.mem_iff_getElem.mp hq
      have hi' : i < ps.length := hfirst.length_eq ▸ hi
      have hbytes := (hfirst.get hi' hi).2
      simp only [List.get_eq_getElem] at hbytes
      exact hpad _ (List.getElem_mem hi') j (by rwa [← Packet.bytes_length, hbytes, Packet.bytes_length] at hj)⟩
    have hsecond := cookAll_plain h hqs hplain' htwo
    clear hone htwo hfirst hplain' hqs
    induction hsecond with
    | nil => rfl
    | cons hb _ ih => rw [List.map_cons, List.map_cons, hb.2, ih]

end Cooking

/-! ## In one go, and one by one -/

section Agreement

variable {simd : Simd} {ctx : CookCtx} {dest : Dest} {s : Sender} {ps : List Packet}

/-- `delay_send_batch` puts on the wire what `delay_send` does, and leaves the same queue. -/
def Agrees (simd : Simd) (ctx : CookCtx) (dest : Dest) (ps : List Packet) (s : Sender) : Prop :=
  ∃ a b, delaySendBatch simd ctx 0 dest (ps.map fun p => (0, p)) s = .ok a ∧ delaySends simd ctx 0 dest (ps.map fun p => (0, p)) s = .ok b ∧
    a.sender.wire = b.2.wire ∧ a.sender.delayManager = b.2.delayManager

/-- At most one packet; or nowhere to send to; or a queue with room, and a batch that neither
    overruns the arrays nor cooks twice. -/
def Uniform (ctx : CookCtx) (dest : Dest) (ps : List Packet) (s : Sender) : Prop :=
  ps.length ≤ 1 ∨ dest.resolve s.fdManager = none ∨
    ¬ s.delayManager.full ∧ if dest.isWrite then dest.cook = false ∨ Plain ctx ps else ps.length ≤ 255

theorem delaySends_ok (hdest : dest.inner ≠ .none) {qs : List Packet} {d : Draws}
    (hcook : passAll (cookFor simd ctx dest.cook) ps s.draws = .ok (qs, d)) (hqs : ∀ q ∈ qs, q.Lies) :
    ∃ b, delaySends simd ctx 0 dest (ps.map fun p => (0, p)) s = .ok b ∧ b.2.delayManager = s.delayManager ∧
      b.2.wire = s.wire ++ if s.delayManager.full then [] else dest.datagrams s.fdManager qs := by
  by_cases hfull : s.delayManager.full
  · obtain ⟨rs, hrs⟩ := delaySends_full hfull ps
    exact ⟨_, hrs, rfl, by rw [if_pos hfull, List.append_nil]⟩
  · obtain ⟨rs, hrs⟩ := mySends_ok hdest hcook hqs
    exact ⟨_, by rw [delaySends_eq hdest hfull, hrs], rfl, by rw [if_neg hfull]⟩

theorem delaySendBatch_many (hmany : 1 < ps.length) :
    delaySendBatch simd ctx 0 dest (ps.map fun p => (0, p)) s = mySendBatch simd ctx dest ps s := by
  unfold delaySendBatch
  rw [if_pos ⟨by simpa using hmany, rfl, by simp⟩, List.map_map]
  simp [Function.comp_def]

theorem datagrams_length {m : FdManager} (hres : dest.resolve m ≠ none) : (dest.datagrams m ps).length = ps.length := by
  unfold Dest.datagrams
  cases hx : dest.resolve m with
  | none => exact absurd hx hres
  | some x => exact List.length_map _

theorem datagrams_inj {m : FdManager} (hres : dest.resolve m ≠ none) {qs : List Packet} :
    dest.datagrams m qs = dest.datagrams m ps ↔ qs.map Packet.bytes = ps.map Packet.bytes := by
  unfold Dest.datagrams
  cases hx : dest.resolve m with
  | none => exact absurd hx hres
  | some x =>
    have hinj : Function.Injective fun b : Bytes => (⟨x.1, x.2, b⟩ : Datagram) := fun a b hab => (Datagram.mk.inj hab).2.2
    have hmap : ∀ l : List Packet, (l.map fun p => (⟨x.1, x.2, p.bytes⟩ : Datagram)) = (l.map Packet.bytes).map fun b => ⟨x.1, x.2, b⟩ :=
      fun l => by rw [List.map_map]; rfl
    simp only [hmap]
    exact hinj.list_map.eq_iff

theorem resolve_of_isWrite (hwrite : dest.isWrite = true) (m : FdManager) : dest.resolve m ≠ none := by
  unfold Dest.isWrite at hwrite
  unfold Dest.resolve
  split at hwrite <;> simp_all

theorem agrees_one (h : ctx.Ready simd) (hdest : dest.inner ≠ .none) (hps : ∀ p ∈ ps, p.Sendable dest.cook) (hone : ps.length ≤ 1) :
    Agrees simd ctx dest ps s := by
  obtain ⟨qs, d, hcook, hqs, -⟩ := cookAll_ok h hps s.draws
  obtain ⟨b, hb, -⟩ := delaySends_ok hdest hcook hqs
  refine ⟨⟨0, b.1, b.2⟩, b, ?_, hb, rfl, rfl⟩
  unfold delaySendBatch
  rw [if_neg (by simp; omega), hb]
  rfl

/-- `sendmmsg` does what `sendto` and `send` would, if nothing stands in their way. -/
theorem agrees_mmsg (h : ctx.Ready simd) (hdest : dest.inner ≠ .none) (hps : ∀ p ∈ ps, p.Sendable dest.cook) (hmany : 1 < ps.length)
    (hwrite : dest.isWrite = false) :
    Agrees simd ctx dest ps s ↔ dest.resolve s.fdManager = none ∨ ¬ s.delayManager.full ∧ ps.length ≤ 255 := by
  obtain ⟨qs, d, hcook, hqs, hlen⟩ := cookAll_ok h hps s.draws
  obtain ⟨b, hb, hqueue, hwire⟩ := delaySends_ok hdest hcook hqs
  have hbatch : delaySendBatch simd ctx 0 dest (ps.map fun p => (0, p)) s = match dest.resolve s.fdManager with
      | some (fd, dst) => sendmmsg fd dst qs { s with draws := d }
      | none => .ok ⟨-1, qs, { s with draws := d }⟩ := by
    rw [delaySendBatch_many hmany, mySendBatch_many hdest hmany, hcook, ok_bind]
    simp only [hwrite, Bool.false_eq_true, if_false]
  unfold Agrees
  rw [hbatch, hb]
  cases hres : dest.resolve s.fdManager with
  | none =>
    have hnone : dest.datagrams s.fdManager qs = [] := by
      unfold Dest.datagrams
      rw [hres]
    refine ⟨fun _ => .inl rfl, fun _ => ⟨_, b, rfl, rfl, ?_, hqueue.symm⟩⟩
    rw [hwire, hnone, ite_self, List.append_nil]
  | some x =>
    have hsome : dest.datagrams s.fdManager qs = qs.map fun p => ⟨x.1, x.2, p.bytes⟩ := by
      unfold Dest.datagrams
      rw [hres]
    constructor
    · rintro ⟨a, b', ha, hb', hsame, -⟩
      cases hb'
      have hfit : qs.length ≤ 255 := by
        simp only [sendmmsg] at ha
        exact (check_bind.mp ha).1
      obtain ⟨r, hr, hsender⟩ := sendmmsg_ok hqs hfit { s with draws := d } x.1 x.2
      obtain rfl : r = a := Except.ok.inj (hr.symm.trans ha)
      refine .inr ⟨fun hfull => ?_, by omega⟩
      rw [hsender, hwire, if_pos hfull] at hsame
      have hzero := congrArg List.length (List.append_cancel_left hsame)
      simp only [List.length_map, List.length_nil] at hzero
      omega
    · rintro (hnone | ⟨hroom, hfit⟩)
      · cases hnone
      · obtain ⟨r, hr, hsender⟩ := sendmmsg_ok hqs (by omega) { s with draws := d } x.1 x.2
        exact ⟨r, b, hr, rfl, by rw [hsender, hwire, if_neg hroom, hsome], by rw [hsender, hqueue]⟩

/-- `my_send_batch` hands `type_write_fd` to `my_send` after cooking, which cooks again. -/
theorem agrees_write (h : ctx.Ready simd) (hdest : dest.inner ≠ .none) (hps : ∀ p ∈ ps, p.Sendable dest.cook) (hmany : 1 < ps.length)
    (hwrite : dest.isWrite = true) :
    Agrees simd ctx dest ps s ↔ ¬ s.delayManager.full ∧ (dest.cook = false ∨ Plain ctx ps) := by
  obtain ⟨qs, d, hcook, hqs, hlen⟩ := cookAll_ok h hps s.draws
  obtain ⟨b, hb, hqueue, hwire⟩ := delaySends_ok hdest hcook hqs
  have hres := resolve_of_isWrite hwrite s.fdManager
  have hne : ps ≠ [] := List.ne_nil_of_length_pos (by omega)
  have hbatch : delaySendBatch simd ctx 0 dest (ps.map fun p => (0, p)) s = (do
      let (ps, s) ← mySends simd ctx dest qs { s with draws := d }
      .ok ⟨ps.length, ps, s⟩) := by
    rw [delaySendBatch_many hmany, mySendBatch_many hdest hmany, hcook, ok_bind]
    simp only [hwrite, if_true]
  unfold Agrees
  rw [hbatch, hb]
  constructor
  · rintro ⟨a, b', ha, hb', hsame, -⟩
    cases hb'
    obtain ⟨⟨xs, t⟩, hsends, ha⟩ := bind_ok.mp ha
    cases ha
    obtain ⟨rs, d2, htwo, rfl⟩ := mySends_inv hdest hsends
    have hlen2 : rs.length = qs.length := (passAll_length htwo).symm
    have hroom : ¬ s.delayManager.full := by
      intro hfull
      rw [hwire, if_pos hfull] at hsame
      have hzero := congrArg List.length (List.append_cancel_left hsame)
      rw [datagrams_length hres, List.length_nil] at hzero
      omega
    refine ⟨hroom, ?_⟩
    rw [hwire, if_neg hroom] at hsame
    have hbytes := (datagrams_inj hres).mp (List.append_cancel_left hsame)
    cases hc : dest.cook with
    | false => exact .inl rfl
    | true =>
      rw [hc] at hcook htwo
      exact .inr ((cookAll_twice h (fun p hp => (hps p hp).lies) hqs hne hcook htwo).mp hbytes)
  · rintro ⟨hroom, hplain⟩
    have htwice : ∃ rs d2, passAll (cookFor simd ctx dest.cook) qs d = .ok (rs, d2) ∧ (∀ r ∈ rs, r.Lies) ∧ rs.map Packet.bytes = qs.map Packet.bytes := by
      cases hc : dest.cook with
      | false => exact ⟨qs, d, cookAll_false qs d, hqs, rfl⟩
      | true =>
        rw [hc] at hcook
        have hplain' : Plain ctx ps := hplain.resolve_left (by simp [hc])
        obtain ⟨rs, d2, htwo, hrs⟩ := cookAll_key h hplain'.1 hplain'.2.1 hqs d
        exact ⟨rs, d2, htwo, hrs, (cookAll_twice h (fun p hp => (hps p hp).lies) hqs hne hcook htwo).mpr hplain'⟩
    obtain ⟨rs, d2, htwo, hrs, hbytes⟩ := htwice
    obtain ⟨xs, hxs⟩ := @mySends_ok simd ctx dest hdest qs rs { s with draws := d } d2 htwo hrs
    refine ⟨_, b, by rw [hxs]; rfl, rfl, ?_, hqueue.symm⟩
    rw [hwire, if_neg hroom, ← (datagrams_inj hres).mpr hbytes]

/-- Sending in one go is sending one by one exactly when there is at most one packet, or nowhere
    to send to, or the queue of `delay_manager` has room, the packets fit the arrays of
    `sendmmsg` and `my_send` does not cook them a second time. -/
theorem batch_agrees_iff (h : ctx.Ready simd) (hdest : dest.inner ≠ .none) (hps : ∀ p ∈ ps, p.Sendable dest.cook) :
    Agrees simd ctx dest ps s ↔ Uniform ctx dest ps s := by
  unfold Uniform
  by_cases hone : ps.length ≤ 1
  · exact ⟨fun _ => .inl hone, fun _ => agrees_one h hdest hps hone⟩
  · cases hwrite : dest.isWrite with
    | false =>
      rw [agrees_mmsg h hdest hps (by omega) hwrite]
      simp [hone]
    | true =>
      rw [agrees_write h hdest hps (by omega) hwrite]
      simp [hone, resolve_of_isWrite hwrite]

end Agreement

/-- IVs of the default lengths, and no key. -/
def ctxPlain : CookCtx := { (default : CookCtx) with ivMin := 4, ivMax := 32 }

def oneByte : Packet := ⟨⟨fun _ => .ofNat 7, bufLen⟩, 1⟩

/-- One packet waits to be sent. -/
def waiting (capacity : Int) : Sender :=
  ⟨.init, ⟨capacity, [(5000, ⟨⟨.fd 3, false⟩, oneByte⟩)]⟩, fun _ => 0, fun _ => 0, []⟩

theorem oneByte_sendable (cook : Bool) : oneByte.Sendable cook := ⟨show 1 ≤ bufLen by decide, fun _ => by decide, fun _ => by decide⟩

theorem ctxPlain_ready : ctxPlain.Ready (.simd .avx2) := ⟨by decide, by decide, by decide, .inl rfl⟩

/-- Two packets go to a socket alike, and not to a descriptor that is written to: there the batch
    is cooked twice. -/
theorem batch_agrees_iff_two : Agrees .avx2 ctxPlain ⟨.fd 3, true⟩ [oneByte, oneByte] (waiting 0) ∧
    ¬ Agrees .avx2 ctxPlain ⟨.writeFd 3, true⟩ [oneByte, oneByte] (waiting 0) := by
  constructor
  · refine (batch_agrees_iff ctxPlain_ready (by decide) (by simp [oneByte_sendable])).mpr (.inr (.inr ⟨by decide, ?_⟩))
    exact (by decide : 2 ≤ 255)
  · intro hagree
    rcases (batch_agrees_iff ctxPlain_ready (by decide) (by simp [oneByte_sendable])).mp hagree with hone | hnowhere | ⟨-, hplain⟩
    · exact absurd hone (by decide)
    · cases hnowhere
    · -- the checksum is on
      rcases hplain with hcook | ⟨hchecksum, -⟩
      · cases hcook
      · cases hchecksum

/-- With the one place of the queue taken `delay_send` refuses both packets, and
    `delay_send_batch` sends them. -/
theorem batch_ignores_capacity : ¬ Agrees .avx2 ctxPlain ⟨.fd 3, false⟩ [oneByte, oneByte] (waiting 1) := by
  rintro ⟨a, b, ha, hb, hwire, -⟩
  have hbatch : a.sender.wire = [⟨3, none, [.ofNat 7]⟩, ⟨3, none, [.ofNat 7]⟩] := by
    cases ha
    rfl
  have hsends : b.2.wire = [] := by
    cases hb
    rfl
  rw [hbatch, hsends] at hwire
  cases hwire

end UdpSpeeder.Net
