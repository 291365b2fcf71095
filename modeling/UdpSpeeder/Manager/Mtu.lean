/-
  UdpSpeeder.Manager.Mtu — how long the shards of a mode 0 group get.

  The packets of a group are let in against the mtu of the tail shape, and a shorter shape is
  only taken within it, so a closed group keeps to the mtu if its packets did (`Within`). The
  packet that starts a group is let in against it when the encoder is empty, but not when it
  has just made the group before it close: it is appended unseen (`oversized`).
-/

import UdpSpeeder.Manager.Ledger
import UdpSpeeder.Manager.Progress

namespace UdpSpeeder.Manager

open Lib Fec

namespace FecEncodeManager

/-! ## The slices of a group -/

/-- The picked shape keeps to the mtu if the tail does. -/
theorem pickShape_fits {o : EncodeOptions} {p : FecParameter} {b : BlobEncode} {tail shape : RsParameter}
    (h : pickShape o p b tail = .ok shape) (ht : roundUpDiv b.currentLen tail.x ≤ p.mtu) : roundUpDiv b.currentLen shape.x ≤ p.mtu := by
  unfold pickShape at h
  split at h
  · obtain ⟨cost, -, h⟩ := bind_ok.mp h
    rw [check_bind] at h
    obtain ⟨-, h⟩ := h
    obtain ⟨best, hbest, h⟩ := bind_ok.mp h
    rw [check_bind] at h
    cases h.2
    refine loopE_inv (fun (_ : Nat) (best : Best) => roundUpDiv b.currentLen best.dataNum ≤ p.mtu) ht _ best hbest ?_
    intro m hm best best' hin htry
    unfold tryRow at htry
    simp only at htry
    rw [check_bind] at htry
    replace htry := htry.2
    split at htry
    · cases htry
      exact hin
    · rename_i hmtu
      split at htry
      · cases htry
        -- the check was of two bytes more
        refine le_trans (Nat.div_le_div_right ?_) (Nat.not_lt.mp hmtu)
        simp only
        omega
      · cases htry
        exact hin
  · cases h
    exact ht

/-- A closed mode 0 group: every shard has the length of a slice, behind its header. -/
theorem close_slices {e e' : FecEncodeManager} {o : EncodeOptions} {given : Bool} (h0 : e.fecPar.mode = 0)
    (hr : e.close o given = .ok e') : ∃ tail shape shards, e.fecPar.getTail = .ok tail ∧
      pickShape o e.fecPar e.blobEncode tail = .ok shape ∧ e'.sentBy = some shards ∧ shards ≠ [] ∧
        ∀ t ∈ shards, t.length = 8 + roundUpDiv e.blobEncode.currentLen shape.x := by
  obtain ⟨e1, shape, fecLen, hcut, hc⟩ := close_ok hr
  obtain ⟨tail, blob, htail, hshape, hout, rfl⟩ := cut_blob h0 hcut
  have hpos := hc.pos
  have hlen : fecLen = roundUpDiv e.blobEncode.currentLen shape.x := by
    unfold BlobEncode.output at hout
    rw [check_bind] at hout
    cases hout.2
    rfl
  have hlist : handedOut { e with blobEncode := blob } shape given = List.range (shape.x + shape.y) := by
    unfold handedOut
    rw [if_neg (show e.fecPar.mode ≠ 1 by omega)]
  have hsent := @output_sent e' _ (shardLen { e with blobEncode := blob } shape fecLen) hc.ready hc.count hc.sent
  rw [hlist] at hsent
  refine ⟨tail, shape, _, htail, hshape, by unfold sentBy; rw [hsent]; rfl, ?_, ?_⟩
  · simp only [datagrams, ne_eq, List.map_eq_nil_iff, List.range_eq_nil]
    omega
  · intro t ht
    simp only [datagrams, List.map_map] at ht
    obtain ⟨i, -, rfl⟩ := List.mem_map.mp ht
    simp only [Function.comp_apply, slice_length]
    unfold shardLen
    rw [if_neg (show ¬ (e.fecPar.mode = 1 ∧ _) by omega), hlen]

/-! ## Runs -/

/-- The packets of the pending group keep to the mtu, in the shape of the tail. -/
def Within (e : FecEncodeManager) : Prop :=
  e.fecPar.mode = 0 → e.counter ≠ 0 → ∀ tail, e.fecPar.getTail = .ok tail → roundUpDiv e.blobEncode.currentLen tail.x ≤ e.fecPar.mtu

/-- The packet that starts a group because it did not fit the one before it fits a group of its
    own. -/
def EncodeCall.FitsAlone (c : EncodeCall) : Prop :=
  ∀ s tail, c.s = some s → c.before.counter ≠ 0 → c.before.fecPar.getTail = .ok tail → c.before.TooLong tail s.length →
    roundUpDiv (4 + 2 + s.length) tail.x ≤ c.before.fecPar.mtu

/-- The mode 0 shards a call hands out are within the mtu. -/
def EncodeCall.SentWithin (c : EncodeCall) : Prop :=
  c.mode = 0 → ∀ shards, c.out.sent = some shards → ∀ t ∈ shards, t.length ≤ 8 + c.out.st.fecPar.mtu

theorem close_within {e e' : FecEncodeManager} {o : EncodeOptions} {given : Bool} (h0 : e.fecPar.mode = 0) (hcount : e.counter ≠ 0)
    (h : e.Within) (hr : e.close o given = .ok e') : ∀ shards, e'.sentBy = some shards → ∀ t ∈ shards, t.length ≤ 8 + e.fecPar.mtu := by
  obtain ⟨tail, shape, shards, htail, hshape, hsent, -, hlen⟩ := close_slices h0 hr
  intro shards' hsent' t ht
  rw [hsent] at hsent'
  cases hsent'
  rw [hlen t ht]
  exact Nat.add_le_add_left (pickShape_fits hshape (h h0 hcount tail htail)) 8

/-- What a packet that fits leaves. -/
theorem append_within {e e' : FecEncodeManager} {s : Bytes} {tail : RsParameter} (htail : e.fecPar.getTail = .ok tail)
    (hfits : ¬ e.TooLong tail s.length) {now : Nat} (hr : e.append now s = .ok e') : e'.Within := by
  have ha := append_ok hr
  intro h0 hcount tail' htail'
  rw [ha.fecPar] at h0 htail' ⊢
  rw [htail] at htail'
  cases htail'
  rw [(BlobEncode.input_len (ha.blob h0).1).2]
  by_contra hgt
  exact hfits ⟨h0, Nat.lt_of_not_le hgt⟩

theorem encodeOne_within {e : FecEncodeManager} {o : EncodeOptions} {s : Option Bytes} {out : EncodeOut} (h : e.Within)
    (hready : e.readyForOutput = false) (he : e.encodeOne o s = .ok out) (halone : EncodeCall.FitsAlone ⟨e, o, s, out⟩) :
    out.st.Within ∧ EncodeCall.SentWithin ⟨e, o, s, out⟩ := by
  obtain ⟨e0, e', htake, -, htook, hst, hsent, hpar⟩ := encodeOne_fecPar he
  obtain ⟨hsame, hkeep⟩ := takeUp_ok htake
  have hready0 : e0.readyForOutput = false := by rw [hsame]; exact hready
  suffices hall : e'.Within ∧ (e0.fecPar.mode = 0 → ∀ shards, e'.sentBy = some shards → ∀ t ∈ shards, t.length ≤ 8 + e0.fecPar.mtu) by
    obtain ⟨hw, hs⟩ := hall
    refine ⟨by rw [hst]; exact hw, fun h0 shards hsome => ?_⟩
    have h0' : e0.fecPar.mode = 0 := by rw [← hpar]; exact h0
    have hsome' : e'.sentBy = some shards := by rw [← hsent]; exact hsome
    intro t ht
    rw [show (EncodeCall.mk e o s out).out.st.fecPar = e0.fecPar from hpar]
    exact hs h0' shards hsome' t ht
  generalize out.ret = ret at htook
  have hnone : ∀ {e1 : FecEncodeManager}, e1.readyForOutput = false → ∀ shards, e1.sentBy = some shards →
      ∀ t ∈ shards, t.length ≤ 8 + e0.fecPar.mtu := by
    intro e1 hr shards hsome
    rw [sentBy_none hr] at hsome
    cases hsome
  cases htook with
  | ignored hcount => exact ⟨fun _ hne => absurd hcount hne, fun _ => hnone hready0⟩
  | taken hopen hfits hmode happend hroom =>
    exact ⟨append_within hopen.last hfits happend, fun _ => hnone ((append_ok happend).ready.trans hready0)⟩
  | sent hopen hmode happend hroom hsend =>
    have hp := (fastSend_frame hsend).2.2.1.trans (append_ok happend).fecPar
    exact ⟨fun h0 => by rw [hp] at h0; omega, fun h0 => by omega⟩
  | filled hopen hfits happend hfull hclose =>
    have ha := append_ok happend
    refine ⟨fun _ hne => absurd (close_frame hclose).2.1 hne, fun h0 => ?_⟩
    rw [← ha.fecPar] at h0 ⊢
    exact close_within h0 (by rw [ha.counter]; omega) (append_within hopen.last hfits happend) hclose
  | flushed hopen hcount hclose =>
    -- a group is pending, so the parameters are the ones it was filled under
    have hne : e.counter ≠ 0 := by rw [hsame] at hcount; exact hcount
    obtain rfl := hkeep hne
    exact ⟨fun _ hne => absurd (close_frame hclose).2.1 hne, fun h0 => close_within h0 hcount h hclose⟩
  | @overran s e1 _ tail hopen hlong hcount hclose happend =>
    have hne : e.counter ≠ 0 := by rw [hsame] at hcount; exact hcount
    obtain rfl := hkeep hne
    have ha := append_ok happend
    have hp := close_fecPar hclose
    obtain ⟨hempty, -, -⟩ := close_frame hclose
    refine ⟨?_, ?_⟩
    · intro h0 _ tail' htail'
      rw [ha.fecPar, hp] at htail' ⊢
      rw [hopen.last] at htail'
      cases htail'
      rw [(BlobEncode.input_len (ha.blob (by rw [hp]; exact hlong.1)).1).2, hempty.len]
      exact halone s tail rfl hne hopen.last hlong
    · intro h0
      rw [ha.sentBy (by rw [hp]; exact hlong.1)]
      exact close_within h0 hcount h hclose

/-- In a run whose packets that did not fit a group fit one of their own, no mode 0 shard is
    over the mtu. -/
theorem blob_within_mtu (log : List EncodeCall) (e : FecEncodeManager) (h : Called log e) (hfits : ∀ c ∈ log, c.FitsAlone) :
    ∀ c ∈ log, c.SentWithin := by
  suffices hall : e.Within ∧ ∀ c ∈ log, c.SentWithin from hall.2
  induction h with
  | start hc =>
    obtain ⟨p, -, hc⟩ := bind_ok.mp hc
    cases hc
    exact ⟨fun _ hne => absurd rfl hne, fun c hc => absurd hc (by simp)⟩
  | @call log e h o s out he ih =>
    obtain ⟨hw, hs⟩ := ih fun c hc => hfits c (List.mem_append_left _ hc)
    obtain ⟨hw', hs'⟩ := encodeOne_within hw h.pending.ready he (hfits _ (by simp))
    refine ⟨hw', fun c hc => ?_⟩
    rcases List.mem_append.mp hc with hc | hc
    · exact hs c hc
    · rw [List.mem_singleton.mp hc]
      exact hs'

/-! ## A packet nobody looked at -/

/-- One data shard and one parity shard, at the least mtu. -/
def leastMtu : FecParameter where
  version := 0
  mtu := 100
  queueLen := 200
  timeout := 8000
  mode := 0
  rsCnt := 1
  rsPar := fun i => ⟨i + 1, 1⟩

def leastOptions : EncodeOptions := ⟨leastMtu, true, 40, 1⟩

theorem leastMtu_inRange : leastMtu.InRange := by
  refine ⟨⟨by decide, fun _ _ => rfl, fun i hi => ?_⟩, by decide, by decide, .inl rfl⟩
  have hi : i < 1 := hi
  obtain rfl : i = 0 := by omega
  exact (by decide : 1 + 1 ≤ 255)

theorem leastOptions_light : ¬ leastOptions.Heavy := by unfold EncodeOptions.Heavy leastOptions; decide

/-- A steady encoder with those settings, `n` packets and `len` bytes in its blob. -/
structure Least (e : FecEncodeManager) (n len : Nat) : Prop where
  steady : e.Steady
  fecPar : e.fecPar = leastMtu
  counter : e.counter = n
  len : e.blobEncode.currentLen = len

theorem Least.too_long {e : FecEncodeManager} {n len : Nat} (h : Least e n len) (tail : RsParameter)
    (htail : e.fecPar.getTail = .ok tail) (k : Nat) : tail = ⟨1, 1⟩ ∧ (e.TooLong tail k ↔ 100 < len + 2 + k) := by
  rw [h.fecPar] at htail
  have htail : Except.ok ⟨1, 1⟩ = (Except.ok tail : Except Fault RsParameter) := htail
  cases htail
  refine ⟨rfl, ?_⟩
  unfold TooLong BlobEncode.getShardLenNext roundUpDiv
  rw [h.fecPar, h.len]
  show 0 = 0 ∧ 100 < (len + 2 + k + 1 - 1) / 1 ↔ _
  simp

/-- One call from there. -/
theorem Least.call {e : FecEncodeManager} {n len : Nat} (h : Least e n len) (s : Option Bytes)
    (hs : ∀ p, s = some p → p.length ≤ maxDataLen + 4) : ∃ out e', e.encodeOne leastOptions s = .ok out ∧
      Took leastOptions e s e' out.ret ∧ out.st = { e' with readyForOutput := false } ∧ out.sent = e'.sentBy ∧ out.st.Steady ∧
        out.st.fecPar = leastMtu := by
  obtain ⟨out, he, hst⟩ := (encodeOne_returns h.steady leastMtu_inRange hs).run leastOptions_light
  obtain ⟨e0, e', htake, -, htook, hout, hsent, hpar⟩ := encodeOne_fecPar he
  have hsame : e.takeUp leastOptions.gFecPar = .ok e := by
    unfold takeUp
    rw [if_neg fun hne => hne.2 (by rw [h.fecPar]; rfl)]
  rw [hsame] at htake
  cases htake
  exact ⟨out, e', he, htook, hout, hsent, hst, hpar.trans h.fecPar⟩

theorem Least.short {e : FecEncodeManager} {n len : Nat} (h : Least e n len) {s : Bytes} (hfits : len + 2 + s.length ≤ 100)
    (hn : n + 1 < 200) : ∃ out, e.encodeOne leastOptions (some s) = .ok out ∧ Least out.st (n + 1) (len + 2 + s.length) := by
  obtain ⟨out, e', he, htook, hst, -, hsteady, hpar⟩ := h.call (some s) fun p hp => by
    cases hp
    unfold maxDataLen
    omega
  suffices hnext : out.st.counter = n + 1 ∧ out.st.blobEncode.currentLen = len + 2 + s.length from
    ⟨out, he, hsteady, hpar, hnext.1, hnext.2⟩
  have hcount := h.counter
  generalize out.ret = ret at htook
  cases htook with
  | ignored _ hwhy =>
    obtain ⟨tail, htail, hlong⟩ := hwhy s rfl
    have := ((h.too_long tail htail s.length).2).mp hlong
    omega
  | taken hopen hfits hmode happend hroom =>
    have ha := append_ok happend
    rw [hst]
    exact ⟨ha.counter.trans (by rw [hcount]), (BlobEncode.input_len (ha.blob hmode).1).2.trans (by rw [h.len])⟩
  | sent hopen hmode => rw [h.fecPar] at hmode; cases hmode
  | filled hopen hfits happend hfull hclose =>
    have ha := append_ok happend
    unfold Full at hfull
    rw [ha.fecPar, ha.counter, hcount, h.fecPar] at hfull
    rcases hfull with ⟨-, hq⟩ | ⟨h1, -⟩
    · have hq : n + 1 = 200 := hq
      omega
    · cases h1
  | overran hopen hlong =>
    have := ((h.too_long _ hopen.last s.length).2).mp hlong
    omega

/-- The shards of a group closed from there. -/
theorem Least.closed {e e' : FecEncodeManager} {n len : Nat} (h : Least e n len) {given : Bool} (hclose : e.close leastOptions given = .ok e') :
    ∃ shards, e'.sentBy = some shards ∧ shards ≠ [] ∧ ∀ t ∈ shards, t.length = 8 + len := by
  obtain ⟨tail, shape, shards, htail, hshape, hsome, hnil, hlen⟩ := close_slices (by rw [h.fecPar]; rfl) hclose
  refine ⟨shards, hsome, hnil, fun t ht => ?_⟩
  obtain ⟨i, hi, rfl⟩ := pickShape_row (by rw [h.fecPar]; exact leastMtu_inRange.table.numbered) htail hshape
  rw [hlen t ht, h.len]
  rw [h.fecPar] at hi ⊢
  have hi : i < 1 := hi
  obtain rfl : i = 0 := by omega
  show 8 + (len + 1 - 1) / 1 = 8 + len
  simp

/-- A packet that does not fit is appended all the same, to the group after. -/
theorem Least.long {e : FecEncodeManager} {n len : Nat} (h : Least e n len) {s : Bytes} (hlong : 100 < len + 2 + s.length)
    (hs : s.length ≤ maxDataLen + 4) (hn : n ≠ 0) :
    ∃ out shards, e.encodeOne leastOptions (some s) = .ok out ∧ Least out.st 1 (6 + s.length) ∧ out.sent = some shards ∧ shards ≠ [] ∧
      ∀ t ∈ shards, t.length = 8 + len := by
  obtain ⟨out, e', he, htook, hst, hsent, hsteady, hpar⟩ := h.call (some s) fun p hp => by cases hp; exact hs
  have hcount := h.counter
  have hnot : ∀ {tail : RsParameter}, e.Open tail → ¬ ¬ e.TooLong tail s.length := fun hopen hfits =>
    hfits (((h.too_long _ hopen.last s.length).2).mpr hlong)
  generalize out.ret = ret at htook
  cases htook with
  | ignored hzero => omega
  | taken hopen hfits => exact absurd hfits (hnot hopen)
  | sent hopen hmode => rw [h.fecPar] at hmode; cases hmode
  | filled hopen hfits => exact absurd hfits (hnot hopen)
  | overran hopen hlong hne hclose happend =>
    have ha := append_ok happend
    obtain ⟨hempty, hzero, -⟩ := close_frame hclose
    obtain ⟨shards, hsome, hnil, hlen⟩ := h.closed hclose
    have hmode : e.fecPar.mode = 0 := hlong.1
    rw [← close_fecPar hclose] at hmode
    have hblob := (BlobEncode.input_len (ha.blob hmode).1).2
    rw [hempty.len] at hblob
    refine ⟨out, shards, he, ⟨hsteady, hpar, ?_, ?_⟩, ?_, hnil, hlen⟩
    · rw [hst]
      exact ha.counter.trans (by rw [hzero])
    · rw [hst]
      exact hblob
    · rw [hsent, ha.sentBy hmode, hsome]

theorem Least.flush {e : FecEncodeManager} {n len : Nat} (h : Least e n len) (hn : n ≠ 0) :
    ∃ out shards, e.encodeOne leastOptions none = .ok out ∧ out.st.fecPar = leastMtu ∧ out.sent = some shards ∧ shards ≠ [] ∧
      ∀ t ∈ shards, t.length = 8 + len := by
  obtain ⟨out, e', he, htook, hst, hsent, -, hpar⟩ := h.call none fun p hp => by cases hp
  have hcount := h.counter
  generalize out.ret = ret at htook
  cases htook with
  | ignored hzero => omega
  | flushed hopen hne hclose =>
    obtain ⟨shards, hsome, hnil, hlen⟩ := h.closed hclose
    exact ⟨out, shards, he, hpar, hsent.trans hsome, hnil, hlen⟩

theorem exists_least : ∃ e0 e : FecEncodeManager, e0.construct leastMtu 0 = .ok e ∧ Least e 0 4 := by
  have hnew := @construct_self { (default : FecEncodeManager) with fecPar := leastMtu } (by decide) 0
  exact ⟨_, _, hnew, construct_steady leastMtu_inRange hnew, rfl, rfl, rfl⟩

/-- What became of 50 bytes, `k` bytes that did not fit with them, and the timer. -/
structure Overrun (k : Nat) (c1 c2 c3 : EncodeCall) : Prop where
  given : c1.s = some (List.replicate 50 0) ∧ c2.s = some (List.replicate k 0) ∧ c3.s = none
  options : c1.o = leastOptions ∧ c2.o = leastOptions ∧ c3.o = leastOptions
  before : Least c1.before 0 4 ∧ Least c2.before 1 56 ∧ Least c3.before 1 (6 + k)
  fecPar : c1.out.st.fecPar = leastMtu ∧ c2.out.st.fecPar = leastMtu ∧ c3.out.st.fecPar = leastMtu
  first : ∃ shards, c2.out.sent = some shards ∧ shards ≠ [] ∧ ∀ t ∈ shards, t.length = 8 + 56
  second : ∃ shards, c3.out.sent = some shards ∧ shards ≠ [] ∧ ∀ t ∈ shards, t.length = 8 + (6 + k)

theorem exists_overrun {k : Nat} (hlong : 100 < 56 + 2 + k) (hk : k ≤ maxDataLen + 4) :
    ∃ c1 c2 c3 e, Called [c1, c2, c3] e ∧ Overrun k c1 c2 c3 := by
  obtain ⟨e0, e, hnew, h⟩ := exists_least
  obtain ⟨out1, he1, h1⟩ := @Least.short e 0 4 h (List.replicate 50 0) (by rw [List.length_replicate]; decide) (by decide)
  rw [List.length_replicate] at h1
  obtain ⟨out2, group, he2, h2, hsent2, hne2, hlen2⟩ := h1.long (s := List.replicate k 0) (by rw [List.length_replicate]; exact hlong)
    (by rw [List.length_replicate]; exact hk) (by decide)
  rw [List.length_replicate] at h2
  obtain ⟨out3, shards, he3, hpar, hsent3, hne3, hlen3⟩ := h2.flush (by decide)
  exact ⟨_, _, _, _, (((Called.start hnew).call he1).call he2).call he3, ⟨rfl, rfl, rfl⟩, ⟨rfl, rfl, rfl⟩, ⟨h, h1, h2⟩,
    ⟨h1.fecPar, h2.fecPar, hpar⟩, ⟨group, hsent2, hne2, hlen2⟩, ⟨shards, hsent3, hne3, hlen3⟩⟩

/-- With 200 bytes, which do not fit: 206 bytes at an mtu of 100. -/
theorem oversized : ¬ ∀ (log : List EncodeCall) (e : FecEncodeManager), Called log e →
    (∀ c ∈ log, c.mode = 0 ∧ c.o.gFecPar.InRange ∧ ∀ s, c.s = some s → s.length ≤ maxDataLen + 4) → ∀ c ∈ log, c.SentWithin := by
  intro hall
  obtain ⟨c1, c2, c3, e, hrun, h⟩ := @exists_overrun 200 (by decide) (by decide)
  obtain ⟨hg1, hg2, hg3⟩ := h.given
  obtain ⟨ho1, ho2, ho3⟩ := h.options
  obtain ⟨hp1, hp2, hp3⟩ := h.fecPar
  have hin : ∀ c ∈ [c1, c2, c3], c.mode = 0 ∧ c.o.gFecPar.InRange ∧ ∀ s, c.s = some s → s.length ≤ maxDataLen + 4 := by
    intro c hc
    simp only [List.mem_cons, List.not_mem_nil, or_false] at hc
    rcases hc with rfl | rfl | rfl
    · exact ⟨by rw [EncodeCall.mode, hp1]; rfl, ho1 ▸ leastMtu_inRange, fun s hs => by
        rw [hg1] at hs; cases hs; rw [List.length_replicate]; decide⟩
    · exact ⟨by rw [EncodeCall.mode, hp2]; rfl, ho2 ▸ leastMtu_inRange, fun s hs => by
        rw [hg2] at hs; cases hs; rw [List.length_replicate]; decide⟩
    · exact ⟨by rw [EncodeCall.mode, hp3]; rfl, ho3 ▸ leastMtu_inRange, fun s hs => by rw [hg3] at hs; cases hs⟩
  obtain ⟨shards, hsent, hne, hlen⟩ := h.second
  have hwithin := hall _ _ hrun hin c3 (by simp) (by rw [EncodeCall.mode, hp3]; rfl) shards hsent
  obtain ⟨t, ht⟩ := List.exists_mem_of_ne_nil _ hne
  have hle := hwithin t ht
  rw [hlen t ht, hp3] at hle
  exact absurd hle (by decide)

/-- With 60 bytes, which fit alone: both groups go out within the mtu. -/
theorem blob_within_mtu_overrun : ∃ c1 c2 c3 e, Called [c1, c2, c3] e ∧ Overrun 60 c1 c2 c3 ∧ ∀ c ∈ [c1, c2, c3], c.SentWithin := by
  obtain ⟨c1, c2, c3, e, hrun, h⟩ := @exists_overrun 60 (by decide) (by decide)
  refine ⟨c1, c2, c3, e, hrun, h, blob_within_mtu _ _ hrun fun c hc => ?_⟩
  obtain ⟨hg1, hg2, hg3⟩ := h.given
  obtain ⟨hb1, hb2, -⟩ := h.before
  intro s tail hs hcount htail hlong
  simp only [List.mem_cons, List.not_mem_nil, or_false] at hc
  rcases hc with rfl | rfl | rfl
  · exact absurd hb1.counter hcount
  · rw [hg2] at hs
    cases hs
    obtain ⟨rfl, -⟩ := hb2.too_long tail htail 60
    rw [hb2.fecPar, List.length_replicate]
    decide
  · rw [hg3] at hs
    cases hs

end FecEncodeManager

end UdpSpeeder.Manager
