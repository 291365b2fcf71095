/-
  UdpSpeeder.Manager.Progress — no assertion of the encoder fails.

  `Steady` ties what the assertions compare: the packets of the group to the queue length or
  the tail of the table, the blob to what the mtu lets in, the rows to their buffers. Every
  call of `input` returns from it and keeps it (`encodeOne_returns`), unless the cost of a
  shape does not fit an `int`: the overhead it adds is an option nobody checks.
-/

import UdpSpeeder.Manager.Shapes

namespace UdpSpeeder

variable {α β : Type}

/-- The call returns, and `Q` holds of what it returns; an `int` may overflow, but only when
    `wraps`. -/
def Returns (wraps : Prop) (x : Except Fault α) (Q : α → Prop) : Prop :=
  match x with
  | .ok a => Q a
  | .error f => wraps ∧ ∃ expr, f = .overflow expr

namespace Returns

variable {wraps : Prop}

theorem of_ok {x : Except Fault α} {a : α} {Q : α → Prop} (hx : x = .ok a) (ha : Q a) : Returns wraps x Q := by rw [hx]; exact ha

theorem bind {x : Except Fault α} {k : α → Except Fault β} {P : α → Prop} {Q : β → Prop} (hx : Returns wraps x P)
    (hk : ∀ a, P a → Returns wraps (k a) Q) : Returns wraps (x >>= k) Q := by
  cases x with
  | error f => exact hx
  | ok a => exact hk a hx

theorem ok {x : Except Fault α} {a : α} {Q : α → Prop} (hx : Returns wraps x Q) (h : x = .ok a) : Q a := by rw [h] at hx; exact hx

theorem error {x : Except Fault α} {f : Fault} {Q : α → Prop} (hx : Returns wraps x Q) (h : x = .error f) :
    wraps ∧ ∃ expr, f = .overflow expr := by rw [h] at hx; exact hx

theorem run {x : Except Fault α} {Q : α → Prop} (hx : Returns wraps x Q) (h : ¬ wraps) : ∃ a, x = .ok a ∧ Q a := by
  cases x with
  | error f => exact absurd hx.1 h
  | ok a => exact ⟨a, rfl, hx⟩

end Returns

namespace Manager

open Lib Fec

/-! ## Parameters -/

namespace FecParameter

/-- A table in order: row `i` for `i + 1` data shards, and no row over 255. -/
structure WellFormed (p : FecParameter) : Prop where
  cnt : 1 ≤ p.rsCnt
  numbered : p.Numbered
  sum : ∀ i < p.rsCnt, (p.rsPar i).x + (p.rsPar i).y ≤ 255

/-- Settings the options and the commands let through. -/
structure InRange (p : FecParameter) : Prop where
  table : p.WellFormed
  mtu : 100 ≤ p.mtu ∧ p.mtu ≤ 2000
  queueLen : 1 ≤ p.queueLen ∧ p.queueLen ≤ 10000
  mode : p.mode = 0 ∨ p.mode = 1

theorem clone_ok {p g p' : FecParameter} (h : p.clone g = .ok p') : 1 ≤ g.rsCnt ∧ p' = { g with rsPar := p'.rsPar } ∧
    ∀ i < g.rsCnt, p'.rsPar i = g.rsPar i := by
  unfold clone at h
  rw [check_bind] at h
  obtain ⟨hcnt, h⟩ := h
  cases h
  exact ⟨hcnt, rfl, fun i hi => by simp only; rw [← Nat.zero_add i, copyTo_in _ _ hi, Nat.zero_add]⟩

theorem clone_run {g : FecParameter} (p : FecParameter) (h : 1 ≤ g.rsCnt) : ∃ p', p.clone g = .ok p' := by
  unfold clone
  rw [check_true h]
  exact ⟨_, rfl⟩

theorem WellFormed.congr {p q : FecParameter} (h : p.WellFormed) (hcnt : q.rsCnt = p.rsCnt) (hrow : ∀ i < p.rsCnt, q.rsPar i = p.rsPar i) :
    q.WellFormed := by
  refine ⟨hcnt ▸ h.cnt, ?_, ?_⟩
  · intro i hi
    rw [hcnt] at hi
    rw [hrow i hi]
    exact h.numbered i hi
  · intro i hi
    rw [hcnt] at hi
    rw [hrow i hi]
    exact h.sum i hi

theorem InRange.clone {p g p' : FecParameter} (h : g.InRange) (hc : p.clone g = .ok p') : p'.InRange := by
  obtain ⟨-, hp, hrow⟩ := clone_ok hc
  have hcnt : p'.rsCnt = g.rsCnt := by rw [hp]
  refine ⟨h.table.congr hcnt hrow, ?_, ?_, ?_⟩
  · rw [hp]; exact h.mtu
  · rw [hp]; exact h.queueLen
  · rw [hp]; exact h.mode

section WellFormed

variable {p : FecParameter} (h : p.WellFormed)
include h

theorem WellFormed.getTail : p.getTail = .ok (p.rsPar (p.rsCnt - 1)) := by
  unfold FecParameter.getTail
  rw [check_true h.cnt]
  rfl

theorem WellFormed.tail_x : (p.rsPar (p.rsCnt - 1)).x = p.rsCnt := by
  have := h.cnt
  rw [h.numbered _ (by omega)]
  omega

theorem WellFormed.cnt_le : p.rsCnt ≤ 255 := by
  have := h.cnt
  have := h.sum (p.rsCnt - 1) (by omega)
  rw [h.tail_x] at this
  omega

end WellFormed

theorem InRange.size_le {p : FecParameter} (h : p.InRange) : p.rsCnt * max p.mtu (maxDataLen + 10) ≤ 920550 := by
  have := h.mtu
  exact Nat.mul_le_mul h.table.cnt_le (show max p.mtu (maxDataLen + 10) ≤ 3610 by unfold maxDataLen; omega)

theorem InRange.size_ge {p : FecParameter} (h : p.InRange) : maxDataLen + 10 ≤ p.rsCnt * max p.mtu (maxDataLen + 10) :=
  (le_max_right _ _).trans (Nat.le_mul_of_pos_left _ h.table.cnt)

end FecParameter

/-- An overhead that may take the cost of a shape past `INT_MAX`, or below zero. -/
def EncodeOptions.Heavy (o : EncodeOptions) : Prop := o.headerOverhead < 0 ∨ 4000000 < o.headerOverhead

namespace FecEncodeManager

/-! ## The shape -/

theorem tailCost_returns (o : EncodeOptions) {b : BlobEncode} {tail : RsParameter} (hpos : 0 < tail.x) (hsum : tail.x + tail.y ≤ 255)
    (hsize : b.currentLen ≤ 920550) : Returns o.Heavy (tailCost o b tail) fun _ => True := by
  have hshard : b.getShardLenNext tail.x 0 ≤ 920552 := by
    unfold BlobEncode.getShardLenNext
    rw [roundUpDiv_le_iff hpos]
    exact le_trans (by omega) (Nat.le_mul_of_pos_left _ hpos)
  unfold tailCost
  simp only
  generalize b.getShardLenNext tail.x 0 = len at hshard
  by_cases hheavy : o.headerOverhead < 0 ∨ 4000000 < o.headerOverhead
  · unfold check
    split
    · trivial
    · exact ⟨hheavy, _, rfl⟩
  · -- 4920552 * 255 fits
    have h0 : 0 ≤ ((len : Int) + o.headerOverhead) * ((tail.x : Int) + tail.y) := Int.mul_nonneg (by omega) (by omega)
    have h1 : ((len : Int) + o.headerOverhead) * ((tail.x : Int) + tail.y) ≤ 4920552 * 255 :=
      Int.mul_le_mul (by omega) (by omega) (by omega) (by omega)
    rw [check_true (by unfold intMax; omega), ok_bind]
    trivial

/-- The shape is a row of the table, and its slices are within the mtu if those of the tail
    are. -/
theorem pickShape_returns (o : EncodeOptions) {p : FecParameter} {b : BlobEncode} (hp : p.WellFormed) (hsize : b.currentLen ≤ 920550) :
    Returns o.Heavy (pickShape o p b (p.rsPar (p.rsCnt - 1))) fun shape => (∃ i < p.rsCnt, shape = p.rsPar i) ∧
      roundUpDiv b.currentLen shape.x ≤ max (roundUpDiv b.currentLen p.rsCnt) p.mtu := by
  have hx := hp.tail_x
  have hcnt := hp.cnt
  unfold pickShape
  split
  · refine (tailCost_returns o (by omega) (hp.sum _ (by omega)) hsize).bind fun cost _ => ?_
    rw [check_true (by omega), ok_bind, hx]
    obtain ⟨best, hbest, ⟨h1, h2⟩, h3⟩ := @loopE_ok _ _ (fun (_ : Nat) (best : Best) =>
        (1 ≤ best.dataNum ∧ best.dataNum ≤ p.rsCnt) ∧
          roundUpDiv b.currentLen best.dataNum ≤ max (roundUpDiv b.currentLen p.rsCnt) p.mtu)
      (tryRow o p b) ⟨cost, p.rsCnt⟩ ⟨⟨hcnt, le_rfl⟩, le_max_left _ _⟩ (p.rsCnt - 1) (by
        rintro m hm best ⟨hrange, hlen⟩
        have hrow := hp.numbered m (by omega)
        unfold tryRow
        simp only
        rw [check_true hrow, ok_bind, hrow]
        split
        · exact ⟨best, rfl, hrange, hlen⟩
        · rename_i hmtu
          split
          · refine ⟨_, rfl, ⟨by simp, by simp only; omega⟩, le_max_of_le_right ?_⟩
            refine le_trans (Nat.div_le_div_right ?_) (Nat.not_lt.mp hmtu)
            simp only
            omega
          · exact ⟨best, rfl, hrange, hlen⟩)
    rw [hbest, ok_bind, check_true ⟨h1, h2⟩, ok_bind]
    refine ⟨⟨best.dataNum - 1, by omega, ?_⟩, h3⟩
    have hrow := hp.numbered (best.dataNum - 1) (by omega)
    rw [Nat.sub_add_cancel h1] at hrow
    exact congrArg (fun x => RsParameter.mk x _) hrow.symm
  · exact ⟨⟨p.rsCnt - 1, by omega, rfl⟩, by rw [hx]; exact le_max_left _ _⟩

/-! ## What every call keeps -/

/-- The last row of the table. -/
def lastRow (e : FecEncodeManager) : RsParameter := e.fecPar.rsPar (e.fecPar.rsCnt - 1)

/-- A group within its limits, perhaps full. -/
structure Held (e : FecEncodeManager) : Prop where
  par : e.fecPar.InRange
  queue : e.fecPar.mode = 0 → e.counter ≤ e.fecPar.queueLen ∧ e.blobEncode.counter = e.counter
  group : e.fecPar.mode = 1 → e.counter ≤ e.fecPar.rsCnt
  fresh : e.counter = 0 ∨ e.fecPar.mode = 1 → e.blobEncode.counter = 0 ∧ e.blobEncode.currentLen = 4
  size : e.blobEncode.currentLen ≤ e.fecPar.rsCnt * max e.fecPar.mtu (maxDataLen + 10)
  rows : e.fecPar.mode = 1 → ∀ i < e.counter, e.inputLen i ≤ maxDataLen + 6

/-- An encoder between two calls: nothing to hand out, and room for a packet. -/
structure Steady (e : FecEncodeManager) : Prop where
  held : e.Held
  room : e.Open e.lastRow
  ready : e.readyForOutput = false

theorem Held.emptied {e : FecEncodeManager} (hpar : e.fecPar.InRange) (hcount : e.counter = 0)
    (hblob : e.blobEncode.counter = 0 ∧ e.blobEncode.currentLen = 4) : e.Held := by
  have hsize := hpar.size_ge
  refine ⟨hpar, fun _ => ⟨?_, ?_⟩, ?_, fun _ => hblob, ?_, ?_⟩
  · omega
  · rw [hblob.1, hcount]
  · intro _
    omega
  · rw [hblob.2]
    omega
  · intro _ i hi
    omega

theorem Held.open_of_lt {e : FecEncodeManager} (h : e.Held) (hqueue : e.fecPar.mode = 0 → e.counter < e.fecPar.queueLen)
    (hgroup : e.fecPar.mode = 1 → e.counter < e.fecPar.rsCnt) : e.Open e.lastRow :=
  ⟨h.par.table.getTail, hqueue, fun h1 => (hgroup h1).trans_eq h.par.table.tail_x.symm⟩

theorem Held.open_empty {e : FecEncodeManager} (h : e.Held) (hcount : e.counter = 0) : e.Open e.lastRow :=
  h.open_of_lt (fun _ => by have := h.par.queueLen; omega) fun _ => by have := h.par.table.cnt; omega

/-! ## Taking a packet in -/

theorem append_rows_run {e : FecEncodeManager} (now : Nat) {s : Bytes} (h1 : e.fecPar.mode = 1) (hrow : e.counter < maxFecPacketNum + 5)
    (hlen : 10 + s.length ≤ bufLen) : ∃ e', e.append now s = .ok e' := by
  generalize hstart : (if e.counter = 0 then { e with firstPacketTime := now, timer := some e.fecPar.timeout } else e) = e1
  have hsame : e1.fecPar = e.fecPar ∧ e1.counter = e.counter := by
    rw [← hstart]
    split <;> exact ⟨rfl, rfl⟩
  have hmode : e1.fecPar.mode = 1 := hsame.1 ▸ h1
  unfold bufLen maxDataLen at hlen
  unfold append
  simp only [hstart]
  rw [if_neg (by omega), if_pos hmode, check_true (show s.length ≤ 65535 by omega), ok_bind, hsame.2, check_true hrow, ok_bind,
    check_true (show 10 + s.length ≤ bufLen from hlen), ok_bind]
  exact ⟨_, rfl⟩

theorem append_returns {e : FecEncodeManager} (now : Nat) {s : Bytes} (h : e.Held) (hopen : e.Open e.lastRow) (hs : s.length ≤ maxDataLen + 4)
    (hfit : e.fecPar.mode = 0 → e.blobEncode.currentLen + 2 + s.length ≤ e.fecPar.rsCnt * max e.fecPar.mtu (maxDataLen + 10)) :
    ∃ e', e.append now s = .ok e' ∧ e'.Held := by
  have hs' : s.length ≤ 3604 := hs
  have hcnt := h.par.table.cnt_le
  have hqueue := h.par.queueLen
  have hkeep : ∀ e', e.append now s = .ok e' → e'.Held := by
    intro e' hr
    have ha := append_ok hr
    have hroom := hopen.queue
    have hlast := hopen.group
    rw [show e.lastRow.x = e.fecPar.rsCnt from h.par.table.tail_x] at hlast
    refine ⟨ha.fecPar ▸ h.par, ?_, ?_, ?_, ?_, ?_⟩
    · intro h0
      rw [ha.fecPar] at h0 ⊢
      obtain ⟨hc, -⟩ := BlobEncode.input_len (ha.blob h0).1
      rw [hc, ha.counter, (h.queue h0).2]
      have := hroom h0
      exact ⟨by omega, rfl⟩
    · intro h1
      rw [ha.fecPar] at h1 ⊢
      rw [ha.counter]
      exact hlast h1
    · intro hz
      rw [ha.fecPar, ha.counter] at hz
      have h1 := hz.resolve_left (by omega)
      rw [(ha.row h1).2.2.2.1]
      exact h.fresh (.inr h1)
    · rw [ha.fecPar]
      rcases h.par.mode with h0 | h1
      · rw [(BlobEncode.input_len (ha.blob h0).1).2]
        exact hfit h0
      · rw [(ha.row h1).2.2.2.1]
        exact h.size
    · intro h1 i hi
      rw [ha.fecPar] at h1
      rw [(ha.row h1).2.2.2.2.1, upd_apply]
      split
      · omega
      · rw [ha.counter] at hi
        exact h.rows h1 i (by omega)
  suffices hrun : ∃ e', e.append now s = .ok e' by
    obtain ⟨e', hr⟩ := hrun
    exact ⟨e', hr, hkeep e' hr⟩
  rcases h.par.mode with h0 | h1
  · have hsize : e.blobEncode.currentLen + 2 + s.length ≤ 920550 := (hfit h0).trans (h.par.size_le)
    have hroom := hopen.queue h0
    have hcount := (h.queue h0).2
    exact append_run now h0 (by unfold blobBufSize maxFecPacketNum bufLen maxDataLen; omega) (by omega) (by unfold maxBlobPacketNum; omega)
  · have hlast := h.group h1
    exact append_rows_run now h1 (by unfold maxFecPacketNum; omega) (by unfold bufLen maxDataLen; omega)

/-! ## Closing and sending -/

theorem longest_le {inputLen : Nat → Nat} {n m : Nat} (h : ∀ i < n, inputLen i ≤ m) : longest inputLen n ≤ m := by
  unfold longest
  induction n with
  | zero => exact Nat.zero_le m
  | succ n ih =>
    rw [loop_succ]
    split
    · exact h n (by omega)
    · exact ih fun i hi => h i (by omega)

theorem close_returns {e : FecEncodeManager} (o : EncodeOptions) (given : Bool) (h : e.Held) (hpos : 0 < e.counter)
    (hready : e.readyForOutput = false) : Returns o.Heavy (e.close o given) fun e' => e'.Held ∧ e'.counter = 0 ∧ e'.fecPar = e.fecPar ∧
      e'.blobEncode.currentLen = 4 := by
  have hpar := h.par.table
  have hcnt := hpar.cnt
  have hkeep : ∀ e', e.close o given = .ok e' → e'.Held ∧ e'.counter = 0 ∧ e'.fecPar = e.fecPar ∧ e'.blobEncode.currentLen = 4 := by
    intro e' hr
    obtain ⟨e1, shape, fecLen, -, hc⟩ := close_ok hr
    have hblob : e'.blobEncode.counter = 0 ∧ e'.blobEncode.currentLen = 4 := by rw [hc.blob]; exact ⟨rfl, rfl⟩
    exact ⟨.emptied (by rw [close_fecPar hr]; exact h.par) hc.counter hblob, hc.counter, close_fecPar hr, hblob.2⟩
  rcases h.par.mode with h0 | h1
  · have hmtu := h.par.mtu
    have hslice : roundUpDiv e.blobEncode.currentLen e.fecPar.rsCnt ≤ maxDataLen + 10 := by
      rw [roundUpDiv_le_iff (by omega)]
      exact h.size.trans (Nat.mul_le_mul_left _ (by unfold maxDataLen; omega))
    have hpick := pickShape_returns o hpar (h.size.trans h.par.size_le)
    cases hshape : pickShape o e.fecPar e.blobEncode (e.fecPar.rsPar (e.fecPar.rsCnt - 1)) with
    | error f =>
      rw [hshape] at hpick
      unfold close cut
      rw [if_pos h0, hpar.getTail, ok_bind, hshape]
      exact hpick
    | ok shape =>
      obtain ⟨⟨i, hi, rfl⟩, hlen⟩ := hpick.ok hshape
      have hx := hpar.numbered i hi
      have hsum := hpar.sum i hi
      obtain ⟨e', B, hclose, -, -⟩ := close_blob_run given h0 hpar.getTail hshape (by omega) (by omega) (by
        unfold bufLen
        unfold maxDataLen at *
        omega) hready
      exact .of_ok hclose (hkeep e' hclose)
  · have hle := h.group h1
    have hx := hpar.numbered (e.counter - 1) (by omega)
    have hsum := hpar.sum (e.counter - 1) (by omega)
    have hlong := longest_le (h.rows h1)
    have hcut : e.cut o = .ok (e, ⟨e.counter, (e.fecPar.rsPar (e.counter - 1)).y⟩, longest e.inputLen e.counter) := by
      unfold cut
      rw [if_neg (by omega), check_true hle, ok_bind]
    obtain ⟨e', hclose, -⟩ := @close_run e _ o given _ _ hcut hpos (by simp only; omega) (by
      unfold bufLen
      unfold maxDataLen at *
      omega) (fun h0 => by omega) hready
    exact .of_ok hclose (hkeep e' hclose)

theorem fastSend_returns {e : FecEncodeManager} (h : e.Held) (h1 : e.fecPar.mode = 1) (hpos : 0 < e.counter)
    (hready : e.readyForOutput = false) : ∃ e', e.fastSend = .ok e' ∧ e'.Held ∧ e'.counter = e.counter ∧ e'.fecPar = e.fecPar := by
  have hcnt := h.par.table.cnt_le
  have hle := h.group h1
  unfold fastSend
  rw [check_true (show 1 ≤ e.counter from hpos), ok_bind, check_true (show e.counter ≤ 255 by omega), ok_bind, check_true hready, ok_bind]
  exact ⟨_, rfl, ⟨h.par, h.queue, h.group, h.fresh, h.size, h.rows⟩, rfl, rfl⟩

/-! ## One call -/

theorem takeUp_returns {e : FecEncodeManager} {g : FecParameter} (h : e.Steady) (hg : g.InRange) :
    ∃ e0, e.takeUp g = .ok e0 ∧ e0.Steady := by
  unfold takeUp
  split
  · rename_i hc
    obtain ⟨p, hp⟩ := FecParameter.clone_run e.fecPar hg.table.cnt
    rw [hp]
    have hheld : ({ e with fecPar := p } : FecEncodeManager).Held := .emptied (hg.clone hp) hc.1 (h.held.fresh (.inl hc.1))
    exact ⟨_, rfl, hheld, hheld.open_empty hc.1, h.ready⟩
  · exact ⟨e, rfl, h⟩

/-- A packet that fits, or the timer. -/
theorem take_returns {e : FecEncodeManager} (o : EncodeOptions) (h : e.Steady) {s : Option Bytes}
    (hs : ∀ p, s = some p → p.length ≤ maxDataLen + 4 ∧ ¬ e.TooLong e.lastRow p.length) :
    Returns o.Heavy (e.take o e.lastRow s) fun r => r.1.Held ∧ r.1.Open r.1.lastRow := by
  cases s with
  | none =>
    unfold take
    simp only
    split
    · exact ⟨h.held, h.room⟩
    · refine (close_returns o false h.held (by omega) h.ready).bind ?_
      rintro e1 ⟨hheld, hcount, -, -⟩
      exact ⟨hheld, hheld.open_empty hcount⟩
  | some s =>
    obtain ⟨hlen, hfits⟩ := hs s rfl
    have hpar := h.held.par.table
    obtain ⟨e1, happend, hheld⟩ := append_returns o.now h.held h.room hlen fun h0 => by
      -- the size check has passed
      have hle : roundUpDiv (e.blobEncode.currentLen + 2 + s.length) e.lastRow.x ≤ e.fecPar.mtu := by
        by_contra hgt
        exact hfits ⟨h0, by unfold BlobEncode.getShardLenNext; omega⟩
      rw [show e.lastRow.x = e.fecPar.rsCnt from hpar.tail_x, roundUpDiv_le_iff hpar.cnt] at hle
      exact hle.trans (Nat.mul_le_mul_left _ (le_max_left _ _))
    have ha := append_ok happend
    have hready : e1.readyForOutput = false := ha.ready.trans h.ready
    have hrow : e.lastRow.x = e1.fecPar.rsCnt := by rw [ha.fecPar]; exact hpar.tail_x
    unfold take
    simp only [happend, ok_bind]
    split
    · refine (close_returns o true hheld (by rw [ha.counter]; omega) hready).bind ?_
      rintro e2 ⟨hheld2, hcount, -, -⟩
      exact ⟨hheld2, hheld2.open_empty hcount⟩
    · rename_i hroom
      unfold Full at hroom
      rw [hrow] at hroom
      split
      · rename_i h1
        obtain ⟨e2, hsend, hheld2, hcount, hp⟩ := fastSend_returns hheld h1 (by rw [ha.counter]; omega) hready
        rw [hsend, ok_bind]
        refine ⟨hheld2, hheld2.open_of_lt (fun h0 => ?_) fun _ => ?_⟩
        · rw [hp] at h0
          omega
        · have := hheld.group h1
          rw [hp, hcount]
          omega
      · rename_i h1
        refine ⟨hheld, hheld.open_of_lt (fun h0 => ?_) fun h1' => absurd h1' h1⟩
        have := (hheld.queue h0).1
        omega

/-- A packet that does not fit the group starts the next one. -/
theorem takeAfter_returns {e : FecEncodeManager} (o : EncodeOptions) {s : Bytes} (h : e.Steady) (hcount : e.counter ≠ 0)
    (h0 : e.fecPar.mode = 0) (hs : s.length ≤ maxDataLen + 4) :
    Returns o.Heavy (e.takeAfter o s) fun r => r.1.Held ∧ r.1.Open r.1.lastRow := by
  have hroom := h.room.queue h0
  unfold takeAfter
  refine (close_returns o true h.held (by omega) h.ready).bind ?_
  rintro e1 ⟨hheld, hcount1, hp, hlen⟩
  rw [check_true (show e1.fecPar.mode ≠ 1 by rw [hp]; omega), ok_bind]
  have hsize := hheld.par.size_ge
  obtain ⟨e2, happend, hheld2⟩ := append_returns o.now hheld (hheld.open_empty hcount1) hs fun _ => by omega
  rw [happend, ok_bind]
  have ha := append_ok happend
  refine ⟨hheld2, hheld2.open_of_lt (fun _ => ?_) fun h1 => ?_⟩
  · rw [ha.counter, ha.fecPar, hp, hcount1]
    omega
  · rw [ha.fecPar, hp] at h1
    omega

theorem input_returns {e : FecEncodeManager} {o : EncodeOptions} {s : Option Bytes} (h : e.Steady) (hg : o.gFecPar.InRange)
    (hs : ∀ p, s = some p → p.length ≤ maxDataLen + 4) :
    Returns o.Heavy (e.input o s) fun r => r.1.Held ∧ r.1.Open r.1.lastRow := by
  obtain ⟨e0, htake, h0⟩ := takeUp_returns h hg
  rw [input_open htake h0.held.par.mode h0.room]
  split
  · exact ⟨h0.held, h0.room⟩
  split
  · exact ⟨h0.held, h0.room⟩
  rename_i hfirst
  cases s with
  | none => exact take_returns o h0 fun p hp => by cases hp
  | some s =>
    simp only
    split
    · rename_i hlong
      exact takeAfter_returns o h0 (fun hc => hfirst ⟨rfl, hc, hlong⟩) hlong.1 (hs s rfl)
    · rename_i hfits
      refine take_returns o h0 fun p hp => ?_
      cases hp
      exact ⟨hs s rfl, hfits⟩

/-- One call of `input`, and `output`: it returns, and the next one will. -/
theorem encodeOne_returns {e : FecEncodeManager} {o : EncodeOptions} {s : Option Bytes} (h : e.Steady) (hg : o.gFecPar.InRange)
    (hs : ∀ p, s = some p → p.length ≤ maxDataLen + 4) : Returns o.Heavy (e.encodeOne o s) fun out => out.st.Steady := by
  unfold encodeOne
  refine (input_returns h hg hs).bind ?_
  rintro ⟨e', ret⟩ ⟨hheld, hopen⟩
  have hst : e'.output.1 = { e' with readyForOutput := false } := output_frame e'
  show (FecEncodeManager.output e').1.Steady
  rw [hst]
  exact ⟨⟨hheld.par, hheld.queue, hheld.group, hheld.fresh, hheld.size, hheld.rows⟩, ⟨hopen.last, hopen.queue, hopen.group⟩, rfl⟩

theorem construct_steady {e0 e : FecEncodeManager} {g : FecParameter} {seq : U32} (hg : g.InRange)
    (hc : e0.construct g seq = .ok e) : e.Steady := by
  obtain ⟨p, hp, hc⟩ := bind_ok.mp hc
  cases hc
  have hheld : (({ e0 with fecPar := p } : FecEncodeManager).clearData seq).Held := .emptied (hg.clone hp) rfl ⟨rfl, rfl⟩
  exact ⟨hheld, hheld.open_empty rfl, rfl⟩

end FecEncodeManager

end Manager

end UdpSpeeder
