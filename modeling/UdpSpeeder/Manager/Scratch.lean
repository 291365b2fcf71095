/-
  UdpSpeeder.Manager.Scratch — the rows of a mode 0 group are scratch.

  The packets of a mode 0 group wait in the blob. `input_buf` is written when the group closes,
  and whatever is handed out of it then was written then: two encoders that differ in their rows
  alone hand out the same (`encodeOne_alike`), and stop at the same calls. So whoever is given
  the rows may edit them.
-/

import UdpSpeeder.Lib.Simulate
import UdpSpeeder.Manager.Ledger
import UdpSpeeder.Manager.Progress

namespace UdpSpeeder.Manager

open Lib Fec

namespace FecEncodeManager

/-- The same encoder over other rows. -/
def withRows (e : FecEncodeManager) (m : Nat → Nat → Byte) : FecEncodeManager := { e with inputBuf := m }

/-- They differ in their rows alone, and in none that waits to be handed out. -/
structure Alike (e f : FecEncodeManager) : Prop where
  rest : f = e.withRows f.inputBuf
  rows : e.readyForOutput = true → ∀ k < e.outputN, ∀ j < e.outputLen k, f.inputBuf (e.outputBuf k) j = e.inputBuf (e.outputBuf k) j

theorem Alike.of_rows {e : FecEncodeManager} (h : e.readyForOutput = false) (m : Nat → Nat → Byte) : Alike e (e.withRows m) :=
  ⟨rfl, fun hready => by rw [h] at hready; cases hready⟩

section Parts

variable {e : FecEncodeManager} {o : EncodeOptions} (h0 : e.fecPar.mode = 0) (m : Nat → Nat → Byte)
include h0

theorem append_alike (now : Nat) (s : Bytes) : Agree (fun a b => b = a.withRows m) (e.append now s) ((e.withRows m).append now s) := by
  unfold append withRows
  simp only
  by_cases hc : e.counter = 0
  · simp only [if_pos hc, if_pos h0]
    exact (Agree.refl _ fun _ _ => rfl).bind fun a b (hab : a = b) => .ok (by rw [hab])
  · simp only [if_neg hc, if_pos h0]
    exact (Agree.refl _ fun _ _ => rfl).bind fun a b (hab : a = b) => .ok (by rw [hab])

theorem cut_alike : Agree (fun a b => b = (a.1.withRows m, a.2) ∧ a.1.fecPar = e.fecPar) (e.cut o) ((e.withRows m).cut o) := by
  unfold cut withRows
  simp only [if_pos h0]
  refine (Agree.refl _ fun _ _ => rfl).bind fun tail tail' (htail : tail = tail') => ?_
  rw [htail]
  refine (Agree.refl _ fun _ _ => rfl).bind fun shape shape' (hshape : shape = shape') => ?_
  rw [hshape]
  refine (Agree.refl _ fun _ _ => rfl).bind fun r r' (hr : r = r') => ?_
  rw [hr]
  exact .ok ⟨rfl, rfl⟩

/-- Row `i` once it is written: its header, and a slice of the blob if it is a data shard. -/
theorem shardRow_alike (shape : RsParameter) (fecLen i : Nat) {j : Nat} (hj : j < 8 ∨ i < shape.x ∧ j < 8 + fecLen) :
    (e.withRows m).shardRow shape fecLen i j = e.shardRow shape fecLen i j := by
  have hhead : ∀ row row' : Nat → Byte, j < 8 →
      putHeader row e.seq 0 shape.x shape.y i j = putHeader row' e.seq 0 shape.x shape.y i j := by
    intro row row' hlt
    have h := putHeader_hasAt row e.seq 0 shape.x shape.y i
    have h' := putHeader_hasAt row' e.seq 0 shape.x shape.y i
    rw [← Nat.zero_add j, h j hlt, h' j hlt]
  unfold shardRow withRows
  simp only [h0, Nat.zero_ne_one, false_and, if_false, true_and]
  split
  · rcases Nat.lt_or_ge j 8 with hlt | hge
    · rw [copyTo_out _ _ (.inl hlt), copyTo_out _ _ (.inl hlt)]
      exact hhead _ _ hlt
    · obtain ⟨k, rfl⟩ := Nat.exists_eq_add_of_le hge
      have hk : k < fecLen := by omega
      rw [copyTo_in _ _ hk, copyTo_in _ _ hk]
  · rename_i hx
    exact hhead _ _ (by omega)

end Parts

/-! ## Closing a group -/

/-- The rows of a group that has been cut up, as far as they are coded and handed out. -/
def RowsMatch (n x fecLen : Nat) (p q : Nat → Nat → Byte) : Prop :=
  ∀ i < n, ∀ j, j < 8 ∨ i < x ∧ j < 8 + fecLen → q i j = p i j

theorem writeShards_alike {e : FecEncodeManager} (h0 : e.fecPar.mode = 0) (m : Nat → Nat → Byte) (shape : RsParameter) (fecLen : Nat) :
    Agree (fun a b => b = a.withRows b.inputBuf ∧ RowsMatch (shape.x + shape.y) shape.x fecLen a.inputBuf b.inputBuf)
      (e.writeShards shape fecLen) ((e.withRows m).writeShards shape fecLen) := by
  -- the rows written so far match, and what the rest is made of has not changed
  have hloop : Agree (fun a b => (b = a.withRows b.inputBuf ∧ RowsMatch (shape.x + shape.y) shape.x fecLen a.inputBuf b.inputBuf) ∧
      a.fecPar = e.fecPar) (e.writeShards shape fecLen) ((e.withRows m).writeShards shape fecLen) := by
    refine @Agree.loopE _ _ _ (fun k (a b : FecEncodeManager) => (b = a.withRows b.inputBuf ∧ RowsMatch k shape.x fecLen a.inputBuf b.inputBuf) ∧
      a.fecPar = e.fecPar) _ _ _ _ ⟨⟨rfl, fun i hi => absurd hi (Nat.not_lt_zero i)⟩, rfl⟩ (shape.x + shape.y) ?_
    intro i _ a b h
    rcases h with ⟨⟨hb, hrows⟩, hpar⟩
    have hmode : a.fecPar.mode = 0 := by rw [hpar]; exact h0
    rw [hb]
    refine Agree.seq _ (Agree.seq _ (Agree.seq _ (.ok ⟨⟨rfl, fun k hk j hj => ?_⟩, hpar⟩)))
    show upd b.inputBuf i ((a.withRows b.inputBuf).shardRow shape fecLen i) k j = upd a.inputBuf i (a.shardRow shape fecLen i) k j
    rw [upd_apply, upd_apply]
    split
    · rename_i heq
      subst heq
      exact shardRow_alike hmode _ shape fecLen k hj
    · exact hrows k (by omega) j hj
  exact hloop.imp fun _ _ h => h.1

/-- What is coded, and whether it is, only depends on the data shards. -/
theorem rsEncode2_alike (codes : CodeTable) {m m' : Mem Nat} {shape : RsParameter} {fecLen : Nat}
    (hm : ∀ i < shape.x, ∀ j < fecLen, m' i j = m i j) :
    Agree (fun a b => b.1 = a.1 ∧ ∀ i < shape.x + shape.y, ∀ j < fecLen, b.2 i j = a.2 i j)
      (rsEncode2 shape.x (shape.x + shape.y) codes m (fun i => if i < shape.x + shape.y then some i else none) fecLen)
      (rsEncode2 shape.x (shape.x + shape.y) codes m' (fun i => if i < shape.x + shape.y then some i else none) fecLen) := by
  cases hget : getCode shape.x (shape.x + shape.y) codes with
  | error f =>
    unfold rsEncode2
    rw [hget]
    exact .error f
  | ok r =>
    obtain ⟨hpos, -, hsmall⟩ := getCode_shape hget
    obtain ⟨c1, n1, hrun1, henc1⟩ := code_run codes m hpos hsmall
    obtain ⟨c2, n2, hrun2, henc2⟩ := code_run codes m' hpos hsmall
    have hcodes : ∀ {m : Mem Nat} {c : CodeTable} {n : Mem Nat}, rsEncode2 shape.x (shape.x + shape.y) codes m
        (fun i => if i < shape.x + shape.y then some i else none) fecLen = .ok (c, n) → c = r.2 := by
      intro m c n hrun
      unfold rsEncode2 at hrun
      rw [hget, ok_bind] at hrun
      obtain ⟨n', -, hrun⟩ := bind_ok.mp hrun
      cases hrun
      rfl
    rw [hrun1, hrun2]
    refine .ok ⟨(hcodes hrun2).trans (hcodes hrun1).symm, fun i hi j hj => ?_⟩
    show n2 i j = n1 i j
    by_cases hx : i < shape.x
    · rw [show n2 i = m' i from henc2.data i hx, show n1 i = m i from henc1.data i hx]
      exact hm i hx j hj
    · refine (henc2.parity i (by omega) hi j hj).trans (Eq.trans ?_ (henc1.parity i (by omega) hi j hj).symm)
      exact shard_congr (fun c hc => hm c hc j hj) i

theorem close_alike {e : FecEncodeManager} {o : EncodeOptions} {given : Bool} (h0 : e.fecPar.mode = 0) (m : Nat → Nat → Byte) :
    Agree Alike (e.close o given) ((e.withRows m).close o given) := by
  unfold close
  apply (cut_alike h0 m).bind
  intro r _ h
  rcases r with ⟨e1, shape, fecLen⟩
  rcases h with ⟨rfl, hpar⟩
  simp only at hpar ⊢
  have h1 : e1.fecPar.mode = 0 := by rw [hpar]; exact h0
  apply (writeShards_alike h1 m shape fecLen).left.bind
  intro e2 f2 h
  rcases h with ⟨hwrite, hf2, hrows⟩
  obtain ⟨hsame, hfit, hwritten⟩ := writeShards_ok hwrite
  have h2 : e2.fecPar.mode = 0 := by rw [hsame]; exact h1
  have hcodes : f2.codes = e2.codes := by rw [hf2]; rfl
  rw [hcodes]
  refine (rsEncode2_alike e2.codes fun i hi j hj => hrows i (by omega) (8 + j) (.inr ⟨hi, by omega⟩)).bind ?_
  intro r r' h
  rcases r with ⟨codes, n1⟩
  rcases r' with ⟨codes', n2⟩
  rcases h with ⟨hsame', hcoded⟩
  simp only at hsame' hcoded ⊢
  rw [hsame']
  have hready : f2.readyForOutput = e2.readyForOutput := by rw [hf2]; rfl
  rw [hready]
  apply Agree.seq
  have h2' : f2.fecPar.mode ≠ 1 := by rw [hf2]; show e2.fecPar.mode ≠ 1; omega
  rw [if_neg h2', if_neg (show e2.fecPar.mode ≠ 1 by omega)]
  refine .ok ⟨by rw [hf2]; rfl, fun _ k hk j hj => ?_⟩
  have hk : k < shape.x + shape.y := hk
  obtain ⟨hlen, hbuf⟩ := (hwritten k).2 hk
  have hj : j < 8 + fecLen := by
    have hlen' : e2.outputLen k = 8 + fecLen := by
      rw [hlen]
      unfold shardLen
      rw [if_neg (by omega)]
    rw [← hlen']
    exact hj
  show withPayloads f2.inputBuf n2 (e2.outputBuf k) j = withPayloads e2.inputBuf n1 (e2.outputBuf k) j
  rw [hbuf]
  unfold withPayloads
  split
  · rename_i hlt
    exact hrows k hk j (.inl hlt)
  · exact hcoded k hk (j - 8) (by omega)

/-! ## A call -/

theorem Alike.append {e f : FecEncodeManager} (h : Alike e f) (h0 : e.fecPar.mode = 0) (now : Nat) (s : Bytes) :
    Agree Alike (e.append now s) (f.append now s) := by
  rw [h.rest]
  apply (append_alike h0 f.inputBuf now s).left.imp
  intro a _ h
  rcases h with ⟨ha, rfl⟩
  have ha := append_ok ha
  refine ⟨rfl, ?_⟩
  intro hready k hk j hj
  rw [ha.outputN] at hk
  rw [ha.outputLen] at hj
  rw [ha.outputBuf, (ha.blob h0).2.1]
  exact h.rows (ha.ready ▸ hready) k hk j hj

section Call

variable {e f : FecEncodeManager} {o : EncodeOptions}

/-- What both calls return. -/
def AlikeRet (a b : FecEncodeManager × Int) : Prop := Alike a.1 b.1 ∧ b.2 = a.2

theorem Alike.close (h : Alike e f) (h0 : e.fecPar.mode = 0) (given : Bool) : Agree Alike (e.close o given) (f.close o given) := by
  rw [h.rest]
  exact close_alike h0 _

theorem Alike.take (h : Alike e f) (h0 : e.fecPar.mode = 0) (tail : RsParameter) (s : Option Bytes) :
    Agree AlikeRet (e.take o tail s) (f.take o tail s) := by
  have hcount : f.counter = e.counter := by rw [h.rest]; rfl
  cases s with
  | none =>
    unfold FecEncodeManager.take
    simp only [hcount]
    split
    · exact .ok ⟨h, rfl⟩
    · exact (h.close h0 false).bind fun a b hab => .ok ⟨hab, rfl⟩
  | some s =>
    unfold FecEncodeManager.take
    simp only
    apply (h.append h0 _ s).left.bind
    intro a b h
    rcases h with ⟨ha, hab⟩
    have ha0 : a.fecPar.mode = 0 := by rw [(append_ok ha).fecPar]; exact h0
    have hb0 : b.fecPar.mode = 0 := by rw [hab.rest]; exact ha0
    have hfull : b.Full tail ↔ a.Full tail := by rw [hab.rest]; rfl
    by_cases hf : a.Full tail
    · rw [if_pos hf, if_pos (hfull.mpr hf)]
      exact (hab.close ha0 true).bind fun a b hab => .ok ⟨hab, rfl⟩
    · rw [if_neg hf, if_neg (mt hfull.mp hf), if_neg (by omega), if_neg (by omega)]
      exact .ok ⟨hab, rfl⟩

theorem Alike.takeAfter (h : Alike e f) (h0 : e.fecPar.mode = 0) (s : Bytes) :
    Agree AlikeRet (e.takeAfter o s) (f.takeAfter o s) := by
  unfold FecEncodeManager.takeAfter
  apply (h.close h0 true).left.bind
  intro a b h
  rcases h with ⟨ha, hab⟩
  have ha0 : a.fecPar.mode = 0 := by rw [close_fecPar ha]; exact h0
  have hpar : b.fecPar = a.fecPar := by rw [hab.rest]; rfl
  rw [hpar]
  exact Agree.seq _ ((hab.append ha0 _ s).bind fun a b hab => .ok ⟨hab, rfl⟩)

theorem Alike.takeUp (h : Alike e f) (hready : e.readyForOutput = false) (g : FecParameter) :
    Agree (fun a b => Alike a b ∧ (a.fecPar.mode = e.fecPar.mode ∨ a.fecPar.mode = g.mode)) (e.takeUp g) (f.takeUp g) := by
  rw [h.rest]
  unfold FecEncodeManager.takeUp withRows
  simp only
  by_cases hnew : e.counter = 0 ∧ e.fecPar.version ≠ g.version
  · rw [if_pos hnew, if_pos hnew]
    refine (Agree.refl _ fun _ _ => rfl).left.bind ?_
    intro p _ h
    rcases h with ⟨hp, rfl⟩
    refine .ok ⟨@Alike.of_rows { e with fecPar := p } hready _, .inr ?_⟩
    simp only
    obtain ⟨-, hmode, -⟩ := FecParameter.clone_ok hp
    rw [hmode]
  · rw [if_neg hnew, if_neg hnew]
    exact .ok ⟨.of_rows hready _, .inl rfl⟩

/-- A call in mode 0, before and after it. -/
theorem Alike.input (h : Alike e f) (hready : e.readyForOutput = false) (h0 : e.fecPar.mode = 0) (hg : o.gFecPar.mode = 0) (s : Option Bytes) :
    Agree AlikeRet (e.input o s) (f.input o s) := by
  unfold FecEncodeManager.input
  apply (h.takeUp hready o.gFecPar).bind
  intro a b h
  rcases h with ⟨hab, hmode⟩
  have ha0 : a.fecPar.mode = 0 := by omega
  have hpar : b.fecPar = a.fecPar := by rw [hab.rest]; rfl
  have hcount : b.counter = a.counter := by rw [hab.rest]; rfl
  have hlong : ∀ tail len, b.TooLong tail len ↔ a.TooLong tail len := fun tail len => by rw [hab.rest]; rfl
  simp only [hpar, hcount, hlong]
  apply Agree.seq
  split
  · exact .ok ⟨hab, rfl⟩
  refine (Agree.refl _ fun _ _ => rfl).bind fun tail tail' (htail : tail = tail') => ?_
  rw [htail]
  split
  · exact .ok ⟨hab, rfl⟩
  refine Agree.seq _ (Agree.seq _ ?_)
  cases s with
  | none => exact hab.take ha0 tail' none
  | some s =>
    simp only
    split
    · exact hab.takeAfter ha0 s
    · exact hab.take ha0 tail' (some s)

theorem Alike.output (h : Alike e f) : Alike e.output.1 f.output.1 ∧ f.output.2 = e.output.2 ∧
    ∀ rows, e.output.2 = some rows → f.output.1.datagrams rows = e.output.1.datagrams rows := by
  have hrest := h.rest
  have hrows := h.rows
  unfold FecEncodeManager.output
  have hready : f.readyForOutput = e.readyForOutput := by rw [hrest]; rfl
  rw [hready]
  by_cases hr : e.readyForOutput = true
  · rw [if_pos hr, if_pos hr]
    refine ⟨⟨by rw [hrest]; rfl, fun hno => by cases hno⟩, by rw [hrest]; rfl, fun rows heq => ?_⟩
    cases heq
    unfold datagrams
    simp only [List.map_map]
    apply List.map_congr_left
    intro k hk
    apply slice_congr
    intro j hj
    rw [Nat.zero_add]
    exact hrows hr k (List.mem_range.mp hk) j hj
  · rw [if_neg hr, if_neg hr]
    exact ⟨h, rfl, fun rows heq => by cases heq⟩

/-- Between two calls in mode 0 the rows may be edited: the next call does the same, and hands
    out the same. -/
theorem encodeOne_alike (h : Alike e f) (hready : e.readyForOutput = false) (h0 : e.fecPar.mode = 0) (hg : o.gFecPar.mode = 0)
    (s : Option Bytes) : Agree (fun a b => Alike a.st b.st ∧ b.ret = a.ret ∧ b.sent = a.sent) (e.encodeOne o s) (f.encodeOne o s) := by
  unfold encodeOne
  apply (h.input hready h0 hg s).bind
  intro r r' h
  rcases r with ⟨a, ret⟩
  rcases r' with ⟨b, ret'⟩
  rcases h with ⟨hab, hret⟩
  obtain ⟨hst, hout, hdata⟩ := Alike.output hab
  refine .ok ⟨hst, hret, ?_⟩
  show b.output.2.map b.output.1.datagrams = a.output.2.map a.output.1.datagrams
  rw [hout]
  cases hrows : a.output.2 with
  | none => rfl
  | some rows => exact congrArg some (hdata rows hrows)

end Call

/-! ## What is handed out of them -/

/-- Every row that waits to be handed out is short enough to be cooked where it lies. -/
def Short (e : FecEncodeManager) : Prop :=
  e.readyForOutput = true → e.outputN ≤ maxFecPacketNum ∧ ∀ k < e.outputN, e.outputLen k ≤ maxDataLen + 18

/-- The slices of a group are within the mtu, or hold no more than one packet each. -/
theorem close_short {e e' : FecEncodeManager} {o : EncodeOptions} {given : Bool} (h : e.Held) (h0 : e.fecPar.mode = 0)
    (hr : e.close o given = .ok e') : e'.Short := by
  obtain ⟨e1, shape, fecLen, hcut, hc⟩ := close_ok hr
  have hpar := h.par.table
  have hcnt := hpar.cnt
  have hmtu := h.par.mtu
  obtain ⟨tail, blob, htail, hshape, hout, rfl⟩ := cut_blob h0 hcut
  rw [hpar.getTail] at htail
  cases htail
  have hsmall := hc.small
  have hlen : fecLen ≤ maxDataLen + 10 := by
    obtain ⟨b', hrun, -⟩ := e.blobEncode.output_run (show shape.x ≤ maxFecPacketNum + 100 by unfold maxFecPacketNum; omega)
    rw [hout] at hrun
    cases hrun
    have hslice : roundUpDiv e.blobEncode.currentLen e.fecPar.rsCnt ≤ maxDataLen + 10 := by
      rw [roundUpDiv_le_iff (by omega)]
      exact h.size.trans (Nat.mul_le_mul_left _ (by unfold maxDataLen; omega))
    have hpick := ((pickShape_returns o hpar (h.size.trans h.par.size_le)).ok hshape).2
    unfold maxDataLen at hslice ⊢
    omega
  have hlist : ({ e with blobEncode := blob } : FecEncodeManager).handedOut shape given = List.range (shape.x + shape.y) := by
    unfold handedOut
    exact if_neg (show e.fecPar.mode ≠ 1 by omega)
  have hcount := hc.count
  have hsent := hc.sent
  rw [hlist] at hcount hsent
  rw [List.length_range] at hcount
  refine fun _ => ⟨by rw [hcount]; unfold maxFecPacketNum; omega, fun k hk => ?_⟩
  rw [hcount] at hk
  rw [(hsent k (by rwa [List.length_range])).2, List.getElem_range]
  unfold shardLen
  rw [if_neg (show ¬ (e.fecPar.mode = 1 ∧ _) by omega)]
  omega

theorem Appended.short {e e' : FecEncodeManager} {now : Nat} {s : Bytes} (ha : Appended e now s e') (h : e.Short) : e'.Short := by
  unfold Short
  rw [ha.ready, ha.outputN, ha.outputLen]
  exact h

/-- The mode stays 0 if the settings do. -/
theorem takeUp_mode {e e0 : FecEncodeManager} {g : FecParameter} (h0 : e.fecPar.mode = 0) (hg : g.mode = 0) (h : e.takeUp g = .ok e0) :
    e0.fecPar.mode = 0 := by
  unfold takeUp at h
  split at h
  · obtain ⟨p, hp, h⟩ := bind_ok.mp h
    cases h
    obtain ⟨-, hp, -⟩ := FecParameter.clone_ok hp
    rw [hp]
    exact hg
  · cases h
    exact h0

theorem input_short {e e' : FecEncodeManager} {o : EncodeOptions} {s : Option Bytes} {ret : Int} (h : e.Steady) (hg : o.gFecPar.InRange)
    (h0 : e.fecPar.mode = 0) (hg0 : o.gFecPar.mode = 0) (hs : ∀ p, s = some p → p.length ≤ maxDataLen + 4)
    (hr : e.input o s = .ok (e', ret)) : e'.Short ∧ e'.fecPar.mode = 0 := by
  obtain ⟨e0, htake, -, htook⟩ := input_took hr
  obtain ⟨e0', htake', hsteady⟩ := takeUp_returns h hg
  rw [htake] at htake'
  cases htake'
  have hmode := takeUp_mode h0 hg0 htake
  have hidle : e0.Short := fun hready => by rw [hsteady.ready] at hready; cases hready
  cases htook with
  | ignored => exact ⟨hidle, hmode⟩
  | taken hopen hfits hmode' happend hroom =>
    have ha := append_ok happend
    exact ⟨ha.short hidle, by rw [ha.fecPar]; exact hmode⟩
  | sent hopen hmode' happend hroom hsend => omega
  | @filled s e1 e2 tail hopen hfits happend hfull hclose =>
    have hpar := hsteady.held.par.table
    have ha := append_ok happend
    obtain ⟨e1', happend', hheld⟩ := append_returns o.now hsteady.held hsteady.room (hs s rfl) fun _ => by
      -- the size check has passed
      have htail := hopen.last
      rw [hpar.getTail] at htail
      cases htail
      have hle : roundUpDiv (e0.blobEncode.currentLen + 2 + s.length) (e0.fecPar.rsPar (e0.fecPar.rsCnt - 1)).x ≤ e0.fecPar.mtu := by
        by_contra hgt
        exact hfits ⟨hmode, by unfold BlobEncode.getShardLenNext; omega⟩
      rw [hpar.tail_x, roundUpDiv_le_iff hpar.cnt] at hle
      exact hle.trans (Nat.mul_le_mul_left _ (le_max_left _ _))
    rw [happend] at happend'
    cases happend'
    exact ⟨close_short hheld (by rw [ha.fecPar]; exact hmode) hclose, by rw [close_fecPar hclose, ha.fecPar]; exact hmode⟩
  | flushed hopen hcount hclose => exact ⟨close_short hsteady.held hmode hclose, by rw [close_fecPar hclose]; exact hmode⟩
  | overran hopen hlong hcount hclose happend =>
    have ha := append_ok happend
    exact ⟨ha.short (close_short hsteady.held hmode hclose), by rw [ha.fecPar, close_fecPar hclose]; exact hmode⟩

end FecEncodeManager

end UdpSpeeder.Manager
