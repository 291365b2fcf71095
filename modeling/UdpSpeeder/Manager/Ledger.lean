/-
  UdpSpeeder.Manager.Ledger — runs of the encoder in any modes: every packet it accepts is
  accounted for.

  A group is pending in the blob or in rows of its own, as the mode says, and the mode only
  changes between groups. `Pending` is what a run keeps: the packets of the group, in their
  order, where the mode puts them, and the flush timer running while there are any. From it
  each call hands out what it must (`encodeOne_blob`, `encodeOne_rows`), and the accepted
  packets are those of the groups sent, in order, and the pending ones (`encoder_keeps_all`).
-/

import UdpSpeeder.Manager.Rows
import UdpSpeeder.Manager.Shapes

namespace UdpSpeeder.Manager

open Lib Fec

namespace FecEncodeManager

/-! ## Runs -/

/-- A call of `input` and the `output` after it: the encoder before, and what came back. -/
structure EncodeCall where
  before : FecEncodeManager
  o : EncodeOptions
  s : Option Bytes
  out : EncodeOut

/-- Any calls of a new encoder, `output` called after each `input`, whatever the parameters at
    each of them. -/
inductive Called : List EncodeCall → FecEncodeManager → Prop
  | start {e0 e : FecEncodeManager} {g : FecParameter} {seq : U32} (hc : e0.construct g seq = .ok e) : Called [] e
  | call {log : List EncodeCall} {e : FecEncodeManager} (h : Called log e) {o : EncodeOptions} {s : Option Bytes}
      {out : EncodeOut} (he : e.encodeOne o s = .ok out) : Called (log ++ [⟨e, o, s, out⟩]) out.st

namespace EncodeCall

/-- The mode the call was served in. -/
def mode (c : EncodeCall) : Nat := c.out.st.fecPar.mode

/-- The packet it took in. -/
def accepted (c : EncodeCall) : List Bytes := if c.out.ret = 0 then c.s.toList else []

/-- The packets of the pending group after it. -/
def after (c : EncodeCall) (ps : List Bytes) : List Bytes :=
  if c.mode = 0 then c.out.pending ps c.s
  else if c.out.ret ≠ 0 then ps
  else if c.out.st.counter = 0 then []
  else ps ++ c.s.toList

/-- What a mode 1 call hands out, with the packets `ps` before it in the group: its own packet,
    and the parity when it closes the group. -/
noncomputable def rowShards (c : EncodeCall) (ps : List Bytes) : List Bytes :=
  let group := ps ++ c.s.toList
  c.s.toList.map (packetShard c.before.seq ps.length) ++
    if c.out.st.counter = 0 then parityShards c.before.seq group (c.out.st.fecPar.rsPar (group.length - 1)).y else []

end EncodeCall

/-- The packets of the pending group. -/
def pendingAfter (log : List EncodeCall) : List Bytes := log.foldl (fun ps c => c.after ps) []

/-- The packets accepted in mode 0. -/
def acceptedBlob (log : List EncodeCall) : List Bytes := log.flatMap fun c => if c.mode = 0 then c.accepted else []

/-- The groups handed out in mode 0, each as its shards. -/
def sentBlob (log : List EncodeCall) : List (List Bytes) := log.flatMap fun c => if c.mode = 0 then c.out.sent.toList else []

/-- The shards are those of a group of the packets `ps`. -/
def Carries (shards : List Bytes) (ps : List Bytes) : Prop :=
  ∃ (p : FecParameter) (seq : U32) (x y len : Nat) (B : Nat → Byte), Sliced p ps x y len B ∧
    shards = (List.range (x + y)).map (blobShard seq x y len B)

/-! ## What a run keeps -/

/-- The timer runs while there are packets. -/
def Armed (e : FecEncodeManager) : Prop := e.timer.isSome ↔ 0 < e.counter

/-- The clock did not read 0 when the pending group started. -/
def Timed (e : FecEncodeManager) : Prop := e.counter ≠ 0 → e.firstPacketTime ≠ 0

/-- Nor when the mode 0 group started that is ready for output. -/
def SentTimed (e : FecEncodeManager) : Prop := e.readyForOutput = true → e.fecPar.mode = 0 → e.firstPacketTimeForOutput ≠ 0

/-- The packets of the group, where the mode puts them. -/
structure Pending (e : FecEncodeManager) (ps : List Bytes) : Prop where
  count : e.counter = ps.length
  ready : e.readyForOutput = false
  armed : e.Armed
  blob : e.fecPar.mode = 0 → Holding e ps
  rows : e.fecPar.mode ≠ 0 → e.HasRows ps ∧ e.blobEncode.Holds []

theorem append_armed {e e' : FecEncodeManager} {s : Bytes} (h : e.Armed) {now : Nat} (hr : e.append now s = .ok e') : e'.Armed := by
  have ha := append_ok hr
  unfold Armed at h ⊢
  rw [ha.timer, ha.counter]
  split
  · simp
  · rw [h]
    omega

theorem close_armed {e e' : FecEncodeManager} {o : EncodeOptions} {given : Bool} (hr : e.close o given = .ok e') : e'.Armed := by
  obtain ⟨e1, shape, fecLen, -, hc⟩ := close_ok hr
  unfold Armed
  rw [hc.timer, hc.counter]
  simp

/-- What the early send leaves as it was. -/
theorem fastSend_frame {e e' : FecEncodeManager} (hr : e.fastSend = .ok e') : e'.counter = e.counter ∧ e'.timer = e.timer ∧
    e'.fecPar = e.fecPar ∧ e'.blobEncode = e.blobEncode ∧ e'.seq = e.seq ∧ 0 < e.counter := by
  unfold fastSend at hr
  rw [check_bind] at hr
  obtain ⟨hpos, hr⟩ := hr
  rw [check_bind, check_bind] at hr
  cases hr.2.2
  exact ⟨rfl, rfl, rfl, rfl, rfl, hpos⟩

theorem fastSend_first {e e' : FecEncodeManager} (hr : e.fastSend = .ok e') : e'.firstPacketTime = e.firstPacketTime := by
  unfold fastSend at hr
  rw [check_bind, check_bind, check_bind] at hr
  cases hr.2.2.2
  rfl

theorem takeUp_pending {e e' : FecEncodeManager} {ps : List Bytes} {g : FecParameter} (h : Pending e ps)
    (hr : e.takeUp g = .ok e') : Pending e' ps := by
  obtain ⟨hsame, hkeep⟩ := takeUp_ok hr
  by_cases hc : e.counter = 0
  · -- nothing is pending, so either mode finds what it needs
    obtain rfl : ps = [] := List.length_eq_zero_iff.mp (h.count ▸ hc)
    have hempty : e.blobEncode.Holds [] := by
      by_cases h0 : e.fecPar.mode = 0
      · exact (h.blob h0).blob
      · exact (h.rows h0).2
    rw [hsame]
    exact ⟨h.count, h.ready, h.armed, fun _ => ⟨hempty, h.count, h.ready, by simp, by simp⟩, fun _ => ⟨HasRows.nil _, hempty⟩⟩
  · rw [hkeep hc]
    exact h

theorem construct_pending {e0 e : FecEncodeManager} {g : FecParameter} {seq : U32} (hc : e0.construct g seq = .ok e) :
    Pending e [] := by
  obtain ⟨p, -, hc⟩ := bind_ok.mp hc
  cases hc
  have hempty : (e0.blobEncode.clear).Holds [] := BlobEncode.clear_holds _
  exact ⟨rfl, rfl, by simp [Armed, clearData], fun _ => ⟨hempty, rfl, rfl, by simp, by simp⟩, fun _ => ⟨HasRows.nil _, hempty⟩⟩

/-- Closing empties the blob, and the next group has the next seq. -/
theorem close_frame {e e' : FecEncodeManager} {o : EncodeOptions} {given : Bool} (hr : e.close o given = .ok e') :
    e'.blobEncode.Holds [] ∧ e'.counter = 0 ∧ e'.seq = e.seq + 1 := by
  obtain ⟨e1, shape, fecLen, hcut, hc⟩ := close_ok hr
  obtain ⟨blob, rfl⟩ := cut_frame hcut
  exact ⟨by rw [hc.blob]; exact BlobEncode.clear_holds _, hc.counter, hc.seq⟩

/-! ## One call -/

/-- The mode of a call is the mode its group was in. -/
theorem took_fecPar {e e' : FecEncodeManager} {o : EncodeOptions} {s : Option Bytes} {ret : Int} (ht : Took o e s e' ret) :
    e'.fecPar = e.fecPar := by
  cases ht with
  | ignored => rfl
  | taken hopen hfits hmode happend => exact (append_ok happend).fecPar
  | sent hopen hmode happend hroom hsend => exact (fastSend_frame hsend).2.2.1.trans (append_ok happend).fecPar
  | filled hopen hfits happend hfull hclose => exact (close_fecPar hclose).trans (append_ok happend).fecPar
  | flushed hopen hcount hclose => exact close_fecPar hclose
  | overran hopen hlong hcount hclose happend => exact (append_ok happend).fecPar.trans (close_fecPar hclose)

theorem encodeOne_fecPar {e : FecEncodeManager} {o : EncodeOptions} {s : Option Bytes} {out : EncodeOut}
    (he : e.encodeOne o s = .ok out) : ∃ e0 e', e.takeUp o.gFecPar = .ok e0 ∧ (e0.fecPar.mode = 0 ∨ e0.fecPar.mode = 1) ∧
      Took o e0 s e' out.ret ∧ out.st = { e' with readyForOutput := false } ∧ out.sent = e'.sentBy ∧
        out.st.fecPar = e0.fecPar := by
  obtain ⟨e', ret, hin, rfl⟩ := encodeOne_ok he
  obtain ⟨e0, htake, hmode, htook⟩ := input_took hin
  refine ⟨e0, e', htake, hmode, htook, output_frame e', rfl, ?_⟩
  rw [output_frame]
  show e'.fecPar = e0.fecPar
  exact took_fecPar htook

theorem took_armed {e e' : FecEncodeManager} {o : EncodeOptions} {s : Option Bytes} {ret : Int} (h : e.Armed)
    (ht : Took o e s e' ret) : e'.Armed := by
  cases ht with
  | ignored => exact h
  | taken hopen hfits hmode happend => exact append_armed h happend
  | sent hopen hmode happend hroom hsend =>
    obtain ⟨hcount, htimer, -⟩ := fastSend_frame hsend
    unfold Armed
    rw [hcount, htimer]
    exact append_armed h happend
  | filled hopen hfits happend hfull hclose => exact close_armed hclose
  | flushed hopen hcount hclose => exact close_armed hclose
  | overran hopen hlong hcount hclose happend => exact append_armed (close_armed hclose) happend

theorem append_timed {e e' : FecEncodeManager} {now : Nat} {s : Bytes} (h : e.Timed) (hnow : now ≠ 0) (hr : e.append now s = .ok e') :
    e'.Timed := by
  have ha := append_ok hr
  intro _
  rw [ha.first]
  split
  · exact hnow
  · rename_i hcount
    exact h hcount

/-- The time of the group goes out with it. -/
theorem close_timed {e e' : FecEncodeManager} {o : EncodeOptions} {given : Bool} (h : e.Timed) (hcount : e.counter ≠ 0)
    (hr : e.close o given = .ok e') : e'.Timed ∧ e'.firstPacketTimeForOutput ≠ 0 := by
  obtain ⟨e1, shape, fecLen, hcut, hc⟩ := close_ok hr
  obtain ⟨blob, rfl⟩ := cut_frame hcut
  refine ⟨fun hne => absurd hc.counter hne, ?_⟩
  rw [hc.forOutput]
  exact h hcount

theorem took_timed {e e' : FecEncodeManager} {o : EncodeOptions} {s : Option Bytes} {ret : Int} (h : e.Timed)
    (hready : e.readyForOutput = false) (hnow : o.now ≠ 0) (ht : Took o e s e' ret) : e'.Timed ∧ e'.SentTimed := by
  cases ht with
  | ignored => exact ⟨h, fun hr => by rw [hready] at hr; cases hr⟩
  | taken hopen hfits hmode happend =>
    exact ⟨append_timed h hnow happend, fun hr => by rw [(append_ok happend).ready, hready] at hr; cases hr⟩
  | sent hopen hmode happend hroom hsend =>
    obtain ⟨hcount, -, hpar, -⟩ := fastSend_frame hsend
    refine ⟨?_, ?_⟩
    · intro hne
      rw [fastSend_first hsend]
      exact append_timed h hnow happend (by rw [← hcount]; exact hne)
    · intro _ h0
      rw [hpar, (append_ok happend).fecPar, hmode] at h0
      cases h0
  | filled hopen hfits happend hfull hclose =>
    have hone := (append_ok happend).counter
    obtain ⟨htimed, hout⟩ := close_timed (append_timed h hnow happend) (by omega) hclose
    exact ⟨htimed, fun _ _ => hout⟩
  | flushed hopen hcount hclose =>
    obtain ⟨htimed, hout⟩ := close_timed h hcount hclose
    exact ⟨htimed, fun _ _ => hout⟩
  | overran hopen hlong hcount hclose happend =>
    obtain ⟨htimed, hout⟩ := close_timed h hcount hclose
    refine ⟨append_timed htimed hnow happend, fun _ _ => ?_⟩
    rw [(append_ok happend).forOutput]
    exact hout

theorem input_timed {e e' : FecEncodeManager} {o : EncodeOptions} {s : Option Bytes} {ret : Int} (h : e.Timed)
    (hready : e.readyForOutput = false) (hnow : o.now ≠ 0) (hr : e.input o s = .ok (e', ret)) : e'.Timed ∧ e'.SentTimed := by
  obtain ⟨e0, htake, -, htook⟩ := input_took hr
  obtain ⟨hsame, -⟩ := takeUp_ok htake
  rw [hsame] at htook
  exact took_timed (e := { e with fecPar := e0.fecPar }) h hready hnow htook

/-- Mode 1: the packet goes out at once, in the row it takes; the parity with the last one. -/
theorem encodeOne_rows {e : FecEncodeManager} {ps : List Bytes} {o : EncodeOptions} {s : Option Bytes} {out : EncodeOut}
    (h : Pending e ps) (he : e.encodeOne o s = .ok out) (h1 : out.st.fecPar.mode = 1) :
    let c : EncodeCall := ⟨e, o, s, out⟩
    out.st.counter = (c.after ps).length ∧ out.st.HasRows (c.after ps) ∧ out.st.blobEncode.Holds [] ∧
      (out.ret = 0 → out.sent = some (c.rowShards ps)) := by
  obtain ⟨e0, e', htake, -, htook, hst, hsent, hpar⟩ := encodeOne_fecPar he
  have hp := takeUp_pending h htake
  have hseq : e0.seq = e.seq := by rw [(takeUp_ok htake).1]
  rw [hpar] at h1
  obtain ⟨hrows, hempty⟩ := hp.rows (by omega)
  obtain ⟨st, ret, sent⟩ := out
  simp only at hst hsent hpar htook
  have hready : st.counter = e'.counter ∧ (∀ qs, e'.HasRows qs → st.HasRows qs) ∧ st.blobEncode = e'.blobEncode := by
    rw [hst]
    exact ⟨rfl, fun qs hq => ⟨hq.len, hq.row⟩, rfl⟩
  obtain ⟨hcnt, hkeep, hblob⟩ := hready
  simp only [EncodeCall.after, EncodeCall.rowShards, EncodeCall.mode, hpar, h1, Nat.one_ne_zero, if_false, hcnt, hblob]
  clear hst
  cases htook with
  | ignored hcount => exact ⟨hp.count, hkeep _ hrows, hempty, fun h => by cases h⟩
  | taken hopen hfits hmode happend => omega
  | @sent s e1 _ tail hopen hmode happend hroom hsend =>
    have ha := append_ok happend
    have hcount : e1.counter = (ps ++ [s]).length := by rw [ha.counter, hp.count, List.length_append]; rfl
    obtain ⟨hrows', hout⟩ := (hrows.append hp.count h1 happend).send hcount (ha.fecPar ▸ h1) hsend
    obtain ⟨hc, -, -, hb, -, hpos⟩ := fastSend_frame hsend
    have hlast : (ps ++ [s]).getD ((ps ++ [s]).length - 1) [] = s := by simp
    simp only [ne_eq, not_true_eq_false, if_false, Option.toList_some, show e'.counter ≠ 0 by omega]
    refine ⟨hc.trans hcount, hkeep _ hrows', by rw [hb, (ha.row h1).2.2.2.1]; exact hempty, fun _ => ?_⟩
    rw [hsent, hout, hlast, ha.seq, hseq]
    simp
  | @filled s e1 _ tail hopen hfits happend hfull hclose =>
    have ha := append_ok happend
    have hcount : e1.counter = (ps ++ [s]).length := by rw [ha.counter, hp.count, List.length_append]; rfl
    have hout := (hrows.append hp.count h1 happend).close hcount (ha.fecPar ▸ h1) hclose
    obtain ⟨hb, hc, -⟩ := close_frame hclose
    have hlast : (ps ++ [s]).getD ((ps ++ [s]).length - 1) [] = s := by simp
    simp only [ne_eq, not_true_eq_false, if_false, if_true, Option.toList_some, hc]
    refine ⟨rfl, HasRows.nil _, hb, fun _ => ?_⟩
    rw [hsent, hout, hlast, ha.seq, hseq, ha.fecPar]
    simp
  | @flushed _ tail hopen hcount hclose =>
    have hout := hrows.close hp.count h1 hclose
    obtain ⟨hb, hc, -⟩ := close_frame hclose
    simp only [ne_eq, not_true_eq_false, if_false, if_true, Option.toList_none, hc, List.append_nil, List.map_nil, List.nil_append]
    refine ⟨rfl, HasRows.nil _, hb, fun _ => ?_⟩
    rw [hsent, hout, hseq]
    rfl
  | overran hopen hlong hcount hclose happend => have := hlong.1; omega

/-- A call that serves mode 0 found the pending packets in the blob; else it found none there. -/
theorem Pending.blobPart {e : FecEncodeManager} {ps : List Bytes} {o : EncodeOptions} {s : Option Bytes} {out : EncodeOut}
    (h : Pending e ps) (he : e.encodeOne o s = .ok out) :
    (if e.fecPar.mode = 0 then ps else []) = if out.st.fecPar.mode = 0 then ps else [] := by
  obtain ⟨e0, e', htake, -, -, -, -, hpar⟩ := encodeOne_fecPar he
  rw [hpar]
  by_cases hc : e.counter = 0
  · obtain rfl : ps = [] := List.length_eq_zero_iff.mp (h.count ▸ hc)
    simp
  · rw [(takeUp_ok htake).2 hc]

theorem Pending.holding {e : FecEncodeManager} {ps : List Bytes} {o : EncodeOptions} {s : Option Bytes} {out : EncodeOut}
    (h : Pending e ps) (he : e.encodeOne o s = .ok out) (h0 : out.st.fecPar.mode = 0) : Holding e ps := by
  by_cases hm : e.fecPar.mode = 0
  · exact h.blob hm
  · -- the mode has just changed, between groups
    have hpart := h.blobPart he
    rw [if_neg hm, if_pos h0] at hpart
    subst hpart
    exact ⟨(h.rows hm).2, h.count, h.ready, by simp, by simp⟩

/-- Each call leaves the packets of the group where they belong. -/
theorem encodeOne_pending {e : FecEncodeManager} {ps : List Bytes} {o : EncodeOptions} {s : Option Bytes} {out : EncodeOut}
    (h : Pending e ps) (he : e.encodeOne o s = .ok out) : Pending out.st (EncodeCall.after ⟨e, o, s, out⟩ ps) := by
  obtain ⟨e0, e', htake, hmode, htook, hst, -, hpar⟩ := encodeOne_fecPar he
  have harmed : out.st.Armed := by
    have := took_armed (takeUp_pending h htake).armed htook
    rw [hst]
    exact this
  rcases hmode with h0 | h1
  · rw [← hpar] at h0
    have hhold := (encodeOne_blob (h.holding he h0) he h0).1
    have hafter : EncodeCall.after ⟨e, o, s, out⟩ ps = out.pending ps s := if_pos h0
    rw [hafter]
    exact ⟨hhold.count, hhold.ready, harmed, fun _ => hhold, fun hne => absurd h0 hne⟩
  · rw [← hpar] at h1
    obtain ⟨hcount, hrows, hempty, -⟩ := encodeOne_rows h he h1
    exact ⟨hcount, by rw [hst], harmed, fun h0 => by omega, fun _ => ⟨hrows, hempty⟩⟩

/-- A call that takes nothing hands nothing out. -/
theorem encodeOne_sent {e : FecEncodeManager} {ps shards : List Bytes} {o : EncodeOptions} {s : Option Bytes} {out : EncodeOut}
    (h : Pending e ps) (he : e.encodeOne o s = .ok out) (hsent : out.sent = some shards) : out.ret = 0 := by
  obtain ⟨e0, e', htake, -, htook, -, hout, -⟩ := encodeOne_fecPar he
  rw [hsent] at hout
  generalize out.ret = ret at htook
  cases htook with
  | ignored hcount =>
    rw [sentBy_none (takeUp_pending h htake).ready] at hout
    cases hout
  | _ => rfl

/-- In mode 0 a call hands a group out or keeps what it took. -/
theorem encodeOne_accepted {e : FecEncodeManager} {ps : List Bytes} {o : EncodeOptions} {s : Option Bytes} {out : EncodeOut}
    (h : Pending e ps) (he : e.encodeOne o s = .ok out) (h0 : out.st.fecPar.mode = 0) :
    ∃ groups, List.Forall₂ Carries out.sent.toList groups ∧
      ps ++ EncodeCall.accepted ⟨e, o, s, out⟩ = groups.flatten ++ EncodeCall.after ⟨e, o, s, out⟩ ps := by
  have hafter : EncodeCall.after ⟨e, o, s, out⟩ ps = out.pending ps s := if_pos h0
  rw [hafter]
  unfold EncodeCall.accepted EncodeOut.pending
  rcases (encodeOne_blob (h.holding he h0) he h0).2 with hnone | ⟨x, y, len, B, hs, hsome⟩
  · refine ⟨[], by rw [hnone]; exact .nil, ?_⟩
    by_cases hr : out.ret = 0
    · simp [hr, hnone]
    · simp [hr]
  · have hr := encodeOne_sent h he hsome
    refine ⟨[out.group ps s], by rw [hsome]; exact .cons ⟨_, _, _, _, _, _, hs, rfl⟩ .nil, ?_⟩
    unfold EncodeOut.group
    simp only [hr, if_true, ne_eq, not_true_eq_false, if_false, hsome, reduceCtorEq, List.flatten_cons, List.flatten_nil,
      List.append_nil]
    split
    · rw [List.append_nil]
    · rfl

/-! ## Runs -/

theorem pendingAfter_snoc (log : List EncodeCall) (c : EncodeCall) : pendingAfter (log ++ [c]) = c.after (pendingAfter log) := by
  simp [pendingAfter]

theorem Called.pending {log : List EncodeCall} {e : FecEncodeManager} (h : Called log e) : Pending e (pendingAfter log) := by
  induction h with
  | start hc => exact construct_pending hc
  | call h he ih =>
    rw [pendingAfter_snoc]
    exact encodeOne_pending ih he

/-- A call of a run, from what the calls before it left. -/
theorem Called.at {log : List EncodeCall} {e : FecEncodeManager} (h : Called log e) {past later : List EncodeCall} {c : EncodeCall}
    (hlog : log = past ++ c :: later) : Called past c.before ∧ c.before.encodeOne c.o c.s = .ok c.out := by
  induction h generalizing later with
  | start hc => simp at hlog
  | @call log e h o s out he ih =>
    rcases concat_split hlog with ⟨-, rfl, rfl⟩ | ⟨later', -, hlog⟩
    · exact ⟨h, he⟩
    · exact ih hlog

/-- The packets accepted in mode 0, in order, are those of the groups handed out and then those
    in the blob, which holds one record for each of them and nothing else; a mode 1 packet goes
    out in its own call and in its own place in the group, and a closed group has each of its
    parity shards handed out by the call that closes it; and the timer runs if and only if
    packets are pending. -/
theorem encoder_keeps_all (log : List EncodeCall) (e : FecEncodeManager) (h : Called log e) :
    (∃ groups pending, List.Forall₂ Carries (sentBlob log) groups ∧ acceptedBlob log = groups.flatten ++ pending ∧
      e.blobEncode.Holds pending ∧ (e.fecPar.mode = 0 → e.counter = pending.length) ∧
        e.blobEncode.currentLen = 4 + (pending.map fun p => 2 + p.length).sum) ∧
    (∀ past c later, log = past ++ c :: later → c.mode = 1 → c.out.ret = 0 →
      c.out.sent = some (c.rowShards (pendingAfter past))) ∧
    (e.timer.isSome ↔ 0 < e.counter) := by
  refine ⟨?_, ?_, h.pending.armed⟩
  · suffices hall : ∃ groups, List.Forall₂ Carries (sentBlob log) groups ∧
        acceptedBlob log = groups.flatten ++ if e.fecPar.mode = 0 then pendingAfter log else [] by
      obtain ⟨groups, hsent, haccepted⟩ := hall
      have hp := h.pending
      have hholds : e.blobEncode.Holds (if e.fecPar.mode = 0 then pendingAfter log else []) := by
        split
        · rename_i h0
          exact (hp.blob h0).blob
        · rename_i hne
          exact (hp.rows hne).2
      refine ⟨groups, _, hsent, haccepted, hholds, ?_, ?_⟩
      · intro h0
        rw [if_pos h0]
        exact hp.count
      · rw [hholds.len, body_length]
    induction h with
    | start hc => exact ⟨[], .nil, by split <;> rfl⟩
    | @call log e h o s out he ih =>
      obtain ⟨groups, hsent, haccepted⟩ := ih
      rw [h.pending.blobPart he] at haccepted
      have hpar : EncodeCall.mode ⟨e, o, s, out⟩ = out.st.fecPar.mode := rfl
      simp only [sentBlob, acceptedBlob, List.flatMap_append, List.flatMap_cons, List.flatMap_nil, List.append_nil, hpar,
        pendingAfter_snoc] at hsent haccepted ⊢
      by_cases h0 : out.st.fecPar.mode = 0
      · obtain ⟨more, hmore, hkept⟩ := encodeOne_accepted h.pending he h0
        simp only [h0, if_true] at haccepted ⊢
        refine ⟨groups ++ more, List.rel_append hsent hmore, ?_⟩
        rw [haccepted, List.append_assoc, hkept, List.flatten_append, List.append_assoc]
      · simp only [h0, if_false, List.append_nil] at haccepted ⊢
        exact ⟨groups, hsent, haccepted⟩
  · intro past c later hlog h1 hret
    obtain ⟨hpast, he⟩ := h.at hlog
    exact (encodeOne_rows hpast.pending he h1).2.2.2 hret

/-- Three packets, of which two fill a group and the third is pending. -/
theorem encoder_keeps_all_three : ∃ log e groups pending, log.length = 3 ∧ Called log e ∧ (sentBlob log).length = 1 ∧
    List.Forall₂ Carries (sentBlob log) groups ∧ acceptedBlob log = [probe, probe, probe] ∧
      acceptedBlob log = groups.flatten ++ pending ∧ pending.length = 1 ∧ e.timer.isSome = true := by
  let p : FecParameter := { (default : FecParameter) with rsCnt := 2, rsPar := fun i => ⟨i + 1, 1⟩ }
  have hrows : FecParameter.RowsBelow p.rsPar p.rsCnt := fun _ _ => ⟨rfl, show 1 < 256 by decide⟩
  obtain ⟨e0, e, hnew, -, h⟩ := @construct_probed p 2 (by decide)
  obtain ⟨out1, he1, hret1, hsent1, h1⟩ := h.next (by decide) (by decide) (by decide) (by decide)
  obtain ⟨out2, len, B, he2, hret2, h2, hsent2⟩ := h1.last hrows (by decide) rfl (by decide) (by decide)
  obtain ⟨out3, he3, hret3, hsent3, h3⟩ := h2.next (by decide) (by decide) (by decide) (by decide)
  have hcalled := (((Called.start hnew).call he1).call he2).call he3
  obtain ⟨⟨groups, pending, hgroups, haccepted, -, hcount, -⟩, -, harmed⟩ := encoder_keeps_all _ _ hcalled
  have hmode : ∀ {k : Nat} {e : FecEncodeManager}, Probed p 2 k e → e.fecPar.mode = 0 := fun h => by rw [h.fecPar]; rfl
  refine ⟨_, out3.st, groups, pending, rfl, hcalled, ?_, hgroups, ?_, haccepted, ?_, harmed.mpr (by rw [h3.counter]; decide)⟩
  · simp [sentBlob, EncodeCall.mode, hmode h1, hmode h2, hmode h3, hsent1, hsent2, hsent3]
  · simp [acceptedBlob, EncodeCall.accepted, EncodeCall.mode, hmode h1, hmode h2, hmode h3, hret1, hret2, hret3]
  · rw [← hcount (hmode h3), h3.counter]

end FecEncodeManager

end UdpSpeeder.Manager
