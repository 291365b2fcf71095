/-
  UdpSpeeder.Manager.Stream — everything a run of the encoder puts on the wire.

  Whatever the modes, the parameters and the timer calls, the datagrams of a run are those of
  its groups, one group after the other under consecutive seqs, and then the data shards of a
  pending mode 1 group; the groups carry what was accepted, in order (`Streamed.next_call`).
-/

import UdpSpeeder.Manager.Recover

namespace UdpSpeeder.Manager

open Lib Fec

namespace FecEncodeManager

/-! ## Groups -/

/-- A group's blob cut into slices, or a row for each of its packets. -/
inductive Form where
  | blob (x y len : Nat) (B : Nat → Byte)
  | rows (y : Nat)

/-- A closed group. -/
structure Sent where
  seq : U32
  packets : List Bytes
  form : Form

namespace Sent

/-- Its datagrams. -/
noncomputable def shards (g : Sent) : List Bytes :=
  match g.form with
  | .blob x y len B => (List.range (x + y)).map (blobShard g.seq x y len B)
  | .rows y => dataShards g.seq g.packets ++ parityShards g.seq g.packets y

/-- The code has its shape. -/
def Fits (g : Sent) : Prop :=
  match g.form with
  | .blob x y len B => ∃ p, Sliced p g.packets x y len B
  | .rows y => 0 < g.packets.length ∧ g.packets.length + y < 256 ∧ ∀ p ∈ g.packets, p.length ≤ 65535

end Sent

/-- What has gone out of the pending group. -/
def early (e : FecEncodeManager) (ps : List Bytes) : List Bytes := if e.fecPar.mode = 0 then [] else dataShards e.seq ps

theorem dataShards_append (seq : U32) (ps : List Bytes) (s : Option Bytes) :
    dataShards seq (ps ++ s.toList) = dataShards seq ps ++ s.toList.map (packetShard seq ps.length) := by
  cases s with
  | none => simp
  | some s => exact dataShards_concat seq ps s

/-! ## One call -/

theorem append_short {e e' : FecEncodeManager} {s : Bytes} (hmode : e.fecPar.mode = 0 ∨ e.fecPar.mode = 1)
    {now : Nat} (hr : e.append now s = .ok e') : s.length ≤ 65535 := by
  have ha := append_ok hr
  rcases hmode with h0 | h1
  · have hin := (ha.blob h0).1
    unfold BlobEncode.input at hin
    rw [check_bind, check_bind] at hin
    exact hin.2.1
  · exact (ha.row h1).1

/-- A packet that is taken fits the length field. -/
theorem took_short {e e' : FecEncodeManager} {o : EncodeOptions} {s : Bytes} {ret : Int}
    (hmode : e.fecPar.mode = 0 ∨ e.fecPar.mode = 1) (ht : Took o e (some s) e' ret) (hret : ret = 0) : s.length ≤ 65535 := by
  cases ht with
  | ignored => cases hret
  | taken hopen hfits h0 happend => exact append_short hmode happend
  | sent hopen h1 happend => exact append_short hmode happend
  | filled hopen hfits happend => exact append_short hmode happend
  | overran hopen hlong hcount hclose happend => exact append_short (by rw [close_fecPar hclose]; exact hmode) happend

theorem close_ready {e e' : FecEncodeManager} {o : EncodeOptions} {given : Bool} (hr : e.close o given = .ok e') :
    e'.readyForOutput = true := by
  obtain ⟨e1, shape, fecLen, -, hc⟩ := close_ok hr
  exact hc.ready

/-- The shape of a mode 1 group is one the code has. -/
theorem close_small {e e' : FecEncodeManager} {o : EncodeOptions} {given : Bool} (h1 : e.fecPar.mode = 1)
    (hr : e.close o given = .ok e') : 0 < e.counter ∧ e.counter + (e.fecPar.rsPar (e.counter - 1)).y < 256 := by
  obtain ⟨hc, -⟩ := close_output h1 hr
  exact ⟨hc.pos, hc.small⟩

/-- A call leaves the group open and its seq as it was, or closes it and goes on to the next. -/
theorem took_seq {e e' : FecEncodeManager} {o : EncodeOptions} {s : Option Bytes} {ret : Int} (hready : e.readyForOutput = false)
    (ht : Took o e s e' ret) :
    e'.seq = e.seq ∧ (e.fecPar.mode = 0 → e'.readyForOutput = false) ∧ (e.fecPar.mode = 1 → ret = 0 → e'.counter ≠ 0) ∨
      e'.seq = e.seq + 1 ∧ e'.readyForOutput = true ∧ ret = 0 ∧ (e.fecPar.mode = 1 → e'.counter = 0 ∧
        0 < e.counter + s.toList.length ∧
          e.counter + s.toList.length + (e.fecPar.rsPar (e.counter + s.toList.length - 1)).y < 256) := by
  cases ht with
  | ignored => exact .inl ⟨rfl, fun _ => hready, fun _ hret => by cases hret⟩
  | taken hopen hfits h0 happend =>
    have ha := append_ok happend
    exact .inl ⟨ha.seq, fun _ => ha.ready.trans hready, fun h1 => by omega⟩
  | sent hopen h1 happend hroom hsend =>
    obtain ⟨hcount, -, -, -, hseq, hpos⟩ := fastSend_frame hsend
    exact .inl ⟨hseq.trans (append_ok happend).seq, fun h0 => by omega, fun _ _ => by omega⟩
  | filled hopen hfits happend hfull hclose =>
    have ha := append_ok happend
    obtain ⟨-, hcount, hseq⟩ := close_frame hclose
    refine .inr ⟨hseq.trans (by rw [ha.seq]), close_ready hclose, rfl, fun h1 => ⟨hcount, ?_⟩⟩
    have := close_small (ha.fecPar ▸ h1) hclose
    rw [ha.counter, ha.fecPar] at this
    exact this
  | flushed hopen hcount hclose =>
    obtain ⟨-, hcount', hseq⟩ := close_frame hclose
    exact .inr ⟨hseq, close_ready hclose, rfl, fun h1 => ⟨hcount', close_small h1 hclose⟩⟩
  | overran hopen hlong hcount hclose happend =>
    have ha := append_ok happend
    exact .inr ⟨ha.seq.trans (close_frame hclose).2.2, ha.ready.trans (close_ready hclose), rfl, fun h1 => by
      have := hlong.1
      omega⟩

theorem sentBy_isSome (e : FecEncodeManager) : e.sentBy.isSome = e.readyForOutput := by
  unfold sentBy output
  cases hready : e.readyForOutput <;> simp

/-- The same over `input` and `output`. -/
theorem encodeOne_closes {e : FecEncodeManager} {ps : List Bytes} {o : EncodeOptions} {s : Option Bytes} {out : EncodeOut}
    (h : Pending e ps) (he : e.encodeOne o s = .ok out) :
    out.st.seq = e.seq ∧ (out.st.fecPar.mode = 0 → out.sent = none) ∧
        (out.st.fecPar.mode = 1 → out.ret = 0 → out.st.counter ≠ 0) ∨
      out.st.seq = e.seq + 1 ∧ out.sent.isSome ∧ out.ret = 0 ∧ (out.st.fecPar.mode = 1 → out.st.counter = 0 ∧
        0 < (ps ++ s.toList).length ∧
          (ps ++ s.toList).length + (out.st.fecPar.rsPar ((ps ++ s.toList).length - 1)).y < 256) := by
  obtain ⟨e0, e', htake, -, htook, hst, hsent, hpar⟩ := encodeOne_fecPar he
  have hp := takeUp_pending h htake
  have hseq0 : e0.seq = e.seq := by rw [(takeUp_ok htake).1]
  have hst' : out.st.seq = e'.seq ∧ out.st.counter = e'.counter := by rw [hst]; exact ⟨rfl, rfl⟩
  rw [hst'.1, hst'.2, hpar, hsent, ← hseq0, sentBy_isSome, List.length_append, ← hp.count]
  rcases took_seq hp.ready htook with ⟨hseq, h0, h1⟩ | ⟨hseq, hready, hret, h1⟩
  · exact .inl ⟨hseq, fun hm => sentBy_none (h0 hm), h1⟩
  · exact .inr ⟨hseq, hready, hret, h1⟩

/-- The mode only changes between groups, when nothing has gone out yet. -/
theorem encodeOne_early {e : FecEncodeManager} {ps : List Bytes} {o : EncodeOptions} {s : Option Bytes} {out : EncodeOut}
    (h : Pending e ps) (he : e.encodeOne o s = .ok out) :
    e.early ps = if out.st.fecPar.mode = 0 then [] else dataShards e.seq ps := by
  have hpart := h.blobPart he
  unfold early
  by_cases hm : e.fecPar.mode = 0 <;> by_cases hm' : out.st.fecPar.mode = 0
  · rw [if_pos hm, if_pos hm']
  · rw [if_pos hm, if_neg hm'] at hpart
    rw [if_pos hm, if_neg hm', hpart]
    rfl
  · rw [if_neg hm, if_pos hm'] at hpart
    rw [if_neg hm, if_pos hm', ← hpart]
    rfl
  · rw [if_neg hm, if_neg hm']

/-- What a call puts on the wire is what it closes, and what goes out early. -/
structure Streams (c : EncodeCall) (ps : List Bytes) (gs : List Sent) : Prop where
  seq : c.out.st.seq = c.before.seq + .ofNat 32 gs.length
  one : ∀ g ∈ gs, gs = [g] ∧ g.seq = c.before.seq ∧ g.Fits
  packets : ps ++ c.accepted = gs.flatMap Sent.packets ++ c.after ps
  wire : c.before.early ps ++ c.out.sent.getD [] = gs.flatMap Sent.shards ++ c.out.st.early (c.after ps)

theorem encodeOne_streams_blob {e : FecEncodeManager} {ps : List Bytes} {o : EncodeOptions} {s : Option Bytes} {out : EncodeOut}
    (h : Pending e ps) (he : e.encodeOne o s = .ok out) (h0 : out.st.fecPar.mode = 0) : ∃ gs, Streams ⟨e, o, s, out⟩ ps gs := by
  have hafter : EncodeCall.after ⟨e, o, s, out⟩ ps = out.pending ps s := if_pos h0
  have hearly : out.st.early (out.pending ps s) = [] := if_pos h0
  have hbefore : e.early ps = [] := (encodeOne_early h he).trans (if_pos h0)
  rcases (encodeOne_blob (h.holding he h0) he h0).2 with hnone | ⟨x, y, len, B, hs, hsome⟩
  · rcases encodeOne_closes h he with ⟨hseq, -⟩ | ⟨-, hsome, -⟩
    · refine ⟨[], by simpa using hseq, by simp, ?_, ?_⟩
      · rw [hafter]
        unfold EncodeCall.accepted EncodeOut.pending
        by_cases hr : out.ret = 0 <;> simp [hr, hnone]
      · rw [hafter, hearly]
        simp only [hbefore, hnone]
        rfl
    · rw [hnone] at hsome
      cases hsome
  · rcases encodeOne_closes h he with ⟨-, hno, -⟩ | ⟨hseq, -, hret, -⟩
    · rw [hno h0] at hsome
      cases hsome
    · refine ⟨[⟨e.seq, out.group ps s, .blob x y len B⟩], hseq, ?_, ?_, ?_⟩
      · intro g hg
        rw [List.mem_singleton.mp hg]
        exact ⟨rfl, rfl, _, hs⟩
      · rw [hafter]
        unfold EncodeCall.accepted EncodeOut.pending EncodeOut.group
        by_cases hc : out.st.counter = 0 <;> simp [hret, hsome, hc]
      · rw [hafter, hearly]
        simp only [hbefore, hsome, List.flatMap_cons, List.flatMap_nil, List.append_nil, List.nil_append, Option.getD_some]
        rfl

theorem encodeOne_streams_rows {e : FecEncodeManager} {ps : List Bytes} {o : EncodeOptions} {s : Option Bytes} {out : EncodeOut}
    (h : Pending e ps) (hshort : ∀ p ∈ ps ++ EncodeCall.accepted ⟨e, o, s, out⟩, p.length ≤ 65535) (he : e.encodeOne o s = .ok out)
    (h1 : out.st.fecPar.mode = 1) : ∃ gs, Streams ⟨e, o, s, out⟩ ps gs := by
  have h0 : out.st.fecPar.mode ≠ 0 := by omega
  have hbefore : e.early ps = dataShards e.seq ps := (encodeOne_early h he).trans (if_neg h0)
  have hafter : EncodeCall.after ⟨e, o, s, out⟩ ps =
      if out.ret ≠ 0 then ps else if out.st.counter = 0 then [] else ps ++ s.toList := if_neg h0
  have hearly : ∀ qs, out.st.early qs = dataShards out.st.seq qs := fun qs => if_neg h0
  by_cases hret : out.ret = 0
  · have hsent := (encodeOne_rows h he h1).2.2.2 hret
    have haccepted : EncodeCall.accepted ⟨e, o, s, out⟩ = s.toList := if_pos hret
    simp only [hret, ne_eq, not_true_eq_false, if_false] at hafter
    rcases encodeOne_closes h he with ⟨hseq, -, hopen⟩ | ⟨hseq, -, -, hclosed⟩
    · have hc := hopen h1 hret
      rw [if_neg hc] at hafter
      refine ⟨[], by simpa using hseq, by simp, by rw [hafter, haccepted]; rfl, ?_⟩
      rw [hafter, hearly, hseq, dataShards_append]
      simp only [hbefore, hsent, EncodeCall.rowShards, if_neg hc, Option.getD_some, List.append_nil, List.flatMap_nil,
        List.nil_append]
    · obtain ⟨hc, hpos, hsmall⟩ := hclosed h1
      rw [if_pos hc] at hafter
      rw [haccepted] at hshort
      refine ⟨[⟨e.seq, ps ++ s.toList, .rows (out.st.fecPar.rsPar ((ps ++ s.toList).length - 1)).y⟩], hseq, ?_, ?_, ?_⟩
      · intro g hg
        rw [List.mem_singleton.mp hg]
        exact ⟨rfl, rfl, hpos, hsmall, hshort⟩
      · rw [hafter, haccepted]
        simp
      · rw [hafter, hearly]
        simp only [hbefore, hsent, EncodeCall.rowShards, if_pos hc, Option.getD_some, List.flatMap_cons, List.flatMap_nil,
          List.append_nil, Sent.shards]
        rw [dataShards_append, List.append_assoc]
        simp [dataShards]
  · -- a call that takes nothing
    have hsent : out.sent = none := by
      cases hs : out.sent with
      | none => rfl
      | some shards => exact absurd (encodeOne_sent h he hs) hret
    have haccepted : EncodeCall.accepted ⟨e, o, s, out⟩ = [] := if_neg hret
    rw [if_pos hret] at hafter
    rcases encodeOne_closes h he with ⟨hseq, -⟩ | ⟨-, -, hret', -⟩
    · refine ⟨[], by simpa using hseq, by simp, by rw [hafter, haccepted]; simp, ?_⟩
      rw [hafter, hearly, hseq]
      simp only [hbefore, hsent, Option.getD_none, List.append_nil, List.flatMap_nil, List.nil_append]
    · exact absurd hret' hret

/-! ## Runs -/

/-- The packets accepted, in whatever mode. -/
def accepted (log : List EncodeCall) : List Bytes := log.flatMap EncodeCall.accepted

/-- All datagrams handed out, in order. -/
def wire (log : List EncodeCall) : List Bytes := log.flatMap fun c => c.out.sent.getD []

theorem accepted_snoc (log : List EncodeCall) (c : EncodeCall) : accepted (log ++ [c]) = accepted log ++ c.accepted := by
  simp [accepted]

theorem wire_snoc (log : List EncodeCall) (c : EncodeCall) : wire (log ++ [c]) = wire log ++ c.out.sent.getD [] := by
  simp [wire]

theorem accepted_short {e : FecEncodeManager} {o : EncodeOptions} {s : Option Bytes} {out : EncodeOut}
    (he : e.encodeOne o s = .ok out) : ∀ p ∈ EncodeCall.accepted ⟨e, o, s, out⟩, p.length ≤ 65535 := by
  intro p hp
  unfold EncodeCall.accepted at hp
  split at hp
  · rename_i hret
    obtain ⟨e0, e', -, hmode, htook, -⟩ := encodeOne_fecPar he
    have hs : s = some p := Option.mem_toList.mp hp
    rw [hs] at htook
    exact took_short hmode htook hret
  · cases hp

theorem Called.short {log : List EncodeCall} {e : FecEncodeManager} (h : Called log e) : ∀ p ∈ accepted log, p.length ≤ 65535 := by
  induction h with
  | start => exact fun p hp => by cases hp
  | call h he ih =>
    intro p hp
    rw [accepted_snoc] at hp
    exact (List.mem_append.mp hp).elim (ih p) (accepted_short he p)

/-- The groups of a run, and what is pending after it. -/
structure Streamed (log : List EncodeCall) (e : FecEncodeManager) (seq0 : U32) (gs : List Sent) : Prop where
  seqs : ∀ i (hi : i < gs.length), gs[i].seq = seq0 + .ofNat 32 i
  next : e.seq = seq0 + .ofNat 32 gs.length
  fits : ∀ g ∈ gs, g.Fits
  packets : accepted log = gs.flatMap Sent.packets ++ pendingAfter log
  wire : wire log = gs.flatMap Sent.shards ++ e.early (pendingAfter log)

/-- A call adds to them the group it closes, if it closes one. -/
theorem Streamed.call {log : List EncodeCall} {c : EncodeCall} {seq0 : U32} {gs more : List Sent} (h : Streamed log c.before seq0 gs)
    (hc : Streams c (pendingAfter log) more) : Streamed (log ++ [c]) c.out.st seq0 (gs ++ more) := by
  have hlen : more.length ≤ 1 := by
    cases more with
    | nil => exact Nat.zero_le 1
    | cons g _ => rw [(hc.one g List.mem_cons_self).1]; exact le_rfl
  refine ⟨?_, ?_, ?_, ?_, ?_⟩
  · intro i hi
    rw [List.length_append] at hi
    by_cases hlt : i < gs.length
    · rw [List.getElem_append_left hlt]
      exact h.seqs i hlt
    · obtain rfl : i = gs.length := by omega
      rw [List.getElem_append_right le_rfl, ← h.next]
      exact (hc.one _ (List.getElem_mem _)).2.1
  · rw [hc.seq, h.next, List.length_append, BitVec.ofNat_add, BitVec.add_assoc]
  · intro g hg
    rcases List.mem_append.mp hg with hg | hg
    · exact h.fits g hg
    · exact (hc.one g hg).2.2
  · rw [accepted_snoc, pendingAfter_snoc, h.packets, List.append_assoc, hc.packets, List.flatMap_append, List.append_assoc]
  · rw [wire_snoc, pendingAfter_snoc, h.wire, List.append_assoc, hc.wire, List.flatMap_append, List.append_assoc]

/-- One call more, whatever it does. -/
theorem Streamed.next_call {log : List EncodeCall} {e : FecEncodeManager} {seq0 : U32} {gs : List Sent} (hs : Streamed log e seq0 gs)
    (h : Called log e) {o : EncodeOptions} {s : Option Bytes} {out : EncodeOut} (he : e.encodeOne o s = .ok out) :
    ∃ more, Streams ⟨e, o, s, out⟩ (pendingAfter log) more ∧ Streamed (log ++ [⟨e, o, s, out⟩]) out.st seq0 (gs ++ more) := by
  obtain ⟨e0, e', -, hmode, -, -, -, hpar⟩ := encodeOne_fecPar he
  rw [← hpar] at hmode
  have hmore : ∃ more, Streams ⟨e, o, s, out⟩ (pendingAfter log) more := by
    rcases hmode with h0 | h1
    · exact encodeOne_streams_blob h.pending he h0
    · refine encodeOne_streams_rows h.pending (fun p hp => ?_) he h1
      rcases List.mem_append.mp hp with hp | hp
      · exact h.short p (by rw [hs.packets]; exact List.mem_append_right _ hp)
      · exact accepted_short he p hp
  obtain ⟨more, hmore⟩ := hmore
  exact ⟨more, hmore, hs.call hmore⟩

theorem Streamed.start (e : FecEncodeManager) : Streamed [] e e.seq [] := by
  refine ⟨fun i hi => absurd hi (Nat.not_lt_zero i), (BitVec.add_zero _).symm, by simp, rfl, ?_⟩
  unfold early
  split <;> rfl

/-- Every run of the encoder: what it accepted is in its groups and in the pending one, in
    order, and what it sent is what these send, under consecutive seqs. -/
theorem called_streams {log : List EncodeCall} {e : FecEncodeManager} (h : Called log e) : ∃ seq0 gs, Streamed log e seq0 gs := by
  induction h with
  | start hc => exact ⟨_, [], .start _⟩
  | call h he ih =>
    obtain ⟨seq0, gs, hs⟩ := ih
    obtain ⟨more, -, hs⟩ := hs.next_call h he
    exact ⟨seq0, gs ++ more, hs⟩

/-- Under a table of one row each packet is a group. -/
theorem pairing_sent {p : Bytes} (hp : p.length ≤ maxDataLen + 4) : ∃ e out, construct { (default : FecEncodeManager) with
    fecPar := pairing.gFecPar } pairing.gFecPar 0 = .ok e ∧ e.seq = 0 ∧ e.encodeOne pairing (some p) = .ok out ∧ out.ret = 0 ∧
      out.st.seq = 1 ∧ out.sent = some (dataShards 0 [p] ++ parityShards 0 [p] 1) := by
  let e : FecEncodeManager := clearData { (default : FecEncodeManager) with fecPar := pairing.gFecPar } 0
  have hnew : construct { (default : FecEncodeManager) with fecPar := pairing.gFecPar } pairing.gFecPar 0 = .ok e :=
    construct_self (by decide) 0
  have hcalled : Called [] e := .start hnew
  obtain ⟨out, he, hsteady⟩ := (@encodeOne_returns e pairing (some p) (construct_steady pairing_inRange hnew) pairing_inRange
    fun q hq => by cases hq; exact hp).run (show ¬ pairing.Heavy by unfold EncodeOptions.Heavy; decide)
  obtain ⟨e0, e', htake, -, htook, hst, -, hpar⟩ := encodeOne_fecPar he
  have hsame : e.takeUp pairing.gFecPar = .ok e := if_neg fun h => h.2 rfl
  obtain rfl : e = e0 := Except.ok.inj (hsame.symm.trans htake)
  have hmode : out.st.fecPar.mode = 1 := by rw [hpar]; rfl
  have hret : out.ret = 0 := by
    generalize out.ret = ret at htook
    cases htook with
    | ignored hzero hwhy =>
      obtain ⟨tail, -, hlong⟩ := hwhy p rfl
      exact absurd hlong.1 Nat.one_ne_zero
    | _ => rfl
  have hcount : out.st.counter = 0 := by
    have := hsteady.room.group hmode
    rw [show out.st.lastRow = ⟨1, 1⟩ by unfold lastRow; rw [hpar]; rfl] at this
    exact Nat.lt_one_iff.mp this
  have hsent := (encodeOne_rows hcalled.pending he hmode).2.2.2 hret
  simp only [EncodeCall.rowShards, hcount, hpar] at hsent
  refine ⟨e, out, hnew, rfl, he, hret, ?_, hsent⟩
  rcases encodeOne_closes hcalled.pending he with ⟨-, -, hopen⟩ | ⟨hseq, -⟩
  · exact absurd hcount (hopen hmode hret)
  · exact hseq

theorem called_streams_pairing : ∃ (log : List EncodeCall) (e : FecEncodeManager), accepted log = [[7]] ∧
    wire log = dataShards 0 [[7]] ++ parityShards 0 [[7]] 1 ∧ ∃ seq0 gs, Streamed log e seq0 gs := by
  obtain ⟨e, out, hnew, -, he, hret, -, hsent⟩ := @pairing_sent [7] (by decide)
  refine ⟨_, _, ?_, ?_, called_streams (.call (.start hnew) he)⟩
  · simp [accepted, EncodeCall.accepted, hret]
  · simp [wire, hsent]

end FecEncodeManager

end UdpSpeeder.Manager
