/-
  UdpSpeeder.Manager.Step — what one call of `input` can do, said once (`input_ok`), and
  runs of the decoder with `output` called after every `input` (`Fed`).

  A datagram is dropped before it reaches its group, or refused by its group, or found to
  be about to evict its own group, or stored; then `conclude` leaves the ring as it is but
  for the contents of buffers (`SameRing`).
-/

import UdpSpeeder.Manager.Complete

namespace UdpSpeeder.Manager

open Lib Fec

/-! ## The tables of the code -/

namespace FlatTables

variable {N : FecBuffNum} (t : FlatTables N) (seq s : U32) (g : FecGroup)

/-- The record `group_find_or_create` returns a reference to. -/
def owner : FecGroup :=
  if (t.groups (groupSlot N seq)).seq = seq then t.groups (groupSlot N seq)
  else (t.groups (groupSlot N seq)).init seq

theorem isValid_iff : isValid t seq = true ↔ t.replay (replaySlot seq) ≠ seq := decide_eq_true_iff

@[simp] theorem setInvaild_replay : (setInvaild t seq).replay = upd t.replay (replaySlot seq) seq := rfl

@[simp] theorem setInvaild_groups : (setInvaild t seq).groups = t.groups := rfl

theorem find_owner : groupFindOrCreate t seq = ({ t with groups := upd t.groups (groupSlot N seq) (owner t seq) }, owner t seq) := by
  simp only [groupFindOrCreate, owner]
  by_cases h : (t.groups (groupSlot N seq)).seq = seq
  · simp only [h, ne_eq, not_true_eq_false, if_false, if_true, upd_self]
  · simp only [h, ne_eq, not_false_eq_true, if_true, if_false]

theorem owner_seq : (owner t seq).seq = seq := by
  unfold owner
  split
  · assumption
  · rfl

@[simp] theorem groupPut_replay : (groupPut t seq g).replay = t.replay := rfl

@[simp] theorem groupPut_groups : (groupPut t seq g).groups = upd t.groups (groupSlot N seq) g := rfl

@[simp] theorem groupErase_replay : (groupErase t seq).replay = t.replay := by
  simp only [groupErase]
  split <;> rfl

theorem groupErase_groups (i : Nat) : (groupErase t seq).groups i =
    if i = groupSlot N seq ∧ (t.groups i).seq = seq then { t.groups i with seq := emptySeq } else t.groups i := by
  simp only [groupErase]
  split
  · rename_i h
    simp only [upd_apply]
    by_cases e : i = groupSlot N seq
    · subst e; simp [h]
    · simp [e]
  · rename_i h
    rw [if_neg]
    rintro ⟨rfl, h'⟩
    exact h h'

/-- The tables once the owner of a reused slot is marked and its group dropped. -/
def dropped : FlatTables N := groupErase (setInvaild t seq) seq

@[simp] theorem dropped_replay : (dropped t seq).replay = upd t.replay (replaySlot seq) seq := by simp [dropped]

theorem dropped_groups (i : Nat) : (dropped t seq).groups i =
    if i = groupSlot N seq ∧ (t.groups i).seq = seq then { t.groups i with seq := emptySeq } else t.groups i :=
  groupErase_groups _ _ _

theorem evict_eq (d : DecodeState) : FecDecodeManager.evict d t seq =
    if (d.fecData d.index).used then (dropped t (d.fecData d.index).seq, decide ((d.fecData d.index).seq = seq))
    else (t, false) := by
  unfold FecDecodeManager.evict
  split
  · -- erasing a group that is not there changes nothing
    have h : ∀ s, (if (groupFind (setInvaild t s) s).isSome then groupErase (setInvaild t s) s else setInvaild t s) =
        dropped t s := by
      intro s
      simp only [dropped, groupFind, groupErase]
      split <;> simp_all
    simp only [h]
  · rfl

end FlatTables

/-! ## Gathering and concluding leave the ring alone -/

namespace DecodeState

variable {N : FecBuffNum}

/-- Only the contents of buffers differ. -/
structure SameRing (d d' : DecodeState) : Prop where
  index : d'.index = d.index
  fecData : ∃ m, d'.fecData = (d.withBufs m).fecData

theorem SameRing.refl (d : DecodeState) : SameRing d d := ⟨rfl, d.bufs, rfl⟩

theorem SameRing.trans {d1 d2 d3 : DecodeState} (h : SameRing d1 d2) (h' : SameRing d2 d3) : SameRing d1 d3 := by
  obtain ⟨m, hm⟩ := h.fecData
  obtain ⟨m', hm'⟩ := h'.fecData
  refine ⟨h'.index.trans h.index, m', ?_⟩
  rw [hm']
  unfold withBufs
  rw [hm]
  rfl

theorem SameRing.used {d d' : DecodeState} (h : SameRing d d') (i : Nat) : (d'.fecData i).used = (d.fecData i).used := by
  obtain ⟨m, hm⟩ := h.fecData
  rw [hm]; rfl

theorem SameRing.seq {d d' : DecodeState} (h : SameRing d d') (i : Nat) : (d'.fecData i).seq = (d.fecData i).seq := by
  obtain ⟨m, hm⟩ := h.fecData
  rw [hm]; rfl

theorem SameRing.idx {d d' : DecodeState} (h : SameRing d d') (i : Nat) : (d'.fecData i).idx = (d.fecData i).idx := by
  obtain ⟨m, hm⟩ := h.fecData
  rw [hm]; rfl

theorem SameRing.len {d d' : DecodeState} (h : SameRing d d') (i : Nat) : (d'.fecData i).len = (d.fecData i).len := by
  obtain ⟨m, hm⟩ := h.fecData
  rw [hm]; rfl

/-- What `gather` hands over. -/
theorem gather_ok {d d' : DecodeState} {g : FecGroup} {h : Header} {call : Option DecodeCall}
    (hr : gather N d g h = .ok (d', call)) :
    d' = { d with outputSArrBuf := d'.outputSArrBuf } ∧ ∀ c, call = some c → outcome g h = .complete ∧
      (h.type = 0 ∧ c = ⟨g.dataNum.toNat, g.total, gathered g, d.bufs, h.payload.length⟩ ∨
        h.type ≠ 0 ∧ ShardsCall d g d' c) := by
  unfold gather at hr
  split at hr
  · rename_i hout
    split at hr
    · rename_i ht
      obtain ⟨c, hc, hr⟩ := bind_ok.mp hr
      cases hr
      refine ⟨rfl, fun c' e => ⟨hout, .inl ⟨ht, ?_⟩⟩⟩
      cases e
      exact blobCall_ok hc
    · rename_i ht
      obtain ⟨h1, h2⟩ := shardsCall_ok hr
      exact ⟨h1, fun c e => ⟨hout, .inr ⟨ht, h2 c e⟩⟩⟩
  · cases hr
    exact ⟨rfl, fun c e => by cases e⟩

theorem gather_sameRing {d d' : DecodeState} {g : FecGroup} {h : Header} {call : Option DecodeCall}
    (hr : gather N d g h = .ok (d', call)) : SameRing d d' := by
  rw [(gather_ok hr).1]
  exact ⟨rfl, d.bufs, rfl⟩

theorem gather_ready {d d' : DecodeState} {g : FecGroup} {h : Header} {call : Option DecodeCall}
    (hr : gather N d g h = .ok (d', call)) : d'.readyForOutput = d.readyForOutput := by
  rw [(gather_ok hr).1]

theorem decodeBlob_sameRing {d d' : DecodeState} {c : DecodeCall} (hr : decodeBlob d c = .ok d') : SameRing d d' := by
  obtain ⟨⟨ret, codes, m, arr⟩, -, hr⟩ := bind_ok.mp hr
  simp only at hr
  rw [check_bind] at hr
  obtain ⟨b, -, hr⟩ := bind_ok.mp hr.2
  split at hr
  · cases hr; exact ⟨rfl, m, rfl⟩
  · rw [check_bind] at hr
    cases hr.2; exact ⟨rfl, m, rfl⟩

theorem decodeShards_sameRing {d d' : DecodeState} {innerIndex : Nat} {c : DecodeCall}
    (hr : decodeShards d innerIndex c = .ok d') : SameRing d d' := by
  unfold decodeShards at hr
  rw [check_bind] at hr
  obtain ⟨⟨ret, codes, m, arr⟩, -, hr⟩ := bind_ok.mp hr.2
  simp only at hr
  rw [check_bind] at hr
  obtain ⟨b, -, hr⟩ := bind_ok.mp hr.2
  split at hr
  · rw [check_bind] at hr
    cases hr.2; exact ⟨rfl, m, rfl⟩
  · cases hr; exact ⟨rfl, m, rfl⟩

theorem fastSend_ok {d d' : DecodeState} {h : Header} (hr : fastSend d h = .ok d') :
    d' = d ∧ ¬ (h.type = 1 ∧ h.dataNum = 0) ∨ h.type = 1 ∧ h.dataNum = 0 ∧ d.readyForOutput = false ∧ d' = { d with
      outputN := 1
      outputSArrBuf := upd d.outputSArrBuf 0 (some (d.index, 2))
      outputLenArrBuf := upd d.outputLenArrBuf 0 ((d.fecData d.index).len - 2)
      outputSArr := .arr
      readyForOutput := true } := by
  unfold fastSend at hr
  split at hr
  · rename_i ht
    rw [check_bind] at hr
    cases hr.2
    exact .inr ⟨ht.1, ht.2, hr.1, rfl⟩
  · rename_i ht
    cases hr
    exact .inl ⟨rfl, ht⟩

theorem fastSend_sameRing {d d' : DecodeState} {h : Header} (hr : fastSend d h = .ok d') : SameRing d d' := by
  rcases fastSend_ok hr with ⟨rfl, -⟩ | ⟨-, -, -, rfl⟩
  · exact SameRing.refl _
  · exact ⟨rfl, d.bufs, rfl⟩

/-- The three ways a stored shard ends. -/
inductive Concluded (d : DecodeState) (g : FecGroup) (h : Header) (call : Option DecodeCall) :
    DecodeState → FecGroup → Bool → Prop
  | waits {d' : DecodeState} (hout : outcome g h = .wait) (hfast : fastSend d h = .ok d') : Concluded d g h call d' g false
  | decodes {d' : DecodeState} {c : DecodeCall} (hout : outcome g h = .complete) (hcall : call = some c)
      (hdec : decodeGroup d h c = .ok d') : Concluded d g h call d' { g with fecDone := true } true
  | ends (hout : outcome g h = .giveUp ∨ outcome g h = .complete ∧ call = none) : Concluded d g h call d g true

theorem conclude_ok {d d' : DecodeState} {g g' : FecGroup} {h : Header} {call : Option DecodeCall} {seen : Bool}
    (hr : conclude d g h call = .ok (d', g', seen)) : Concluded d g h call d' g' seen := by
  unfold conclude at hr
  cases hout : outcome g h with
  | wait =>
    rw [hout] at hr
    obtain ⟨d1, h1, hr⟩ := bind_ok.mp hr
    cases hr
    exact .waits hout h1
  | giveUp =>
    rw [hout] at hr
    cases hr
    exact .ends (.inl hout)
  | complete =>
    rw [hout] at hr
    cases call with
    | none =>
      cases hr
      exact .ends (.inr ⟨hout, rfl⟩)
    | some c =>
      obtain ⟨d1, h1, hr⟩ := bind_ok.mp hr
      cases hr
      exact .decodes hout rfl h1

theorem Concluded.sameRing {d d' : DecodeState} {g g' : FecGroup} {h : Header} {call : Option DecodeCall} {seen : Bool}
    (hc : Concluded d g h call d' g' seen) : SameRing d d' := by
  cases hc with
  | waits hout hfast => exact fastSend_sameRing hfast
  | decodes hout hcall hdec =>
    unfold decodeGroup at hdec
    split at hdec
    · exact decodeBlob_sameRing hdec
    · exact decodeShards_sameRing hdec
  | ends hout => exact SameRing.refl _

/-- The group keeps its shards; it may be done now. -/
theorem Concluded.group {d d' : DecodeState} {g g' : FecGroup} {h : Header} {call : Option DecodeCall} {seen : Bool}
    (hc : Concluded d g h call d' g' seen) : g' = { g with fecDone := g'.fecDone } := by
  cases hc <;> rfl

end DecodeState

/-! ## One call of `input` -/

namespace FecDecodeManager

variable {T : Type} [DecodeTables T] {N : FecBuffNum}

/-- A datagram that gets past the entry checks and the replay table. -/
structure Arrives (st : FecDecodeManager T) (s : Bytes) (h : Header) : Prop where
  parse : parseHeader s = some h
  checks : h.refused = none
  valid : isValid st.tables h.seq = true

theorem Arrives.unique {st : FecDecodeManager T} {s : Bytes} {h h' : Header} (ha : Arrives st s h) (hb : Arrives st s h') :
    h = h' := Option.some.inj (ha.parse.symm.trans hb.parse)

/-- What becomes of an arriving datagram, up to the call of `rs_decode2`. -/
inductive Placed (N : FecBuffNum) (st : FecDecodeManager T) (h : Header) : Prepared T → Prop
  | refused {t : T} {g g' : FecGroup} (hfind : groupFindOrCreate st.tables h.seq = (t, g))
      (hacc : g.accept h = (g', false)) : Placed N st h (.stop { st with tables := groupPut t h.seq g' } (-1))
  | self {t t' : T} {g g' : FecGroup} (hfind : groupFindOrCreate st.tables h.seq = (t, g))
      (hacc : g.accept h = (g', true)) (hevict : evict st.toDecodeState (groupPut t h.seq g') h.seq = (t', true)) :
      Placed N st h (.stop { st with tables := t' } (-1))
  | stored {t t' : T} {g g' : FecGroup} {d : DecodeState} {call : Option DecodeCall}
      (hfind : groupFindOrCreate st.tables h.seq = (t, g)) (hacc : g.accept h = (g', true))
      (hevict : evict st.toDecodeState (groupPut t h.seq g') h.seq = (t', false)) (hindex : st.index < N.1)
      (hlen : h.payload.length + 100 < bufLen)
      (hgather : (st.toDecodeState.store h).gather N (g'.joined h st.index) h = .ok (d, call)) :
      Placed N st h (.stored t' d (g'.joined h st.index) h call)

theorem place_ok {st : FecDecodeManager T} {h : Header} {p : Prepared T} (hr : place N st h = .ok p) : Placed N st h p := by
  unfold place at hr
  cases hfind : groupFindOrCreate st.tables h.seq with
  | mk t g =>
  rw [hfind] at hr
  simp only at hr
  rw [check_bind] at hr
  replace hr := hr.2
  cases hacc : g.accept h with
  | mk g' ok =>
  rw [hacc] at hr
  simp only at hr
  cases ok with
  | false =>
    cases hr
    exact .refused hfind hacc
  | true =>
    simp only [Bool.not_true, Bool.false_eq_true, if_false] at hr
    rw [check_bind] at hr
    replace hr := hr.2
    cases hevict : evict st.toDecodeState (groupPut t h.seq g') h.seq with
    | mk t' own =>
    rw [hevict] at hr
    simp only at hr
    cases own with
    | true =>
      cases hr
      exact .self hfind hacc hevict
    | false =>
      simp only [Bool.false_eq_true, if_false] at hr
      rw [check_bind] at hr
      obtain ⟨hindex, hr⟩ := hr
      rw [check_bind] at hr
      obtain ⟨hlen, hr⟩ := hr
      obtain ⟨⟨d, call⟩, hgather, hr⟩ := bind_ok.mp hr
      cases hr
      exact .stored hfind hacc hevict hindex hlen hgather

/-- From what `prepare` left to what `input` returns. -/
inductive Finished (N : FecBuffNum) : Prepared T → InputOut T → Prop
  | stop (st : FecDecodeManager T) (ret : Int) : Finished N (.stop st ret) ⟨st, ret, none⟩
  | stored {t : T} {d d' : DecodeState} {g g' : FecGroup} {h : Header} {call : Option DecodeCall} {seen : Bool}
      (hc : DecodeState.Concluded d g h call d' g' seen) : Finished N (.stored t d g h call)
        ⟨{ d' with
          index := if d'.index + 1 = N.1 then 0 else d'.index + 1
          tables := if seen then setInvaild (groupPut t h.seq g') h.seq else groupPut t h.seq g' }, 0, some d.index⟩

theorem prepare_ok {st : FecDecodeManager T} {s : Bytes} {p : Prepared T} (hr : prepare N st s = .ok p) :
    (∃ ret, p = .stop st ret ∧ ∀ h, ¬ Arrives st s h) ∨ ∃ h, Arrives st s h ∧ Placed N st h p := by
  unfold prepare at hr
  rw [check_bind] at hr
  replace hr := hr.2
  split at hr
  · rename_i hp
    cases hr
    exact .inl ⟨_, rfl, fun h ha => by have := ha.parse; rw [hp] at this; cases this⟩
  · rename_i h hp
    have hsame : ∀ {h'}, Arrives st s h' → h' = h := fun ha => Option.some.inj (ha.parse.symm.trans hp)
    split at hr
    · rename_i hc
      cases hr
      refine .inl ⟨_, rfl, fun h' ha => ?_⟩
      have := ha.checks
      rw [hsame ha, hc] at this; cases this
    · rename_i hc
      split at hr
      · rename_i hv
        cases hr
        refine .inl ⟨_, rfl, fun h' ha => ?_⟩
        have := ha.valid
        rw [hsame ha] at this
        rw [this] at hv; cases hv
      · rename_i hv
        exact .inr ⟨h, ⟨hp, hc, by simpa using hv⟩, place_ok hr⟩

/-- Everything a call of `input` that returns can have done. -/
theorem input_ok {st : FecDecodeManager T} {s : Bytes} {out : InputOut T} (hr : input N st s = .ok out) :
    (out.st = st ∧ out.stored = none ∧ ∀ h, ¬ Arrives st s h) ∨
      ∃ h p, Arrives st s h ∧ prepare N st s = .ok p ∧ Placed N st h p ∧ Finished N p out := by
  unfold input at hr
  obtain ⟨p, hp, hr⟩ := bind_ok.mp hr
  have hfin : Finished N p out := by
    split at hr
    · cases hr
      exact .stop _ _
    · obtain ⟨⟨d', g', seen⟩, hc, hr⟩ := bind_ok.mp hr
      cases hr
      exact .stored (DecodeState.conclude_ok hc)
  rcases prepare_ok hp with ⟨ret, rfl, hno⟩ | ⟨h, ha, hpl⟩
  · cases hfin
    exact .inl ⟨rfl, rfl, hno⟩
  · exact .inr ⟨h, p, ha, hp, hpl, hfin⟩

omit [DecodeTables T] in
theorem output_ok {st : FecDecodeManager T} {o : OutputOut T} (hr : output st = .ok o) :
    o.st = { st with readyForOutput := false } ∧
      (st.readyForOutput = false ∧ o.packets = none ∨
        st.readyForOutput = true ∧ o.n = st.outputN ∧ ∃ ps, st.outputPackets = .ok ps ∧ o.packets = some ps) := by
  unfold output at hr
  split at hr
  · rename_i hready
    have hready : st.readyForOutput = false := by simpa using hready
    cases hr
    exact ⟨by rw [← hready], .inl ⟨hready, rfl⟩⟩
  · rename_i hready
    obtain ⟨ps, hps, hr⟩ := bind_ok.mp hr
    cases hr
    exact ⟨rfl, .inr ⟨by simpa using hready, rfl, ps, hps, rfl⟩⟩

/-! ## Runs -/

/-- What `input` and the `output` after it return; `mid` is the decoder between the two. -/
structure FeedOut (T : Type) where
  mid : FecDecodeManager T
  st : FecDecodeManager T
  ret : Int
  stored : Option Nat
  n : Int
  packets : Option (List Bytes)

/-- One datagram, and the decoder drained. -/
def feedOne (N : FecBuffNum) (st : FecDecodeManager T) (s : Bytes) : Except Fault (FeedOut T) := do
  let i ← input N st s
  let o ← output i.st
  .ok ⟨i.st, o.st, i.ret, i.stored, o.n, o.packets⟩

/-- The decoder after a list of datagrams, with what each of them returned. -/
inductive Fed (N : FecBuffNum) (st0 : FecDecodeManager T) : List (Bytes × FeedOut T) → FecDecodeManager T → Prop
  | start : Fed N st0 [] st0
  | next {hist : List (Bytes × FeedOut T)} {st : FecDecodeManager T} (hf : Fed N st0 hist st) {s : Bytes} {o : FeedOut T}
      (ho : feedOne N st s = .ok o) : Fed N st0 (hist ++ [(s, o)]) o.st

theorem feedOne_ok {st : FecDecodeManager T} {s : Bytes} {o : FeedOut T} (hr : feedOne N st s = .ok o) :
    ∃ i out, input N st s = .ok i ∧ output i.st = .ok out ∧ o = ⟨i.st, out.st, i.ret, i.stored, out.n, out.packets⟩ := by
  obtain ⟨i, hi, hr⟩ := bind_ok.mp hr
  obtain ⟨out, ho, hr⟩ := bind_ok.mp hr
  cases hr
  exact ⟨i, out, hi, ho, rfl⟩

theorem feedOne_of_input {st : FecDecodeManager T} {s : Bytes} {i : InputOut T} (hi : input N st s = .ok i)
    (hps : i.st.readyForOutput = true → ∃ ps, i.st.outputPackets = .ok ps) : ∃ o, feedOne N st s = .ok o := by
  unfold feedOne output
  rw [hi, ok_bind]
  split
  · exact ⟨_, rfl⟩
  · rename_i hready
    obtain ⟨ps, hps⟩ := hps (by simpa using hready)
    rw [hps]
    exact ⟨_, rfl⟩

/-- A stored shard whose group concludes is a datagram fed. -/
theorem feedOne_of_conclude {st : FecDecodeManager T} {s : Bytes} {t : T} {d d' : DecodeState} {g g' : FecGroup} {h : Header}
    {call : Option DecodeCall} {seen : Bool} (hp : prepare N st s = .ok (.stored t d g h call))
    (hc : d.conclude g h call = .ok (d', g', seen)) (hps : d'.readyForOutput = true → ∃ ps, d'.outputPackets = .ok ps) :
    ∃ o, feedOne N st s = .ok o := by
  have hi : ∃ i, input N st s = .ok i ∧ ∃ j, i.st.toDecodeState = { d' with index := j } := by
    unfold input
    rw [hp, ok_bind]
    simp only [hc, ok_bind]
    exact ⟨_, rfl, _, rfl⟩
  obtain ⟨i, hi, j, hst⟩ := hi
  refine feedOne_of_input hi ?_
  rw [hst]
  exact hps

/-- What is handed out after a datagram was stored. -/
theorem feedOne_stored {st : FecDecodeManager T} {s : Bytes} {o : FeedOut T} (hr : feedOne N st s = .ok o) {t : T}
    {d : DecodeState} {g : FecGroup} {h : Header} {call : Option DecodeCall}
    (hp : prepare N st s = .ok (.stored t d g h call)) :
    ∃ d' g' seen, DecodeState.Concluded d g h call d' g' seen ∧ (∃ j, o.mid.toDecodeState = { d' with index := j }) ∧
      (d'.readyForOutput = false ∧ o.packets = none ∨ d'.readyForOutput = true ∧ o.n = d'.outputN ∧
        ∃ ps, d'.outputPackets = .ok ps ∧ o.packets = some ps) := by
  obtain ⟨i, out, hi, ho, rfl⟩ := feedOne_ok hr
  unfold input at hi
  rw [hp, ok_bind] at hi
  obtain ⟨⟨d', g', seen⟩, hc, hi⟩ := bind_ok.mp hi
  cases hi
  exact ⟨d', g', seen, DecodeState.conclude_ok hc, ⟨_, rfl⟩, (output_ok ho).2⟩

/-- Nothing is when none was. -/
theorem feedOne_stopped {st : FecDecodeManager T} {s : Bytes} {o : FeedOut T} (hr : feedOne N st s = .ok o)
    (hready : st.readyForOutput = false) (hp : ∀ t d g h call, prepare N st s ≠ .ok (.stored t d g h call)) :
    o.packets = none := by
  obtain ⟨i, out, hi, ho, rfl⟩ := feedOne_ok hr
  have hi' : i.st.readyForOutput = false := by
    rcases input_ok hi with ⟨e, -, -⟩ | ⟨h, p, -, hprep, hpl, hf⟩
    · rw [e]; exact hready
    · cases hf with
      | stop st' ret => cases hpl <;> exact hready
      | stored hc => exact absurd hprep (hp _ _ _ _ _)
  rcases (output_ok ho).2 with ⟨-, hn⟩ | ⟨hy, -⟩
  · exact hn
  · rw [hi'] at hy; cases hy

/-- The decoder a list of datagrams leaves. -/
def feedAll (N : FecBuffNum) : FecDecodeManager T → List Bytes → Except Fault (FecDecodeManager T)
  | st, [] => .ok st
  | st, s :: ss => do
    let o ← feedOne N st s
    feedAll N o.st ss

theorem feedAll_append (st : FecDecodeManager T) (ss ts : List Bytes) :
    feedAll N st (ss ++ ts) = feedAll N st ss >>= fun st => feedAll N st ts := by
  induction ss generalizing st with
  | nil => rfl
  | cons s ss ih =>
    simp only [List.cons_append, feedAll]
    cases feedOne N st s with
    | error e => rfl
    | ok o => exact ih o.st

theorem Fed.feedAll {st0 st : FecDecodeManager T} {hist : List (Bytes × FeedOut T)} (hf : Fed N st0 hist st) :
    feedAll N st0 (hist.map Prod.fst) = .ok st := by
  induction hf with
  | start => rfl
  | next hf ho ih =>
    rw [List.map_append, feedAll_append, ih, ok_bind]
    simp only [List.map_cons, List.map_nil, FecDecodeManager.feedAll, ho, ok_bind]

/-- A run that returns is one. -/
theorem exists_fed {st0 st : FecDecodeManager T} {ss : List Bytes} (hr : FecDecodeManager.feedAll N st0 ss = .ok st) :
    ∃ hist, Fed N st0 hist st ∧ hist.map Prod.fst = ss := by
  induction ss using List.reverseRecOn generalizing st with
  | nil =>
    cases hr
    exact ⟨[], .start, rfl⟩
  | append_singleton ss s ih =>
    rw [feedAll_append] at hr
    obtain ⟨st', hst', hr⟩ := bind_ok.mp hr
    obtain ⟨o, ho, hr⟩ := bind_ok.mp hr
    cases hr
    obtain ⟨hist, hf, e⟩ := ih hst'
    exact ⟨hist ++ [(s, o)], hf.next ho, by rw [List.map_append, e]; rfl⟩

/-- The call of `rs_decode2` a datagram leads to. -/
def callOf (N : FecBuffNum) (st : FecDecodeManager T) (s : Bytes) : Option DecodeCall :=
  match prepare N st s with
  | .ok (.stored _ _ _ _ call) => call
  | _ => none

theorem callOf_some {st : FecDecodeManager T} {s : Bytes} {c : DecodeCall} (hc : callOf N st s = some c) :
    ∃ t d g h, prepare N st s = .ok (.stored t d g h (some c)) := by
  unfold callOf at hc
  split at hc
  · rename_i t d g h call hp
    exact ⟨t, d, g, h, by rw [hp, hc]⟩
  · cases hc

/-- The smallest ring, over memory that happens to be zero. -/
def leastNum : FecBuffNum := ⟨300, by decide⟩

def leastDecoder : FecDecodeManager (FlatTables leastNum) := clear leastNum default

def bytes (l : List Nat) : Bytes := l.map Byte.ofNat

end FecDecodeManager

end UdpSpeeder.Manager
