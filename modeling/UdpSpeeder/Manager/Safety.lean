/-
  UdpSpeeder.Manager.Safety — which datagrams can stop the decoder.

  `Safe` is what a run keeps: the ring index in range, nothing left to hand out, and every
  owned slot of the group table a record in order. From it every call of `input` and
  `output` returns, but for two openings:

  - a group of another type than 0 may count shards past its size (a datagram with
    `data_num` 0 names no size), so that fewer than `data_num` go to `rs_decode2` (`Enough`);
  - 0xFFFFFFFF is taken for the owner of any empty slot, which may never have been
    initialised (`Initialised`).
-/

import UdpSpeeder.Manager.Step

namespace UdpSpeeder.Manager

open Lib Fec

variable {N : FecBuffNum}

/-! ## Every stage runs -/

namespace DecodeState

/-- The limits the dimensions of a group keep. -/
def Bounded (g : FecGroup) : Prop := ∃ x y l : Nat, g.Dims x y l ∧ 0 < x ∧ x + y < maxFecPacketNum ∧ l + 100 < bufLen

theorem bounded_of_complete {g : FecGroup} {h : Header} (hg : g.Record N) (hout : outcome g h = .complete)
    (h0 : h.type = 0 → g.dataNum ≠ -1) : Bounded g := by
  refine hg.dims.resolve_left fun hn => ?_
  by_cases ht : h.type = 0
  · exact h0 ht hn
  · unfold outcome at hout
    rw [if_neg ht, if_neg (not_not.mpr hn)] at hout
    cases hout

theorem gather_run (d : DecodeState) {g : FecGroup} {h : Header} (hg : g.Record N)
    (hdims : outcome g h = .complete → Bounded g) : ∃ d' call, gather N d g h = .ok (d', call) ∧
      (call.isSome → outcome g h = .complete ∧ (h.type ≠ 0 → LensAgree d g)) := by
  unfold gather
  cases hout : outcome g h with
  | giveUp => exact ⟨d, none, rfl, fun h => by cases h⟩
  | wait => exact ⟨d, none, rfl, fun h => by cases h⟩
  | complete =>
    obtain ⟨x, y, l, hd, -, hs, -⟩ := hdims hout
    simp only
    split
    · rename_i ht
      rw [blobCall_run d hg hd hs, ok_bind]
      exact ⟨_, _, rfl, fun _ => ⟨trivial, fun h => absurd ht h⟩⟩
    · obtain ⟨d', call, hr, hiff⟩ := shardsCall_run d hg hd hs
      exact ⟨d', call, hr, fun h => ⟨trivial, fun _ => hiff.mp h⟩⟩

/-- The shards below its size, one to a position of the call. -/
theorem present_call {d d' : DecodeState} {g : FecGroup} {c : DecodeCall} (hc : ShardsCall d g d' c) :
    present c.arr c.n = g.stored g.total := by
  rw [hc.n, ← present_gathered]
  refine List.filter_congr fun i hi => ?_
  rw [gathered, if_pos (List.mem_range.mp hi), hc.arr i (List.mem_range.mp hi)]

theorem gather_fits {d d' : DecodeState} {g : FecGroup} {h : Header} {c : DecodeCall}
    (hr : gather N d g h = .ok (d', some c)) (hdims : Bounded g) (hlen : h.payload.length + 100 < bufLen) : CallFits c := by
  obtain ⟨x, y, l, hd, hx, hs, hl⟩ := hdims
  have hlen' := hd.len
  rcases ((gather_ok hr).2 c rfl).2 with ⟨-, rfl⟩ | ⟨-, hc⟩
  · refine ⟨?_, ?_, ?_, hlen⟩
    · show 0 < g.dataNum.toNat
      rw [hd.dataNum]; omega
    · show g.dataNum.toNat ≤ g.total
      rw [hd.total, hd.dataNum]; omega
    · show g.total < _
      rw [hd.total]; exact hs
  · refine ⟨?_, ?_, ?_, ?_⟩
    · rw [hc.k, hd.dataNum]; omega
    · rw [hc.k, hc.n, hd.total, hd.dataNum]; omega
    · rw [hc.n, hd.total]; exact hs
    · rw [hc.size]; omega

theorem outcome_blob {g : FecGroup} {h : Header} (h0 : h.type = 0) (hout : outcome g h = .complete) :
    g.shardCount = h.dataNum := by
  unfold outcome at hout
  rw [if_pos h0] at hout
  split at hout
  · cases hout
  · split at hout
    · assumption
    · cases hout

/-- The count of a type 0 group is the number of packets handed to `rs_decode2`. -/
theorem gather_count {d d' : DecodeState} {g : FecGroup} {h : Header} {c : DecodeCall} {x y l : Nat}
    (hr : gather N d g h = .ok (d', some c)) (hg : g.Record N) (ht : g.type = h.type) (hd : g.Dims x y l)
    (hs : x + y < maxFecPacketNum) (h0 : h.type = 0 → h.dataNum = x)
    (henough : h.type ≠ 0 → x ≤ (g.stored (x + y)).length) : c.k ≤ (present c.arr c.n).length := by
  have hk := hd.dataNum
  obtain ⟨hout, h1⟩ := (gather_ok hr).2 c rfl
  rcases h1 with ⟨hz, rfl⟩ | ⟨hnz, hc⟩
  · show g.dataNum.toNat ≤ (present (gathered g) g.total).length
    rw [present_gathered, hd.total, hg.blob_count (by omega) hd hs, outcome_blob hz hout, h0 hz]
    omega
  · rw [present_call hc, hc.k, hd.total]
    have := henough hnz
    omega

theorem fastSend_run {d : DecodeState} (h : Header) (hready : d.readyForOutput = false) :
    ∃ d', fastSend d h = .ok d' ∧ (d'.readyForOutput = true → ∃ ps, d'.outputPackets = .ok ps) := by
  unfold fastSend
  split
  · rw [check_true hready, ok_bind]
    refine ⟨_, rfl, fun _ => ⟨_, @outputPackets_arr _ [(d.index, (d.fecData d.index).len - 2)] rfl rfl fun j hj => ?_⟩⟩
    have hj : j = 0 := by simpa using hj
    subst hj
    simp
  · exact ⟨d, rfl, fun h => by rw [hready] at h; cases h⟩

theorem decodeGroup_run {d : DecodeState} (h : Header) {c : DecodeCall} (hfit : CallFits c)
    (hcount : c.k ≤ (present c.arr c.n).length) (hready : d.readyForOutput = false) :
    ∃ d', decodeGroup d h c = .ok d' ∧ (d'.readyForOutput = true → ∃ ps, d'.outputPackets = .ok ps) := by
  unfold decodeGroup
  split
  · obtain ⟨codes', m', arr', b, -, -, -, hrun⟩ := decodeBlob_run hfit hcount hready
    refine ⟨_, hrun, fun hr => ?_⟩
    obtain ⟨n, -, -, hsel, -⟩ := b.output_within (by simpa using hr)
    exact ⟨_, outputPackets_blob (by simp [hsel])⟩
  · obtain ⟨codes', m', arr', ptr, d', -, -, -, hrun, hdone⟩ := decodeShards_run h.innerIndex hfit hcount hready
    refine ⟨d', hrun, fun hr => ?_⟩
    obtain ⟨hsrc, hn, hent⟩ := hdone.arr hr
    let missed := missedPackets d.outputSArrBuf h.innerIndex c.k
    refine ⟨_, @outputPackets_arr d' (missed.map fun i => (ptr i, readU16 (m' (ptr i)) 0)) hsrc (by simp [hn, missed])
      fun j hj => ?_⟩
    have hj : j < missed.length := by simpa using hj
    simpa using hent j hj

/-- `rs_decode2` on too few packets fails the assertion on its result. -/
theorem decodeGroup_count {d d' : DecodeState} {h : Header} {c : DecodeCall} (hfit : CallFits c)
    (hr : decodeGroup d h c = .ok d') : c.k ≤ (present c.arr c.n).length := by
  by_contra hfew
  have hn := hfit.n
  unfold maxFecPacketNum at hn
  obtain ⟨codes', hrun⟩ := @rsDecode2_few Nat _ c.k c.n d.codes c.m c.arr c.size hfit.k hfit.kn (by omega) (by omega)
  unfold decodeGroup decodeBlob decodeShards at hr
  simp only [hrun, ok_bind] at hr
  split at hr
  · rw [check_bind] at hr
    exact absurd hr.1 (by decide)
  · rw [check_bind, check_bind] at hr
    exact absurd hr.2.1 (by decide)

theorem conclude_run {d : DecodeState} (g : FecGroup) (h : Header) {call : Option DecodeCall} (hready : d.readyForOutput = false)
    (hcall : ∀ c, call = some c → CallFits c ∧ c.k ≤ (present c.arr c.n).length) :
    ∃ d' g' seen, conclude d g h call = .ok (d', g', seen) ∧
      (d'.readyForOutput = true → ∃ ps, d'.outputPackets = .ok ps) := by
  have hidle : d.readyForOutput = true → ∃ ps, d.outputPackets = .ok ps := fun h => by rw [hready] at h; cases h
  unfold conclude
  cases outcome g h with
  | wait =>
    obtain ⟨d', hd', hps⟩ := fastSend_run h hready
    exact ⟨d', g, false, by simp only [hd', ok_bind], hps⟩
  | giveUp => exact ⟨d, g, true, rfl, hidle⟩
  | complete =>
    cases call with
    | none => exact ⟨d, g, true, rfl, hidle⟩
    | some c =>
      obtain ⟨d', hd', hps⟩ := decodeGroup_run h (hcall c rfl).1 (hcall c rfl).2 hready
      exact ⟨d', { g with fecDone := true }, true, by simp only [hd', ok_bind], hps⟩

end DecodeState

/-! ## What a run keeps -/

namespace FecDecodeManager

open DecodeState

/-- The state between two datagrams. -/
structure Safe (N : FecBuffNum) (st : FecDecodeManager (FlatTables N)) : Prop where
  index : st.index < N.1
  ready : st.readyForOutput = false
  groups : ∀ i, (st.tables.groups i).seq ≠ emptySeq → (st.tables.groups i).Record N

theorem clear_safe (st : FecDecodeManager (FlatTables N)) : Safe N (clear N st) :=
  ⟨by have := N.2; show 0 < N.1; omega, rfl, fun _ h => absurd rfl h⟩

/-- `h` is about to be stored, which makes `g` of its group. -/
structure Stores (st : FecDecodeManager (FlatTables N)) (s : Bytes) (h : Header) (g : FecGroup) : Prop where
  arrives : Arrives st s h
  accepted : ∃ g', (st.tables.owner h.seq).accept h = (g', true) ∧ g = g'.joined h st.index
  notOwn : (st.fecData st.index).used = true → (st.fecData st.index).seq ≠ h.seq

/-- The slot that a datagram of seq 0xFFFFFFFF finds has a record in order. -/
def Initialised (N : FecBuffNum) (st : FecDecodeManager (FlatTables N)) (s : Bytes) : Prop :=
  ∀ h, Arrives st s h → h.seq = emptySeq → (st.tables.owner h.seq).Record N

/-- A group of another type than 0 that the datagram completes, all its lengths agreeing, has
    `data_num` shards below its size. -/
def Enough (N : FecBuffNum) (st : FecDecodeManager (FlatTables N)) (s : Bytes) : Prop :=
  ∀ h g, Stores st s h g → h.type ≠ 0 → outcome g h = .complete → LensAgree (st.store h) g →
    g.dataNum ≤ (g.stored g.total).length

theorem owner_record {st : FecDecodeManager (FlatTables N)} (hs : Safe N st) {seq : U32}
    (hm : seq = emptySeq → (st.tables.owner seq).Record N) : (st.tables.owner seq).Record N := by
  by_cases he : seq = emptySeq
  · exact hm he
  · unfold FlatTables.owner
    split
    · rename_i hseq
      exact hs.groups _ (by rw [hseq]; exact he)
    · exact FecGroup.init_record N _ _

/-- The table with a record in order written to one of its slots. -/
theorem groups_put {t : FlatTables N} (ht : ∀ i, (t.groups i).seq ≠ emptySeq → (t.groups i).Record N) {g : FecGroup}
    (hg : g.Record N) (seq : U32) :
    ∀ i, ((groupPut t seq g).groups i).seq ≠ emptySeq → ((groupPut t seq g).groups i).Record N := by
  intro i
  rw [FlatTables.groupPut_groups, upd_apply]
  split
  · exact fun _ => hg
  · exact ht i

theorem groups_evict {t : FlatTables N} (ht : ∀ i, (t.groups i).seq ≠ emptySeq → (t.groups i).Record N) {d : DecodeState}
    {seq : U32} {t' : FlatTables N} {own : Bool} (he : evict d t seq = (t', own)) :
    ∀ i, (t'.groups i).seq ≠ emptySeq → (t'.groups i).Record N := by
  rw [FlatTables.evict_eq] at he
  split at he
  · cases he
    intro i
    rw [FlatTables.dropped_groups]
    split
    · exact fun h => absurd rfl h
    · exact ht i
  · cases he
    exact ht

theorem joined_record {g g' : FecGroup} {h : Header} {slot : Nat} (hg : g'.Record N) (ha : FecGroup.Accepted g g' h)
    (hp : h.Passed) (hslot : slot < N.1) : (g'.joined h slot).Record N := by
  have hsmall := hp.small
  have hinner := hp.inner
  unfold maxFecPacketNum at hsmall
  have hnew : g'.hasShard h.innerIndex = false := by
    have := ha.fresh
    simp only [FecGroup.hasShard, ha.bitmap] at this ⊢
    exact this
  exact hg.join hnew ha.type (by omega) hslot fun h0 => ⟨_, _, _, ha.taken (hp.blob h0), hinner⟩

/-- What holds once `prepare` is done with an arriving datagram. -/
def Prepared.Safe : Prepared (FlatTables N) → Prop
  | .stop st _ => st.index < N.1 ∧ ∀ i, (st.tables.groups i).seq ≠ emptySeq → (st.tables.groups i).Record N
  | .stored t d g _ _ => d.index < N.1 ∧ (∀ i, (t.groups i).seq ≠ emptySeq → (t.groups i).Record N) ∧ g.Record N

theorem placed_safe {st : FecDecodeManager (FlatTables N)} {s : Bytes} {h : Header} {p : Prepared (FlatTables N)}
    (hs : Safe N st) (hm : h.seq = emptySeq → (st.tables.owner h.seq).Record N) (ha : Arrives st s h)
    (hlen : h.payload.length + 100 < bufLen) (hp : Placed N st h p) : p.Safe := by
  have howner := owner_record hs hm
  have hpass := Header.passed ha.checks
  have hfind := FlatTables.find_owner st.tables h.seq
  have hput := groups_put hs.groups howner h.seq
  cases hp with
  | refused hf hacc =>
    rw [hfind] at hf
    cases hf
    exact ⟨hs.index, groups_put hput (howner.refused hacc) h.seq⟩
  | self hf hacc hev =>
    rw [hfind] at hf
    cases hf
    exact ⟨hs.index, groups_evict (groups_put hput (howner.accepted (FecGroup.accept_ok hacc) hpass hlen) h.seq) hev⟩
  | stored hf hacc hev hindex _ hg =>
    rw [hfind] at hf
    cases hf
    have hacc' := howner.accepted (FecGroup.accept_ok hacc) hpass hlen
    refine ⟨?_, groups_evict (groups_put hput hacc' h.seq) hev, joined_record hacc' (FecGroup.accept_ok hacc) hpass hindex⟩
    rw [(gather_sameRing hg).index]
    exact hindex

theorem finished_safe {p : Prepared (FlatTables N)} {out : InputOut (FlatTables N)} (hp : p.Safe) (hf : Finished N p out) :
    out.st.index < N.1 ∧ ∀ i, (out.st.tables.groups i).seq ≠ emptySeq → (out.st.tables.groups i).Record N := by
  cases hf with
  | stop st ret => exact hp
  | @stored t d d' g g' h call seen hc =>
    obtain ⟨hindex, ht, hg⟩ := hp
    refine ⟨?_, ?_⟩
    · simp only [hc.sameRing.index]
      split <;> omega
    · have hg' : g'.Record N := by
        rw [hc.group]
        exact hg.congr rfl rfl rfl rfl rfl rfl rfl
      cases seen with
      | true => exact groups_put ht hg' h.seq
      | false => exact groups_put ht hg' h.seq

/-- A datagram that `prepare` returns from is short enough. -/
theorem prepare_len {st : FecDecodeManager (FlatTables N)} {s : Bytes} {p : Prepared (FlatTables N)}
    (hr : prepare N st s = .ok p) : s.length + 100 < bufLen := by
  unfold prepare at hr
  rw [check_bind] at hr
  exact hr.1

theorem feedOne_safe {st : FecDecodeManager (FlatTables N)} {s : Bytes} {o : FeedOut (FlatTables N)} (hs : Safe N st)
    (hm : Initialised N st s) (hr : feedOne N st s = .ok o) : Safe N o.st := by
  obtain ⟨i, out, hi, ho, rfl⟩ := feedOne_ok hr
  have hst := (output_ok ho).1
  suffices h : i.st.index < N.1 ∧ ∀ j, (i.st.tables.groups j).seq ≠ emptySeq → (i.st.tables.groups j).Record N by
    simp only [hst]
    exact ⟨h.1, rfl, h.2⟩
  rcases input_ok hi with ⟨e, -, -⟩ | ⟨h, p, ha, hprep, hp, hf⟩
  · rw [e]
    exact ⟨hs.index, hs.groups⟩
  · have hsize := Header.parseHeader_length ha.parse
    have hlen := prepare_len hprep
    exact finished_safe (placed_safe hs (hm h ha) ha (by omega) hp) hf

/-! ## No datagram stops a run -/

theorem place_run {st : FecDecodeManager (FlatTables N)} {s : Bytes} {h : Header} (hs : Safe N st) (hm : Initialised N st s)
    (hh : Enough N st s) (ha : Arrives st s h) (hlen : h.payload.length + 100 < bufLen) :
    ∃ p, place N st h = .ok p ∧ ∀ t d g h' call, p = .stored t d g h' call → d.readyForOutput = false ∧
      ∀ c, call = some c → CallFits c ∧ c.k ≤ (present c.arr c.n).length := by
  have hpass := Header.passed ha.checks
  have hsmall := hpass.small
  have hinner := hpass.inner
  unfold maxFecPacketNum at hsmall
  have howner := owner_record hs (hm h ha)
  have hindex := hs.index
  unfold place
  rw [FlatTables.find_owner]
  simp only
  rw [check_true (show h.innerIndex < 256 by omega), ok_bind]
  cases hacc : (st.tables.owner h.seq).accept h with
  | mk g' ok =>
  simp only
  cases ok with
  | false => exact ⟨_, rfl, fun _ _ _ _ _ h => by cases h⟩
  | true =>
    simp only [Bool.not_true, Bool.false_eq_true, if_false]
    rw [check_true (show st.index < N.1 + 5 by omega), ok_bind, FlatTables.evict_eq]
    generalize hev : (if (st.fecData st.index).used then _ else _ : FlatTables N × Bool) = e
    obtain ⟨t', own⟩ := e
    simp only
    cases own with
    | true => exact ⟨_, rfl, fun _ _ _ _ _ h => by cases h⟩
    | false =>
      simp only [Bool.false_eq_true, if_false]
      rw [check_true hindex, ok_bind, check_true hlen, ok_bind]
      have hacc' := FecGroup.accept_ok hacc
      have hrec := joined_record (howner.accepted hacc' hpass hlen) hacc' hpass hindex
      have hdims : outcome (g'.joined h st.index) h = .complete → Bounded (g'.joined h st.index) := fun hout =>
        bounded_of_complete hrec hout fun h0 => by
          have := (hacc'.taken (hpass.blob h0)).dataNum
          rw [FecGroup.joined_dataNum]; omega
      obtain ⟨d, call, hg, hlens⟩ := gather_run (st.toDecodeState.store h) hrec hdims
      rw [hg, ok_bind]
      refine ⟨_, rfl, fun _ _ _ _ _ e => ?_⟩
      cases e
      refine ⟨?_, ?_⟩
      · exact (gather_ready hg).trans hs.ready
      · intro c hc
        subst hc
        obtain ⟨hout, hagree⟩ := hlens rfl
        obtain ⟨x, y, l, hd, hx, hxy, hl⟩ := hdims hout
        refine ⟨gather_fits hg (hdims hout) hlen, gather_count hg hrec hacc'.type hd hxy (fun h0 => ?_) fun hne => ?_⟩
        · have h1 := (hacc'.taken (hpass.blob h0)).dataNum
          have h2 := hd.dataNum
          rw [FecGroup.joined_dataNum] at h2
          omega
        · have hnot : (st.fecData st.index).used = true → (st.fecData st.index).seq ≠ h.seq := by
            intro hu he
            rw [if_pos hu, Prod.mk.injEq, decide_eq_false_iff_not] at hev
            exact hev.2 he
          have h1 := hh h _ ⟨ha, ⟨g', hacc, rfl⟩, hnot⟩ hne hout (hagree hne)
          have h2 := hd.dataNum
          rw [hd.total] at h1
          omega

theorem feedOne_run {st : FecDecodeManager (FlatTables N)} {s : Bytes} (hs : Safe N st) (hlen : s.length + 100 < bufLen)
    (hm : Initialised N st s) (hh : Enough N st s) : ∃ o, feedOne N st s = .ok o := by
  suffices h : ∃ i, input N st s = .ok i ∧ (i.st.readyForOutput = true → ∃ ps, i.st.outputPackets = .ok ps) by
    obtain ⟨i, hi, hps⟩ := h
    exact feedOne_of_input hi hps
  have hidle : st.readyForOutput = true → ∃ ps, st.outputPackets = .ok ps := fun h => by rw [hs.ready] at h; cases h
  unfold input prepare
  rw [check_true hlen, ok_bind]
  cases hp : parseHeader s with
  | none => exact ⟨_, rfl, hidle⟩
  | some h =>
    simp only
    cases hc : h.refused with
    | some r => exact ⟨_, rfl, hidle⟩
    | none =>
      simp only
      by_cases hv : isValid st.tables h.seq = true
      · have := Header.parseHeader_length hp
        obtain ⟨p, hpl, hstored⟩ := place_run hs hm hh ⟨hp, hc, hv⟩ (by omega)
        rw [hv]
        simp only [Bool.not_true, Bool.false_eq_true, if_false]
        rw [hpl, ok_bind]
        cases p with
        | stop st' ret =>
          have hready : st'.readyForOutput = false := by cases place_ok hpl <;> exact hs.ready
          exact ⟨_, rfl, fun h => by rw [hready] at h; cases h⟩
        | stored t d g h' call =>
          obtain ⟨hready, hcall⟩ := hstored t d g h' call rfl
          obtain ⟨d', g', seen, hr, hps⟩ := conclude_run g h' hready hcall
          simp only [hr, ok_bind]
          exact ⟨_, rfl, hps⟩
      · rw [show isValid st.tables h.seq = false by simpa using hv]
        exact ⟨_, rfl, hidle⟩

/-- A datagram that got through was harmless. -/
theorem enough_of_feedOne {st : FecDecodeManager (FlatTables N)} {s : Bytes} {o : FeedOut (FlatTables N)} (hs : Safe N st)
    (hm : Initialised N st s) (hr : feedOne N st s = .ok o) : Enough N st s := by
  intro h g hst hne hout hagree
  obtain ⟨ha, ⟨g1, hacc1, rfl⟩, hown⟩ := hst
  obtain ⟨i, out, hi, -, -⟩ := feedOne_ok hr
  rcases input_ok hi with ⟨-, -, hno⟩ | ⟨h', p, ha', -, hp, hf⟩
  · exact absurd ha (hno h)
  obtain rfl := ha.unique ha'
  have hfind := FlatTables.find_owner st.tables h.seq
  cases hp with
  | refused hf' hacc =>
    rw [hfind] at hf'
    cases hf'
    rw [hacc] at hacc1
    cases hacc1
  | self hf' hacc hev =>
    rw [FlatTables.evict_eq] at hev
    split at hev
    · rename_i hu
      rw [Prod.mk.injEq, decide_eq_true_iff] at hev
      exact absurd hev.2 (hown hu)
    · cases hev
  | stored hf' hacc hev hindex hlen hg =>
    rw [hfind] at hf'
    cases hf'
    rw [hacc] at hacc1
    cases hacc1
    have hacc' := FecGroup.accept_ok hacc
    have hpass := Header.passed ha.checks
    have hrec := joined_record ((owner_record hs (hm h ha)).accepted hacc' hpass hlen) hacc' hpass hindex
    have hdims := bounded_of_complete hrec hout fun h0 => absurd h0 hne
    obtain ⟨x, y, l, hd, hx, hxy, hl⟩ := hdims
    -- the lengths agree, so there was a call, and it had packets enough
    obtain ⟨d', call', hcall, hsome⟩ := shardsCall_run (st.toDecodeState.store h) hrec hd hxy
    have hg' := hg
    unfold gather at hg'
    rw [hout] at hg'
    simp only [if_neg hne, hcall] at hg'
    cases hg'
    cases hf with
    | stored hc =>
      obtain ⟨c, rfl⟩ := Option.isSome_iff_exists.mp (hsome.mpr hagree)
      have hfit := gather_fits hg ⟨x, y, l, hd, hx, hxy, hl⟩ hlen
      cases hc with
      | waits hwait => rw [hout] at hwait; cases hwait
      | ends hend =>
        rcases hend with hend | ⟨-, hend⟩
        · rw [hout] at hend; cases hend
        · cases hend
      | decodes _ he hdec =>
        cases he
        have hcount := decodeGroup_count hfit hdec
        rcases ((gather_ok hg).2 c rfl).2 with ⟨h0, -⟩ | ⟨-, hshards⟩
        · exact absurd h0 hne
        · rw [present_call hshards, hshards.k] at hcount
          omega

/-- Every datagram of the list, in the state the earlier ones leave, satisfies `P`. -/
def AllSteps (N : FecBuffNum) (P : FecDecodeManager (FlatTables N) → Bytes → Prop) (st : FecDecodeManager (FlatTables N))
    (ss : List Bytes) : Prop :=
  ∀ hist st' s rest, Fed N st hist st' → hist.map Prod.fst ++ s :: rest = ss → P st' s

theorem AllSteps.dropLast {P : FecDecodeManager (FlatTables N) → Bytes → Prop} {st : FecDecodeManager (FlatTables N)}
    {ss : List Bytes} {s : Bytes} (h : AllSteps N P st (ss ++ [s])) : AllSteps N P st ss := by
  intro hist st' s' rest hf e
  exact h hist st' s' (rest ++ [s]) hf (by rw [← e]; simp)

theorem AllSteps.of_mem {P : FecDecodeManager (FlatTables N) → Bytes → Prop} {st : FecDecodeManager (FlatTables N)}
    {ss : List Bytes} (h : ∀ st', ∀ s ∈ ss, P st' s) : AllSteps N P st ss := by
  intro hist st' s rest _ e
  refine h st' s ?_
  rw [← e]
  simp

theorem AllSteps.single {P : FecDecodeManager (FlatTables N) → Bytes → Prop} {st : FecDecodeManager (FlatTables N)} {s : Bytes}
    (h : P st s) : AllSteps N P st [s] := by
  rintro hist st' s' rest hf e
  have hrun := hf.feedAll
  cases hist with
  | nil =>
    obtain ⟨rfl, -⟩ := List.cons.inj e
    cases hrun
    exact h
  | cons a hist => simp at e

/-- No datagram carries 0xFFFFFFFF. -/
def Proper (ss : List Bytes) : Prop := ∀ s ∈ ss, readU32 (mem s) 0 ≠ emptySeq

instance (ss : List Bytes) : Decidable (Proper ss) := inferInstanceAs (Decidable (∀ s ∈ ss, _))

theorem Proper.seq {ss : List Bytes} (hp : Proper ss) {st : FecDecodeManager (FlatTables N)} {s : Bytes} (hs : s ∈ ss)
    {h : Header} (ha : Arrives st s h) : h.seq ≠ emptySeq := by
  obtain ⟨-, rfl⟩ := Header.parseHeader_eq ha.parse
  exact hp s hs

theorem Proper.initialised {ss : List Bytes} (hp : Proper ss) (st : FecDecodeManager (FlatTables N)) :
    AllSteps N (Initialised N) st ss := .of_mem fun _ _ hs _ ha he => absurd he (hp.seq hs ha)

/-- The run as far as it gets. -/
theorem fed_safe {st0 st : FecDecodeManager (FlatTables N)} {hist : List (Bytes × FeedOut (FlatTables N))} {rest : List Bytes}
    (hs : Safe N st0) (hm : AllSteps N (Initialised N) st0 (hist.map Prod.fst ++ rest)) (hf : Fed N st0 hist st) : Safe N st := by
  induction hf generalizing rest with
  | start => exact hs
  | @next hist st hf s o ho ih =>
    rw [List.map_append, List.append_assoc] at hm
    exact feedOne_safe (ih hm) (hm hist st s rest hf (by simp)) ho

/-- The datagram is short enough and leaves enough. -/
def Harmless (N : FecBuffNum) (st : FecDecodeManager (FlatTables N)) (s : Bytes) : Prop :=
  s.length + 100 < bufLen ∧ Enough N st s

/-- Every call returns if and only if every datagram was harmless when it came. -/
theorem fed_iff_harmless (st0 : FecDecodeManager (FlatTables N)) (ss : List Bytes)
    (hm : AllSteps N (Initialised N) (clear N st0) ss) :
    (∃ hist st, Fed N (clear N st0) hist st ∧ hist.map Prod.fst = ss) ↔ AllSteps N (Harmless N) (clear N st0) ss := by
  constructor
  · rintro ⟨hist, st, hf, rfl⟩ hist' st' s rest hf' e
    rw [← e] at hm
    have hs := fed_safe (clear_safe st0) hm hf'
    have hall := hf.feedAll
    rw [← e, feedAll_append, hf'.feedAll, ok_bind] at hall
    obtain ⟨o, ho, -⟩ := bind_ok.mp hall
    refine ⟨?_, enough_of_feedOne hs (hm hist' st' s rest hf' rfl) ho⟩
    obtain ⟨i, -, hi, -⟩ := feedOne_ok ho
    obtain ⟨p, hp, -⟩ := bind_ok.mp hi
    exact prepare_len hp
  · intro hh
    induction ss using List.reverseRecOn with
    | nil => exact ⟨[], _, .start, rfl⟩
    | append_singleton ss s ih =>
      obtain ⟨hist, st, hf, rfl⟩ := ih hm.dropLast hh.dropLast
      have hs := fed_safe (clear_safe st0) hm hf
      obtain ⟨hshort, henough⟩ := hh hist st s [] hf rfl
      obtain ⟨o, ho⟩ := feedOne_run hs hshort (hm hist st s [] hf rfl) henough
      exact ⟨hist ++ [(s, o)], o.st, hf.next ho, by rw [List.map_append]; rfl⟩

/-- A peer stops the decoder only by completing a group with too few shards below its size:
    whatever memory the decoder starts in, and whatever the datagrams, as long as
    0xFFFFFFFF finds no slot that was never initialised, every call returns if and only if
    every datagram leaves enough. -/
theorem decoder_never_stops (st0 : FecDecodeManager (FlatTables N)) (ss : List Bytes) (hlen : ∀ s ∈ ss, s.length ≤ maxDataLen)
    (hm : AllSteps N (Initialised N) (clear N st0) ss) :
    (∃ hist st, Fed N (clear N st0) hist st ∧ hist.map Prod.fst = ss) ↔ AllSteps N (Enough N) (clear N st0) ss := by
  rw [fed_iff_harmless st0 ss hm]
  refine ⟨fun h hist st s rest hf e => (h hist st s rest hf e).2, fun h hist st s rest hf e => ⟨?_, h hist st s rest hf e⟩⟩
  have := hlen s (by rw [← e]; simp)
  unfold bufLen
  omega

/-- One shard of a type 0 group, then another with an empty payload. -/
theorem decoder_never_stops_blob :
    (∃ hist st, Fed leastNum leastDecoder hist st ∧
      hist.map Prod.fst = [bytes [0, 0, 0, 7, 0, 2, 1, 0, 9], bytes [0, 0, 0, 7, 0, 2, 1, 1]]) ↔
      AllSteps leastNum (Enough leastNum) leastDecoder [bytes [0, 0, 0, 7, 0, 2, 1, 0, 9], bytes [0, 0, 0, 7, 0, 2, 1, 1]] :=
  decoder_never_stops default _ (by decide) (Proper.initialised (by decide) _)

/-- A parity shard that names no `data_num` counts towards the two data shards the next
    datagram asks for, but lies past the group's size: `rs_decode2` gets one packet for
    two and the assertion fails. -/
theorem decoder_stopped : ¬ ∃ (hist : List (Bytes × FeedOut (FlatTables leastNum))) (st : _),
    Fed leastNum leastDecoder hist st ∧
      hist.map Prod.fst = [bytes [0, 0, 0, 7, 1, 0, 200, 150, 0, 0], bytes [0, 0, 0, 7, 1, 2, 0, 0, 5, 6]] := by
  rintro ⟨hist, st, hf, e⟩
  have hstop : (feedAll leastNum leastDecoder [bytes [0, 0, 0, 7, 1, 0, 200, 150, 0, 0], bytes [0, 0, 0, 7, 1, 2, 0, 0, 5, 6]]).isOk
      = false := by decide +kernel
  rw [← e, hf.feedAll] at hstop
  cases hstop

end FecDecodeManager

end UdpSpeeder.Manager
