/-
  UdpSpeeder.Manager.Join — what a datagram of the group's own seq does to it.

  A shard already there is refused; a new one is stored (`Tracks.joins`) and waits with the
  others (`Joins.waits`), or makes `data_num` and hands `rs_decode2` rows of the code
  (`Joins.completes`); after that the seq is marked and nothing of it gets in
  (`marked_step`).
-/

import UdpSpeeder.Manager.Track

namespace UdpSpeeder.Manager

open Lib Fec

variable {N : FecBuffNum}

namespace FecDecodeManager

open DecodeState

variable {base : U32} {w : Nat} {S : U32} {f : ShardSet} {hist : List (Bytes × FeedOut (FlatTables N))}
  {st : FecDecodeManager (FlatTables N)} {s : Bytes} {o : FeedOut (FlatTables N)}

/-! ## One datagram -/

/-- The call that completes the group: what `rs_decode2` is given. -/
structure Completes (f : ShardSet) (ss : List Bytes) (d : DecodeState) (g : FecGroup) (h : Header) (c : DecodeCall) : Prop where
  outcome : outcome g h = .complete
  type : h.type = f.type
  inner : f.lo ≤ h.innerIndex
  k : c.k = f.x
  n : c.n = f.x + f.y
  size : c.size = f.len
  fits : CallFits c
  rows : Rows c.k c.n c.m c.arr f.blocks c.size
  apart : Apart c.k c.n c.arr
  ready : d.readyForOutput = false
  present : ∀ i < c.n, (c.arr i).isSome → i ∈ f.arrived ss
  sArr : f.type ≠ 0 → ∀ i < c.n, d.outputSArrBuf i = (c.arr i).map (·, 0)

theorem feedOne_idle (hs : Safe N st) (hno : ∀ h, ¬ Arrives st s h) (ho : feedOne N st s = .ok o) :
    o.st = st ∧ o.stored = none ∧ o.packets = none := by
  have hpackets : o.packets = none := by
    refine feedOne_stopped ho hs.ready fun t d g h call hp => ?_
    rcases prepare_ok hp with ⟨ret, e, -⟩ | ⟨h', ha, -⟩
    · cases e
    · exact hno h' ha
  obtain ⟨i, out, hi, hout, rfl⟩ := feedOne_ok ho
  rcases input_ok hi with ⟨e, hn, -⟩ | ⟨h, p, ha, -⟩
  · refine ⟨?_, hn, hpackets⟩
    simp only [(output_ok hout).1, e]
    rw [← hs.ready]
  · exact absurd ha (hno h)

/-- A datagram that does not arrive, or a shard that is there already, changes nothing. -/
theorem feedOne_refused (hs : Safe N st) (hno : ∀ h, Arrives st s h → ∃ g, (st.tables.owner h.seq).accept h = (g, false) ∧
    g = st.tables.owner h.seq ∧ h.seq = S) (ho : feedOne N st s = .ok o) :
    o.st.tables.owner S = st.tables.owner S ∧ (Marks o.st S ↔ Marks st S) ∧ o.st.fecData = st.fecData ∧ o.stored = none ∧
      o.packets = none := by
  by_cases hany : ∃ h, Arrives st s h
  · obtain ⟨h, ha⟩ := hany
    obtain ⟨g, hacc, rfl, rfl⟩ := hno h ha
    obtain ⟨i, out, hi, hout, rfl⟩ := feedOne_ok ho
    have hpackets : out.packets = none := by
      refine feedOne_stopped ho hs.ready fun t d g h' call hp => ?_
      rcases prepare_ok hp with ⟨ret, e, -⟩ | ⟨h'', ha', hpl⟩
      · cases e
      · obtain rfl := ha.unique ha'
        cases hpl with
        | stored hf hacc' =>
          rw [FlatTables.find_owner] at hf
          cases hf
          rw [hacc] at hacc'
          cases hacc'
    have hst := (output_ok hout).1
    simp only [hst]
    rcases input_ok hi with ⟨-, -, hno'⟩ | ⟨h', p, ha', -, hp, hf⟩
    · exact absurd ha (hno' h)
    obtain rfl := ha.unique ha'
    have hfind := FlatTables.find_owner st.tables h.seq
    cases hp with
    | refused hf' hacc' =>
      rw [hfind] at hf'
      cases hf'
      rw [hacc] at hacc'
      cases hacc'
      cases hf
      refine ⟨?_, Iff.rfl, rfl, rfl, hpackets⟩
      have hself : ((groupPut { st.tables with groups := upd st.tables.groups (FlatTables.groupSlot N h.seq) (st.tables.owner h.seq) }
          h.seq (st.tables.owner h.seq)).groups (FlatTables.groupSlot N h.seq)) = st.tables.owner h.seq := upd_same _ _ _
      show FlatTables.owner _ h.seq = _
      unfold FlatTables.owner at hself ⊢
      rw [hself, if_pos]
      exact FlatTables.owner_seq st.tables h.seq
    | self hf' hacc' hev =>
      rw [hfind] at hf'
      cases hf'
      rw [hacc] at hacc'
      cases hacc'
    | stored hf' hacc' hev hindex hlen hg =>
      rw [hfind] at hf'
      cases hf'
      rw [hacc] at hacc'
      cases hacc'
  · have hidle := feedOne_idle hs (fun h ha => hany ⟨h, ha⟩) ho
    rw [hidle.1]
    exact ⟨rfl, Iff.rfl, rfl, hidle.2⟩

/-- What a call that stored a shard leaves behind. -/
theorem feedOne_after (ho : feedOne N st s = .ok o) {t : FlatTables N} {d : DecodeState} {g : FecGroup} {h : Header}
    {call : Option DecodeCall} (hp : prepare N st s = .ok (.stored t d g h call)) :
    ∃ d' g' seen, Concluded d g h call d' g' seen ∧ o.stored = some d.index ∧ o.st.fecData = d'.fecData ∧
      o.st.tables = (if seen then setInvaild (groupPut t h.seq g') h.seq else groupPut t h.seq g') ∧
      (d'.readyForOutput = false ∧ o.packets = none ∨ d'.readyForOutput = true ∧ o.n = d'.outputN ∧
        ∃ ps, d'.outputPackets = .ok ps ∧ o.packets = some ps) := by
  obtain ⟨i, out, hi, hout, rfl⟩ := feedOne_ok ho
  unfold input at hi
  rw [hp, ok_bind] at hi
  obtain ⟨⟨d', g', seen⟩, hc, hi⟩ := bind_ok.mp hi
  cases hi
  obtain ⟨hst, hps⟩ := output_ok hout
  refine ⟨d', g', seen, conclude_ok hc, rfl, ?_, ?_, hps⟩
  · simp only [hst]
  · simp only [hst]

/-- The call that completes a group decodes it. -/
theorem Completes.decodes {f : ShardSet} {ss : List Bytes} {t : FlatTables N} {d : DecodeState} {g : FecGroup} {h : Header}
    {c : DecodeCall} (hc : Completes f ss d g h c) (ho : feedOne N st s = .ok o)
    (hp : prepare N st s = .ok (.stored t d g h (some c))) :
    ∃ d', decodeGroup d h c = .ok d' ∧ (d'.readyForOutput = false ∧ o.packets = none ∨ d'.readyForOutput = true ∧ o.n = d'.outputN ∧
      ∃ ps, d'.outputPackets = .ok ps ∧ o.packets = some ps) := by
  obtain ⟨d', g', seen, hcon, -, -, -, hout⟩ := feedOne_after ho hp
  have hcalled := hc.outcome
  cases hcon with
  | waits hwait => rw [hcalled] at hwait; cases hwait
  | ends hend =>
    rcases hend with hend | ⟨-, hend⟩
    · rw [hcalled] at hend; cases hend
    · cases hend
  | decodes _ he hdec =>
    cases he
    exact ⟨d', hdec, hout⟩

/-- A group that has what a datagram says accepts it. -/
theorem accept_fresh {g : FecGroup} {h : Header} (hdone : g.fecDone = false) (hnew : g.hasShard h.innerIndex = false)
    (htype : g.type = -1 ∨ g.type = h.type) (hx : h.dataNum ≠ 0)
    (hdims : g.dataNum = -1 ∨ g.Dims h.dataNum h.redundantNum h.payload.length) : ∃ g', g.accept h = (g', true) := by
  unfold FecGroup.accept
  rw [if_neg (by simp [hdone]), if_neg (by simp [hnew]), if_neg (by omega)]
  have hset : ∀ {g1 : FecGroup}, g1 = (if g.type = -1 then { g with type := (h.type : Int) } else g) →
      g1.dataNum = g.dataNum ∧ g1.redundantNum = g.redundantNum ∧ g1.len = g.len := by
    rintro _ rfl
    split <;> exact ⟨rfl, rfl, rfl⟩
  generalize hg1 : (if g.type = -1 then { g with type := (h.type : Int) } else g) = g1
  obtain ⟨h1, h2, h3⟩ := hset hg1.symm
  simp only
  rw [if_neg hx, h1]
  rcases hdims with hnone | hd
  · rw [if_pos hnone]
    exact ⟨_, rfl⟩
  · rw [if_neg (by rw [hd.dataNum]; omega), h2, h3, hd.dataNum, hd.redundantNum, hd.len, if_neg (by simp)]
    exact ⟨_, rfl⟩

/-- A new shard of the group, stored in its slot of the ring. -/
structure Joins (f : ShardSet) (st : FecDecodeManager (FlatTables N)) (i : Nat) (t : FlatTables N) (d : DecodeState)
    (g : FecGroup) (h : Header) (call : Option DecodeCall) : Prop where
  prepared : prepare N st (f.bytes i) = .ok (.stored t d g h call)
  header : h = ⟨f.seq, f.type, f.x, f.y, i, h.payload⟩
  index : d.index = st.index
  replay : t.replay (FlatTables.replaySlot f.seq) = st.tables.replay (FlatTables.replaySlot f.seq)
  gather : gather N (st.toDecodeState.store h) g h = .ok (d, call)
  slot : ∀ j, g.slotOf j = if j = i then some st.index else (st.tables.owner f.seq).slotOf j
  has : ∀ j, g.hasShard j = (decide (j = i) || (st.tables.owner f.seq).hasShard j)
  count : g.shardCount = (st.tables.owner f.seq).shardCount + 1
  undone : g.fecDone = false
  type : g.type = f.type
  dims : g.Dims f.x f.y f.len
  seq : g.seq = f.seq
  record : g.Record N
  owned : Owned N d g f.seq
  content : ∀ j p, g.slotOf j = some p → (d.fecData p).len = f.len ∧ ∀ k < f.len, (d.fecData p).buf k = shard f.x f.blocks j k
  ready : d.readyForOutput = false
  size : h.payload.length = f.len
  short : f.len + 100 < bufLen

theorem Tracks.joins (hn : Narrow N base w) (hS : InWindow base w f.seq) (hs : Sound N base w st) (ht : Tracks f hist st)
    {i : Nat} (hi : f.lo ≤ i) (hi' : i < f.x + f.y) (hnew : f.bytes i ∉ hist.map Prod.fst)
    (hfree : ¬ Evicts st (f.bytes i) f.seq) (ho : feedOne N st (f.bytes i) = .ok o) :
    ∃ t d g h call, Joins f st i t d g h call := by
  have hne : f.seq ≠ emptySeq := fun e => hn.marker (e ▸ hS)
  obtain ⟨q, hq, hlen, hval⟩ := f.rows i hi hi'
  have ha : Arrives st (f.bytes i) ⟨f.seq, f.type, f.x, f.y, i, q⟩ :=
    ⟨hq, f.header_checks hi' hlen, (FlatTables.isValid_iff _ _).mpr ht.unmarked⟩
  have hfresh : (st.tables.owner f.seq).hasShard i = false := by
    rw [Bool.eq_false_iff]
    exact fun h => hnew (ShardSet.mem_arrived.mp ((ht.has i).mp h)).2.2
  obtain ⟨g', hacc⟩ := @accept_fresh (st.tables.owner f.seq) ⟨f.seq, f.type, f.x, f.y, i, q⟩ ht.undone hfresh ht.type
    (Nat.pos_iff_ne_zero.mp f.pos) (by simp only [hlen]; exact ht.dims)
  obtain ⟨j, out, hin, -, -⟩ := feedOne_ok ho
  rcases input_ok hin with ⟨-, -, hno⟩ | ⟨h, p, ha', hprep, hp, hf⟩
  · exact absurd ha (hno _)
  obtain rfl := ha.unique ha'
  have hm : Initialised N st (f.bytes i) := fun h' ha' he => absurd he (by obtain rfl := ha.unique ha'; exact hne)
  have hk : Marked N st (f.bytes i) := fun h' ha' he => absurd he (by obtain rfl := ha.unique ha'; exact hne)
  have hlinked := placed_linked hs.linked hk ha hp
  have hfind := FlatTables.find_owner st.tables f.seq
  have hind := hs.ring st.index hs.safe.index
  have hspared : (st.fecData st.index).used = true → (st.fecData st.index).seq ≠ f.seq := fun hu hseq => hfree ⟨_, _, ha, hacc, hu, hseq⟩
  cases hp with
  | refused hf' hacc' =>
    rw [hfind] at hf'
    cases hf'
    rw [hacc] at hacc'
    cases hacc'
  | self hf' hacc' hev =>
    rw [FlatTables.evict_eq] at hev
    split at hev
    · rename_i hu
      rw [Prod.mk.injEq, decide_eq_true_iff] at hev
      exact absurd hev.2 (hspared hu)
    · cases hev
  | @stored t0 t1 g0 g1 d call hf' hacc' hev hindex hlen' hg =>
    rw [hfind] at hf'
    cases hf'
    rw [hacc] at hacc'
    cases hacc'
    have haccd := FecGroup.accept_ok hacc
    have hpass := Header.passed ha.checks
    have hrec := joined_record ((owner_record hs.safe fun e => absurd e hne).accepted haccd hpass hlen') haccd hpass hindex
    have hsame := gather_sameRing hg
    have hslot : ∀ j, (g'.joined ⟨f.seq, f.type, f.x, f.y, i, q⟩ st.index).slotOf j =
        if j = i then some st.index else (st.tables.owner f.seq).slotOf j := by
      intro j
      rw [FecGroup.slotOf_joined]
      unfold FecGroup.slotOf FecGroup.hasShard
      rw [haccd.bitmap, haccd.idx]
    have hd := (haccd.taken (Nat.pos_iff_ne_zero.mp f.pos)).joined ⟨f.seq, f.type, f.x, f.y, i, q⟩ st.index
    simp only [hlen] at hd
    refine ⟨_, d, _, _, call, hprep, rfl, hsame.index, ?_, hg, hslot, ?_, ?_, haccd.done, haccd.type, hd,
      haccd.seq.trans (FlatTables.owner_seq _ _), hrec, hlinked.2.2.2, ?_, (gather_ready hg).trans hs.safe.ready, hlen, hlen ▸ hlen'⟩
    · exact (SameEntry.evicted hn hS (fun hu => ⟨hind hu, hspared hu⟩) hev).replay
    · intro j
      rw [FecGroup.hasShard_joined]
      unfold FecGroup.hasShard
      rw [haccd.bitmap]
    · rw [FecGroup.joined_count, haccd.count]
    · intro j p hjp
      -- the new shard is in its own slot, the others are where they were
      rw [hslot] at hjp
      have hfd : d.fecData = (st.toDecodeState.store ⟨f.seq, f.type, f.x, f.y, i, q⟩).fecData := by rw [(gather_ok hg).1]
      rw [hfd]
      split at hjp
      · rename_i e
        cases hjp
        subst e
        rw [show st.index = st.toDecodeState.index from rfl, store_same]
        refine ⟨hlen, fun k hk => ?_⟩
        have : (copyTo (st.fecData st.index).buf 0 (mem q) q.length) (0 + k) = mem q k := copyTo_in _ _ (by omega)
        rw [Nat.zero_add] at this
        exact this.trans (hval k hk)
      · obtain ⟨-, hu, hseq, -⟩ := (@owner_owned N st hs.linked f.seq fun e => absurd e hne).slot hjp
        have hp' : p ≠ st.index := fun e => hspared (e ▸ hu) (e ▸ hseq)
        rw [store_other _ _ hp']
        exact ht.content j p hjp

section

variable {i : Nat} {t : FlatTables N} {d : DecodeState} {g : FecGroup} {h : Header} {call : Option DecodeCall}

theorem Joins.outcome (hj : Joins f st i t d g h call) :
    (g.shardCount < f.x → outcome g h = .wait) ∧ (g.shardCount = f.x → outcome g h = .complete) := by
  have hx : g.dataNum = f.x := hj.dims.dataNum
  have htype : h.type = f.type := by rw [hj.header]
  have hnum : h.dataNum = f.x := by rw [hj.header]
  unfold Manager.outcome
  rw [htype, hnum, hx]
  rcases f.typed with h0 | ⟨h1, -⟩
  · rw [if_pos h0]
    refine ⟨?_, ?_⟩
    · intro hlt
      rw [if_neg (by omega), if_neg (by omega)]
    · intro heq
      rw [if_neg (by omega), if_pos heq]
  · rw [if_neg (by omega), if_pos (by omega)]
    refine ⟨?_, ?_⟩
    · intro hlt
      rw [if_neg (by omega), if_neg (by omega)]
    · intro heq
      rw [if_neg (by omega), if_pos (by omega)]

/-- The shards the group has now. -/
theorem Joins.mem_arrived (hj : Joins f st i t d g h call) (ht : Tracks f hist st) (hi : f.lo ≤ i) (hi' : i < f.x + f.y) (j : Nat) :
    g.hasShard j = true ↔ j ∈ f.arrived (hist.map Prod.fst ++ [f.bytes i]) := by
  rw [hj.has, Bool.or_eq_true, decide_eq_true_iff, ht.has, ShardSet.mem_arrived, ShardSet.mem_arrived, List.mem_append,
    List.mem_singleton]
  constructor
  · rintro (rfl | ⟨h1, h2, h3⟩)
    · exact ⟨hi', hi, .inr rfl⟩
    · exact ⟨h1, h2, .inl h3⟩
  · rintro ⟨h1, h2, h3 | h3⟩
    · exact .inr ⟨h1, h2, h3⟩
    · exact .inl (ShardSet.bytes_inj h2 h1 hi hi' h3)

/-- Too few shards yet: the new one waits with the others. -/
theorem Joins.waits (hj : Joins f st i t d g h call) (ht : Tracks f hist st) (hi : f.lo ≤ i) (hi' : i < f.x + f.y)
    (hnew : f.bytes i ∉ hist.map Prod.fst) (hlt : (f.arrived (hist.map Prod.fst)).length + 1 < f.x)
    (hcount : g.shardCount = (f.arrived (hist.map Prod.fst)).length + 1) (ho : feedOne N st (f.bytes i) = .ok o) :
    Tracks f (hist ++ [(f.bytes i, o)]) o.st ∧ o.packets = none ∧ o.stored.isSome := by
  obtain ⟨d', g', seen, hc, hstored, hring, htab, hout⟩ := feedOne_after ho hj.prepared
  have hwait := hj.outcome.1 (by omega)
  have hseq : h.seq = f.seq := by rw [hj.header]
  have hnum : h.dataNum ≠ 0 := by
    rw [hj.header]
    exact Nat.pos_iff_ne_zero.mp f.pos
  cases hc with
  | decodes hout' => rw [hwait] at hout'; cases hout'
  | ends hend =>
    rcases hend with hend | ⟨hend, -⟩
    · rw [hwait] at hend; cases hend
    · rw [hwait] at hend; cases hend
  | waits hout' hfast =>
    obtain ⟨rfl, -⟩ : d' = d ∧ _ := (fastSend_ok hfast).resolve_right fun h' => hnum h'.2.1
    rw [if_neg Bool.false_ne_true, hseq] at htab
    have howner : o.st.tables.owner f.seq = g := by
      unfold FlatTables.owner
      rw [htab, FlatTables.groupPut_groups, upd_same, if_pos hj.seq]
    have hlen := ShardSet.arrived_new hi hi' hnew
    have hmap : (hist ++ [(f.bytes i, o)]).map Prod.fst = hist.map Prod.fst ++ [f.bytes i] := by simp
    refine ⟨⟨fun hm => ht.unmarked ?_, fun j => ?_, ?_, ?_, ?_, ?_, fun j p hp => ?_, ?_⟩, ?_, by rw [hstored]; rfl⟩
    · unfold Marks at hm ⊢
      rwa [htab, FlatTables.groupPut_replay, hj.replay] at hm
    · rw [howner, hmap]
      exact hj.mem_arrived ht hi hi' j
    · rw [hmap, hlen]
      exact hlt
    · rw [howner]; exact hj.undone
    · rw [howner]; exact .inr hj.type
    · rw [howner]; exact .inr hj.dims
    · rw [howner] at hp
      rw [hring]
      exact hj.content j p hp
    · obtain ⟨q, hq, -⟩ := f.rows i hi hi'
      have hyes : StoresOf f.seq (f.bytes i, o) = true := by
        unfold StoresOf
        rw [hstored, hq]
        simp
      rw [hmap, hlen, List.filter_append, List.length_append, ht.stores, List.filter_cons, if_pos hyes]
      rfl
    · rcases hout with ⟨-, hn⟩ | ⟨hy, -⟩
      · exact hn
      · rw [hj.ready] at hy; cases hy

/-- The shard that makes `data_num`: `rs_decode2` is called on the shards of the group. -/
theorem Joins.completes (hj : Joins f st i t d g h call) (ht : Tracks f hist st) (hi : f.lo ≤ i) (hi' : i < f.x + f.y)
    (hx : g.shardCount = f.x) (ho : feedOne N st (f.bytes i) = .ok o) :
    (∃ c, call = some c ∧ Completes f (hist.map Prod.fst ++ [f.bytes i]) d g h c) ∧ Marks o.st f.seq ∧ o.stored.isSome := by
  have hout := hj.outcome.2 hx
  have htype : h.type = f.type := by rw [hj.header]
  have hseq : h.seq = f.seq := by rw [hj.header]
  have hinner : h.innerIndex = i := by rw [hj.header]
  have hbound : Bounded g := ⟨f.x, f.y, f.len, hj.dims, f.pos, f.small, hj.short⟩
  have hfd : d.fecData = (st.toDecodeState.store h).fecData := by rw [(gather_ok hj.gather).1]
  -- all lengths are the group's, so there is a call
  have hagree : h.type ≠ 0 → LensAgree (st.toDecodeState.store h) g := by
    intro hne
    have h2 : 2 ≤ f.len := by
      rcases f.typed with h0 | ⟨-, h2⟩
      · exact absurd (htype.trans h0) hne
      · exact h2
    have hall : ∀ j di, g.slotOf j = some di → ((st.toDecodeState.store h).fecData di).len = f.len := by
      intro j di hdi
      rw [← hfd]
      exact (hj.content j di hdi).1
    have hlen := hj.dims.len
    refine ⟨?_, i, by rw [hj.dims.total]; exact hi', st.index, by rw [hj.slot, if_pos rfl], ?_⟩
    · intro j _ di hdi
      rw [hall j di hdi]
      omega
    · rw [hall i st.index (by rw [hj.slot, if_pos rfl]), hlen]
  obtain ⟨c, rfl⟩ : ∃ c, call = some c := by
    have hg := hj.gather
    unfold DecodeState.gather at hg
    rw [hout] at hg
    simp only at hg
    split at hg
    · obtain ⟨c, -, hg⟩ := bind_ok.mp hg
      cases hg
      exact ⟨c, rfl⟩
    · rename_i hne
      obtain ⟨d', call', hrun, hsome⟩ := shardsCall_run (st.toDecodeState.store h) hj.record hj.dims f.small
      rw [hrun] at hg
      cases hg
      exact Option.isSome_iff_exists.mp (hsome.mpr (hagree hne))
  have hfit := gather_fits hj.gather hbound (by rw [hj.size]; exact hj.short)
  obtain ⟨hn, hslots⟩ := call_slots hj.gather
  have hk : c.k = f.x ∧ c.size = f.len ∧ ∀ j < c.n, ∀ p, c.arr j = some p → ∀ b < f.len, c.m p b = (d.fecData p).buf b := by
    rcases ((gather_ok hj.gather).2 c rfl).2 with ⟨-, rfl⟩ | ⟨-, hs⟩
    · refine ⟨?_, hj.size, ?_⟩
      · show g.dataNum.toNat = f.x
        rw [hj.dims.dataNum, Int.toNat_natCast]
      · intro j _ p _ b _
        rw [hfd]
        rfl
    · have hsize : c.size = f.len := by rw [hs.size, hj.dims.len, Int.toNat_natCast]
      refine ⟨by rw [hs.k, hj.dims.dataNum, Int.toNat_natCast], hsize, fun j hj' p hp b hb => ?_⟩
      rw [hslots j hj'] at hp
      have hl := (hj.content j p hp).1
      rw [hfd] at hl ⊢
      exact hs.padded.kept p b (.inl (by omega))
  have hcalled : Completes f (hist.map Prod.fst ++ [f.bytes i]) d g h c := by
    refine ⟨hout, htype, hinner ▸ hi, hk.1, hn.trans hj.dims.total, hk.2.1, hfit, ?_, ?_, hj.ready, ?_, ?_⟩
    · intro j hjm p hp b hb
      have hjn := (mem_present.mp (List.mem_of_mem_take hjm)).1
      rw [hk.2.1] at hb
      rw [hk.2.2 j hjn p hp b hb, hk.1]
      rw [hslots j hjn] at hp
      exact (hj.content j p hp).2 b hb
    · intro a ha b hb _ hab p hpa hpb
      rw [hslots a ha] at hpa
      rw [hslots b hb] at hpb
      exact hab (hj.owned.inj hpa hpb)
    · intro j hj' hsome
      rw [hslots j hj', FecGroup.slotOf_isSome] at hsome
      exact (hj.mem_arrived ht hi hi' j).mp hsome
    · intro hne j hj'
      rcases ((gather_ok hj.gather).2 c rfl).2 with ⟨h0, -⟩ | ⟨-, hs⟩
      · exact absurd (htype.symm.trans h0) hne
      · rw [hslots j hj', hs.sArr j (hn ▸ hj')]
  obtain ⟨d', g', seen, hc, hstored, -, htab, -⟩ := feedOne_after ho hj.prepared
  refine ⟨⟨c, rfl, hcalled⟩, ?_, by rw [hstored]; rfl⟩
  cases hc with
  | waits hwait => rw [hout] at hwait; cases hwait
  | decodes =>
    unfold Marks
    rw [htab, if_pos rfl, hseq]
    exact upd_same _ _ _
  | ends =>
    unfold Marks
    rw [htab, if_pos rfl, hseq]
    exact upd_same _ _ _

end

/-- The datagram has no other seq than `S`. -/
def Own (S : U32) (s : Bytes) : Prop := ∀ h, parseHeader s = some h → h.seq = S

/-- One datagram: the group goes on waiting, or this was the shard it waited for. -/
theorem Tracks.step (hn : Narrow N base w) (hS : InWindow base w f.seq) (hs : Sound N base w st) (ht : Tracks f hist st)
    (hin : ∀ h, parseHeader s = some h → InWindow base w h.seq) (honly : f.Only s)
    (hfree : ¬ Evicts st s f.seq) (ho : feedOne N st s = .ok o) :
    (Tracks f (hist ++ [(s, o)]) o.st ∧ (Own f.seq s → o.packets = none)) ∨
      (f.arrived ((hist ++ [(s, o)]).map Prod.fst)).length = f.x ∧ Marks o.st f.seq ∧ o.stored.isSome ∧
        ∃ t d g h c, prepare N st s = .ok (.stored t d g h (some c)) ∧
          Completes f ((hist ++ [(s, o)]).map Prod.fst) d g h c := by
  have hne : f.seq ≠ emptySeq := fun e => hn.marker (e ▸ hS)
  have hmap : (hist ++ [(s, o)]).map Prod.fst = hist.map Prod.fst ++ [s] := by simp
  -- a datagram that is dropped or refused
  have hdrop : (∀ h, Arrives st s h → ∃ g, (st.tables.owner h.seq).accept h = (g, false) ∧ g = st.tables.owner h.seq ∧
      h.seq = f.seq) → (∀ i, f.lo ≤ i → i < f.x + f.y → s = f.bytes i → s ∈ hist.map Prod.fst) →
        Tracks f (hist ++ [(s, o)]) o.st ∧ (Own f.seq s → o.packets = none) := by
    intro hno hold
    obtain ⟨h1, h2, h3, h4, h5⟩ := feedOne_refused hs.safe hno ho
    refine ⟨ht.keep hne hs.linked h1 h2 (fun p _ _ => by rw [h3]) ?_ ?_, fun _ => h5⟩
    · rw [hmap, ShardSet.arrived_same hold]
    · unfold StoresOf
      rw [h4]
      rfl
  by_cases hown : ∃ h, parseHeader s = some h ∧ h.seq = f.seq
  · obtain ⟨h, hp, hseq⟩ := hown
    rcases honly h hp hseq with hbad | ⟨i, hi, hi', rfl⟩
    · refine .inl (hdrop (fun h' ha => ?_) fun i hi hi' e => ?_)
      · obtain rfl : h' = h := Option.some.inj (ha.parse.symm.trans hp)
        exact absurd ha.checks hbad
      · subst e
        obtain ⟨q, hq, hlen, -⟩ := f.rows i hi hi'
        obtain rfl := Option.some.inj (hp.symm.trans hq)
        exact absurd (f.header_checks hi' hlen) hbad
    · by_cases hold : f.bytes i ∈ hist.map Prod.fst
      · refine .inl (hdrop (fun h' ha => ?_) fun _ _ _ _ => hold)
        obtain rfl : h' = h := Option.some.inj (ha.parse.symm.trans hp)
        obtain ⟨q, hq, -⟩ := f.rows i hi hi'
        obtain rfl := Option.some.inj (hp.symm.trans hq)
        have hdup : (st.tables.owner f.seq).hasShard i = true := (ht.has i).mpr (ShardSet.mem_arrived.mpr ⟨hi', hi, hold⟩)
        refine ⟨_, ?_, rfl, rfl⟩
        unfold FecGroup.accept
        rw [if_neg (by simp [ht.undone]), if_pos hdup]
      · obtain ⟨t, d, g, h', call, hj⟩ := ht.joins hn hS hs hi hi' hold hfree ho
        have hcount : g.shardCount = (f.arrived (hist.map Prod.fst)).length + 1 := by
          rw [hj.count, ht.count hne hs.safe]
        have hwait := ht.waiting
        by_cases hlt : (f.arrived (hist.map Prod.fst)).length + 1 < f.x
        · obtain ⟨h1, h2, -⟩ := hj.waits ht hi hi' hold hlt hcount ho
          exact .inl ⟨h1, fun _ => h2⟩
        · obtain ⟨⟨c, rfl, hc⟩, hm, hst⟩ := hj.completes ht hi hi' (by omega) ho
          rw [hmap]
          refine .inr ⟨?_, hm, hst, t, d, g, h', c, hj.prepared, hc⟩
          rw [ShardSet.arrived_new hi hi' hold]
          omega
  · have hother : ∀ h, parseHeader s = some h → InWindow base w h.seq ∧ h.seq ≠ f.seq := fun h hp =>
      ⟨hin h hp, fun e => hown ⟨h, hp, e⟩⟩
    obtain ⟨hentry, hring⟩ := feedOne_other hn hS hs hother hfree ho
    refine .inl ⟨ht.keep hne hs.linked hentry.owner ?_ hring ?_ ?_, fun hon => ?_⟩
    · unfold Marks
      rw [hentry.replay]
    · rw [hmap, ShardSet.arrived_same fun i hi hi' e => ?_]
      obtain ⟨q, hq, -⟩ := f.rows i hi hi'
      exact absurd rfl (hother _ (e ▸ hq)).2
    · unfold StoresOf
      rw [Bool.and_eq_false_iff, decide_eq_false_iff_not]
      refine .inr fun e => ?_
      obtain ⟨h, hp, hseq⟩ := Option.map_eq_some_iff.mp e
      exact hown ⟨h, hp, hseq⟩
    · refine (feedOne_idle hs.safe (fun h ha => ?_) ho).2.2
      exact (hother h ha.parse).2 (hon h ha.parse)

/-- After the group is complete its seq stays marked, and its datagrams bring nothing more. -/
theorem marked_step (hn : Narrow N base w) (hS : InWindow base w S) (hs : Sound N base w st) (hm : Marks st S)
    (hin : ∀ h, parseHeader s = some h → InWindow base w h.seq) (ho : feedOne N st s = .ok o) :
    Marks o.st S ∧ (Own S s → o.packets = none) := by
  refine ⟨?_, fun hon => (feedOne_idle hs.safe (fun h ha => ?_) ho).2.2⟩
  · obtain ⟨i, out, hi, hout, rfl⟩ := feedOne_ok ho
    have hw : Windowed N base st := ⟨hs.safe.index, fun p hp hu => (hs.ring p hp hu).mono hn.replay⟩
    have := input_keeps hw hi (fun h ha => (hin h ha.parse).mono hn.replay) (hS.mono hn.replay) hm
    unfold Marks at this ⊢
    rw [(output_ok hout).1]
    exact this
  · have := (FlatTables.isValid_iff _ _).mp ha.valid
    rw [hon h ha.parse] at this
    exact this hm

end FecDecodeManager

end UdpSpeeder.Manager
