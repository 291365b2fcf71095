/-
  UdpSpeeder.Manager.Ring — the ring of stored shards and the group table that points
  into it.

  `Linked` is the invariant between the two: a shard of an owned slot is in the ring, under
  the seq of the slot and its own index. A reused ring slot erases the group of the shard
  it held, so no owned slot points at it any more; erasing only rewrites the seq, which
  leaves the old shards to 0xFFFFFFFF (`Marked`). From it the shards handed to `rs_decode2`
  are the group's own (`shards_not_mixed`).
-/

import UdpSpeeder.Manager.Safety

namespace UdpSpeeder.Manager

open Lib Fec

variable {N : FecBuffNum}

namespace FecDecodeManager

open DecodeState

/-! ## The invariant -/

/-- The shards of `g` are in the ring, under `seq`. -/
def Owned (N : FecBuffNum) (d : DecodeState) (g : FecGroup) (seq : U32) : Prop :=
  ∀ i, g.hasShard i = true → ∃ p : Nat, g.shardIdx i = p ∧ p < N.1 ∧ (d.fecData p).used = true ∧
    (d.fecData p).seq = seq ∧ (d.fecData p).idx = i

/-- Every owned slot is where its seq says, and owns its shards. -/
def TablesLinked (t : FlatTables N) (d : DecodeState) : Prop :=
  ∀ i, (t.groups i).seq ≠ emptySeq →
    FlatTables.groupSlot N (t.groups i).seq = i ∧ Owned N d (t.groups i) (t.groups i).seq

structure Linked (N : FecBuffNum) (st : FecDecodeManager (FlatTables N)) : Prop where
  index : st.index < N.1
  tables : TablesLinked st.tables st.toDecodeState

/-- What 0xFFFFFFFF finds in its slot is in the ring under 0xFFFFFFFF. -/
def Marked (N : FecBuffNum) (st : FecDecodeManager (FlatTables N)) (s : Bytes) : Prop :=
  ∀ h, Arrives st s h → h.seq = emptySeq → Owned N st.toDecodeState (st.tables.owner h.seq) h.seq

theorem Proper.marked {ss : List Bytes} (hp : Proper ss) (st : FecDecodeManager (FlatTables N)) :
    AllSteps N (Marked N) st ss := .of_mem fun _ _ hs _ ha he => absurd he (hp.seq hs ha)

theorem clear_linked (st : FecDecodeManager (FlatTables N)) : Linked N (clear N st) :=
  ⟨by have := N.2; show 0 < N.1; omega, fun _ h => absurd rfl h⟩

/-! ## What keeps a group's shards -/

theorem Owned.slot {d : DecodeState} {g : FecGroup} {seq : U32} (h : Owned N d g seq) {i p : Nat} (hp : g.slotOf i = some p) :
    p < N.1 ∧ (d.fecData p).used = true ∧ (d.fecData p).seq = seq ∧ (d.fecData p).idx = i := by
  unfold FecGroup.slotOf at hp
  split at hp
  · rename_i hs
    obtain ⟨q, hq, rest⟩ := h i hs
    rw [hq, Int.toNat_natCast] at hp
    cases hp
    exact rest
  · cases hp

/-- No two positions share a slot. -/
theorem Owned.inj {d : DecodeState} {g : FecGroup} {seq : U32} (h : Owned N d g seq) {i j p : Nat}
    (hi : g.slotOf i = some p) (hj : g.slotOf j = some p) : i = j := by
  obtain ⟨-, -, -, h1⟩ := h.slot hi
  obtain ⟨-, -, -, h2⟩ := h.slot hj
  exact h1.symm.trans h2

theorem Owned.congr {d : DecodeState} {g g' : FecGroup} {seq : U32} (h : Owned N d g seq)
    (hb : g'.shardBitmap = g.shardBitmap) (hi : g'.shardIdx = g.shardIdx) : Owned N d g' seq := by
  intro i hs
  rw [hi]
  exact h i (by simp only [FecGroup.hasShard, hb] at hs; exact hs)

theorem Owned.sameRing {d d' : DecodeState} {g : FecGroup} {seq : U32} (h : Owned N d g seq) (hr : SameRing d d') :
    Owned N d' g seq := by
  intro i hs
  obtain ⟨p, hp, hlt, hu, hseq, hidx⟩ := h i hs
  exact ⟨p, hp, hlt, by rw [hr.used]; exact hu, by rw [hr.seq]; exact hseq, by rw [hr.idx]; exact hidx⟩

theorem owned_init (d : DecodeState) (g : FecGroup) (seq : U32) : Owned N d (g.init seq) seq := fun i hs => by simp at hs

theorem store_same (d : DecodeState) (h : Header) : (d.store h).fecData d.index = {
    used := true
    seq := h.seq
    type := h.type
    dataNum := h.dataNum
    redundantNum := h.redundantNum
    idx := h.innerIndex
    buf := copyTo (d.fecData d.index).buf 0 (mem h.payload) h.payload.length
    len := h.payload.length } := upd_same _ _ _

theorem store_other (d : DecodeState) (h : Header) {p : Nat} (hp : p ≠ d.index) : (d.store h).fecData p = d.fecData p :=
  upd_ne _ _ hp

/-- A store into a slot of another seq touches none of the group's shards. -/
theorem Owned.store {d : DecodeState} {g : FecGroup} {seq : U32} (hg : Owned N d g seq) (h : Header)
    (hfree : (d.fecData d.index).used = true → (d.fecData d.index).seq ≠ seq) : Owned N (d.store h) g seq := by
  intro i hs
  obtain ⟨p, hp, hlt, hu, hseq, hidx⟩ := hg i hs
  have hne : p ≠ d.index := fun e => hfree (e ▸ hu) (e ▸ hseq)
  refine ⟨p, hp, hlt, ?_⟩
  rw [store_other d h hne]
  exact ⟨hu, hseq, hidx⟩

/-- The stored shard joins its group. -/
theorem Owned.join {d : DecodeState} {g : FecGroup} {h : Header} (hg : Owned N (d.store h) g h.seq) (hindex : d.index < N.1) :
    Owned N (d.store h) (g.joined h d.index) h.seq := by
  intro i hs
  rw [FecGroup.hasShard_joined, Bool.or_eq_true, decide_eq_true_iff] at hs
  show ∃ p : Nat, (g.setShard h.innerIndex d.index).shardIdx i = p ∧ _
  rw [FecGroup.shardIdx_setShard]
  by_cases e : i = h.innerIndex
  · subst e
    rw [if_pos rfl]
    refine ⟨d.index, rfl, hindex, ?_⟩
    rw [store_same]
    exact ⟨rfl, rfl, rfl⟩
  · rw [if_neg e]
    exact hg i (hs.resolve_left e)

/-! ## What keeps the tables linked -/

theorem TablesLinked.put {t : FlatTables N} {d : DecodeState} (ht : TablesLinked t d) {g : FecGroup} (hg : Owned N d g g.seq) :
    TablesLinked (groupPut t g.seq g) d := by
  intro i
  rw [FlatTables.groupPut_groups, upd_apply]
  split
  · rename_i e
    exact fun _ => ⟨e.symm, hg⟩
  · exact ht i

theorem TablesLinked.sameRing {t : FlatTables N} {d d' : DecodeState} (ht : TablesLinked t d) (hr : SameRing d d') :
    TablesLinked t d' := fun i hi => ⟨(ht i hi).1, (ht i hi).2.sameRing hr⟩

/-- With its owner dropped, a ring slot is free to be written. -/
theorem TablesLinked.store {t t' : FlatTables N} {d : DecodeState} {seq : U32} {own : Bool} (ht : TablesLinked t d)
    (he : evict d t seq = (t', own)) (h : Header) : TablesLinked t' (d.store h) := by
  rw [FlatTables.evict_eq] at he
  intro i hi
  split at he
  · cases he
    rw [FlatTables.dropped_groups] at hi ⊢
    split at hi
    · exact absurd rfl hi
    · rename_i hkeep
      rw [if_neg hkeep]
      obtain ⟨hhome, hown⟩ := ht i hi
      exact ⟨hhome, hown.store h fun _ hs => hkeep ⟨by rw [hs]; exact hhome.symm, hs.symm⟩⟩
  · rename_i hu
    cases he
    exact ⟨(ht i hi).1, (ht i hi).2.store h fun h' => absurd h' hu⟩

/-- Dropping a group and writing nothing keeps the rest. -/
theorem TablesLinked.evict {t t' : FlatTables N} {d : DecodeState} {seq : U32} {own : Bool} (ht : TablesLinked t d)
    (he : evict d t seq = (t', own)) : TablesLinked t' d := by
  rw [FlatTables.evict_eq] at he
  split at he
  · cases he
    intro i
    rw [FlatTables.dropped_groups]
    split
    · exact fun h => absurd rfl h
    · exact ht i
  · cases he
    exact ht

theorem owner_owned {st : FecDecodeManager (FlatTables N)} (hl : Linked N st) {seq : U32}
    (hm : seq = emptySeq → Owned N st.toDecodeState (st.tables.owner seq) seq) :
    Owned N st.toDecodeState (st.tables.owner seq) seq := by
  by_cases he : seq = emptySeq
  · exact hm he
  · unfold FlatTables.owner
    split
    · rename_i hseq
      have := (hl.tables (FlatTables.groupSlot N seq) (by rw [hseq]; exact he)).2
      rwa [hseq] at this
    · exact owned_init _ _ _

/-! ## One datagram -/

/-- What holds once `prepare` is done with an arriving datagram. -/
def Prepared.Linked : Prepared (FlatTables N) → Prop
  | .stop st _ => FecDecodeManager.Linked N st
  | .stored t d g h _ => d.index < N.1 ∧ TablesLinked t d ∧ g.seq = h.seq ∧ Owned N d g h.seq

theorem accept_frame {g g' : FecGroup} {h : Header} {ok : Bool} (hr : g.accept h = (g', ok)) :
    g'.seq = g.seq ∧ g'.shardBitmap = g.shardBitmap ∧ g'.shardIdx = g.shardIdx := by
  cases ok with
  | true =>
    have ha := FecGroup.accept_ok hr
    exact ⟨ha.seq, ha.bitmap, ha.idx⟩
  | false =>
    rcases FecGroup.accept_refused hr with rfl | ⟨-, -, rfl⟩
    · exact ⟨rfl, rfl, rfl⟩
    · exact ⟨rfl, rfl, rfl⟩

theorem placed_linked {st : FecDecodeManager (FlatTables N)} {s : Bytes} {h : Header} {p : Prepared (FlatTables N)}
    (hl : Linked N st) (hm : Marked N st s) (ha : Arrives st s h) (hp : Placed N st h p) : p.Linked := by
  have howner := owner_owned hl (hm h ha)
  have hseq : (st.tables.owner h.seq).seq = h.seq := FlatTables.owner_seq _ _
  have hput : TablesLinked (groupPut st.tables h.seq (st.tables.owner h.seq)) st.toDecodeState := by
    have := hl.tables.put (g := st.tables.owner h.seq) (by rw [hseq]; exact howner)
    rwa [hseq] at this
  -- the group after its checks, back in its slot
  have hback : ∀ {g' : FecGroup} {ok : Bool}, (st.tables.owner h.seq).accept h = (g', ok) →
      g'.seq = h.seq ∧ Owned N st.toDecodeState g' h.seq ∧
        TablesLinked (groupPut (groupPut st.tables h.seq (st.tables.owner h.seq)) h.seq g') st.toDecodeState := by
    intro g' ok hacc
    obtain ⟨h1, h2, h3⟩ := accept_frame hacc
    have hs := h1.trans hseq
    have ho := howner.congr h2 h3
    have := hput.put (g := g') (by rw [hs]; exact ho)
    rw [hs] at this
    exact ⟨hs, ho, this⟩
  have hfind := FlatTables.find_owner st.tables h.seq
  cases hp with
  | refused hf hacc =>
    rw [hfind] at hf
    cases hf
    exact ⟨hl.index, (hback hacc).2.2⟩
  | self hf hacc hev =>
    rw [hfind] at hf
    cases hf
    exact ⟨hl.index, (hback hacc).2.2.evict hev⟩
  | stored hf hacc hev hindex hlen hg =>
    rw [hfind] at hf
    cases hf
    obtain ⟨hs, ho, ht⟩ := hback hacc
    have hsame := gather_sameRing hg
    refine ⟨by rw [hsame.index]; exact hindex, (ht.store hev h).sameRing hsame, hs, ?_⟩
    have hfree : (st.fecData st.index).used = true → (st.fecData st.index).seq ≠ h.seq := by
      intro hu he
      rw [FlatTables.evict_eq, if_pos hu, Prod.mk.injEq, decide_eq_false_iff_not] at hev
      exact hev.2 he
    exact ((ho.store h hfree).join hindex).sameRing hsame

theorem finished_linked {p : Prepared (FlatTables N)} {out : InputOut (FlatTables N)} (hp : p.Linked) (hf : Finished N p out) :
    Linked N out.st := by
  cases hf with
  | stop st ret => exact hp
  | @stored t d d' g g' h call seen hc =>
    obtain ⟨hindex, ht, hs, ho⟩ := hp
    have hsame := hc.sameRing
    have hg : Owned N d' g' g'.seq := by
      rw [hc.group, hs]
      exact (ho.congr rfl rfl).sameRing hsame
    have hs' : g'.seq = h.seq := by rw [hc.group]; exact hs
    have hput := (ht.sameRing hsame).put hg
    rw [hs'] at hput
    refine ⟨?_, ?_⟩
    · simp only [hsame.index]
      split <;> omega
    · cases seen with
      | true => exact hput
      | false => exact hput

theorem feedOne_linked {st : FecDecodeManager (FlatTables N)} {s : Bytes} {o : FeedOut (FlatTables N)} (hl : Linked N st)
    (hm : Marked N st s) (hr : feedOne N st s = .ok o) : Linked N o.st := by
  obtain ⟨i, out, hi, ho, rfl⟩ := feedOne_ok hr
  have hst := (output_ok ho).1
  suffices h : Linked N i.st by
    simp only [hst]
    exact ⟨h.index, h.tables⟩
  rcases input_ok hi with ⟨e, -, -⟩ | ⟨h, p, ha, -, hp, hf⟩
  · rw [e]; exact hl
  · exact finished_linked (placed_linked hl hm ha hp) hf

/-! ## Whose shards are in the ring -/

/-- The last datagram stored in slot `p` carried `seq` and `inner_index` `i`. -/
def StoredBy (hist : List (Bytes × FeedOut (FlatTables N))) (p : Nat) (seq : U32) (i : Nat) : Prop :=
  ∃ past s o later h, hist = past ++ (s, o) :: later ∧ o.stored = some p ∧ (∀ e ∈ later, e.2.stored ≠ some p) ∧
    parseHeader s = some h ∧ h.seq = seq ∧ h.innerIndex = i

theorem StoredBy.snoc {hist : List (Bytes × FeedOut (FlatTables N))} {p i : Nat} {seq : U32} (hs : StoredBy hist p seq i)
    {e : Bytes × FeedOut (FlatTables N)} (he : e.2.stored ≠ some p) : StoredBy (hist ++ [e]) p seq i := by
  obtain ⟨past, s, o, later, h, rfl, ho, hlater, rest⟩ := hs
  refine ⟨past, s, o, later ++ [e], h, by simp, ho, fun e' he' => ?_, rest⟩
  rcases List.mem_append.mp he' with h' | h'
  · exact hlater e' h'
  · rw [List.mem_singleton.mp h']; exact he

/-- What a call of `input` does to the ring: nothing, or a store at `index`. -/
theorem feedOne_ring {st : FecDecodeManager (FlatTables N)} {s : Bytes} {o : FeedOut (FlatTables N)}
    (hr : feedOne N st s = .ok o) :
    (o.stored = none ∧ SameRing st.toDecodeState { o.st.toDecodeState with index := st.index }) ∨
      ∃ h, Arrives st s h ∧ o.stored = some st.index ∧
        SameRing (st.toDecodeState.store h) { o.st.toDecodeState with index := st.index } := by
  obtain ⟨i, out, hi, ho, rfl⟩ := feedOne_ok hr
  have hst := (output_ok ho).1
  simp only [hst]
  rcases input_ok hi with ⟨e, hn, -⟩ | ⟨h, p, ha, -, hp, hf⟩
  · rw [e]
    exact .inl ⟨hn, rfl, st.bufs, rfl⟩
  · cases hp with
    | refused hf' hacc =>
      cases hf
      exact .inl ⟨rfl, rfl, st.bufs, rfl⟩
    | self hf' hacc hev =>
      cases hf
      exact .inl ⟨rfl, rfl, st.bufs, rfl⟩
    | stored hf' hacc hev hindex hlen hg =>
      cases hf with
      | stored hc =>
        have hsame := (gather_sameRing hg).trans hc.sameRing
        obtain ⟨m, hm⟩ := hsame.fecData
        exact .inr ⟨h, ha, by rw [(gather_sameRing hg).index]; rfl, rfl, m, hm⟩

/-- A run keeps the tables linked, and every used slot of the ring to its last store. -/
theorem fed_linked {st0 st : FecDecodeManager (FlatTables N)} {hist : List (Bytes × FeedOut (FlatTables N))} {rest : List Bytes}
    (hf : Fed N (clear N st0) hist st) (hm : AllSteps N (Marked N) (clear N st0) (hist.map Prod.fst ++ rest)) :
    Linked N st ∧ ∀ p < N.1, (st.fecData p).used = true → StoredBy hist p (st.fecData p).seq (st.fecData p).idx := by
  induction hf generalizing rest with
  | start =>
    refine ⟨clear_linked st0, fun p hp hu => ?_⟩
    have : ((clear N st0).fecData p).used = false := by
      show (if p < N.1 then { st0.fecData p with used := false } else st0.fecData p).used = false
      rw [if_pos hp]
    rw [this] at hu; cases hu
  | @next hist st hf s o ho ih =>
    rw [List.map_append, List.append_assoc] at hm
    obtain ⟨hl, hring⟩ := ih hm
    refine ⟨feedOne_linked hl (hm hist st s rest hf (by simp)) ho, fun p hp hu => ?_⟩
    rcases feedOne_ring ho with ⟨hn, hsame⟩ | ⟨h, ha, hstored, hsame⟩
    · have h1 : (o.st.fecData p).used = (st.fecData p).used := hsame.used p
      have h2 : (o.st.fecData p).seq = (st.fecData p).seq := hsame.seq p
      have h3 : (o.st.fecData p).idx = (st.fecData p).idx := hsame.idx p
      rw [h2, h3]
      exact (hring p hp (h1 ▸ hu)).snoc (by rw [hn]; simp)
    · have h1 : (o.st.fecData p).used = ((st.store h).fecData p).used := hsame.used p
      have h2 : (o.st.fecData p).seq = ((st.store h).fecData p).seq := hsame.seq p
      have h3 : (o.st.fecData p).idx = ((st.store h).fecData p).idx := hsame.idx p
      rw [h2, h3]
      by_cases e : p = st.index
      · subst e
        rw [store_same]
        exact ⟨hist, s, o, [], h, rfl, hstored, by simp, ha.parse, rfl, rfl⟩
      · rw [store_other _ h e] at h1 ⊢
        exact (hring p hp (h1 ▸ hu)).snoc (by rw [hstored]; simpa using Ne.symm e)

/-- The pointers of a call are slots of the group. -/
theorem call_slots {d d' : DecodeState} {g : FecGroup} {h : Header} {c : DecodeCall} (hr : gather N d g h = .ok (d', some c)) :
    c.n = g.total ∧ ∀ i < c.n, c.arr i = g.slotOf i := by
  rcases ((gather_ok hr).2 c rfl).2 with ⟨-, rfl⟩ | ⟨-, hc⟩
  · refine ⟨rfl, fun i hi => ?_⟩
    show gathered g i = g.slotOf i
    rw [gathered, if_pos hi]
  · exact ⟨hc.n, fun i hi => hc.arr i (hc.n ▸ hi)⟩

/-- The buffer at position `i` of a call was stored by a datagram of the group's seq and of
    `inner_index` `i`, the present one or an earlier one that nothing has overwritten, and no
    two positions share a buffer. -/
def OwnShards (hist : List (Bytes × FeedOut (FlatTables N))) (d : DecodeState) (h : Header) (c : DecodeCall) : Prop :=
  (∀ i < c.n, ∀ p, c.arr i = some p → p = d.index ∧ i = h.innerIndex ∨ p ≠ d.index ∧ StoredBy hist p h.seq i) ∧
    ∀ i < c.n, ∀ j < c.n, ∀ p, c.arr i = some p → c.arr j = some p → i = j

/-- Whenever RS decoding runs, it is on the group's own shards; in every run in which
    0xFFFFFFFF finds no shards but its own. -/
theorem shards_not_mixed (st0 st : FecDecodeManager (FlatTables N)) (hist : List (Bytes × FeedOut (FlatTables N)))
    (hf : Fed N (clear N st0) hist st) (s : Bytes) (hm : AllSteps N (Marked N) (clear N st0) (hist.map Prod.fst ++ [s]))
    (t : FlatTables N) (d : DecodeState) (g : FecGroup) (h : Header) (c : DecodeCall)
    (hp : prepare N st s = .ok (.stored t d g h (some c))) : OwnShards hist d h c := by
  obtain ⟨hl, hring⟩ := fed_linked hf hm
  rcases prepare_ok hp with ⟨ret, e, -⟩ | ⟨h', ha, hpl⟩
  · cases e
  have hprep := placed_linked hl (hm hist st s [] hf rfl) ha hpl
  obtain ⟨hindex, -, -, ho⟩ := hprep
  cases hpl with
  | stored hfind hacc hev hlt hlen hg =>
    obtain ⟨-, hslots⟩ := call_slots hg
    have hsame := gather_sameRing hg
    have hd : d.index = st.index := hsame.index
    refine ⟨?_, ?_⟩
    · intro i hi p hcp
      rw [hslots i hi] at hcp
      obtain ⟨hlt', hu, hseq, hidx⟩ := ho.slot hcp
      rw [hsame.used] at hu
      rw [hsame.seq] at hseq
      rw [hsame.idx] at hidx
      by_cases e : p = st.index
      · subst e
        rw [store_same] at hidx
        exact .inl ⟨hd.symm, hidx.symm⟩
      · rw [store_other _ _ e] at hu hseq hidx
        refine .inr ⟨by rw [hd]; exact e, ?_⟩
        have := hring p hlt' hu
        rwa [hseq, hidx] at this
    · intro i hi j hj p hi' hj'
      rw [hslots i hi] at hi'
      rw [hslots j hj] at hj'
      exact ho.inj hi' hj'

/-- One shard that is a whole group. -/
theorem shards_not_mixed_one : ∃ t d g h c, prepare leastNum leastDecoder (bytes [0, 0, 0, 7, 0, 1, 0, 0, 9]) =
    .ok (.stored t d g h (some c)) ∧ @OwnShards leastNum [] d h c := by
  obtain ⟨c, hc⟩ : ∃ c, callOf leastNum leastDecoder (bytes [0, 0, 0, 7, 0, 1, 0, 0, 9]) = some c :=
    Option.isSome_iff_exists.mp (by decide +kernel)
  obtain ⟨t, d, g, h, hp⟩ := callOf_some hc
  exact ⟨t, d, g, h, c, hp, shards_not_mixed default _ [] .start _ (Proper.marked (by decide) _) t d g h c hp⟩

/-- A shard of seq 32767, then 300 others, which turn the ring once and evict it, then one of
    seq 0xFFFFFFFF. -/
def wrapped : List Bytes :=
  bytes [0, 0, 127, 255, 0, 3, 0, 0, 9] :: ((List.range 300).map fun i => bytes [0, 0, 1 + i / 256, i, 0, 2, 0, 0, 9]) ++
    [bytes [255, 255, 255, 255, 0, 3, 0, 1, 9]]

/-- A shard that its group takes, into a slot no shard of its own seq holds. -/
theorem prepare_stored {st : FecDecodeManager (FlatTables N)} {s : Bytes} {h : Header} {g' : FecGroup} {t' : FlatTables N}
    {d : DecodeState} {call : Option DecodeCall} (ha : Arrives st s h) (hlen : s.length + 100 < bufLen)
    (hacc : (st.tables.owner h.seq).accept h = (g', true))
    (hev : evict st.toDecodeState (groupPut st.tables h.seq g') h.seq = (t', false)) (hindex : st.index < N.1)
    (hg : (st.toDecodeState.store h).gather N (g'.joined h st.index) h = .ok (d, call)) :
    prepare N st s = .ok (.stored t' d (g'.joined h st.index) h call) := by
  obtain ⟨hl8, e⟩ := Header.parseHeader_eq ha.parse
  have hpl : h.payload.length + 100 < bufLen := by
    rw [e]
    simp only [List.length_drop]
    omega
  have hinner : h.innerIndex < 256 := by rw [e]; exact (mem s 7).isLt
  unfold prepare
  rw [check_true hlen, ok_bind, ha.parse]
  simp only [ha.checks, ha.valid, Bool.not_true, Bool.false_eq_true, if_false]
  unfold place
  rw [FlatTables.find_owner]
  simp only
  rw [check_true hinner, ok_bind, hacc]
  simp only [Bool.not_true, Bool.false_eq_true, if_false]
  have hput : groupPut ({ st.tables with groups := upd st.tables.groups (FlatTables.groupSlot N h.seq) (st.tables.owner h.seq) } :
      FlatTables N) h.seq g' = groupPut st.tables h.seq g' := by simp only [groupPut, upd_upd]
  rw [check_true (show st.index < N.1 + 5 by omega), ok_bind, hput, hev]
  simp only [Bool.false_eq_true, if_false]
  rw [check_true hindex, ok_bind, check_true hpl, ok_bind, hg]
  rfl

/-- One its group goes on waiting after. -/
theorem feedOne_waits {st : FecDecodeManager (FlatTables N)} {s : Bytes} {h : Header} {g' : FecGroup} {t' : FlatTables N}
    (ha : Arrives st s h) (hlen : s.length + 100 < bufLen) (hacc : (st.tables.owner h.seq).accept h = (g', true))
    (hev : evict st.toDecodeState (groupPut st.tables h.seq g') h.seq = (t', false)) (hindex : st.index < N.1)
    (hout : outcome (g'.joined h st.index) h = .wait) (hdata : h.dataNum ≠ 0) (hready : st.readyForOutput = false) :
    ∃ o, feedOne N st s = .ok o ∧ o.st = { st.toDecodeState.store h with
      index := if st.index + 1 = N.1 then 0 else st.index + 1
      tables := groupPut t' h.seq (g'.joined h st.index) } := by
  have hg : (st.toDecodeState.store h).gather N (g'.joined h st.index) h = .ok (st.toDecodeState.store h, none) := by
    unfold gather
    rw [hout]
  have hc : conclude (st.toDecodeState.store h) (g'.joined h st.index) h none =
      .ok (st.toDecodeState.store h, g'.joined h st.index, false) := by
    unfold conclude fastSend
    rw [hout]
    simp only [hdata, and_false, if_false, ok_bind]
  have hr : (st.toDecodeState.store h).readyForOutput = false := hready
  unfold feedOne input
  rw [prepare_stored ha hlen hacc hev hindex hg, ok_bind]
  simp only [hc, ok_bind, output, hr, Bool.not_false, if_true]
  exact ⟨_, rfl, rfl⟩

/-- The header of the shards below. -/
def mixHeader (seq : U32) (dataNum innerIndex : Nat) : Header where
  seq := seq
  type := 0
  dataNum := dataNum
  redundantNum := 0
  innerIndex := innerIndex
  payload := bytes [9]

/-- The shard that turns the ring by its `i`th slot. -/
def turnShard (i : Nat) : Bytes := bytes [0, 0, 1 + i / 256, i, 0, 2, 0, 0, 9]

def turnSeq (i : Nat) : U32 := BitVec.ofNat 32 (256 + i)

theorem turnShard_parse {i : Nat} (hi : i < 300) : parseHeader (turnShard i) = some (mixHeader (turnSeq i) 2 0) := by
  have hseq : ∀ i < 300, readU32 (mem (turnShard i)) 0 = turnSeq i := by decide +kernel
  show some (Header.mk (readU32 (mem (turnShard i)) 0) 0 2 0 0 (bytes [9])) = _
  rw [hseq i hi]
  rfl

theorem turnSlot {i : Nat} (hi : i < 300) : FlatTables.groupSlot leastNum (turnSeq i) = 256 + i := by
  have h : ∀ i < 300, FlatTables.groupSlot leastNum (turnSeq i) = 256 + i := by decide +kernel
  exact h i hi

theorem turnSeq_ne {i : Nat} (hi : i < 300) : turnSeq i ≠ emptySeq := by
  have h : ∀ i < 300, turnSeq i ≠ emptySeq := by decide +kernel
  exact h i hi

/-- The group of seq 32767 with its one shard, in slot 0. -/
def stale (seq : U32) : FecGroup :=
  { (default : FecGroup).init seq with type := 0, dataNum := 3, redundantNum := 0, len := 1 }.joined (mixHeader 32767 3 0) 0

/-- `i` slots of the ring turned, none of them the first. -/
structure Turning (i : Nat) (st : FecDecodeManager (FlatTables leastNum)) : Prop where
  index : st.index = if i + 1 = 300 then 0 else i + 1
  ready : st.readyForOutput = false
  ring : ∀ p < i, (st.fecData (p + 1)).used = true ∧ (st.fecData (p + 1)).seq = turnSeq p
  unused : ∀ p, i < p → (st.fecData p).used = false
  first : (st.fecData 0).used = true ∧ (st.fecData 0).seq = 32767
  replay : ∀ p, st.tables.replay p = emptySeq
  fresh : ∀ j, i ≤ j → j < 300 → (st.tables.groups (256 + j)).seq = emptySeq
  stale : st.tables.groups 1023 = stale 32767

theorem accept_first (g : FecGroup) (seq : U32) : (g.init seq).accept (mixHeader seq 2 0) =
    ({ g.init seq with type := 0, dataNum := 2, redundantNum := 0, len := 1 }, true) := by
  unfold FecGroup.accept FecGroup.hasShard
  simp [FecGroup.init, mixHeader, bytes]

theorem turning_zero : ∃ o, feedOne leastNum leastDecoder (bytes [0, 0, 127, 255, 0, 3, 0, 0, 9]) = .ok o ∧ Turning 0 o.st := by
  have ha : Arrives leastDecoder (bytes [0, 0, 127, 255, 0, 3, 0, 0, 9]) (mixHeader 32767 3 0) := ⟨rfl, by decide, by decide⟩
  obtain ⟨o, ho, hst⟩ := feedOne_waits ha (by decide) rfl rfl (by decide) (by decide) (by decide) rfl
  have hslot : FlatTables.groupSlot leastNum (mixHeader 32767 3 0).seq = 1023 := by decide
  refine ⟨o, ho, ?_⟩
  rw [hst]
  exact {
    index := rfl
    ready := rfl
    ring := fun p hp => absurd hp (Nat.not_lt_zero p)
    unused := by
      intro p hp
      show (upd leastDecoder.fecData 0 _ p).used = false
      rw [upd_ne _ _ (by omega)]
      show (if p < 300 then { (default : FecData) with used := false } else default).used = false
      split <;> rfl
    first := ⟨rfl, rfl⟩
    replay := fun _ => rfl
    fresh := by
      intro j _ hj
      simp only [groupPut, hslot]
      rw [upd_ne _ _ (by omega), upd_ne _ _ (by omega)]
      rfl
    stale := by
      simp only [groupPut, hslot, upd_same]
      rfl }

theorem Turning.arrives {i : Nat} {st : FecDecodeManager (FlatTables leastNum)} (ht : Turning i st) {j : Nat} (hj : j < 300) :
    Arrives st (turnShard j) (mixHeader (turnSeq j) 2 0) where
  parse := turnShard_parse hj
  checks := rfl
  valid := (FlatTables.isValid_iff _ _).mpr (by rw [ht.replay]; exact (turnSeq_ne hj).symm)

theorem Turning.accept {i : Nat} {st : FecDecodeManager (FlatTables leastNum)} (ht : Turning i st) (hi : i < 300) :
    (st.tables.owner (turnSeq i)).accept (mixHeader (turnSeq i) 2 0) =
      ({ (st.tables.groups (256 + i)).init (turnSeq i) with type := 0, dataNum := 2, redundantNum := 0, len := 1 }, true) := by
  have hne : (st.tables.groups (256 + i)).seq ≠ turnSeq i := by
    rw [ht.fresh i (le_refl i) hi]
    exact (turnSeq_ne hi).symm
  have hown : st.tables.owner (turnSeq i) = (st.tables.groups (256 + i)).init (turnSeq i) := by
    unfold FlatTables.owner
    rw [turnSlot hi]
    exact if_neg hne
  rw [hown]
  exact accept_first _ _

theorem turning_step {i : Nat} {st : FecDecodeManager (FlatTables leastNum)} (ht : Turning i st) (hi : i + 1 < 300) :
    ∃ o, feedOne leastNum st (turnShard i) = .ok o ∧ Turning (i + 1) o.st := by
  have hslot : FlatTables.groupSlot leastNum (mixHeader (turnSeq i) 2 0).seq = 256 + i := turnSlot (by omega)
  have hindex : st.index = i + 1 := by rw [ht.index, if_neg (by omega)]
  have hev : ∀ t : FlatTables leastNum, evict st.toDecodeState t (mixHeader (turnSeq i) 2 0).seq = (t, false) := by
    intro t
    rw [FlatTables.evict_eq, hindex, ht.unused (i + 1) (by omega)]
    rfl
  obtain ⟨o, ho, hst⟩ := feedOne_waits (ht.arrives (by omega)) (by show 9 + 100 < bufLen; decide) (ht.accept (by omega))
    (hev _) (by rw [hindex]; exact hi) rfl (by show (2 : Nat) ≠ 0; decide) ht.ready
  refine ⟨o, ho, ?_⟩
  rw [hst]
  have hdata : ∀ p, p ≠ i + 1 → (st.toDecodeState.store (mixHeader (turnSeq i) 2 0)).fecData p = st.fecData p := fun p hp =>
    store_other _ _ (by rw [hindex]; exact hp)
  have hsame := store_same st.toDecodeState (mixHeader (turnSeq i) 2 0)
  rw [hindex] at hsame
  exact {
    index := by show (if st.index + 1 = 300 then 0 else st.index + 1) = _; rw [hindex]
    ready := ht.ready
    ring := by
      intro p hp
      by_cases e : p = i
      · subst e; rw [hsame]; exact ⟨rfl, rfl⟩
      · rw [hdata _ (by omega)]; exact ht.ring p (by omega)
    unused := fun p hp => by rw [hdata _ (by omega)]; exact ht.unused p (by omega)
    first := by rw [hdata _ (by omega)]; exact ht.first
    replay := ht.replay
    fresh := by
      intro j hj hj'
      simp only [groupPut, hslot]
      rw [upd_ne _ _ (by omega), upd_ne _ _ (by omega)]
      exact ht.fresh j (by omega) hj'
    stale := by
      simp only [groupPut, hslot]
      rw [upd_ne _ _ (by omega), upd_ne _ _ (by omega)]
      exact ht.stale }

/-- The slot of the first shard is taken by another one, whose group drops the first. -/
theorem turning_last {st : FecDecodeManager (FlatTables leastNum)} (ht : Turning 299 st) :
    ∃ o, feedOne leastNum st (turnShard 299) = .ok o ∧ o.st.index = 1 ∧ o.st.readyForOutput = false ∧
      (∀ p < 299, (o.st.fecData (p + 1)).used = true ∧ (o.st.fecData (p + 1)).seq = turnSeq p) ∧
      o.st.tables.replay 32767 ≠ emptySeq ∧ o.st.tables.groups 1023 = stale emptySeq := by
  have hslot : FlatTables.groupSlot leastNum (mixHeader (turnSeq 299) 2 0).seq = 256 + 299 := turnSlot (by omega)
  have hindex : st.index = 0 := ht.index
  have hev : ∀ t : FlatTables leastNum, evict st.toDecodeState t (mixHeader (turnSeq 299) 2 0).seq =
      (FlatTables.dropped t 32767, false) := by
    intro t
    rw [FlatTables.evict_eq, hindex, ht.first.1, ht.first.2]
    rfl
  have hkept : ∀ g, (groupPut st.tables (mixHeader (turnSeq 299) 2 0).seq g).groups 1023 = stale 32767 := by
    intro g
    rw [FlatTables.groupPut_groups, hslot, upd_ne _ _ (by omega)]
    exact ht.stale
  obtain ⟨o, ho, hst⟩ := feedOne_waits (ht.arrives (by omega)) (by show 9 + 100 < bufLen; decide) (ht.accept (by omega))
    (hev _) (by rw [hindex]; decide) rfl (by show (2 : Nat) ≠ 0; decide) ht.ready
  refine ⟨o, ho, ?_⟩
  rw [hst]
  refine ⟨by show (if st.index + 1 = 300 then 0 else st.index + 1) = _; rw [hindex]; rfl, ht.ready, ?_, ?_, ?_⟩
  · intro p hp
    rw [store_other _ _ (by rw [hindex]; omega)]
    exact ht.ring p hp
  · simp only [groupPut, FlatTables.dropped_replay]
    rw [show FlatTables.replaySlot 32767 = 32767 by decide, upd_same]
    decide
  · rw [FlatTables.groupPut_groups, hslot, upd_ne _ _ (by omega), FlatTables.dropped_groups, hkept]
    rfl

theorem turned {i : Nat} (hi : i < 300) : ∃ st, feedAll leastNum leastDecoder
    (bytes [0, 0, 127, 255, 0, 3, 0, 0, 9] :: (List.range i).map turnShard) = .ok st ∧ Turning i st := by
  induction i with
  | zero =>
    obtain ⟨o, ho, ht⟩ := turning_zero
    exact ⟨o.st, by simp only [List.range_zero, List.map_nil, feedAll, ho, ok_bind], ht⟩
  | succ i ih =>
    obtain ⟨st, hst, ht⟩ := ih (by omega)
    obtain ⟨o, ho, ht'⟩ := turning_step ht hi
    refine ⟨o.st, ?_, ht'⟩
    rw [List.range_succ, List.map_append, ← List.cons_append, feedAll_append, hst, ok_bind]
    simp only [List.map_cons, List.map_nil, feedAll, ho, ok_bind]

theorem stale_call (d : DecodeState) : ∃ c, d.gather leastNum
    (((stale emptySeq).joined (mixHeader emptySeq 3 1) 1).joined (mixHeader emptySeq 3 2) 2) (mixHeader emptySeq 3 2) =
      .ok (d, some c) ∧ c.n = 3 ∧ c.arr 0 = some 0 := by
  have hcount : outcome (((stale emptySeq).joined (mixHeader emptySeq 3 1) 1).joined (mixHeader emptySeq 3 2) 2)
      (mixHeader emptySeq 3 2) = .complete := by decide
  unfold gather
  rw [hcount]
  exact ⟨_, rfl, rfl, rfl⟩

/-- 0xFFFFFFFF joins what the group of seq 32767 left behind. -/
theorem wrapped_run : ∃ st c, feedAll leastNum leastDecoder wrapped = .ok st ∧
    callOf leastNum st (bytes [255, 255, 255, 255, 0, 3, 0, 2, 9]) = some c ∧ c.n = 3 ∧ c.arr 0 = some 0 := by
  obtain ⟨st, hst, ht⟩ := turned (show 299 < 300 by omega)
  obtain ⟨o, ho, hindex, hready, hring, hreplay, hgroup⟩ := turning_last ht
  have hslot : FlatTables.groupSlot leastNum emptySeq = 1023 := by decide
  have hown : o.st.tables.owner emptySeq = stale emptySeq := by
    unfold FlatTables.owner
    rw [hslot, hgroup]
    rfl
  have ha : Arrives o.st (bytes [255, 255, 255, 255, 0, 3, 0, 1, 9]) (mixHeader emptySeq 3 1) :=
    ⟨rfl, rfl, (FlatTables.isValid_iff _ _).mpr hreplay⟩
  have hev : ∀ t : FlatTables leastNum, evict o.st.toDecodeState t (mixHeader emptySeq 3 1).seq =
      (FlatTables.dropped t (turnSeq 0), false) := by
    intro t
    rw [FlatTables.evict_eq, hindex, (hring 0 (by omega)).1, (hring 0 (by omega)).2]
    rfl
  have hacc : (o.st.tables.owner (mixHeader emptySeq 3 1).seq).accept (mixHeader emptySeq 3 1) = (stale emptySeq, true) := by
    rw [show (mixHeader emptySeq 3 1).seq = emptySeq from rfl, hown]
    rfl
  obtain ⟨o', ho', hst'⟩ := feedOne_waits ha (by decide) hacc (hev _) (by rw [hindex]; decide) rfl
    (by show (3 : Nat) ≠ 0; decide) hready
  have hlast : feedAll leastNum leastDecoder wrapped = .ok o'.st := by
    have hw : wrapped = bytes [0, 0, 127, 255, 0, 3, 0, 0, 9] :: (List.range 299).map turnShard ++
        [turnShard 299, bytes [255, 255, 255, 255, 0, 3, 0, 1, 9]] := by
      unfold wrapped
      rw [List.range_succ, List.map_append]
      simp [turnShard]
    rw [hw, feedAll_append, hst, ok_bind]
    simp only [feedAll, ho, ok_bind, ho']
  have hindex' : o'.st.index = 2 := by
    rw [hst']
    show (if o.st.index + 1 = 300 then 0 else o.st.index + 1) = 2
    rw [hindex]
    rfl
  have hring' : (o'.st.fecData 2).used = true ∧ (o'.st.fecData 2).seq = turnSeq 1 := by
    rw [hst', store_other _ _ (by rw [hindex]; decide)]
    exact hring 1 (by omega)
  have hreplay' : o'.st.tables.replay 32767 ≠ emptySeq := by
    rw [hst', FlatTables.groupPut_replay, FlatTables.dropped_replay, upd_ne _ _ (by decide)]
    exact hreplay
  have hown' : o'.st.tables.owner emptySeq = (stale emptySeq).joined (mixHeader emptySeq 3 1) 1 := by
    have hgroup' : o'.st.tables.groups 1023 = (stale emptySeq).joined (mixHeader emptySeq 3 1) 1 := by
      rw [hst', FlatTables.groupPut_groups]
      show upd _ (FlatTables.groupSlot leastNum emptySeq) _ 1023 = _
      rw [hslot, upd_same, hindex]
    unfold FlatTables.owner
    rw [hslot, hgroup']
    rfl
  have ha' : Arrives o'.st (bytes [255, 255, 255, 255, 0, 3, 0, 2, 9]) (mixHeader emptySeq 3 2) :=
    ⟨rfl, rfl, (FlatTables.isValid_iff _ _).mpr hreplay'⟩
  have hacc' : (o'.st.tables.owner (mixHeader emptySeq 3 2).seq).accept (mixHeader emptySeq 3 2) =
      ((stale emptySeq).joined (mixHeader emptySeq 3 1) 1, true) := by
    rw [show (mixHeader emptySeq 3 2).seq = emptySeq from rfl, hown']
    rfl
  have hev' : ∀ t : FlatTables leastNum, evict o'.st.toDecodeState t (mixHeader emptySeq 3 2).seq =
      (FlatTables.dropped t (turnSeq 1), false) := by
    intro t
    rw [FlatTables.evict_eq, hindex', hring'.1, hring'.2]
    rfl
  obtain ⟨c, hg, hn, harr⟩ := stale_call (o'.st.toDecodeState.store (mixHeader emptySeq 3 2))
  refine ⟨o'.st, c, hlast, ?_, hn, harr⟩
  unfold callOf
  rw [prepare_stored ha' (by decide) hacc' (hev' _) (by rw [hindex']; decide) (by rw [hindex']; exact hg)]

/-- 0xFFFFFFFF takes over the shards of seq 32767, whose slot of the ring holds another
    group's shard by now. -/
theorem shards_mixed :
    ¬ ∀ (hist : List (Bytes × FeedOut (FlatTables leastNum))) (st : FecDecodeManager (FlatTables leastNum)) (s : Bytes)
      (t : FlatTables leastNum) (d : DecodeState) (g : FecGroup) (h : Header) (c : DecodeCall), Fed leastNum leastDecoder hist st →
      (∀ e ∈ hist, e.1.length ≤ maxDataLen) → s.length ≤ maxDataLen →
      prepare leastNum st s = .ok (.stored t d g h (some c)) → OwnShards hist d h c := by
  intro hall
  obtain ⟨st, c, hfed, hc, hn, harr⟩ := wrapped_run
  obtain ⟨hist, hf, e⟩ := exists_fed hfed
  obtain ⟨t, d, g, h, hp⟩ := callOf_some hc
  have hlen : ∀ e ∈ hist, e.1.length ≤ maxDataLen := by
    intro e' he'
    have hmem : e'.1 ∈ wrapped := by rw [← e]; exact List.mem_map_of_mem he'
    have hwrapped : ∀ s ∈ wrapped, s.length ≤ maxDataLen := by decide +kernel
    exact hwrapped _ hmem
  obtain ⟨hown, -⟩ := hall hist st _ t d g h c hf hlen (by decide) hp
  rcases prepare_ok hp with ⟨ret, e', -⟩ | ⟨h', ha, hpl⟩
  · cases e'
  · obtain rfl : h = h' := by cases hpl; rfl
    obtain ⟨-, rfl⟩ := Header.parseHeader_eq ha.parse
    rcases hown 0 (by omega) 0 harr with ⟨-, h0⟩ | ⟨-, past, s, o, later, h', rfl, -, -, hparse, hseq, hidx⟩
    · exact absurd h0 (by decide)
    · have hmem : s ∈ wrapped := by rw [← e]; simp
      have hnone : ∀ s ∈ wrapped, ¬ (readU32 (mem s) 0 = emptySeq ∧ (mem s 7).toNat = 0) := by decide +kernel
      obtain ⟨-, rfl⟩ := Header.parseHeader_eq hparse
      exact hnone s hmem ⟨hseq.trans (by decide), hidx⟩

end FecDecodeManager

end UdpSpeeder.Manager
