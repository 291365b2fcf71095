/-
  UdpSpeeder.Manager.Track — one group of the decoder among the groups of other seqs.

  `Tracks` is what holds of a group until it has `data_num` shards: its record in the group
  table names exactly the shards that arrived, the ring holds them as they were sent, and
  its seq is not marked. A datagram of another seq leaves all of it alone (`feedOne_other`),
  as long as the ring does not come round to one of its shards.
-/

import UdpSpeeder.Manager.Bounds
import UdpSpeeder.Manager.Refine

namespace UdpSpeeder.Manager

open Lib Fec

variable {N : FecBuffNum}

namespace FecDecodeManager

open DecodeState

variable {base : U32} {w : Nat} {S : U32}

/-! ## What a call leaves of another group -/

/-- Buffers that are no shard of the group end as they were. -/
theorem concluded_frame {d0 d d' : DecodeState} {g g' : FecGroup} {h : Header} {call : Option DecodeCall} {seen : Bool}
    (hg : gather N d0 g h = .ok (d, call)) (hc : Concluded d g h call d' g' seen) (hready : d.readyForOutput = false)
    (hfit : ∀ c, call = some c → CallFits c) {p : Nat} (hp : ∀ i, g.slotOf i ≠ some p) : d'.fecData p = d0.fecData p := by
  have hsame : d.fecData = d0.fecData := by rw [(gather_ok hg).1]
  cases hc with
  | waits hout hfast =>
    rcases fastSend_ok hfast with ⟨rfl, -⟩ | ⟨-, -, -, rfl⟩
    · rw [hsame]
    · exact congrFun hsame p
  | ends hend => rw [hsame]
  | @decodes _ c hout hcall hdec =>
    subst hcall
    have hfits := hfit c rfl
    have hcount := decodeGroup_count hfits hdec
    obtain ⟨hn, hslots⟩ := call_slots hg
    have hcn := hfits.n
    unfold maxFecPacketNum at hcn
    obtain ⟨D, hD⟩ := exists_rows (m := c.m) hfits.kn (by omega) hcount c.size
    -- neither the padding nor the decoding wrote to it
    have hm : c.m p = (d0.fecData p).buf := by
      rcases ((gather_ok hg).2 c rfl).2 with ⟨-, rfl⟩ | ⟨-, hs⟩
      · rfl
      · exact hs.padded.other p fun i _ => hp i
    have hkept : ∀ {m' : Mem Nat} {arr' : Nat → Option Nat},
        (∀ D, Rows c.k c.n c.m c.arr D c.size → Decoded c.k c.n c.m c.arr D c.size m' arr') →
          (d.withBufs m').fecData p = d0.fecData p := by
      intro m' arr' hdec'
      have he := (hdec' D hD).frame p fun j _ hj => by
        rw [hslots j hj]
        exact hp j
      show { d.fecData p with buf := m' p } = d0.fecData p
      rw [he, hm, hsame]
    unfold decodeGroup at hdec
    split at hdec
    · obtain ⟨codes', m', arr', b, hdec', -, -, hrun⟩ := decodeBlob_run hfits hcount hready
      rw [hrun] at hdec
      cases hdec
      exact hkept hdec'
    · obtain ⟨codes', m', arr', ptr, d1, hdec', -, -, hrun, hdone⟩ := decodeShards_run h.innerIndex hfits hcount hready
      rw [hrun] at hdec
      cases hdec
      rw [hdone.fecData]
      exact hkept hdec'

theorem Narrow.apart (hn : Narrow N base w) {a b : U32} (ha : InWindow base w a) (hb : InWindow base w b) (hne : a ≠ b) :
    FlatTables.groupSlot N a ≠ FlatTables.groupSlot N b ∧ FlatTables.replaySlot a ≠ FlatTables.replaySlot b :=
  ⟨fun h => hne (groupSlot_inj (ha.mono hn.groups) (hb.mono hn.groups) h),
    fun h => hne (replaySlot_inj (ha.mono hn.replay) (hb.mono hn.replay) h)⟩

/-- The entries of `S` are the same in both. -/
structure SameEntry (S : U32) (t t' : FlatTables N) : Prop where
  group : t'.groups (FlatTables.groupSlot N S) = t.groups (FlatTables.groupSlot N S)
  replay : t'.replay (FlatTables.replaySlot S) = t.replay (FlatTables.replaySlot S)

namespace SameEntry

variable {t t' t'' : FlatTables N} {a : U32}

theorem refl (t : FlatTables N) : SameEntry S t t := ⟨rfl, rfl⟩

theorem trans (h : SameEntry S t t') (h' : SameEntry S t' t'') : SameEntry S t t'' :=
  ⟨h'.group.trans h.group, h'.replay.trans h.replay⟩

theorem owner (h : SameEntry S t t') : t'.owner S = t.owner S := by
  unfold FlatTables.owner
  rw [h.group]

theorem put (hn : Narrow N base w) (ha : InWindow base w a) (hS : InWindow base w S) (hne : a ≠ S) (t : FlatTables N)
    (g : FecGroup) : SameEntry S t (groupPut t a g) :=
  ⟨upd_ne _ _ (hn.apart ha hS hne).1.symm, rfl⟩

theorem mark (hn : Narrow N base w) (ha : InWindow base w a) (hS : InWindow base w S) (hne : a ≠ S) (t : FlatTables N) :
    SameEntry S t (setInvaild t a) :=
  ⟨rfl, upd_ne _ _ (hn.apart ha hS hne).2.symm⟩

theorem evicted (hn : Narrow N base w) (hS : InWindow base w S) {d : DecodeState} {seq : U32} {own : Bool}
    (hd : (d.fecData d.index).used = true → InWindow base w (d.fecData d.index).seq ∧ (d.fecData d.index).seq ≠ S)
    (he : evict d t seq = (t', own)) : SameEntry S t t' := by
  rw [FlatTables.evict_eq] at he
  split at he
  · rename_i hu
    obtain ⟨ha, hne⟩ := hd hu
    obtain ⟨h1, h2⟩ := hn.apart ha hS hne
    cases he
    refine ⟨?_, ?_⟩
    · rw [FlatTables.dropped_groups, if_neg fun h => h1 h.1.symm]
    · rw [FlatTables.dropped_replay, upd_ne _ _ h2.symm]
  · cases he
    exact refl t

end SameEntry

/-- The state between two datagrams, all seqs so far in the window. -/
structure Sound (N : FecBuffNum) (base : U32) (w : Nat) (st : FecDecodeManager (FlatTables N)) : Prop where
  safe : Safe N st
  linked : Linked N st
  ring : ∀ p < N.1, (st.fecData p).used = true → InWindow base w (st.fecData p).seq

/-- The seqs of the datagrams, where they have one, are in the window. -/
def Within (base : U32) (w : Nat) (ss : List Bytes) : Prop := ∀ s ∈ ss, ∀ h, parseHeader s = some h → InWindow base w h.seq

theorem Within.proper (hn : Narrow N base w) {ss : List Bytes} (hw : Within base w ss) {st : FecDecodeManager (FlatTables N)}
    {s : Bytes} (hs : s ∈ ss) {h : Header} (ha : Arrives st s h) : h.seq ≠ emptySeq := fun e =>
  hn.marker (e ▸ hw s hs h ha.parse)

theorem fed_sound (hn : Narrow N base w) {st0 st : FecDecodeManager (FlatTables N)}
    {hist : List (Bytes × FeedOut (FlatTables N))} (hf : Fed N (clear N st0) hist st) (hw : Within base w (hist.map Prod.fst)) :
    Sound N base w st ∧ ∀ p < N.1, (st.fecData p).used = true → StoredBy hist p (st.fecData p).seq (st.fecData p).idx := by
  have hm : AllSteps N (Initialised N) (clear N st0) (hist.map Prod.fst ++ []) := by
    rw [List.append_nil]
    exact .of_mem fun _ _ hs _ ha he => absurd he (hw.proper hn hs ha)
  have hk : AllSteps N (Marked N) (clear N st0) (hist.map Prod.fst ++ []) := by
    rw [List.append_nil]
    exact .of_mem fun _ _ hs _ ha he => absurd he (hw.proper hn hs ha)
  obtain ⟨hl, hring⟩ := fed_linked hf hk
  refine ⟨⟨fed_safe (clear_safe st0) hm hf, hl, fun p hp hu => ?_⟩, hring⟩
  obtain ⟨past, s, o, later, h, rfl, -, -, hparse, hseq, -⟩ := hring p hp hu
  rw [← hseq]
  exact hw s (by simp) h hparse

/-- A datagram of another seq leaves the entries of `S` and its shards in the ring. -/
theorem feedOne_other (hn : Narrow N base w) (hS : InWindow base w S) {st : FecDecodeManager (FlatTables N)} {s : Bytes}
    {o : FeedOut (FlatTables N)} (hs : Sound N base w st)
    (hin : ∀ h, parseHeader s = some h → InWindow base w h.seq ∧ h.seq ≠ S)
    (hfree : ¬ Evicts st s S) (ho : feedOne N st s = .ok o) :
    SameEntry S st.tables o.st.tables ∧
      ∀ p, (st.fecData p).used = true → (st.fecData p).seq = S → o.st.fecData p = st.fecData p := by
  obtain ⟨i, out, hi, hout, rfl⟩ := feedOne_ok ho
  have hst := (output_ok hout).1
  simp only [hst]
  rcases input_ok hi with ⟨e, -, -⟩ | ⟨h, p, ha, hprep, hp, hf⟩
  · rw [e]
    exact ⟨.refl _, fun _ _ _ => rfl⟩
  obtain ⟨hwin, hne⟩ := hin h ha.parse
  have hind := hs.ring st.index hs.safe.index
  have hspared : ∀ {g : FecGroup}, (st.tables.owner h.seq).accept h = (g, true) → (st.fecData st.index).used = true →
      (st.fecData st.index).seq ≠ S := fun hacc hu hseq => hfree ⟨h, _, ha, hacc, hu, hseq⟩
  have hev' : ∀ {t t' : FlatTables N} {own : Bool} {g : FecGroup}, (st.tables.owner h.seq).accept h = (g, true) →
      evict st.toDecodeState t h.seq = (t', own) → SameEntry S t t' :=
    fun hacc he => SameEntry.evicted hn hS (fun hu => ⟨hind hu, hspared hacc hu⟩) he
  have hput := SameEntry.put hn hwin hS hne
  have hfind := FlatTables.find_owner st.tables h.seq
  have hlooked : SameEntry S st.tables
      { st.tables with groups := upd st.tables.groups (FlatTables.groupSlot N h.seq) (st.tables.owner h.seq) } :=
    hput st.tables (st.tables.owner h.seq)
  have hm : Initialised N st s := fun h' ha' he => absurd he (by
    obtain rfl := ha.unique ha'
    exact fun e => hn.marker (e ▸ hwin))
  have hk : Marked N st s := fun h' ha' he => absurd he (by
    obtain rfl := ha.unique ha'
    exact fun e => hn.marker (e ▸ hwin))
  have hlinked := placed_linked hs.linked hk ha hp
  cases hp with
  | refused hf' hacc =>
    rw [hfind] at hf'
    cases hf'
    cases hf
    exact ⟨hlooked.trans (hput _ _), fun _ _ _ => rfl⟩
  | self hf' hacc hev =>
    rw [hfind] at hf'
    cases hf'
    cases hf
    exact ⟨(hlooked.trans (hput _ _)).trans (hev' hacc hev), fun _ _ _ => rfl⟩
  | @stored t0 t1 g0 g1 d call hf' hacc hev hindex hlen hg =>
    have hp := Placed.stored hf' hacc hev hindex hlen hg
    rw [hfind] at hf'
    cases hf'
    have htab := (hlooked.trans (hput _ _)).trans (hev' hacc hev)
    cases hf with
    | @stored _ _ d' _ g' _ _ seen hc =>
      refine ⟨?_, ?_⟩
      · have hback := htab.trans (hput _ g')
        cases seen with
        | true => exact hback.trans (SameEntry.mark hn hwin hS hne _)
        | false => exact hback
      · intro p hu hseq
        have hp' : p ≠ st.index := fun e => hspared hacc (e ▸ hu) (e ▸ hseq)
        have hnot : ∀ i, (g1.joined h st.index).slotOf i ≠ some p := by
          intro i hi'
          obtain ⟨-, -, hseq', -⟩ := hlinked.2.2.2.slot hi'
          rw [(gather_sameRing hg).seq, store_other _ _ hp', hseq] at hseq'
          exact hne hseq'.symm
        refine (concluded_frame hg hc (placed_ready hs.safe hp) (fun c e => ?_) hnot).trans (store_other _ _ hp')
        subst e
        exact (stored_call hs.safe hm ha hp).fits

/-! ## The shards of one group -/

/-- The shards `lo`, `lo + 1`, … of a group, rows of the code over its blocks; those before
    `lo` are not among the datagrams that can arrive. -/
structure ShardSet where
  seq : U32
  type : Nat
  x : Nat
  y : Nat
  len : Nat
  lo : Nat
  blocks : Nat → Nat → Byte
  bytes : Nat → Bytes
  pos : 0 < x
  small : x + y < maxFecPacketNum
  typed : type = 0 ∨ type = 1 ∧ 2 ≤ len
  rows : ∀ i, lo ≤ i → i < x + y → ∃ p, parseHeader (bytes i) = some ⟨seq, type, x, y, i, p⟩ ∧ p.length = len ∧
    ∀ j < len, mem p j = shard x blocks i j

namespace ShardSet

variable {f : ShardSet}

/-- The numbers of the shards that have been fed. -/
def arrived (f : ShardSet) (ss : List Bytes) : List Nat :=
  (List.range (f.x + f.y)).filter fun i => decide (f.lo ≤ i ∧ f.bytes i ∈ ss)

theorem mem_arrived {ss : List Bytes} {i : Nat} : i ∈ f.arrived ss ↔ i < f.x + f.y ∧ f.lo ≤ i ∧ f.bytes i ∈ ss := by
  simp [arrived]

theorem arrived_nodup (f : ShardSet) (ss : List Bytes) : (f.arrived ss).Nodup := List.nodup_range.filter _

theorem bytes_inj {i j : Nat} (hi : f.lo ≤ i) (hi' : i < f.x + f.y) (hj : f.lo ≤ j) (hj' : j < f.x + f.y)
    (h : f.bytes i = f.bytes j) : i = j := by
  obtain ⟨p, hp, -⟩ := f.rows i hi hi'
  obtain ⟨q, hq, -⟩ := f.rows j hj hj'
  rw [h, hq] at hp
  cases hp
  rfl

/-- A datagram that is no new shard changes nothing. -/
theorem arrived_same {ss : List Bytes} {s : Bytes} (h : ∀ i, f.lo ≤ i → i < f.x + f.y → s = f.bytes i → s ∈ ss) :
    f.arrived (ss ++ [s]) = f.arrived ss := by
  refine List.filter_congr fun i hi => ?_
  have hi := List.mem_range.mp hi
  rw [decide_eq_decide, List.mem_append, List.mem_singleton]
  refine and_congr_right fun hlo => ⟨fun h' => h'.elim id fun e => ?_, .inl⟩
  rw [e]
  exact h i hlo hi e.symm

/-- A new shard is one more. -/
theorem arrived_new {ss : List Bytes} {i : Nat} (hi : f.lo ≤ i) (hi' : i < f.x + f.y) (hnew : f.bytes i ∉ ss) :
    (f.arrived (ss ++ [f.bytes i])).length = (f.arrived ss).length + 1 := by
  have hperm : (f.arrived (ss ++ [f.bytes i])).Perm (i :: f.arrived ss) := by
    refine (List.perm_ext_iff_of_nodup (f.arrived_nodup _) ?_).mpr fun j => ?_
    · exact List.nodup_cons.mpr ⟨fun h => hnew (mem_arrived.mp h).2.2, f.arrived_nodup ss⟩
    · rw [List.mem_cons, mem_arrived, mem_arrived, List.mem_append, List.mem_singleton]
      constructor
      · rintro ⟨h1, h2, h3 | h3⟩
        · exact .inr ⟨h1, h2, h3⟩
        · exact .inl (bytes_inj h2 h1 hi hi' h3)
      · rintro (rfl | ⟨h1, h2, h3⟩)
        · exact ⟨hi', hi, .inr rfl⟩
        · exact ⟨h1, h2, .inl h3⟩
  exact hperm.length_eq

/-- What may be fed with the group's seq: its shards, and what the entry checks refuse. -/
def Only (f : ShardSet) (s : Bytes) : Prop :=
  ∀ h, parseHeader s = some h → h.seq = f.seq → h.refused ≠ none ∨ ∃ i, f.lo ≤ i ∧ i < f.x + f.y ∧ s = f.bytes i

theorem header_checks (f : ShardSet) {i : Nat} (hi : i < f.x + f.y) {p : Bytes} (hp : p.length = f.len) :
    (Header.mk f.seq f.type f.x f.y i p).refused = none := by
  have hpos := f.pos
  have hsmall := f.small
  unfold Header.refused
  rcases f.typed with h0 | ⟨h1, h2⟩
  · rw [if_neg (by simp [h0]), if_neg (by simp [h0]), if_neg (by simp only; omega), if_neg (by simp only; omega),
      if_neg (by simp only; omega)]
  · rw [if_neg (by simp only; omega), if_neg (by simp only; omega), if_neg (by simp only; omega),
      if_neg (by simp only; omega), if_neg (by simp only; omega)]

end ShardSet

/-! ## What holds until the group is complete -/

/-- The call stored a shard of `S`. -/
def StoresOf (S : U32) (e : Bytes × FeedOut (FlatTables N)) : Bool :=
  e.2.stored.isSome && decide ((parseHeader e.1).map Header.seq = some S)

structure Tracks (f : ShardSet) (hist : List (Bytes × FeedOut (FlatTables N))) (st : FecDecodeManager (FlatTables N)) : Prop where
  unmarked : ¬ Marks st f.seq
  has : ∀ i, (st.tables.owner f.seq).hasShard i = true ↔ i ∈ f.arrived (hist.map Prod.fst)
  waiting : (f.arrived (hist.map Prod.fst)).length < f.x
  undone : (st.tables.owner f.seq).fecDone = false
  type : (st.tables.owner f.seq).type = -1 ∨ (st.tables.owner f.seq).type = f.type
  dims : (st.tables.owner f.seq).dataNum = -1 ∨ (st.tables.owner f.seq).Dims f.x f.y f.len
  content : ∀ i p, (st.tables.owner f.seq).slotOf i = some p →
    (st.fecData p).len = f.len ∧ ∀ j < f.len, (st.fecData p).buf j = shard f.x f.blocks i j
  stores : (hist.filter (StoresOf f.seq)).length = (f.arrived (hist.map Prod.fst)).length

variable {f : ShardSet} {hist : List (Bytes × FeedOut (FlatTables N))} {st : FecDecodeManager (FlatTables N)} {s : Bytes}
  {o : FeedOut (FlatTables N)}

theorem clear_tracks (f : ShardSet) (hne : f.seq ≠ emptySeq) (st0 : FecDecodeManager (FlatTables N)) :
    Tracks f [] (clear N st0) := by
  have hempty : f.arrived [] = [] := by simp [ShardSet.arrived]
  have ho : (clear N st0).tables.owner f.seq =
      ((clear N st0).tables.groups (FlatTables.groupSlot N f.seq)).init f.seq := if_neg fun h => hne h.symm
  refine ⟨fun h => hne h.symm, ?_, ?_, ?_, ?_, ?_, ?_, ?_⟩
  · intro i
    rw [ho, FecGroup.hasShard_init, List.map_nil, hempty]
    simp
  · rw [List.map_nil, hempty]
    exact f.pos
  · rw [ho]; rfl
  · rw [ho]; exact .inl rfl
  · rw [ho]; exact .inl rfl
  · intro i p hp
    rw [ho, FecGroup.slotOf, if_neg (by simp)] at hp
    cases hp
  · rw [List.map_nil, hempty]
    rfl

/-- The count of the record is the number of shards that arrived. -/
theorem Tracks.count (ht : Tracks f hist st) (hne : f.seq ≠ emptySeq) (hs : Safe N st) :
    (st.tables.owner f.seq).shardCount = (f.arrived (hist.map Prod.fst)).length := by
  have hsmall := f.small
  unfold maxFecPacketNum at hsmall
  have hrec := @owner_record N st hs f.seq fun e => absurd e hne
  rw [hrec.count, FecGroup.stored_eq (show f.x + f.y ≤ 256 by omega) fun i hi => (ShardSet.mem_arrived.mp ((ht.has i).mp hi)).1]
  refine congrArg List.length (List.filter_congr fun i hi => ?_)
  rw [Bool.eq_iff_iff, ht.has i, ShardSet.mem_arrived, decide_eq_true_iff]
  exact and_iff_right (List.mem_range.mp hi)

/-- A call that leaves the entries of the group and its shards keeps all of it. -/
theorem Tracks.keep (ht : Tracks f hist st) (hne : f.seq ≠ emptySeq) (hl : Linked N st)
    (howner : o.st.tables.owner f.seq = st.tables.owner f.seq) (hmarks : Marks o.st f.seq ↔ Marks st f.seq)
    (hring : ∀ p, (st.fecData p).used = true → (st.fecData p).seq = f.seq → o.st.fecData p = st.fecData p)
    (harr : f.arrived ((hist ++ [(s, o)]).map Prod.fst) = f.arrived (hist.map Prod.fst)) (hno : StoresOf f.seq (s, o) = false) :
    Tracks f (hist ++ [(s, o)]) o.st := by
  refine ⟨fun h => ht.unmarked (hmarks.mp h), ?_, ?_, ?_, ?_, ?_, ?_, ?_⟩
  · intro i
    rw [howner, harr]; exact ht.has i
  · rw [harr]; exact ht.waiting
  · rw [howner]; exact ht.undone
  · rw [howner]; exact ht.type
  · rw [howner]; exact ht.dims
  · intro i p hp
    rw [howner] at hp
    obtain ⟨-, hu, hseq, -⟩ := (@owner_owned N st hl f.seq fun e => absurd e hne).slot hp
    rw [hring p hu hseq]
    exact ht.content i p hp
  · rw [harr, List.filter_append, List.filter_cons, hno]
    simpa using ht.stores

end FecDecodeManager

end UdpSpeeder.Manager
