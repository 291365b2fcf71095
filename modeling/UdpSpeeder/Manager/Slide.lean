/-
  UdpSpeeder.Manager.Slide — the groups of a decoder that runs on and on.

  The ring may hold shards of any age, so no window holds all its seqs; it is enough that no
  datagram comes `w` seqs or more behind one that came before it. A group is then fresh,
  tracked or spent (`Stage`), and it is spent for good: either its record says so, or its seq
  is marked and nothing left in the ring can take the mark away, the ring being in order of
  age (`Spent.step`). So each group hands out its packets at most once, over any run
  (`fed_once`), and no datagram of a group stops the decoder (`fed_returns`).
-/

import UdpSpeeder.Manager.Recover
import UdpSpeeder.Manager.Touch

namespace UdpSpeeder.Manager

open Lib Fec

variable {N : FecBuffNum}

namespace FecDecodeManager

open DecodeState

/-! ## Seqs near each other -/

/-- The seq of a datagram. -/
def seqOf (s : Bytes) : U32 := readU32 (mem s) 0

theorem seqOf_parse {s : Bytes} {h : Header} (hp : parseHeader s = some h) : seqOf s = h.seq := by
  obtain ⟨-, rfl⟩ := Header.parseHeader_eq hp
  rfl

/-- No more than either table tells apart. -/
structure Width (N : FecBuffNum) (w : Nat) : Prop where
  pos : 0 < w
  groups : w ≤ groupTableSize N.1
  replay : w ≤ antiReplayTableSize

theorem Width.apart {w : Nat} (hw : Width N w) {a b : U32} (hne : a ≠ b) (hab : a.toNat < b.toNat + w) (hba : b.toNat < a.toNat + w) :
    FlatTables.groupSlot N a ≠ FlatTables.groupSlot N b ∧ FlatTables.replaySlot a ≠ FlatTables.replaySlot b := by
  have hlt : a.toNat ≠ b.toNat := fun h => hne (BitVec.eq_of_toNat_eq h)
  -- the lower of the two begins a window that holds both
  have hpair : ∀ {a b : U32}, a.toNat < b.toNat → b.toNat < a.toNat + w → InWindow a w a ∧ InWindow a w b := by
    intro a b h1 h2
    unfold InWindow
    constructor
    · rw [BitVec.sub_self]
      show 0 < w
      omega
    · rw [BitVec.toNat_sub_of_le (BitVec.le_def.mpr h1.le)]
      omega
  rcases Nat.lt_or_gt_of_ne hlt with h | h
  · obtain ⟨h1, h2⟩ := hpair h hba
    exact ⟨fun e => hne (groupSlot_inj (h1.mono hw.groups) (h2.mono hw.groups) e),
      fun e => hne (replaySlot_inj (h1.mono hw.replay) (h2.mono hw.replay) e)⟩
  · obtain ⟨h1, h2⟩ := hpair h hab
    exact ⟨fun e => hne (groupSlot_inj (h2.mono hw.groups) (h1.mono hw.groups) e),
      fun e => hne (replaySlot_inj (h2.mono hw.replay) (h1.mono hw.replay) e)⟩

/-- No datagram comes `w` seqs or more behind one that came before it. -/
def Recent (w : Nat) (ss : List Bytes) : Prop := ss.Pairwise fun t s => (seqOf t).toNat < (seqOf s).toNat + w

/-- The state between two datagrams. -/
structure Slid (N : FecBuffNum) (w : Nat) (hist : List (Bytes × FeedOut (FlatTables N))) (st : FecDecodeManager (FlatTables N)) :
    Prop where
  safe : Safe N st
  linked : Linked N st
  aged : Aged w st
  ring : ∀ p < N.1, (st.fecData p).used = true → ∃ t ∈ hist.map Prod.fst, seqOf t = (st.fecData p).seq

variable {w : Nat} {S : U32} {f : ShardSet} {st0 st : FecDecodeManager (FlatTables N)}
  {hist : List (Bytes × FeedOut (FlatTables N))} {s : Bytes} {o : FeedOut (FlatTables N)} {h : Header}

theorem fed_ring (hf : Fed N (clear N st0) hist st) (hp : Proper (hist.map Prod.fst)) : Safe N st ∧ Linked N st ∧
    ∀ p < N.1, (st.fecData p).used = true → ∃ t ∈ hist.map Prod.fst, seqOf t = (st.fecData p).seq := by
  rw [← List.append_nil (hist.map Prod.fst)] at hp
  obtain ⟨hlinked, hring⟩ := fed_linked hf (hp.marked _)
  refine ⟨fed_safe (clear_safe st0) (hp.initialised _) hf, hlinked, ?_⟩
  intro q hq hu
  obtain ⟨past, t, o, later, h, rfl, -, -, hparse, hseq, -⟩ := hring q hq hu
  exact ⟨t, by simp, (seqOf_parse hparse).trans hseq⟩

theorem fed_slid (hf : Fed N (clear N st0) hist st) (hp : Proper (hist.map Prod.fst)) (hr : Recent w (hist.map Prod.fst)) :
    Slid N w hist st := by
  obtain ⟨hsafe, hlinked, hring⟩ := fed_ring hf hp
  refine ⟨hsafe, hlinked, ?_, hring⟩
  clear hsafe hlinked hring
  induction hf with
  | start => exact clear_aged w st0
  | @next hist st hf s o ho ih =>
    rw [List.map_append] at hp hr
    have hp' : Proper (hist.map Prod.fst) := fun t ht => hp t (List.mem_append_left _ ht)
    obtain ⟨hr', -, hlast⟩ := List.pairwise_append.mp hr
    obtain ⟨hsafe, -, hring⟩ := fed_ring hf hp'
    apply feedOne_aged (ih hp' hr') hsafe.index ho
    intro h ha q hq hu
    obtain ⟨t, ht, hseq⟩ := hring q hq hu
    rw [← hseq, ← seqOf_parse ha.parse]
    exact hlast t ht s (by simp)

/-! ## A group that is done with -/

/-- Nothing more comes of `S`: its record says so, or its seq is marked and every shard left in
    the ring is too near to `S` to share its mark. -/
def Spent (w : Nat) (S : U32) (st : FecDecodeManager (FlatTables N)) : Prop :=
  (st.tables.owner S).fecDone = true ∨
    Marks st S ∧ ∀ p < N.1, (st.fecData p).used = true → S.toNat < (st.fecData p).seq.toNat + w

/-- What holds of every shard in the ring, and of the datagram, holds of the ring after it. -/
theorem feedOne_ring_near {m : Nat} (hindex : st.index < N.1) (hold : m < (seqOf s).toNat + w)
    (hring : ∀ p < N.1, (st.fecData p).used = true → m < (st.fecData p).seq.toNat + w) (ho : feedOne N st s = .ok o) :
    ∀ p < N.1, (o.st.fecData p).used = true → m < (o.st.fecData p).seq.toNat + w := by
  intro p hp hu
  rcases feedOne_slots ho hindex with ⟨-, hsame⟩ | ⟨h, ha, -, hown, hsame⟩
  · rw [(hsame p).1] at hu
    rw [(hsame p).2]
    exact hring p hp hu
  · by_cases hpi : p = st.index
    · rw [hpi, hown, ← seqOf_parse ha.parse]
      exact hold
    · rw [(hsame p hpi).1] at hu
      rw [(hsame p hpi).2]
      exact hring p hp hu

/-- The first shard of `S` that the ring loses is older than all the others. -/
theorem evicted_spent (hs : Slid N w hist st) (hw : Width N w) (he : Evicts st s S) (hold : S.toNat < (seqOf s).toNat + w)
    (hnew : (seqOf s).toNat < S.toNat + w) (ho : feedOne N st s = .ok o) : Spent w S o.st := by
  obtain ⟨hu, hseq⟩ := he.seq
  refine .inr ⟨he.marks ho fun h ha => ?_, feedOne_ring_near hs.safe.index hold (fun q hq huq => ?_) ho⟩
  · rw [seqOf_parse ha.parse] at hold hnew
    by_cases heq : h.seq = S
    · exact .inl heq
    · exact .inr (hw.apart heq hnew hold).2
  · by_cases hqi : q = st.index
    · rw [hqi, hseq]
      omega
    · have := hs.aged st.index hs.safe.index q hq hu huq (by
        have := hs.safe.index
        unfold turn
        split <;> split <;> omega)
      rwa [hseq] at this

theorem Spent.step (hs : Slid N w hist st) (hw : Width N w) (hS : S ≠ emptySeq) (hsp : Spent w S st)
    (hold : S.toNat < (seqOf s).toNat + w) (halive : ∀ t ∈ hist.map Prod.fst ++ [s], (seqOf t).toNat < S.toNat + w)
    (ho : feedOne N st s = .ok o) : Spent w S o.st ∧ (Own S s → o.packets = none) := by
  have hnew : (seqOf s).toNat < S.toNat + w := halive s (by simp)
  by_cases hany : ∃ h, Arrives st s h
  swap
  · obtain ⟨hst, -, hnone⟩ := feedOne_idle hs.safe (fun h ha => hany ⟨h, ha⟩) ho
    rw [hst]
    exact ⟨hsp, fun _ => hnone⟩
  obtain ⟨h, ha⟩ := hany
  have hseq := seqOf_parse ha.parse
  by_cases heq : h.seq = S
  · -- a datagram of its own gets past the mark only when the record says that it is done
    subst heq
    have hdone : (st.tables.owner h.seq).fecDone = true := hsp.resolve_right fun hm => (FlatTables.isValid_iff _ _).mp ha.valid hm.1
    obtain ⟨h1, -, -, -, h5⟩ := @feedOne_refused N h.seq st s o hs.safe (fun h' ha' => by
      obtain rfl := ha.unique ha'
      refine ⟨_, ?_, rfl, rfl⟩
      unfold FecGroup.accept
      rw [if_pos hdone]) ho
    exact ⟨.inl (by rw [h1]; exact hdone), fun _ => h5⟩
  have hown : Own S s → o.packets = none := fun hon => absurd (hon h ha.parse) heq
  refine ⟨?_, hown⟩
  by_cases hev : Evicts st s S
  · exact evicted_spent hs hw hev hold hnew ho
  obtain ⟨hgroup, hreplay⟩ := hw.apart heq (by rw [← hseq]; exact hnew) (by rw [← hseq]; exact hold)
  rcases hsp with hdone | ⟨hm, hring⟩
  · left
    rw [feedOne_owner ha ho hS hgroup hev]
    exact hdone
  · refine .inr ⟨feedOne_marked ha ho (.inr hreplay) (fun e he => ?_) hm, feedOne_ring_near hs.safe.index hold hring ho⟩
    obtain ⟨hu, hse⟩ := he.seq
    have h1 := hring st.index hs.safe.index hu
    obtain ⟨t, ht, hts⟩ := hs.ring st.index hs.safe.index hu
    have h2 := halive t (List.mem_append_left _ ht)
    rw [hts, hse] at h2
    rw [hse] at h1
    by_cases hes : e = S
    · exact .inl hes
    · exact .inr (hw.apart hes h2 h1).2

/-! ## A group that waits -/

/-- The mark that an eviction is about to leave may as well be there already. -/
def masked (st : FecDecodeManager (FlatTables N)) : FecDecodeManager (FlatTables N) :=
  if (st.fecData st.index).used then
    { st with tables := setInvaild st.tables (st.fecData st.index).seq }
  else st

theorem masked_state (st : FecDecodeManager (FlatTables N)) : (masked st).toDecodeState = st.toDecodeState := by
  unfold masked
  split <;> rfl

theorem masked_owner (st : FecDecodeManager (FlatTables N)) (S : U32) : (masked st).tables.owner S = st.tables.owner S := by
  unfold masked
  split <;> rfl

theorem masked_unmarked (hfree : (st.fecData st.index).used = true → (st.fecData st.index).seq ≠ S) (hm : ¬ Marks st S) :
    ¬ Marks (masked st) S := by
  unfold masked
  split
  · rename_i hu
    intro hmask
    unfold Marks at hmask hm
    rw [FlatTables.setInvaild_replay, upd_apply] at hmask
    split at hmask
    · exact hfree hu hmask
    · exact hm hmask
  · exact hm

/-- For a shard that is accepted it makes no difference. -/
theorem prepare_masked (ha : Arrives st s h) {g : FecGroup} (hacc : (st.tables.owner h.seq).accept h = (g, true))
    (hfree : (st.fecData st.index).used = true → (st.fecData st.index).seq ≠ h.seq) : prepare N (masked st) s = prepare N st s := by
  have hvalid : isValid (masked st).tables h.seq = true :=
    (FlatTables.isValid_iff _ _).mpr (masked_unmarked hfree ((FlatTables.isValid_iff _ _).mp ha.valid))
  have hplace : place N (masked st) h = place N st h := by
    unfold place
    rw [FlatTables.find_owner, FlatTables.find_owner, masked_owner]
    simp only [hacc, masked_state, FlatTables.groupPut_find, FlatTables.evict_eq]
    unfold masked
    by_cases hu : (st.fecData st.index).used = true
    · simp only [hu, if_true]
      have hsame : FlatTables.dropped (groupPut (setInvaild st.tables (st.fecData st.index).seq) h.seq g) (st.fecData st.index).seq =
          FlatTables.dropped (groupPut st.tables h.seq g) (st.fecData st.index).seq :=
        congrArg (fun r => groupErase (FlatTables.mk r _) _) (upd_upd _ _ _ _)
      simp only [Bool.not_true, Bool.false_eq_true, if_false, hsame]
    · simp only [hu, Bool.false_eq_true, if_false]
  unfold prepare
  simp only [ha.parse, ha.checks, hvalid, ha.valid, hplace, Bool.not_true, Bool.false_eq_true, if_false]

theorem masked_safe (hs : Safe N st) : Safe N (masked st) := by
  unfold masked
  split
  · exact ⟨hs.index, hs.ready, hs.groups⟩
  · exact hs

theorem masked_linked (hl : Linked N st) : Linked N (masked st) := by
  unfold masked
  split
  · exact ⟨hl.index, hl.tables⟩
  · exact hl

theorem Tracks.masked (ht : Tracks f hist st) (hfree : (st.fecData st.index).used = true → (st.fecData st.index).seq ≠ f.seq) :
    Tracks f hist (masked st) := by
  have ho := masked_owner st f.seq
  refine ⟨masked_unmarked hfree ht.unmarked, by rw [ho]; exact ht.has, ht.waiting, by rw [ho]; exact ht.undone, by rw [ho]; exact ht.type,
    by rw [ho]; exact ht.dims, fun i p hp => ?_, ht.stores⟩
  rw [ho] at hp
  rw [masked_state]
  exact ht.content i p hp

/-- The mark the eviction leaves is there already, where it would be in the way. -/
theorem masked_mark (S : U32) (hu : ((FecDecodeManager.masked st).fecData (FecDecodeManager.masked st).index).used = true)
    (hslot : FlatTables.replaySlot ((FecDecodeManager.masked st).fecData (FecDecodeManager.masked st).index).seq = FlatTables.replaySlot S) :
    (FecDecodeManager.masked st).tables.replay (FlatTables.replaySlot S) =
      ((FecDecodeManager.masked st).fecData (FecDecodeManager.masked st).index).seq := by
  rw [masked_state] at hu hslot ⊢
  unfold FecDecodeManager.masked
  rw [if_pos hu, ← hslot]
  exact upd_same _ _ _

/-- While the group waits its shards get past the mark, and a new one is accepted. -/
theorem Tracks.arrives (ht : Tracks f hist st) {i : Nat} (hi : f.lo ≤ i) (hi' : i < f.x + f.y) :
    ∃ q : Bytes, q.length = f.len ∧ (∀ j < f.len, mem q j = shard f.x f.blocks i j) ∧
      Arrives st (f.bytes i) ⟨f.seq, f.type, f.x, f.y, i, q⟩ := by
  obtain ⟨q, hq, hlen, hval⟩ := f.rows i hi hi'
  exact ⟨q, hlen, hval, hq, f.header_checks hi' hlen, (FlatTables.isValid_iff _ _).mpr ht.unmarked⟩

theorem Tracks.accepts (ht : Tracks f hist st) {i : Nat} {q : Bytes} (hlen : q.length = f.len) (hnew : f.bytes i ∉ hist.map Prod.fst) :
    ∃ g, (st.tables.owner f.seq).accept ⟨f.seq, f.type, f.x, f.y, i, q⟩ = (g, true) := by
  have hfresh : (st.tables.owner f.seq).hasShard i = false := by
    rw [Bool.eq_false_iff]
    exact fun h => hnew (ShardSet.mem_arrived.mp ((ht.has i).mp h)).2.2
  exact accept_fresh ht.undone hfresh ht.type (Nat.pos_iff_ne_zero.mp f.pos) (by simp only [hlen]; exact ht.dims)

/-- A new shard of the group is stored, when the eviction leaves no mark that was not there. -/
theorem Tracks.joined (hs : Safe N st) (hl : Linked N st) (hne : f.seq ≠ emptySeq) (ht : Tracks f hist st) {i : Nat} (hi : f.lo ≤ i)
    (hi' : i < f.x + f.y) (hnew : f.bytes i ∉ hist.map Prod.fst)
    (hfree : (st.fecData st.index).used = true → (st.fecData st.index).seq ≠ f.seq)
    (hmask : (st.fecData st.index).used = true → FlatTables.replaySlot (st.fecData st.index).seq = FlatTables.replaySlot f.seq →
      st.tables.replay (FlatTables.replaySlot f.seq) = (st.fecData st.index).seq)
    (ho : feedOne N st (f.bytes i) = .ok o) : ∃ t d g h call, Joins f st i t d g h call := by
  obtain ⟨q, hlen, hval, ha⟩ := ht.arrives hi hi'
  obtain ⟨g', hacc⟩ := ht.accepts hlen hnew
  obtain ⟨j, out, hin, -, -⟩ := feedOne_ok ho
  rcases input_ok hin with ⟨-, -, hno⟩ | ⟨h, p, ha', hprep, hp, -⟩
  · exact absurd ha (hno _)
  obtain rfl := ha.unique ha'
  have hk : Marked N st (f.bytes i) := fun h' ha' he => absurd he (by obtain rfl := ha.unique ha'; exact hne)
  have hlinked := placed_linked hl hk ha hp
  have hfind := FlatTables.find_owner st.tables f.seq
  cases hp with
  | refused hf' hacc' =>
    rw [hfind] at hf'
    cases hf'
    rw [hacc] at hacc'
    cases hacc'
  | self hf' hacc' hev =>
    rw [FlatTables.evict_eq] at hev
    split at hev
    · rename_i hu
      rw [Prod.mk.injEq, decide_eq_true_iff] at hev
      exact absurd hev.2 (hfree hu)
    · cases hev
  | @stored t0 t1 g0 g1 d call hf' hacc' hev hindex hlen' hg =>
    rw [hfind] at hf'
    cases hf'
    rw [hacc] at hacc'
    cases hacc'
    have haccd := FecGroup.accept_ok hacc
    have hpass := Header.passed ha.checks
    have hrec := joined_record ((owner_record hs fun e => absurd e hne).accepted haccd hpass hlen') haccd hpass hindex
    have hsame := gather_sameRing hg
    have hslot : ∀ j, (g'.joined ⟨f.seq, f.type, f.x, f.y, i, q⟩ st.index).slotOf j =
        if j = i then some st.index else (st.tables.owner f.seq).slotOf j := by
      intro j
      rw [FecGroup.slotOf_joined]
      unfold FecGroup.slotOf FecGroup.hasShard
      rw [haccd.bitmap, haccd.idx]
    have hd := (haccd.taken (Nat.pos_iff_ne_zero.mp f.pos)).joined ⟨f.seq, f.type, f.x, f.y, i, q⟩ st.index
    simp only [hlen] at hd
    refine ⟨_, d, _, _, call, hprep, rfl, hsame.index, ?_, hg, hslot, ?_, ?_, haccd.done, haccd.type, hd,
      haccd.seq.trans (FlatTables.owner_seq _ _), hrec, hlinked.2.2.2, ?_, (gather_ready hg).trans hs.ready, hlen, hlen ▸ hlen'⟩
    · rw [FlatTables.evict_eq] at hev
      split at hev
      · rename_i hu
        obtain ⟨rfl, -⟩ := Prod.mk.inj hev
        rw [FlatTables.dropped_replay, upd_apply]
        split
        · rename_i hs'
          exact (hmask hu hs'.symm).symm
        · rfl
      · obtain ⟨rfl, -⟩ := Prod.mk.inj hev
        rfl
    · intro j
      rw [FecGroup.hasShard_joined]
      unfold FecGroup.hasShard
      rw [haccd.bitmap]
    · rw [FecGroup.joined_count, haccd.count]
    · intro j p hjp
      -- the new shard is in its own slot, the others are where they were
      rw [hslot] at hjp
      have hfd : d.fecData = (st.toDecodeState.store ⟨f.seq, f.type, f.x, f.y, i, q⟩).fecData := by rw [(gather_ok hg).1]
      rw [hfd]
      split at hjp
      · rename_i e
        cases hjp
        subst e
        rw [show st.index = st.toDecodeState.index from rfl, store_same]
        refine ⟨hlen, ?_⟩
        intro k hk
        have : (copyTo (st.fecData st.index).buf 0 (mem q) q.length) (0 + k) = mem q k := copyTo_in _ _ (by omega)
        rw [Nat.zero_add] at this
        exact this.trans (hval k hk)
      · obtain ⟨-, hu, hseq, -⟩ := (@owner_owned N st hl f.seq fun e => absurd e hne).slot hjp
        rw [store_other _ _ fun e => hfree (e ▸ hu) (e ▸ hseq)]
        exact ht.content j p hjp

/-- The call handed the shards of the group to `rs_decode2`. -/
def Decodes (f : ShardSet) (s : Bytes) (o : FeedOut (FlatTables N)) : Prop :=
  seqOf s = f.seq ∧ ∃ (st : FecDecodeManager (FlatTables N)) (ss : List Bytes) (t : FlatTables N) (d : DecodeState) (g : FecGroup)
    (h : Header) (c : DecodeCall), feedOne N st s = .ok o ∧ prepare N st s = .ok (.stored t d g h (some c)) ∧ Completes f ss d g h c

/-- A new shard of the group waits with the others, or the group is decoded and done. -/
theorem Tracks.own_step (hs : Slid N w hist st) (hne : f.seq ≠ emptySeq) (ht : Tracks f hist st) {i : Nat} (hi : f.lo ≤ i)
    (hi' : i < f.x + f.y) (hnew : f.bytes i ∉ hist.map Prod.fst) (hfree : ¬ Evicts st (f.bytes i) f.seq)
    (ho : feedOne N st (f.bytes i) = .ok o) : Tracks f (hist ++ [(f.bytes i, o)]) o.st ∧ o.packets = none ∨
      (o.st.tables.owner f.seq).fecDone = true ∧ Decodes f (f.bytes i) o := by
  obtain ⟨q, hlen, -, ha⟩ := ht.arrives hi hi'
  obtain ⟨g', hacc⟩ := ht.accepts hlen hnew
  have hspared : (st.fecData st.index).used = true → (st.fecData st.index).seq ≠ f.seq := fun hu hseq => hfree ⟨_, _, ha, hacc, hu, hseq⟩
  have hmasked : feedOne N (FecDecodeManager.masked st) (f.bytes i) = .ok o := by
    unfold feedOne input
    rw [prepare_masked ha hacc hspared]
    exact ho
  have htm := ht.masked hspared
  obtain ⟨t, d, g, h, call, hj⟩ := htm.joined (masked_safe hs.safe) (masked_linked hs.linked) hne hi hi' hnew
    (by rw [masked_state]; exact hspared) (masked_mark f.seq) hmasked
  have hcount : g.shardCount = (f.arrived (hist.map Prod.fst)).length + 1 := by
    rw [hj.count, htm.count hne (masked_safe hs.safe)]
  have hwait := ht.waiting
  by_cases hlt : (f.arrived (hist.map Prod.fst)).length + 1 < f.x
  · obtain ⟨h1, h2, -⟩ := hj.waits htm hi hi' hnew hlt hcount hmasked
    exact .inl ⟨h1, h2⟩
  · obtain ⟨⟨c, rfl, hc⟩, -, -⟩ := hj.completes htm hi hi' (by omega) hmasked
    refine .inr ⟨?_, seqOf_parse ha.parse, _, _, t, d, g, h, c, hmasked, hj.prepared, hc⟩
    obtain ⟨d', g', seen, hcon, -, -, htab, -⟩ := feedOne_after hmasked hj.prepared
    have hseq : h.seq = f.seq := by rw [hj.header]
    cases hcon with
    | waits hout => rw [hc.outcome] at hout; cases hout
    | ends hend =>
      rcases hend with hout | ⟨-, hnone⟩
      · rw [hc.outcome] at hout; cases hout
      · cases hnone
    | decodes =>
      unfold FlatTables.owner
      rw [htab, if_pos rfl, hseq, FlatTables.setInvaild_groups, FlatTables.groupPut_groups, upd_same, if_pos hj.seq]

/-- A shard about to evict one of its own group is not stored. -/
theorem evicted_self (hs : Safe N st) (ha : Arrives st s h) (he : Evicts st s h.seq) (ho : feedOne N st s = .ok o) : o.packets = none := by
  apply feedOne_stopped ho hs.ready
  intro t d g h' call hp
  rcases prepare_ok hp with ⟨ret, e, -⟩ | ⟨h'', ha', hpl⟩
  · cases e
  · obtain rfl := ha.unique ha'
    cases hpl with
    | stored hf hacc hev =>
      rw [FlatTables.evict_eq, if_pos he.seq.1, Prod.mk.injEq, decide_eq_false_iff_not] at hev
      exact hev.2 he.seq.2

/-! ## The three stages -/

/-- None of the group's datagrams has brought anything. -/
def Quiet (S : U32) (hist : List (Bytes × FeedOut (FlatTables N))) : Prop := ∀ e ∈ hist, Own S e.1 → e.2.packets = none

/-- The group waits, with no record before its first shard. -/
structure Waits (f : ShardSet) (hist : List (Bytes × FeedOut (FlatTables N))) (st : FecDecodeManager (FlatTables N)) : Prop where
  tracks : Tracks f hist st
  fresh : f.arrived (hist.map Prod.fst) = [] → (st.tables.groups (FlatTables.groupSlot N f.seq)).seq ≠ f.seq
  quiet : Quiet f.seq hist

/-- A group waits, or is spent. -/
inductive Stage (w : Nat) (f : ShardSet) (hist : List (Bytes × FeedOut (FlatTables N))) (st : FecDecodeManager (FlatTables N)) : Prop
  | waits (h : Waits f hist st)
  | spent (hs : Spent w f.seq st) (hseen : ∃ t ∈ hist.map Prod.fst, seqOf t = f.seq)

theorem clear_waits (f : ShardSet) (hne : f.seq ≠ emptySeq) (st0 : FecDecodeManager (FlatTables N)) : Waits f [] (clear N st0) :=
  ⟨clear_tracks f hne st0, fun _ => hne.symm, fun _ he => absurd he List.not_mem_nil⟩

theorem Quiet.snoc (hq : Quiet S hist) (hnone : Own S s → o.packets = none) : Quiet S (hist ++ [(s, o)]) := by
  intro e he hown
  rcases List.mem_append.mp he with he | he
  · exact hq e he hown
  · obtain rfl := List.mem_singleton.mp he
    exact hnone hown

/-- A group none of whose shards has come. -/
theorem fresh_tracks (hnone : f.arrived (hist.map Prod.fst) = []) (hm : ¬ Marks st f.seq)
    (habs : (st.tables.groups (FlatTables.groupSlot N f.seq)).seq ≠ f.seq) (hstores : hist.filter (StoresOf f.seq) = []) :
    Tracks f hist st := by
  have ho : st.tables.owner f.seq = (st.tables.groups (FlatTables.groupSlot N f.seq)).init f.seq := if_neg habs
  refine ⟨hm, ?_, ?_, ?_, ?_, ?_, ?_, ?_⟩
  · intro i
    rw [ho, FecGroup.hasShard_init, hnone]
    simp
  · rw [hnone]
    exact f.pos
  · rw [ho]; rfl
  · rw [ho]; exact .inl rfl
  · rw [ho]; exact .inl rfl
  · intro i p hp
    rw [ho, FecGroup.slotOf, if_neg (by simp)] at hp
    cases hp
  · rw [hnone, hstores]
    rfl

theorem arrived_other (hno : ∀ h, parseHeader s = some h → h.seq ≠ f.seq) :
    f.arrived ((hist ++ [(s, o)]).map Prod.fst) = f.arrived (hist.map Prod.fst) := by
  rw [List.map_append]
  apply ShardSet.arrived_same
  intro i hi hi' e
  obtain ⟨q, hq, -⟩ := f.rows i hi hi'
  exact absurd rfl (hno _ (e ▸ hq))

theorem stores_other (hno : ∀ h, parseHeader s = some h → h.seq ≠ S) : StoresOf S (s, o) = false := by
  unfold StoresOf
  rw [Bool.and_eq_false_iff, decide_eq_false_iff_not]
  refine .inr fun e => ?_
  obtain ⟨h, hp, hseq⟩ := Option.map_eq_some_iff.mp e
  exact hno h hp hseq

theorem arrived_seen {ss : List Bytes} {i : Nat} (hi : i ∈ f.arrived ss) : ∃ t ∈ ss, seqOf t = f.seq := by
  obtain ⟨hi', hlo, hmem⟩ := ShardSet.mem_arrived.mp hi
  obtain ⟨q, hq, -⟩ := f.rows i hlo hi'
  exact ⟨_, hmem, seqOf_parse hq⟩

/-- What does not get past the mark leaves the group waiting. -/
theorem Waits.idle (hs : Slid N w hist st) (hne : f.seq ≠ emptySeq) (hf : Waits f hist st) (hno : ∀ h, ¬ Arrives st s h)
    (ho : feedOne N st s = .ok o) : Waits f (hist ++ [(s, o)]) o.st ∧ o.packets = none := by
  obtain ⟨hst, hstored, hnone⟩ := feedOne_idle hs.safe hno ho
  have hsame : f.arrived ((hist ++ [(s, o)]).map Prod.fst) = f.arrived (hist.map Prod.fst) := by
    rw [List.map_append]
    apply ShardSet.arrived_same
    intro i hi hi' e
    obtain ⟨q, -, -, ha⟩ := hf.tracks.arrives hi hi'
    exact absurd ha (e ▸ hno _)
  refine ⟨⟨hf.tracks.keep hne hs.linked (by rw [hst]) (by rw [hst]) (fun p _ _ => by rw [hst]) hsame ?_, ?_,
    hf.quiet.snoc fun _ => hnone⟩, hnone⟩
  · unfold StoresOf
    rw [hstored]
    rfl
  · rw [hsame, hst]
    exact hf.fresh

/-- A shard that came before leaves the group waiting. -/
theorem Waits.again (hs : Slid N w hist st) (hne : f.seq ≠ emptySeq) (hf : Waits f hist st) {i : Nat} (hi : f.lo ≤ i)
    (hi' : i < f.x + f.y) (hold : f.bytes i ∈ hist.map Prod.fst) (ho : feedOne N st (f.bytes i) = .ok o) :
    Waits f (hist ++ [(f.bytes i, o)]) o.st ∧ o.packets = none := by
  have hin : i ∈ f.arrived (hist.map Prod.fst) := ShardSet.mem_arrived.mpr ⟨hi', hi, hold⟩
  obtain ⟨q, -, -, ha⟩ := hf.tracks.arrives hi hi'
  obtain ⟨h1, h2, h3, h4, h5⟩ := @feedOne_refused N f.seq st (f.bytes i) o hs.safe (fun h' ha' => by
    obtain rfl := ha.unique ha'
    refine ⟨_, ?_, rfl, rfl⟩
    unfold FecGroup.accept
    rw [if_neg (by simp [hf.tracks.undone]), if_pos ((hf.tracks.has i).mpr hin)]) ho
  have hsame : f.arrived ((hist ++ [(f.bytes i, o)]).map Prod.fst) = f.arrived (hist.map Prod.fst) := by
    rw [List.map_append]
    exact ShardSet.arrived_same fun _ _ _ _ => hold
  refine ⟨⟨hf.tracks.keep hne hs.linked h1 h2 (fun p _ _ => by rw [h3]) hsame ?_, fun hnil => ?_, hf.quiet.snoc fun _ => h5⟩, h5⟩
  · unfold StoresOf
    rw [h4]
    rfl
  · rw [hsame] at hnil
    rw [hnil] at hin
    cases hin

/-- A datagram of another seq that does not touch its shards leaves the group waiting. -/
theorem Waits.other (hs : Slid N w hist st) (hw : Width N w) (hne : f.seq ≠ emptySeq) (hf : Waits f hist st) (ha : Arrives st s h)
    (hproper : h.seq ≠ emptySeq) (hother : h.seq ≠ f.seq)
    (hrecent : ∀ t ∈ hist.map Prod.fst, (seqOf t).toNat < (seqOf s).toNat + w) (hnew : (seqOf s).toNat < f.seq.toNat + w)
    (hfree : ¬ Evicts st s f.seq) (ho : feedOne N st s = .ok o) : Waits f (hist ++ [(s, o)]) o.st := by
  have hno : ∀ h', parseHeader s = some h' → h'.seq ≠ f.seq := by
    intro h' hp
    obtain rfl : h' = h := Option.some.inj (hp.symm.trans ha.parse)
    exact hother
  have hsame := @arrived_other N f hist s o hno
  have hstores := @stores_other N f.seq s o hno
  have hunmarked : ¬ Marks o.st f.seq := fun hm => hf.tracks.unmarked (feedOne_unmarked ha ho hother hfree hm)
  have hquiet : Quiet f.seq (hist ++ [(s, o)]) := hf.quiet.snoc fun hon => absurd (hon h ha.parse) hother
  by_cases hnil : f.arrived (hist.map Prod.fst) = []
  · -- it has no record yet, and gets none
    have habs := feedOne_absent ha ho hne hother (hf.fresh hnil)
    have hlen := hf.tracks.stores
    rw [hnil, List.length_nil, List.length_eq_zero_iff] at hlen
    refine ⟨fresh_tracks (hsame.trans hnil) hunmarked habs ?_, fun _ => habs, hquiet⟩
    rw [List.filter_append, hlen, List.filter_cons, hstores]
    rfl
  · obtain ⟨i, hi⟩ := List.exists_mem_of_ne_nil _ hnil
    obtain ⟨t, hmem, hseq⟩ := arrived_seen hi
    have hold := hrecent t hmem
    rw [hseq] at hold
    rw [seqOf_parse ha.parse] at hold hnew
    refine ⟨hf.tracks.keep hne hs.linked (feedOne_owner ha ho hne (hw.apart hother hnew hold).1 hfree)
      ⟨fun hm => absurd hm hunmarked, fun hm => absurd hm hf.tracks.unmarked⟩
      (fun p hu hp => feedOne_shards hs.safe hs.linked ha hproper hother hfree ho hu hp) hsame hstores, fun h' => ?_, hquiet⟩
    exact absurd (hsame.symm.trans h') hnil

/-- One datagram: the group goes on waiting, or loses a shard and is spent, or this was the
    shard it waited for. -/
theorem Waits.step (hs : Slid N w hist st) (hw : Width N w) (hne : f.seq ≠ emptySeq) (honly : f.Only s) (hproper : seqOf s ≠ emptySeq)
    (hrecent : ∀ t ∈ hist.map Prod.fst, (seqOf t).toNat < (seqOf s).toNat + w) (hnew : (seqOf s).toNat < f.seq.toNat + w)
    (hf : Waits f hist st) (ho : feedOne N st s = .ok o) :
    Waits f (hist ++ [(s, o)]) o.st ∧ (Own f.seq s → o.packets = none) ∨
      Evicts st s f.seq ∧ Stage w f (hist ++ [(s, o)]) o.st ∧ (Own f.seq s → o.packets = none) ∨
        Stage w f (hist ++ [(s, o)]) o.st ∧ Decodes f s o := by
  by_cases hany : ∃ h, Arrives st s h
  swap
  · obtain ⟨h1, h2⟩ := hf.idle hs hne (fun h ha => hany ⟨h, ha⟩) ho
    exact .inl ⟨h1, fun _ => h2⟩
  obtain ⟨h, ha⟩ := hany
  by_cases hev : Evicts st s f.seq
  · obtain ⟨t, hmem, hseq⟩ := hs.ring st.index hs.safe.index hev.seq.1
    rw [hev.seq.2] at hseq
    refine .inr (.inl ⟨hev, .spent (evicted_spent hs hw hev (hseq ▸ hrecent t hmem) hnew ho) ⟨t, by simp [hmem], hseq⟩, fun hon => ?_⟩)
    exact evicted_self hs.safe ha ((hon h ha.parse).symm ▸ hev) ho
  by_cases hother : h.seq = f.seq
  swap
  · exact .inl ⟨hf.other hs hw hne ha (by rw [← seqOf_parse ha.parse]; exact hproper) hother hrecent hnew hev ho,
      fun hon => absurd (hon h ha.parse) hother⟩
  rcases honly h ha.parse hother with hbad | ⟨i, hi, hi', rfl⟩
  · exact absurd ha.checks hbad
  by_cases hold : f.bytes i ∈ hist.map Prod.fst
  · obtain ⟨h1, h2⟩ := hf.again hs hne hi hi' hold ho
    exact .inl ⟨h1, fun _ => h2⟩
  have hmem : f.bytes i ∈ (hist ++ [(f.bytes i, o)]).map Prod.fst := by simp
  rcases hf.tracks.own_step hs hne hi hi' hold hev ho with ⟨h1, h2⟩ | ⟨hdone, hdec⟩
  · refine .inl ⟨⟨h1, fun hnil => ?_, hf.quiet.snoc fun _ => h2⟩, fun _ => h2⟩
    have := ShardSet.mem_arrived.mpr ⟨hi', hi, hmem⟩
    rw [hnil] at this
    cases this
  · exact .inr (.inr ⟨.spent (.inl hdone) ⟨_, hmem, (seqOf_parse ha.parse).trans hother⟩, hdec⟩)

/-- What brings something of the group completes it, and is the first to. -/
theorem Stage.step (hs : Slid N w hist st) (hw : Width N w) (hne : f.seq ≠ emptySeq) (honly : f.Only s) (hproper : seqOf s ≠ emptySeq)
    (hrecent : ∀ t ∈ hist.map Prod.fst, (seqOf t).toNat < (seqOf s).toNat + w)
    (halive : ∀ t ∈ hist.map Prod.fst ++ [s], (seqOf t).toNat < f.seq.toNat + w) (hstage : Stage w f hist st)
    (ho : feedOne N st s = .ok o) :
    Stage w f (hist ++ [(s, o)]) o.st ∧ (Own f.seq s → o.packets = none ∨ Quiet f.seq hist ∧ Decodes f s o) := by
  cases hstage with
  | spent hsp hseen =>
    obtain ⟨t, hmem, hseq⟩ := hseen
    obtain ⟨h1, h2⟩ := hsp.step hs hw hne (hseq ▸ hrecent t hmem) halive ho
    exact ⟨.spent h1 ⟨t, by simp [hmem], hseq⟩, fun hon => .inl (h2 hon)⟩
  | waits hf =>
    rcases hf.step hs hw hne honly hproper hrecent (halive s (by simp)) ho with ⟨h1, h2⟩ | ⟨-, h1, h2⟩ | ⟨h1, h2⟩
    · exact ⟨.waits h1, fun hon => .inl (h2 hon)⟩
    · exact ⟨h1, fun hon => .inl (h2 hon)⟩
    · exact ⟨h1, fun _ => .inr ⟨hf.quiet, h2⟩⟩

/-! ## Whole runs -/

/-- The datagrams a decoder may be fed over time: none comes too late, and none that its checks
    let in is made up. -/
structure Genuine (w : Nat) (f : ShardSet) (ss : List Bytes) : Prop where
  proper : Proper ss
  recent : Recent w ss
  only : ∀ s ∈ ss, f.Only s

theorem Genuine.left {ss ts : List Bytes} (h : Genuine w f (ss ++ ts)) : Genuine w f ss :=
  ⟨fun s hs => h.proper s (List.mem_append_left _ hs), (List.pairwise_append.mp h.recent).1,
    fun s hs => h.only s (List.mem_append_left _ hs)⟩

theorem Genuine.next {ss : List Bytes} (h : Genuine w f ss) (hproper : seqOf s ≠ emptySeq) (honly : f.Only s)
    (hrecent : ∀ t ∈ ss, (seqOf t).toNat < (seqOf s).toNat + w) : Genuine w f (ss ++ [s]) := by
  refine ⟨?_, List.pairwise_append.mpr ⟨h.recent, List.pairwise_singleton _ _, fun t ht u hu => ?_⟩, ?_⟩
  · intro t ht
    rcases List.mem_append.mp ht with ht | ht
    · exact h.proper t ht
    · exact List.mem_singleton.mp ht ▸ hproper
  · exact List.mem_singleton.mp hu ▸ hrecent t ht
  · intro t ht
    rcases List.mem_append.mp ht with ht | ht
    · exact h.only t ht
    · exact List.mem_singleton.mp ht ▸ honly

theorem Genuine.last {ss : List Bytes} (h : Genuine w f (ss ++ [s])) :
    seqOf s ≠ emptySeq ∧ f.Only s ∧ ∀ t ∈ ss, (seqOf t).toNat < (seqOf s).toNat + w :=
  ⟨h.proper s (by simp), h.only s (by simp), fun t ht => (List.pairwise_append.mp h.recent).2.2 t ht s (by simp)⟩

/-- A group, up to the seqs `w` above it. -/
theorem fed_stage (hw : Width N w) (hne : f.seq ≠ emptySeq) (hf : Fed N (clear N st0) hist st)
    (hg : Genuine w f (hist.map Prod.fst)) (halive : ∀ t ∈ hist.map Prod.fst, (seqOf t).toNat < f.seq.toNat + w) :
    Stage w f hist st := by
  induction hf with
  | start => exact .waits (clear_waits f hne st0)
  | @next hist st hf s o ho ih =>
    rw [List.map_append] at hg halive
    obtain ⟨hproper, honly, hrecent⟩ := hg.last
    have hslid := fed_slid hf hg.left.proper hg.left.recent
    exact ((ih hg.left fun t ht => halive t (List.mem_append_left _ ht)).step hslid hw hne honly hproper hrecent halive ho).1

/-- The group of the datagram that comes next: none so far is `w` seqs above it. -/
theorem Genuine.alive {ss : List Bytes} (hg : Genuine w f (ss ++ [s])) (hseq : seqOf s = f.seq) :
    ∀ t ∈ ss, (seqOf t).toNat < f.seq.toNat + w := fun t ht => hseq ▸ hg.last.2.2 t ht

/-- What a datagram of a group brings is the group decoded, and nothing came of it before. -/
theorem fed_once (hw : Width N w) (hne : f.seq ≠ emptySeq) (hf : Fed N (clear N st0) hist st)
    (hg : Genuine w f (hist.map Prod.fst ++ [s])) (hseq : seqOf s = f.seq) (ho : feedOne N st s = .ok o) :
    o.packets = none ∨ Quiet f.seq hist ∧ Decodes f s o := by
  obtain ⟨hproper, honly, hrecent⟩ := hg.last
  have halive : ∀ t ∈ hist.map Prod.fst ++ [s], (seqOf t).toNat < f.seq.toNat + w := by
    intro t ht
    rcases List.mem_append.mp ht with ht | ht
    · exact hg.alive hseq t ht
    · rw [List.mem_singleton.mp ht, hseq]
      exact Nat.lt_add_of_pos_right hw.pos
  have hslid := fed_slid hf hg.left.proper hg.left.recent
  have hstage := fed_stage hw hne hf hg.left (hg.alive hseq)
  exact (hstage.step hslid hw hne honly hproper hrecent halive ho).2 fun h hp => (seqOf_parse hp).symm.trans hseq

/-- A group that keeps its shards while it waits is still waiting, or was decoded. -/
theorem fed_decoded (hw : Width N w) (hne : f.seq ≠ emptySeq) (hf : Fed N (clear N st0) hist st)
    (hg : Genuine w f (hist.map Prod.fst)) (halive : ∀ t ∈ hist.map Prod.fst, (seqOf t).toNat < f.seq.toNat + w)
    (hspared : Spared f st0 hist) : Waits f hist st ∨ ∃ past e later, hist = past ++ e :: later ∧ Decodes f e.1 e.2 := by
  induction hf with
  | start => exact .inl (clear_waits f hne st0)
  | @next hist st hf s o ho ih =>
    rw [List.map_append] at hg halive
    obtain ⟨hproper, honly, hrecent⟩ := hg.last
    have hslid := fed_slid hf hg.left.proper hg.left.recent
    rcases ih hg.left (fun t ht => halive t (List.mem_append_left _ ht)) fun past e later st' he =>
        hspared past e (later ++ [(s, o)]) st' (by rw [he]; simp) with hwait | ⟨past, e, later, rfl, hdec⟩
    · rcases hwait.step hslid hw hne honly hproper hrecent (halive s (by simp)) ho with ⟨h, -⟩ | ⟨hev, -⟩ | ⟨-, hdec⟩
      · exact .inl h
      · exact absurd hev (hspared hist (s, o) [] st rfl hf hwait.tracks.waiting)
      · exact .inr ⟨hist, (s, o), [], rfl, hdec⟩
    · exact .inr ⟨past, e, later ++ [(s, o)], by simp, hdec⟩

/-- The ring does not come round to a group within `fec_buff_num` datagrams of its first. -/
theorem spared_of_span {before span : List (Bytes × FeedOut (FlatTables N))} (hp : Proper ((before ++ span).map Prod.fst))
    (hbefore : ∀ e ∈ before, seqOf e.1 ≠ f.seq) (hspan : span.length ≤ N.1) : Spared f st0 (before ++ span) := by
  intro past e later st hsplit hf _ hev
  obtain ⟨hu, hseq⟩ := hev.seq
  have hp' : Proper (past.map Prod.fst ++ []) := fun t ht => hp t (by
    rw [hsplit, List.map_append]
    exact List.mem_append_left _ (by simpa using ht))
  obtain ⟨-, hring⟩ := fed_linked hf (hp'.marked _)
  obtain ⟨a, s, o, b, h, rfl, hstored, -, hparse, hseq', -⟩ := hring _ (fed_ring hf (by simpa using hp')).1.index hu
  have hround := stores_of_round (clear_safe st0).index hf rfl hstored
  have hlen : stores ((s, o) :: b) ≤ b.length + 1 := List.length_filter_le _ _
  -- the shard in the slot came with the span
  have hin : before.length ≤ a.length := by
    by_contra hlt
    refine hbefore (s, o) ?_ ((seqOf_parse hparse).trans (hseq'.trans hseq))
    have hat : (before ++ span)[a.length]? = some (s, o) := by rw [hsplit]; simp
    rw [List.getElem?_append_left (by omega)] at hat
    exact List.mem_of_getElem? hat
  have htotal := congrArg List.length hsplit
  simp only [List.length_append, List.length_cons] at htotal
  omega

/-- A group with enough shards within `fec_buff_num` datagrams of its first is decoded. -/
theorem fed_hands (hw : Width N w) (hne : f.seq ≠ emptySeq) {before span after : List (Bytes × FeedOut (FlatTables N))}
    (hf : Fed N (clear N st0) (before ++ span ++ after) st) (hg : Genuine w f ((before ++ span ++ after).map Prod.fst))
    (hfirst : ∀ e ∈ before, seqOf e.1 ≠ f.seq) (hspan : span.length ≤ N.1)
    (henough : f.x ≤ (f.arrived ((before ++ span).map Prod.fst)).length) :
    ∃ e ∈ before ++ span ++ after, Decodes f e.1 e.2 := by
  have hnone : (f.arrived (before.map Prod.fst)).length < f.x := by
    rw [show f.arrived (before.map Prod.fst) = [] by
      apply List.eq_nil_iff_forall_not_mem.mpr
      intro i hi
      obtain ⟨t, ht, hseq⟩ := arrived_seen hi
      obtain ⟨e, he, rfl⟩ := List.mem_map.mp ht
      exact hfirst e he hseq]
    exact f.pos
  -- the datagram that brings the last shard needed
  obtain ⟨mid, e, rest, rfl, hlt, hx⟩ := @exists_crossing _ (fun l : List (Bytes × FeedOut (FlatTables N)) =>
    (f.arrived (l.map Prod.fst)).length) f.x before span hnone henough
  have hsplit : before ++ (mid ++ e :: rest) ++ after = (before ++ mid) ++ e :: (rest ++ after) := by simp
  rw [hsplit] at hf hg ⊢
  obtain ⟨st', hf', ho⟩ := hf.split rfl
  have hg' : Genuine w f ((before ++ mid ++ [e]).map Prod.fst) := by
    rw [show before ++ mid ++ e :: (rest ++ after) = (before ++ mid ++ [e]) ++ (rest ++ after) by simp, List.map_append] at hg
    exact hg.left
  have hseq : seqOf e.1 = f.seq := by
    by_contra hother
    have hsame := @arrived_other N f (before ++ mid) e.1 e.2 fun h hp hs => hother ((seqOf_parse hp).trans hs)
    rw [hsame] at hx
    omega
  have halive : ∀ t ∈ (before ++ mid ++ [e]).map Prod.fst, (seqOf t).toNat < f.seq.toNat + w := by
    intro t ht
    rw [List.map_append] at ht hg'
    rcases List.mem_append.mp ht with ht | ht
    · exact hg'.alive hseq t ht
    · rw [List.mem_singleton.mp ht, hseq]
      exact Nat.lt_add_of_pos_right hw.pos
  have hspared : Spared f st0 (before ++ mid ++ [e]) := by
    rw [List.append_assoc] at hg' ⊢
    exact spared_of_span hg'.proper hfirst (by simp at hspan ⊢; omega)
  rcases fed_decoded hw hne (hf'.next ho) hg' halive hspared with hwait | ⟨past, e', later, heq, hdec⟩
  · exact absurd hwait.tracks.waiting (Nat.not_lt.mpr hx)
  · refine ⟨e', ?_, hdec⟩
    have hmem : e' ∈ before ++ mid ++ [e] := by rw [heq]; simp
    rw [List.append_cons]
    exact List.mem_append_left _ hmem

/-- Its datagrams never find it with too few shards. -/
theorem Stage.enough (hs : Safe N st) (hne : f.seq ≠ emptySeq) (honly : f.Only s) (hown : Own f.seq s) (hlen : s.length + 100 < bufLen)
    (hstage : Stage w f hist st) : Enough N st s := by
  cases hstage with
  | waits hf => exact hf.tracks.enough hne hs honly hown hlen
  | spent hsp =>
    rcases hsp with hdone | ⟨hm, -⟩
    · -- its record takes no more
      intro h g hx
      rcases hx with ⟨ha, ⟨g', hacc, -⟩, -⟩
      rw [hown h ha.parse] at hacc
      unfold FecGroup.accept at hacc
      rw [if_pos hdone] at hacc
      cases hacc
    · exact enough_of_marks hm hown

/-- None of its datagrams stops the decoder. -/
theorem fed_returns (hw : Width N w) (hne : f.seq ≠ emptySeq) (hf : Fed N (clear N st0) hist st)
    (hg : Genuine w f (hist.map Prod.fst ++ [s])) (hseq : seqOf s = f.seq) (hlen : s.length + 100 < bufLen) :
    ∃ o, feedOne N st s = .ok o := by
  obtain ⟨hproper, honly, -⟩ := hg.last
  have hown : Own f.seq s := fun h hp => (seqOf_parse hp).symm.trans hseq
  have hsafe := (fed_ring hf hg.left.proper).1
  apply feedOne_run hsafe hlen (fun h ha e => absurd ((hown h ha.parse).symm.trans e) hne)
  exact (fed_stage hw hne hf hg.left (hg.alive hseq)).enough hsafe hne honly hown hlen

end FecDecodeManager

end UdpSpeeder.Manager
