/-
  UdpSpeeder.Manager.Refine — the direct-mapped tables against maps.

  While all seqs lie in a window narrower than both tables that leaves 0xFFFFFFFF out, a
  slot belongs to one seq at most. `TablesSim` says then that the replay table and the set,
  and each slot and the map's entry, agree: an erased slot is one that names no seq of the
  window, and what a reused record keeps in `shard_idx` is behind bits that are not set
  (`Alike`). Every call keeps it and answers the same on both (`flat_refines_maps`).
-/

import UdpSpeeder.Lib.Simulate
import UdpSpeeder.Manager.Replay

namespace UdpSpeeder.Manager

open Lib Fec

variable {N : FecBuffNum}

/-! ## The size of the group table -/

theorem growTable_pow (want fuel j : Nat) : ∃ k, j ≤ k ∧ k ≤ j + fuel ∧ growTable want fuel (2 ^ j) = 2 ^ k := by
  induction fuel generalizing j with
  | zero => exact ⟨j, le_rfl, by omega, rfl⟩
  | succ fuel ih =>
    unfold growTable
    split
    · obtain ⟨k, h1, h2, h3⟩ := ih (j + 1)
      exact ⟨k, by omega, by omega, by rw [← Nat.pow_succ, h3]⟩
    · exact ⟨j, le_rfl, by omega, rfl⟩

theorem groupTableSize_pow (n : Nat) : ∃ k, k ≤ 32 ∧ groupTableSize n = 2 ^ k := by
  obtain ⟨k, -, hk, h⟩ := growTable_pow (n * 2) 32 0
  exact ⟨k, by omega, h⟩

theorem groupSlot_inj {base a b : U32} (ha : InWindow base (groupTableSize N.1) a)
    (hb : InWindow base (groupTableSize N.1) b) (h : FlatTables.groupSlot N a = FlatTables.groupSlot N b) : a = b := by
  obtain ⟨k, hk, hsize⟩ := groupTableSize_pow N.1
  unfold FlatTables.groupSlot at h
  rw [hsize] at ha hb h
  exact InWindow.slot_inj hk ha hb h

/-! ## Groups that cannot be told apart -/

/-- Equal but for what `shard_idx` holds where the bitmap is not set. -/
structure FecGroup.Alike (g g' : FecGroup) : Prop where
  fields : g' = { g with shardIdx := g'.shardIdx }
  idx : ∀ i, g.hasShard i = true → g'.shardIdx i = g.shardIdx i

namespace FecGroup.Alike

variable {g g' : FecGroup}

theorem seq (h : g.Alike g') : g'.seq = g.seq := by rw [h.fields]
theorem type (h : g.Alike g') : g'.type = g.type := by rw [h.fields]
theorem dataNum (h : g.Alike g') : g'.dataNum = g.dataNum := by rw [h.fields]
theorem redundantNum (h : g.Alike g') : g'.redundantNum = g.redundantNum := by rw [h.fields]
theorem len (h : g.Alike g') : g'.len = g.len := by rw [h.fields]
theorem shardCount (h : g.Alike g') : g'.shardCount = g.shardCount := by rw [h.fields]
theorem hasShard (h : g.Alike g') (i : Nat) : g'.hasShard i = g.hasShard i := by rw [h.fields]; rfl

theorem init (g : FecGroup) (seq : U32) : (g.init seq).Alike (MapTables.newGroup seq) := by
  refine ⟨rfl, fun i hi => ?_⟩
  rw [FecGroup.hasShard_init] at hi
  cases hi

/-- The checks of a group do not look at `shard_idx`. -/
theorem accept_shardIdx (g : FecGroup) (idx : Nat → Int) (hd : Header) : FecGroup.accept { g with shardIdx := idx } hd =
    ({ (g.accept hd).1 with shardIdx := idx }, (g.accept hd).2) := by
  have hs : FecGroup.hasShard { g with shardIdx := idx } hd.innerIndex = g.hasShard hd.innerIndex := rfl
  unfold FecGroup.accept
  simp only [hs]
  by_cases h1 : g.fecDone = true
  · rw [if_pos h1, if_pos h1]
  rw [if_neg h1, if_neg h1]
  by_cases h2 : g.hasShard hd.innerIndex = true
  · rw [if_pos h2, if_pos h2]
  rw [if_neg h2, if_neg h2]
  by_cases h3 : g.type ≠ -1 ∧ g.type ≠ hd.type
  · rw [if_pos h3, if_pos h3]
  rw [if_neg h3, if_neg h3]
  by_cases h5 : hd.dataNum = 0
  · rw [if_pos h5, if_pos h5]
    split <;> rfl
  rw [if_neg h5, if_neg h5]
  split <;> simp only
  all_goals
    split
    · rfl
    · split <;> rfl

theorem accept (h : g.Alike g') (hd : Header) :
    (g.accept hd).1.Alike (g'.accept hd).1 ∧ (g'.accept hd).2 = (g.accept hd).2 := by
  have hfr : (g.accept hd).1.seq = g.seq ∧ (g.accept hd).1.shardBitmap = g.shardBitmap ∧
      (g.accept hd).1.shardIdx = g.shardIdx := FecDecodeManager.accept_frame rfl
  have e : g'.accept hd = ({ (g.accept hd).1 with shardIdx := g'.shardIdx }, (g.accept hd).2) := by
    rw [← accept_shardIdx, ← h.fields]
  rw [e]
  refine ⟨⟨rfl, fun i hi => ?_⟩, rfl⟩
  show g'.shardIdx i = (g.accept hd).1.shardIdx i
  rw [hfr.2.2]
  exact h.idx i (by simp only [FecGroup.hasShard, hfr.2.1] at hi; exact hi)

theorem joined (h : g.Alike g') (hd : Header) (slot : Nat) : (g.joined hd slot).Alike (g'.joined hd slot) := by
  refine ⟨by rw [h.fields]; rfl, fun i hi => ?_⟩
  show (g'.setShard hd.innerIndex slot).shardIdx i = (g.setShard hd.innerIndex slot).shardIdx i
  rw [FecGroup.shardIdx_setShard, FecGroup.shardIdx_setShard]
  split
  · rfl
  · rename_i hne
    rw [FecGroup.hasShard_joined, decide_eq_false hne, Bool.false_or] at hi
    exact h.idx i hi

theorem done (h : g.Alike g') : FecGroup.Alike { g with fecDone := true } { g' with fecDone := true } :=
  ⟨by rw [h.fields], h.idx⟩

theorem outcome (h : g.Alike g') (hd : Header) : Manager.outcome g' hd = Manager.outcome g hd := by rw [h.fields]; rfl

theorem shardAt (h : g.Alike g') (i : Nat) : DecodeState.shardAt N g' i = DecodeState.shardAt N g i := by
  unfold DecodeState.shardAt
  rw [h.hasShard i]
  split
  · rename_i hs
    rw [h.idx i hs]
  · rfl

theorem gather (h : g.Alike g') (d : DecodeState) (hd : Header) : d.gather N g' hd = d.gather N g hd := by
  have hat : DecodeState.shardAt N g' = DecodeState.shardAt N g := funext h.shardAt
  have hblob : ∀ len, d.blobCall N g' len = d.blobCall N g len := by
    intro len
    unfold DecodeState.blobCall DecodeState.fecTmpArr DecodeState.codeDims
    rw [hat, h.dataNum, h.redundantNum]
  have hscan : DecodeState.scanShards N d g' = DecodeState.scanShards N d g := by
    unfold DecodeState.scanShards
    rw [hat, h.dataNum, h.redundantNum]
  have hpad : ∀ d' maxLen, DecodeState.padShards N d' g' maxLen = DecodeState.padShards N d' g maxLen := by
    intro d' maxLen
    unfold DecodeState.padShards
    rw [hat, h.dataNum, h.redundantNum]
  have hshards : DecodeState.shardsCall N d g' = DecodeState.shardsCall N d g := by
    unfold DecodeState.shardsCall DecodeState.codeDims
    rw [hscan, h.dataNum, h.redundantNum, h.len]
    simp only [hpad]
  unfold DecodeState.gather
  rw [h.outcome hd, hshards]
  simp only [hblob]

theorem conclude (h : g.Alike g') (d : DecodeState) (hd : Header) (call : Option DecodeCall) :
    Agree (fun a b => a.1 = b.1 ∧ a.2.1.Alike b.2.1 ∧ a.2.2 = b.2.2) (d.conclude g hd call) (d.conclude g' hd call) := by
  unfold DecodeState.conclude
  rw [h.outcome hd]
  cases Manager.outcome g hd with
  | giveUp => exact .ok ⟨rfl, h, rfl⟩
  | wait => exact (Agree.refl _ fun _ _ => rfl).bind fun a b (e : a = b) => .ok ⟨e, h, rfl⟩
  | complete =>
    cases call with
    | none => exact .ok ⟨rfl, h, rfl⟩
    | some c => exact (Agree.refl _ fun _ _ => rfl).bind fun a b (e : a = b) => .ok ⟨e, h.done, rfl⟩

end FecGroup.Alike

/-! ## The simulation -/

namespace FecDecodeManager

open DecodeState

/-- A slot and an entry of the map: the same group, or none of this seq in either. -/
def SlotSim (seq : U32) (slot : FecGroup) : Option FecGroup → Prop
  | none => slot.seq ≠ seq
  | some g => slot.seq = seq ∧ slot.Alike g

/-- The window: narrower than both tables, and without 0xFFFFFFFF. -/
structure Narrow (N : FecBuffNum) (base : U32) (w : Nat) : Prop where
  groups : w ≤ groupTableSize N.1
  replay : w ≤ antiReplayTableSize
  marker : ¬ InWindow base w emptySeq

structure TablesSim (base : U32) (w : Nat) (t : FlatTables N) (m : MapTables) : Prop where
  seen : ∀ seq, InWindow base w seq → (t.replay (FlatTables.replaySlot seq) = seq ↔ m.seen seq = true)
  groups : ∀ seq, InWindow base w seq → SlotSim seq (t.groups (FlatTables.groupSlot N seq)) (m.groups seq)

variable {base : U32} {w : Nat} {t : FlatTables N} {m : MapTables}

theorem TablesSim.valid (h : TablesSim base w t m) {seq : U32} (hs : InWindow base w seq) :
    isValid t seq = isValid m seq := by
  have := h.seen seq hs
  show decide (t.replay (FlatTables.replaySlot seq) ≠ seq) = !m.seen seq
  cases hm : m.seen seq <;> simp_all

theorem TablesSim.marked (hn : Narrow N base w) (h : TablesSim base w t m) {seq : U32} (hs : InWindow base w seq) :
    TablesSim base w (setInvaild t seq) (setInvaild m seq) := by
  refine ⟨fun s hw => ?_, h.groups⟩
  show upd t.replay (FlatTables.replaySlot seq) seq (FlatTables.replaySlot s) = s ↔
    (if s = seq then true else m.seen s) = true
  rw [upd_apply]
  by_cases e : s = seq
  · subst e; simp
  · have : FlatTables.replaySlot s ≠ FlatTables.replaySlot seq := fun h' =>
      e (replaySlot_inj (hw.mono hn.replay) (hs.mono hn.replay) h')
    rw [if_neg this, if_neg e]
    exact h.seen s hw

theorem TablesSim.put (hn : Narrow N base w) (h : TablesSim base w t m) {seq : U32} (hs : InWindow base w seq)
    {g g' : FecGroup} (hg : g.Alike g') (hseq : g.seq = seq) : TablesSim base w (groupPut t seq g) (groupPut m seq g') := by
  refine ⟨h.seen, fun s hw => ?_⟩
  show SlotSim s (upd t.groups (FlatTables.groupSlot N seq) g (FlatTables.groupSlot N s)) (if s = seq then some g' else m.groups s)
  rw [upd_apply]
  by_cases e : s = seq
  · subst e
    rw [if_pos rfl, if_pos rfl]
    exact ⟨hseq, hg⟩
  · have : FlatTables.groupSlot N s ≠ FlatTables.groupSlot N seq := fun h' =>
      e (groupSlot_inj (hw.mono hn.groups) (hs.mono hn.groups) h')
    rw [if_neg this, if_neg e]
    exact h.groups s hw

/-- Both look up, or make, groups that cannot be told apart. -/
theorem TablesSim.find (hn : Narrow N base w) (h : TablesSim base w t m) {seq : U32} (hs : InWindow base w seq) :
    TablesSim base w (groupFindOrCreate t seq).1 (groupFindOrCreate m seq).1 ∧
      (groupFindOrCreate t seq).2.Alike (groupFindOrCreate m seq).2 ∧ (groupFindOrCreate t seq).2.seq = seq := by
  rw [FlatTables.find_owner]
  have hslot := h.groups seq hs
  cases hm : m.groups seq with
  | none =>
    rw [hm] at hslot
    have ho : t.owner seq = (t.groups (FlatTables.groupSlot N seq)).init seq := if_neg hslot
    have hf : groupFindOrCreate m seq = (groupPut m seq (MapTables.newGroup seq), MapTables.newGroup seq) := by
      simp only [groupFindOrCreate, hm]
      rfl
    rw [hf, ho]
    exact ⟨h.put hn hs (.init _ _) rfl, .init _ _, rfl⟩
  | some g =>
    rw [hm] at hslot
    have ho : t.owner seq = t.groups (FlatTables.groupSlot N seq) := if_pos hslot.1
    have hf : groupFindOrCreate m seq = (m, g) := by
      simp only [groupFindOrCreate, hm]
    rw [hf, ho]
    refine ⟨?_, hslot.2, hslot.1⟩
    have : upd t.groups (FlatTables.groupSlot N seq) (t.groups (FlatTables.groupSlot N seq)) = t.groups := by
      funext i
      rw [upd_apply]
      split
      · rename_i e; rw [e]
      · rfl
    rw [this]
    exact h

theorem TablesSim.evicted (hn : Narrow N base w) (h : TablesSim base w t m) (d : DecodeState) (seq : U32)
    (hw : (d.fecData d.index).used = true → InWindow base w (d.fecData d.index).seq) :
    TablesSim base w (evict d t seq).1 (evict d m seq).1 ∧ (evict d t seq).2 = (evict d m seq).2 := by
  rw [FlatTables.evict_eq]
  unfold FecDecodeManager.evict
  split
  · rename_i hu
    have hs := hw hu
    generalize (d.fecData d.index).seq = a at hs ⊢
    refine ⟨?_, rfl⟩
    have hmark := h.marked hn hs
    -- erasing an entry that is not there changes nothing
    have he : (if (groupFind (setInvaild m a) a).isSome then groupErase (setInvaild m a) a else setInvaild m a) =
        groupErase (setInvaild m a) a := by
      split
      · rfl
      · rename_i hno
        have hnone : m.groups a = none := by simpa [groupFind, setInvaild] using hno
        show setInvaild m a = { setInvaild m a with groups := fun s => if s = a then none else m.groups s }
        have : (fun s => if s = a then none else m.groups s) = m.groups := by
          funext s
          split
          · rename_i e; rw [e, hnone]
          · rfl
        rw [this]
        rfl
    show TablesSim base w (t.dropped a)
      (if (groupFind (setInvaild m a) a).isSome then groupErase (setInvaild m a) a else setInvaild m a)
    rw [he]
    refine ⟨fun s hws => by rw [FlatTables.dropped_replay]; exact hmark.seen s hws, fun s hws => ?_⟩
    show SlotSim s ((FlatTables.dropped t a).groups (FlatTables.groupSlot N s)) (if s = a then none else m.groups s)
    rw [FlatTables.dropped_groups]
    by_cases e : s = a
    · subst e
      rw [if_pos rfl]
      split
      · exact fun (h' : emptySeq = s) => hn.marker (h' ▸ hws)
      · rename_i hne
        exact fun h' => hne ⟨rfl, h'⟩
    · have hslot : FlatTables.groupSlot N s ≠ FlatTables.groupSlot N a := fun h' =>
        e (groupSlot_inj (hws.mono hn.groups) (hs.mono hn.groups) h')
      rw [if_neg e, if_neg fun h' => hslot h'.1]
      exact h.groups s hws
  · exact ⟨h, rfl⟩

/-! ## One call -/

structure Sim (N : FecBuffNum) (base : U32) (w : Nat) (st : FecDecodeManager (FlatTables N)) (st' : FecDecodeManager MapTables) :
    Prop where
  state : st'.toDecodeState = st.toDecodeState
  tables : TablesSim base w st.tables st'.tables
  index : st.index < N.1
  ring : ∀ p < N.1, (st.fecData p).used = true → InWindow base w (st.fecData p).seq

/-- What `prepare` leaves on either side. -/
inductive PreparedSim (N : FecBuffNum) (base : U32) (w : Nat) : Prepared (FlatTables N) → Prepared MapTables → Prop
  | stop {st : FecDecodeManager (FlatTables N)} {st' : FecDecodeManager MapTables} (h : Sim N base w st st') (ret : Int) :
      PreparedSim N base w (.stop st ret) (.stop st' ret)
  | stored {t : FlatTables N} {m : MapTables} {d : DecodeState} {g g' : FecGroup} {h : Header} {call : Option DecodeCall}
      (ht : TablesSim base w t m) (hg : g.Alike g') (hseq : g.seq = h.seq) (hw : InWindow base w h.seq) (hindex : d.index < N.1)
      (hring : ∀ p < N.1, (d.fecData p).used = true → InWindow base w (d.fecData p).seq) :
      PreparedSim N base w (.stored t d g h call) (.stored m d g' h call)

theorem place_sim {st : FecDecodeManager (FlatTables N)} {st' : FecDecodeManager MapTables} {h : Header} (hn : Narrow N base w)
    (hs : Sim N base w st st') (hw : InWindow base w h.seq) : Agree (PreparedSim N base w) (place N st h) (place N st' h) := by
  obtain ⟨hstate, htables, hindex, hring⟩ := hs
  obtain ⟨hfind, hlike, hseq⟩ := htables.find hn hw
  obtain ⟨hacc, hok⟩ := hlike.accept h
  have hput := hfind.put hn hw hacc ((accept_frame rfl).1.trans hseq)
  unfold place
  simp only [hstate]
  refine Agree.seq _ ?_
  rw [hok]
  split
  · have hstop : Sim N base w ⟨st.toDecodeState, _⟩ ⟨st.toDecodeState, _⟩ := ⟨rfl, hput, hindex, hring⟩
    exact .ok (.stop hstop _)
  · refine Agree.seq _ ?_
    obtain ⟨htab, hown⟩ := hput.evicted hn st.toDecodeState h.seq fun hu => hring _ hindex hu
    rw [← hown]
    split
    · have hstop : Sim N base w ⟨st.toDecodeState, _⟩ ⟨st.toDecodeState, _⟩ := ⟨rfl, htab, hindex, hring⟩
      exact .ok (.stop hstop _)
    · refine Agree.seq _ (Agree.seq _ ?_)
      rw [(hacc.joined h st.index).gather]
      refine (@Agree.refl _ _ (fun a b => a = b ∧ DecodeState.gather N _ _ h = .ok a) _ fun a ha => ⟨rfl, ha⟩).bind ?_
      rintro ⟨d, call⟩ _ ⟨rfl, hg⟩
      have hsame := gather_sameRing hg
      refine .ok (.stored htab (hacc.joined h st.index) ((accept_frame rfl).1.trans hseq) hw ?_ fun p hp hu => ?_)
      · rw [hsame.index]; exact hindex
      · rw [hsame.used] at hu
        rw [hsame.seq]
        by_cases e : p = st.index
        · subst e
          rw [store_same]
          exact hw
        · rw [store_other _ h e] at hu ⊢
          exact hring p hp hu

theorem prepare_sim {st : FecDecodeManager (FlatTables N)} {st' : FecDecodeManager MapTables} {s : Bytes}
    (hn : Narrow N base w) (hs : Sim N base w st st') (hw : ∀ h, parseHeader s = some h → InWindow base w h.seq) :
    Agree (PreparedSim N base w) (prepare N st s) (prepare N st' s) := by
  unfold prepare
  refine Agree.seq _ ?_
  cases hp : parseHeader s with
  | none => exact .ok (.stop hs _)
  | some h =>
    simp only
    cases h.refused with
    | some r => exact .ok (.stop hs _)
    | none =>
      simp only
      rw [hs.tables.valid (hw h hp)]
      split
      · exact .ok (.stop hs _)
      · exact place_sim hn hs (hw h hp)

theorem input_sim {st : FecDecodeManager (FlatTables N)} {st' : FecDecodeManager MapTables} {s : Bytes}
    (hn : Narrow N base w) (hs : Sim N base w st st') (hw : ∀ h, parseHeader s = some h → InWindow base w h.seq) :
    Agree (fun a b => Sim N base w a.st b.st ∧ a.ret = b.ret) (input N st s) (input N st' s) := by
  unfold input
  refine (prepare_sim hn hs hw).bind fun p p' hp => ?_
  cases hp with
  | stop h ret => exact .ok ⟨h, rfl⟩
  | @stored t m d g g' h call ht hg hseq hwin hindex hring =>
    refine (hg.conclude d h call).left.bind ?_
    rintro ⟨d1, g1, seen⟩ ⟨_, g2, _⟩ ⟨hc, rfl, hlike, rfl⟩
    have hcon := conclude_ok hc
    have hsame := hcon.sameRing
    have hput := ht.put hn hwin hlike (by rw [hcon.group]; exact hseq)
    have htab : TablesSim base w (if seen then setInvaild (groupPut t h.seq g1) h.seq else groupPut t h.seq g1)
        (if seen then setInvaild (groupPut m h.seq g2) h.seq else groupPut m h.seq g2) := by
      cases seen with
      | true => exact hput.marked hn hwin
      | false => exact hput
    refine .ok ⟨⟨rfl, htab, ?_, fun p hp hu => ?_⟩, rfl⟩
    · simp only [hsame.index]
      split <;> omega
    · have h1 := hsame.used p
      have h2 := hsame.seq p
      simp only at hu ⊢
      rw [h1] at hu
      rw [h2]
      exact hring p hp hu

theorem output_sim {st : FecDecodeManager (FlatTables N)} {st' : FecDecodeManager MapTables} (hs : Sim N base w st st') :
    Agree (fun a b => Sim N base w a.st b.st ∧ a.n = b.n ∧ a.packets = b.packets) (output st) (output st') := by
  unfold output
  rw [hs.state]
  split
  · exact .ok ⟨hs, rfl, rfl⟩
  · exact (Agree.refl _ fun _ _ => rfl).bind fun a b (e : a = b) =>
      .ok ⟨⟨rfl, hs.tables, hs.index, hs.ring⟩, rfl, by rw [e]⟩

/-! ## Runs -/

inductive Command where
  | input (s : Bytes)
  | output

/-- What a call returns, and the packets it hands out. -/
inductive Answer where
  | input (ret : Int)
  | output (n : Int) (packets : Option (List Bytes))

/-- One call. -/
def call {T : Type} [DecodeTables T] (N : FecBuffNum) (st : FecDecodeManager T) :
    Command → Except Fault (FecDecodeManager T × Answer)
  | .input s => do
    let i ← input N st s
    .ok (i.st, .input i.ret)
  | .output => do
    let o ← output st
    .ok (o.st, .output o.n o.packets)

/-- The seq of the datagram, if it has one, is in the window. -/
def Command.inWindow (base : U32) (w : Nat) : Command → Prop
  | .input s => ∀ h, parseHeader s = some h → InWindow base w h.seq
  | .output => True

theorem call_sim {st : FecDecodeManager (FlatTables N)} {st' : FecDecodeManager MapTables} {c : Command} (hn : Narrow N base w)
    (hs : Sim N base w st st') (hc : c.inWindow base w) :
    Agree (fun a b => Sim N base w a.1 b.1 ∧ a.2 = b.2) (call N st c) (call N st' c) := by
  cases c with
  | input s => exact (input_sim hn hs hc).bind fun a b h => .ok ⟨h.1, by rw [h.2]⟩
  | output => exact (output_sim hs).bind fun a b h => .ok ⟨h.1, by rw [h.2.1, h.2.2]⟩

theorem clear_sim (hn : Narrow N base w) {st : FecDecodeManager (FlatTables N)} {st' : FecDecodeManager MapTables}
    (h : st'.toDecodeState = st.toDecodeState) : Sim N base w (clear N st) (clear N st') := by
  refine ⟨?_,
    ⟨fun seq hw => iff_of_false (fun (e : emptySeq = seq) => hn.marker (e ▸ hw)) Bool.false_ne_true, fun seq hw (e : emptySeq = seq) => hn.marker (e ▸ hw)⟩,
    by have := N.2; show 0 < N.1; omega, ?_⟩
  · unfold clear
    simp only [h]
  · intro p hp hu
    have : ((clear N st).fecData p).used = false := by
      show (if p < N.1 then { st.fecData p with used := false } else st.fecData p).used = false
      rw [if_pos hp]
    rw [this] at hu; cases hu

/-- From `clear`, on datagrams whose seqs lie in a narrow window, the tables of the code give
    the same answer to every call as maps do, and stop at the same call for the same reason. -/
theorem flat_refines_maps (base : U32) (w : Nat) (hn : w < min (groupTableSize N.1) antiReplayTableSize)
    (hm : ¬ InWindow base w emptySeq) (st : FecDecodeManager (FlatTables N)) (st' : FecDecodeManager MapTables)
    (hst : st'.toDecodeState = st.toDecodeState) (cs : List Command) (hcs : ∀ c ∈ cs, c.inWindow base w) :
    trace (call N) (clear N st) cs = trace (call N) (clear N st') cs := by
  have hnarrow : Narrow N base w := ⟨by omega, by omega, hm⟩
  have hstep : ∀ (s : FecDecodeManager (FlatTables N)) (t : FecDecodeManager MapTables) (c : Command), Sim N base w s t →
      c.inWindow base w → Agree (fun a b => Sim N base w a.1 b.1 ∧ a.2 = b.2) (call N s c) (call N t c) :=
    fun _ _ _ hs hc => call_sim hnarrow hs hc
  exact trace_eq hstep (clear_sim hnarrow hst) hcs

/-- A group of one, twice, drained after each. -/
theorem flat_refines_maps_replay : trace (call leastNum) leastDecoder
      [.input (bytes [0, 0, 0, 7, 0, 1, 0, 0, 0, 0, 0, 1, 0, 1, 97]), .output,
        .input (bytes [0, 0, 0, 7, 0, 1, 0, 0, 0, 0, 0, 1, 0, 1, 97]), .output] =
    trace (call leastNum) (clear leastNum (default : FecDecodeManager MapTables))
      [.input (bytes [0, 0, 0, 7, 0, 1, 0, 0, 0, 0, 0, 1, 0, 1, 97]), .output,
        .input (bytes [0, 0, 0, 7, 0, 1, 0, 0, 0, 0, 0, 1, 0, 1, 97]), .output] := by
  refine flat_refines_maps 0 1000 (by decide) (by decide) default default rfl _ fun c hc => ?_
  have hin : Command.inWindow 0 1000 (.input (bytes [0, 0, 0, 7, 0, 1, 0, 0, 0, 0, 0, 1, 0, 1, 97])) := by
    intro h hp
    obtain ⟨-, rfl⟩ := Header.parseHeader_eq hp
    exact (by decide : InWindow 0 1000 (readU32 (mem (bytes [0, 0, 0, 7, 0, 1, 0, 0, 0, 0, 0, 1, 0, 1, 97])) 0))
  simp only [List.mem_cons, List.not_mem_nil, or_false] at hc
  rcases hc with rfl | rfl | rfl | rfl
  · exact hin
  · trivial
  · exact hin
  · trivial

end FecDecodeManager

end UdpSpeeder.Manager
