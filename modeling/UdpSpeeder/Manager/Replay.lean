/-
  UdpSpeeder.Manager.Replay — the replay table over runs of `input` and `output` in any
  order.

  A slot of the table is the low bits of a seq, so it tells apart the seqs of any window no
  wider than the table (`InWindow.slot_inj`). Inside one, a seq once marked stays marked
  through completions, evictions and collisions in the group table (`input_keeps`); what was
  delivered or evicted is marked (`delivers_marks`, `evicts_marks`), and what is marked is
  not delivered.
-/

import UdpSpeeder.Manager.Ring

namespace UdpSpeeder.Manager

open Lib Fec

/-! ## Windows of seqs -/

/-- The `w` values from `base` on, modulo 2^32. -/
def InWindow (base : U32) (w : Nat) (seq : U32) : Prop := (seq - base).toNat < w

instance (base : U32) (w : Nat) (seq : U32) : Decidable (InWindow base w seq) := inferInstanceAs (Decidable (_ < _))

theorem InWindow.mono {base seq : U32} {v w : Nat} (h : InWindow base v seq) (hvw : v ≤ w) : InWindow base w seq :=
  Nat.lt_of_lt_of_le h hvw

theorem InWindow.mod {base seq : U32} {w k : Nat} (hk : k ≤ 32) (_ : InWindow base w seq) :
    seq.toNat % 2 ^ k = (base.toNat + (seq - base).toNat) % 2 ^ k := by
  have h : seq = base + (seq - base) := by rw [BitVec.add_comm]; exact (BitVec.sub_add_cancel seq base).symm
  have hn : seq.toNat = (base.toNat + (seq - base).toNat) % 2 ^ 32 := by
    rw [← BitVec.toNat_add, ← h]
  rw [hn, Nat.mod_mod_of_dvd _ (Nat.pow_dvd_pow 2 hk)]

/-- A table of `2 ^ k` slots tells the seqs of a window apart. -/
theorem InWindow.slot_inj {base a b : U32} {k : Nat} (hk : k ≤ 32) (ha : InWindow base (2 ^ k) a) (hb : InWindow base (2 ^ k) b)
    (h : a.toNat &&& (2 ^ k - 1) = b.toNat &&& (2 ^ k - 1)) : a = b := by
  rw [Nat.and_two_pow_sub_one_eq_mod, Nat.and_two_pow_sub_one_eq_mod, ha.mod hk, hb.mod hk] at h
  have h' : (a - base).toNat % 2 ^ k = (b - base).toNat % 2 ^ k := Nat.ModEq.add_left_cancel' base.toNat h
  rw [Nat.mod_eq_of_lt ha, Nat.mod_eq_of_lt hb] at h'
  have : a - base = b - base := BitVec.eq_of_toNat_eq h'
  rw [← BitVec.sub_add_cancel a base, this, BitVec.sub_add_cancel]

theorem replaySlot_inj {base a b : U32} (ha : InWindow base antiReplayTableSize a) (hb : InWindow base antiReplayTableSize b)
    (h : FlatTables.replaySlot a = FlatTables.replaySlot b) : a = b :=
  @InWindow.slot_inj base a b 15 (by decide) ha hb h

variable {N : FecBuffNum}

namespace FecDecodeManager

open DecodeState

/-! ## One call of `input` -/

/-- The replay table and the ring while every seq is in the window. -/
structure Windowed (N : FecBuffNum) (base : U32) (st : FecDecodeManager (FlatTables N)) : Prop where
  index : st.index < N.1
  ring : ∀ p < N.1, (st.fecData p).used = true → InWindow base antiReplayTableSize (st.fecData p).seq

/-- `seq` is marked as replayed. -/
def Marks (st : FecDecodeManager (FlatTables N)) (seq : U32) : Prop := st.tables.replay (FlatTables.replaySlot seq) = seq

theorem clear_windowed (base : U32) (st : FecDecodeManager (FlatTables N)) : Windowed N base (clear N st) := by
  refine ⟨by have := N.2; show 0 < N.1; omega, fun p hp hu => ?_⟩
  have : ((clear N st).fecData p).used = false := by
    show (if p < N.1 then { st.fecData p with used := false } else st.fecData p).used = false
    rw [if_pos hp]
  rw [this] at hu; cases hu

/-- Marking one seq of the window unmarks no other. -/
theorem upd_marks {base a seq : U32} {replay : Nat → U32} (ha : InWindow base antiReplayTableSize a)
    (hs : InWindow base antiReplayTableSize seq) (hm : replay (FlatTables.replaySlot seq) = seq) :
    upd replay (FlatTables.replaySlot a) a (FlatTables.replaySlot seq) = seq := by
  rw [upd_apply]
  split
  · rename_i e
    exact (replaySlot_inj hs ha e).symm
  · exact hm

theorem evict_marks {base seq a : U32} {t t' : FlatTables N} {d : DecodeState} {own : Bool} (he : evict d t a = (t', own))
    (hring : (d.fecData d.index).used = true → InWindow base antiReplayTableSize (d.fecData d.index).seq)
    (hs : InWindow base antiReplayTableSize seq) (hm : t.replay (FlatTables.replaySlot seq) = seq) :
    t'.replay (FlatTables.replaySlot seq) = seq := by
  rw [FlatTables.evict_eq] at he
  split at he
  · rename_i hu
    cases he
    rw [FlatTables.dropped_replay]
    exact upd_marks (hring hu) hs hm
  · cases he
    exact hm

/-- What a call of `input` does to the replay table. -/
theorem input_keeps {base seq : U32} {st : FecDecodeManager (FlatTables N)} {s : Bytes} {i : InputOut (FlatTables N)}
    (hw : Windowed N base st) (hi : input N st s = .ok i)
    (hin : ∀ h, Arrives st s h → InWindow base antiReplayTableSize h.seq)
    (hs : InWindow base antiReplayTableSize seq) (hm : Marks st seq) : Marks i.st seq := by
  rcases input_ok hi with ⟨e, -, -⟩ | ⟨h, p, ha, -, hp, hf⟩
  · rw [e]; exact hm
  have hfind := FlatTables.find_owner st.tables h.seq
  have hring := hw.ring st.index hw.index
  cases hp with
  | refused hf' hacc =>
    rw [hfind] at hf'
    cases hf'
    cases hf
    exact hm
  | self hf' hacc hev =>
    rw [hfind] at hf'
    cases hf'
    cases hf
    exact evict_marks hev hring hs hm
  | stored hf' hacc hev hindex hlen hg =>
    rw [hfind] at hf'
    cases hf'
    have ht := evict_marks hev hring hs hm
    cases hf with
    | @stored _ _ _ _ _ _ _ seen hc =>
      cases seen with
      | true => exact upd_marks (hin h ha) hs ht
      | false => exact ht

theorem input_windowed {base : U32} {st : FecDecodeManager (FlatTables N)} {s : Bytes} {i : InputOut (FlatTables N)}
    (hw : Windowed N base st) (hi : input N st s = .ok i)
    (hin : ∀ h, Arrives st s h → InWindow base antiReplayTableSize h.seq) : Windowed N base i.st := by
  rcases input_ok hi with ⟨e, -, -⟩ | ⟨h, p, ha, -, hp, hf⟩
  · rw [e]; exact hw
  cases hp with
  | refused hf' hacc => cases hf; exact ⟨hw.index, hw.ring⟩
  | self hf' hacc hev => cases hf; exact ⟨hw.index, hw.ring⟩
  | stored hf' hacc hev hindex hlen hg =>
    cases hf with
    | stored hc =>
      have hsame := (gather_sameRing hg).trans hc.sameRing
      refine ⟨?_, ?_⟩
      · simp only [hsame.index]
        show (if st.index + 1 = N.1 then 0 else st.index + 1) < N.1
        split <;> omega
      · intro p hp hu
        have h1 := hsame.used p
        have h2 := hsame.seq p
        simp only at hu ⊢
        rw [h1] at hu
        rw [h2]
        by_cases e : p = st.index
        · subst e
          rw [store_same]
          exact hin h ha
        · rw [store_other _ h e] at hu ⊢
          exact hw.ring p hp hu

/-! ## Delivery and eviction -/

/-- The call made the packets of a type 0 group of this seq available. -/
def Delivers (st : FecDecodeManager (FlatTables N)) (s : Bytes) (i : InputOut (FlatTables N)) (seq : U32) : Prop :=
  ∃ h, parseHeader s = some h ∧ h.type = 0 ∧ h.seq = seq ∧ st.readyForOutput = false ∧ i.st.readyForOutput = true

/-- The call found a stored shard of this seq in the slot of the ring it was to write. -/
def Evicts (st : FecDecodeManager (FlatTables N)) (s : Bytes) (seq : U32) : Prop :=
  ∃ h g, Arrives st s h ∧ (st.tables.owner h.seq).accept h = (g, true) ∧ (st.fecData st.index).used = true ∧
    (st.fecData st.index).seq = seq

/-- What is delivered was not marked, and is. -/
theorem delivers_marks {st : FecDecodeManager (FlatTables N)} {s : Bytes} {i : InputOut (FlatTables N)} {seq : U32}
    (hi : input N st s = .ok i) (hd : Delivers st s i seq) : ¬ Marks st seq ∧ Marks i.st seq := by
  obtain ⟨h', hparse, h0, rfl, hbefore, hafter⟩ := hd
  rcases input_ok hi with ⟨e, -, -⟩ | ⟨h, p, ha, -, hp, hf⟩
  · rw [e, hbefore] at hafter; cases hafter
  obtain rfl : h = h' := Option.some.inj (ha.parse.symm.trans hparse)
  refine ⟨(FlatTables.isValid_iff _ _).mp ha.valid, ?_⟩
  cases hp with
  | refused hf' hacc => cases hf; rw [hbefore] at hafter; cases hafter
  | self hf' hacc hev => cases hf; rw [hbefore] at hafter; cases hafter
  | stored hf' hacc hev hindex hlen hg =>
    have hready := (gather_ready hg).trans hbefore
    cases hf with
    | @stored _ _ _ _ _ _ _ seen hc =>
      cases hc with
      | waits hout hfast =>
        rcases fastSend_ok hfast with ⟨rfl, -⟩ | ⟨h1, -⟩
        · rw [hready] at hafter; cases hafter
        · omega
      | ends hend => rw [hready] at hafter; cases hafter
      | decodes hout hcall hdec => exact upd_same _ _ _

theorem evicts_marks {base seq : U32} {st : FecDecodeManager (FlatTables N)} {s : Bytes} {i : InputOut (FlatTables N)}
    (hw : Windowed N base st) (hi : input N st s = .ok i)
    (hin : ∀ h, Arrives st s h → InWindow base antiReplayTableSize h.seq) (he : Evicts st s seq) :
    InWindow base antiReplayTableSize seq ∧ Marks i.st seq := by
  obtain ⟨h', g, ha', hacc', hu, rfl⟩ := he
  have hs := hw.ring st.index hw.index hu
  refine ⟨hs, ?_⟩
  rcases input_ok hi with ⟨-, -, hno⟩ | ⟨h, p, ha, -, hp, hf⟩
  · exact absurd ha' (hno h')
  obtain rfl := ha.unique ha'
  have hfind := FlatTables.find_owner st.tables h.seq
  -- the tables after the eviction
  have hdrop : ∀ {t t' : FlatTables N} {own : Bool}, evict st.toDecodeState t h.seq = (t', own) →
      t'.replay (FlatTables.replaySlot (st.fecData st.index).seq) = (st.fecData st.index).seq := by
    intro t t' own hev
    rw [FlatTables.evict_eq, if_pos hu] at hev
    cases hev
    rw [FlatTables.dropped_replay]
    exact upd_same _ _ _
  cases hp with
  | refused hf' hacc =>
    rw [hfind] at hf'
    cases hf'
    rw [hacc] at hacc'
    cases hacc'
  | self hf' hacc hev =>
    cases hf
    exact hdrop hev
  | stored hf' hacc hev hindex hlen hg =>
    have ht := hdrop hev
    cases hf with
    | @stored _ _ _ _ _ _ _ seen hc =>
      cases seen with
      | true => exact upd_marks (hin h ha) hs ht
      | false => exact ht

/-! ## Runs -/

/-- A call of `input`, with the decoder before it and what it returned; or one of `output`. -/
inductive Move (N : FecBuffNum) where
  | input (st : FecDecodeManager (FlatTables N)) (s : Bytes) (i : InputOut (FlatTables N))
  | output

/-- Any calls of `input` and `output`, in any order. -/
inductive Ran (N : FecBuffNum) (st0 : FecDecodeManager (FlatTables N)) : List (Move N) → FecDecodeManager (FlatTables N) → Prop
  | start : Ran N st0 [] st0
  | input {moves : List (Move N)} {st : FecDecodeManager (FlatTables N)} (hr : Ran N st0 moves st) {s : Bytes}
      {i : InputOut (FlatTables N)} (hi : input N st s = .ok i) : Ran N st0 (moves ++ [.input st s i]) i.st
  | output {moves : List (Move N)} {st : FecDecodeManager (FlatTables N)} (hr : Ran N st0 moves st)
      {o : OutputOut (FlatTables N)} (ho : output st = .ok o) : Ran N st0 (moves ++ [.output]) o.st

namespace Move

/-- The move makes the type 0 packets of a seq available. -/
def delivers : Move N → U32 → Prop
  | .input st s i, seq => Delivers st s i seq
  | .output, _ => False

def evicts : Move N → U32 → Prop
  | .input st s _, seq => Evicts st s seq
  | .output, _ => False

/-- The seq of the datagram, if it has one, is in the window. -/
def inWindow (base : U32) : Move N → Prop
  | .input _ s _ => ∀ h, parseHeader s = some h → InWindow base antiReplayTableSize h.seq
  | .output => True

end Move

/-- Every seq delivered or evicted is marked at the end, and was not delivered again. -/
theorem ran_marks {base : U32} {st0 st : FecDecodeManager (FlatTables N)} {moves : List (Move N)}
    (hr : Ran N (clear N st0) moves st) (hw : ∀ m ∈ moves, m.inWindow base) :
    Windowed N base st ∧
      (∀ m ∈ moves, ∀ seq, m.delivers seq ∨ m.evicts seq → InWindow base antiReplayTableSize seq ∧ Marks st seq) ∧
      ∀ past m later seq, moves = past ++ m :: later → m.delivers seq ∨ m.evicts seq → ∀ m' ∈ later, ¬ m'.delivers seq := by
  induction hr with
  | start => exact ⟨clear_windowed base st0, fun m hm => (List.not_mem_nil hm).elim, fun past m later seq e => by simp at e⟩
  | @input moves st hr s i hi ih =>
    obtain ⟨hwin, hmarks, honce⟩ := ih fun m hm => hw m (List.mem_append_left _ hm)
    have hin : ∀ h, Arrives st s h → InWindow base antiReplayTableSize h.seq := fun h ha =>
      hw (.input st s i) (by simp) h ha.parse
    refine ⟨input_windowed hwin hi hin, ?_, ?_⟩
    · intro m hm seq hde
      rcases List.mem_append.mp hm with hm | hm
      · obtain ⟨hs, hk⟩ := hmarks m hm seq hde
        exact ⟨hs, input_keeps hwin hi hin hs hk⟩
      · rw [List.mem_singleton.mp hm] at hde
        rcases hde with hd | he
        · refine ⟨?_, (delivers_marks hi hd).2⟩
          obtain ⟨h, hparse, -, rfl, -⟩ := hd
          exact hw (.input st s i) (by simp) h hparse
        · exact evicts_marks hwin hi hin he
    · intro past m later seq e hde m' hm'
      rcases concat_split e with ⟨rfl, -, -⟩ | ⟨later', rfl, e'⟩
      · exact (List.not_mem_nil hm').elim
      · rcases List.mem_append.mp hm' with hm' | hm'
        · exact honce past m later' seq e' hde m' hm'
        · obtain rfl := List.mem_singleton.mp hm'
          exact fun hd => (delivers_marks hi hd).1 (hmarks m (by rw [e']; simp) seq hde).2
  | @output moves st hr o ho ih =>
    obtain ⟨hwin, hmarks, honce⟩ := ih fun m hm => hw m (List.mem_append_left _ hm)
    have hst := (output_ok ho).1
    refine ⟨by rw [hst]; exact ⟨hwin.index, hwin.ring⟩, ?_, ?_⟩
    · intro m hm seq hde
      rcases List.mem_append.mp hm with hm | hm
      · rw [hst]
        exact hmarks m hm seq hde
      · rw [List.mem_singleton.mp hm] at hde
        rcases hde with hd | hd <;> exact hd.elim
    · intro past m later seq e hde m' hm'
      rcases concat_split e with ⟨rfl, -, -⟩ | ⟨later', rfl, e'⟩
      · exact (List.not_mem_nil hm').elim
      · rcases List.mem_append.mp hm' with hm' | hm'
        · exact honce past m later' seq e' hde m' hm'
        · obtain rfl := List.mem_singleton.mp hm'
          exact id

/-- A type 0 group is made available at most once, and not after one of its shards was
    evicted, whatever the calls, as long as the seqs lie in a window of 32768. -/
theorem delivered_once (base : U32) (st0 st : FecDecodeManager (FlatTables N)) (moves : List (Move N))
    (hr : Ran N (clear N st0) moves st) (hw : ∀ m ∈ moves, m.inWindow base) (past later : List (Move N)) (m : Move N) (seq : U32)
    (he : moves = past ++ m :: later) (hm : m.delivers seq ∨ m.evicts seq) : ∀ m' ∈ later, ¬ m'.delivers seq :=
  (ran_marks hr hw).2.2 past m later seq he hm

/-- A group of one, replayed after its packet was taken. -/
theorem delivered_once_replay : ∃ i1 o i2,
    input leastNum leastDecoder (bytes [0, 0, 0, 7, 0, 1, 0, 0, 0, 0, 0, 1, 0, 1, 97]) = .ok i1 ∧ output i1.st = .ok o ∧
      input leastNum o.st (bytes [0, 0, 0, 7, 0, 1, 0, 0, 0, 0, 0, 1, 0, 1, 97]) = .ok i2 ∧
      Delivers leastDecoder (bytes [0, 0, 0, 7, 0, 1, 0, 0, 0, 0, 0, 1, 0, 1, 97]) i1 7 ∧
      ¬ Delivers o.st (bytes [0, 0, 0, 7, 0, 1, 0, 0, 0, 0, 0, 1, 0, 1, 97]) i2 7 := by
  have hrun : (match input leastNum leastDecoder (bytes [0, 0, 0, 7, 0, 1, 0, 0, 0, 0, 0, 1, 0, 1, 97]) with
    | .error _ => false
    | .ok i1 => i1.st.readyForOutput && match output i1.st with
      | .error _ => false
      | .ok o => (input leastNum o.st (bytes [0, 0, 0, 7, 0, 1, 0, 0, 0, 0, 0, 1, 0, 1, 97])).isOk) = true := by
    decide +kernel
  have hin : ∀ h, parseHeader (bytes [0, 0, 0, 7, 0, 1, 0, 0, 0, 0, 0, 1, 0, 1, 97]) = some h →
      InWindow 0 antiReplayTableSize h.seq := by
    intro h hp
    obtain ⟨-, rfl⟩ := Header.parseHeader_eq hp
    exact (by decide : InWindow 0 antiReplayTableSize (readU32 (mem (bytes [0, 0, 0, 7, 0, 1, 0, 0, 0, 0, 0, 1, 0, 1, 97])) 0))
  cases h1 : input leastNum leastDecoder (bytes [0, 0, 0, 7, 0, 1, 0, 0, 0, 0, 0, 1, 0, 1, 97]) with
  | error e => rw [h1] at hrun; cases hrun
  | ok i1 =>
    rw [h1] at hrun
    obtain ⟨hready, hrun⟩ := Bool.and_eq_true_iff.mp hrun
    cases h2 : output i1.st with
    | error e => rw [h2] at hrun; cases hrun
    | ok o =>
      rw [h2] at hrun
      simp only at hrun
      cases h3 : input leastNum o.st (bytes [0, 0, 0, 7, 0, 1, 0, 0, 0, 0, 0, 1, 0, 1, 97]) with
      | error e => rw [h3] at hrun; cases hrun
      | ok i2 =>
        have hd : Delivers leastDecoder (bytes [0, 0, 0, 7, 0, 1, 0, 0, 0, 0, 0, 1, 0, 1, 97]) i1 7 :=
          ⟨_, rfl, by decide, by decide, rfl, hready⟩
        refine ⟨i1, o, i2, rfl, h2, h3, hd, ?_⟩
        refine delivered_once 0 default _ _ (((Ran.start.input h1).output h2).input h3) (fun m hm => ?_) [] [_, _] _ 7 rfl
          (.inl hd) (.input o.st _ i2) (by simp)
        simp only [List.nil_append, List.cons_append, List.mem_cons, List.not_mem_nil, or_false] at hm
        rcases hm with rfl | rfl | rfl
        · exact hin
        · trivial
        · exact hin

end FecDecodeManager

end UdpSpeeder.Manager
