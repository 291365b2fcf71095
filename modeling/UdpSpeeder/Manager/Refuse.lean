/-
  UdpSpeeder.Manager.Refuse — a datagram the decoder refuses leaves nothing behind.

  `input` writes as it checks: the lookup may take another group's slot over, and the type is
  set before the dimensions are compared. A record just taken over is refused nothing
  (`init_accepts`), and a record the table owns has its type already (`Typed`), so neither
  write is ever followed by a refusal.
-/

import UdpSpeeder.Manager.Replay

namespace UdpSpeeder.Manager

open Lib Fec

variable {N : FecBuffNum}

/-! ## Groups in the table have a type -/

namespace FlatTables

/-- A slot as the memory was, no datagram put in it: empty, and its record without a type. -/
def Blank (g : FecGroup) : Prop := g.seq = emptySeq ∧ g.type = -1

/-- A record without a type is in a blank slot. -/
def Typed (t : FlatTables N) : Prop := ∀ i, (t.groups i).type = -1 → Blank (t.groups i)

theorem clear_typed (t : FlatTables N) : Typed (DecodeTables.clear t) := fun _ ht => ⟨rfl, ht⟩

theorem Typed.put {t : FlatTables N} (ht : t.Typed) {g : FecGroup} (hg : g.type ≠ -1) (seq : U32) : (groupPut t seq g).Typed := by
  intro i hi
  rw [groupPut_groups, upd_apply] at hi ⊢
  split at hi
  · exact absurd hi hg
  · rename_i hne
    rw [if_neg hne]
    exact ht i hi

theorem Typed.dropped {t : FlatTables N} (ht : t.Typed) (seq : U32) : (t.dropped seq).Typed := by
  intro i hi
  rw [dropped_groups] at hi ⊢
  split at hi
  · rename_i h
    rw [if_pos h]
    exact ⟨rfl, hi⟩
  · rename_i h
    rw [if_neg h]
    exact ht i hi

theorem Typed.evict {t t' : FlatTables N} {d : DecodeState} {seq : U32} {own : Bool} (ht : t.Typed)
    (he : FecDecodeManager.evict d t seq = (t', own)) : t'.Typed := by
  rw [evict_eq] at he
  split at he
  · cases he
    exact ht.dropped _
  · cases he
    exact ht

end FlatTables

/-! ## What a refusal writes -/

namespace FecGroup

/-- A record just made accepts whatever passed the entry checks. -/
theorem init_accepts (g : FecGroup) (h : Header) : ∃ g', (g.init h.seq).accept h = (g', true) := by
  unfold accept
  rw [if_neg (by simp [init]), if_neg (by simp), if_neg (by simp [init])]
  simp only [show (g.init h.seq).type = -1 from rfl, if_true]
  split
  · exact ⟨_, rfl⟩
  · rw [if_pos (show (g.init h.seq).dataNum = -1 from rfl)]
    exact ⟨_, rfl⟩

theorem Accepted.typed {g g' : FecGroup} {h : Header} (ha : Accepted g g' h) : g'.type ≠ -1 := by
  have := ha.type
  omega

end FecGroup

namespace FlatTables

/-- A record is written over whatever the lookup left in its slot. -/
theorem groupPut_find (t : FlatTables N) (seq : U32) (g g' : FecGroup) :
    groupPut { t with groups := upd t.groups (groupSlot N seq) g } seq g' = groupPut t seq g' :=
  congrArg (FlatTables.mk _) (upd_upd _ _ _ _)

/-- The group that refuses a datagram was there before it, and stays as it was; but for a
    blank slot, which only 0xFFFFFFFF finds. -/
theorem Typed.refused {t : FlatTables N} (ht : t.Typed) {h : Header} {g : FecGroup} (hacc : (t.owner h.seq).accept h = (g, false)) :
    groupPut t h.seq g = t ∨
      h.seq = emptySeq ∧ Blank (t.groups (groupSlot N h.seq)) ∧ g.seq = emptySeq := by
  unfold owner at hacc
  split at hacc
  · rename_i hown
    rcases FecGroup.accept_refused hacc with rfl | ⟨htype, -, rfl⟩
    · exact .inl (congrArg (FlatTables.mk _) (upd_self _ _))
    · have hb := ht _ htype
      exact .inr ⟨hown.symm.trans hb.1, hb, hb.1⟩
  · obtain ⟨g', hok⟩ := FecGroup.init_accepts (t.groups (groupSlot N h.seq)) h
    rw [hok] at hacc
    cases hacc

end FlatTables

/-! ## Runs -/

namespace FecDecodeManager

theorem input_typed {st : FecDecodeManager (FlatTables N)} {s : Bytes} {i : InputOut (FlatTables N)} (ht : st.tables.Typed)
    (hi : input N st s = .ok i) : i.st.tables.Typed := by
  rcases input_ok hi with ⟨e, -, -⟩ | ⟨h, p, ha, -, hp, hf⟩
  · rw [e]; exact ht
  have hfind := FlatTables.find_owner st.tables h.seq
  cases hp with
  | refused hf' hacc =>
    rw [hfind] at hf'
    cases hf'
    cases hf
    simp only [FlatTables.groupPut_find]
    rcases ht.refused hacc with hsame | ⟨-, -, hseq⟩
    · rw [hsame]
      exact ht
    · intro j hj
      rw [FlatTables.groupPut_groups, upd_apply] at hj ⊢
      split
      · rename_i e
        rw [if_pos e] at hj
        exact ⟨hseq, hj⟩
      · rename_i hne
        rw [if_neg hne] at hj
        exact ht j hj
  | self hf' hacc hev =>
    rw [hfind] at hf'
    cases hf'
    cases hf
    rw [FlatTables.groupPut_find] at hev
    exact (ht.put ((FecGroup.accept_ok hacc).typed) h.seq).evict hev
  | stored hf' hacc hev hindex hlen hg =>
    rw [hfind] at hf'
    cases hf'
    rw [FlatTables.groupPut_find] at hev
    have htype := (FecGroup.accept_ok hacc).typed
    cases hf with
    | @stored _ _ _ _ g' _ _ seen hc =>
      have hg' : g'.type ≠ -1 := by
        rw [hc.group]
        exact htype
      have hall := ((ht.put htype h.seq).evict hev).put hg' h.seq
      cases seen with
      | true => exact hall
      | false => exact hall

theorem ran_typed {st0 st : FecDecodeManager (FlatTables N)} {moves : List (Move N)} (hr : Ran N (clear N st0) moves st) :
    st.tables.Typed := by
  induction hr with
  | start => exact FlatTables.clear_typed st0.tables
  | input hr hi ih => exact input_typed ih hi
  | output hr ho ih =>
    rw [(output_ok ho).1]
    exact ih

/-- What a later call can tell: the ring and everything else but the tables, the replay
    table, every group some datagram was put in, and which slots are empty. -/
structure Unchanged (st st' : FecDecodeManager (FlatTables N)) : Prop where
  rest : st'.toDecodeState = st.toDecodeState
  replay : st'.tables.replay = st.tables.replay
  groups : ∀ i, ¬ FlatTables.Blank (st.tables.groups i) → st'.tables.groups i = st.tables.groups i
  seq : ∀ i, (st'.tables.groups i).seq = (st.tables.groups i).seq

theorem Unchanged.refl (st : FecDecodeManager (FlatTables N)) : Unchanged st st := ⟨rfl, rfl, fun _ _ => rfl, fun _ => rfl⟩

/-- The replay table refuses the seq of the datagram. -/
def Replayed (st : FecDecodeManager (FlatTables N)) (s : Bytes) : Prop :=
  ∃ h, parseHeader s = some h ∧ isValid st.tables h.seq = false

/-- A datagram for which `input` returns -1, or that the replay table refuses, changes
    nothing, in any run over any memory, unless it finds a shard of its own seq in the slot of
    the ring it was to write. Only 0xFFFFFFFF can leave a trace, in a blank slot. -/
theorem refused_unchanged (st0 st : FecDecodeManager (FlatTables N)) (moves : List (Move N)) (hr : Ran N (clear N st0) moves st)
    (s : Bytes) (i : InputOut (FlatTables N)) (hi : input N st s = .ok i) (href : i.ret = -1 ∨ Replayed st s)
    (hself : ¬ Evicts st s (readU32 (mem s) 0)) :
    Unchanged st i.st ∧ (readU32 (mem s) 0 ≠ emptySeq → i.st = st) := by
  rcases input_ok hi with ⟨e, -, -⟩ | ⟨h, p, ha, -, hp, hf⟩
  · rw [e]
    exact ⟨.refl st, fun _ => rfl⟩
  have hret : i.ret = -1 := by
    refine href.resolve_right ?_
    rintro ⟨h', hparse, hv⟩
    obtain rfl := Option.some.inj (hparse.symm.trans ha.parse)
    rw [ha.valid] at hv
    cases hv
  have hseq : h.seq = readU32 (mem s) 0 := by
    obtain ⟨-, rfl⟩ := Header.parseHeader_eq ha.parse
    rfl
  rw [← hseq] at hself ⊢
  have hfind := FlatTables.find_owner st.tables h.seq
  cases hp with
  | refused hf' hacc =>
    rw [hfind] at hf'
    cases hf'
    cases hf
    simp only [FlatTables.groupPut_find]
    rcases (ran_typed hr).refused hacc with hsame | ⟨he, hb, hg⟩
    · rw [hsame]
      exact ⟨.refl st, fun _ => rfl⟩
    · refine ⟨⟨rfl, rfl, fun j hj => ?_, fun j => ?_⟩, fun hne => absurd he hne⟩
      · simp only [FlatTables.groupPut_groups]
        rw [upd_ne]
        rintro rfl
        exact hj hb
      · simp only [FlatTables.groupPut_groups, upd_apply]
        split
        · rename_i e
          rw [e, hg, hb.1]
        · rfl
  | self hf' hacc hev =>
    rw [hfind] at hf'
    cases hf'
    rw [FlatTables.evict_eq] at hev
    split at hev
    · rename_i hu
      rw [Prod.mk.injEq, decide_eq_true_iff] at hev
      exact absurd ⟨h, _, ha, hacc, hu, hev.2⟩ hself
    · cases hev
  | stored hf' hacc hev hindex hlen hg =>
    cases hf
    cases hret

/-- A shard that comes twice. -/
theorem refused_unchanged_twice : ∃ i1 i2, input leastNum leastDecoder (bytes [0, 0, 0, 7, 0, 2, 1, 0, 9]) = .ok i1 ∧
    input leastNum i1.st (bytes [0, 0, 0, 7, 0, 2, 1, 0, 9]) = .ok i2 ∧ i2.ret = -1 ∧ i2.st = i1.st := by
  have hrun : (match input leastNum leastDecoder (bytes [0, 0, 0, 7, 0, 2, 1, 0, 9]) with
    | .error _ => false
    | .ok i1 => !(i1.st.fecData i1.st.index).used &&
      match input leastNum i1.st (bytes [0, 0, 0, 7, 0, 2, 1, 0, 9]) with
      | .error _ => false
      | .ok i2 => decide (i2.ret = -1)) = true := by
    decide +kernel
  cases h1 : input leastNum leastDecoder (bytes [0, 0, 0, 7, 0, 2, 1, 0, 9]) with
  | error e => rw [h1] at hrun; cases hrun
  | ok i1 =>
    rw [h1] at hrun
    obtain ⟨hunused, hrun⟩ := Bool.and_eq_true_iff.mp hrun
    cases h2 : input leastNum i1.st (bytes [0, 0, 0, 7, 0, 2, 1, 0, 9]) with
    | error e => rw [h2] at hrun; cases hrun
    | ok i2 =>
      rw [h2] at hrun
      have hret := of_decide_eq_true hrun
      refine ⟨i1, i2, rfl, h2, hret, (refused_unchanged default i1.st _ (Ran.start.input h1) _ i2 h2 (.inl hret) ?_).2 (by decide)⟩
      rintro ⟨-, -, -, -, hused, -⟩
      rw [hused] at hunused
      cases hunused

end FecDecodeManager

end UdpSpeeder.Manager
