/-
  UdpSpeeder.Manager.Touch — what one datagram does to the entries of another seq, and to the
  age of the ring, with no window for the seqs the ring still holds.

  A call writes the record and the mark of its own seq, and drops the group of at most one
  shard it evicts (`feedOne_wrote`). So the entries of `S` change only through its own
  datagrams, an eviction of its own, or a seq that shares its slot.
-/

import UdpSpeeder.Manager.Deliver
import UdpSpeeder.Manager.Refuse

namespace UdpSpeeder.Manager

open Lib Fec

variable {N : FecBuffNum}

namespace FecDecodeManager

open DecodeState

/-! ## The tables -/

/-- Writes to the record and the mark of `a`. -/
inductive Wrote (a : U32) (t : FlatTables N) : FlatTables N → Prop
  | same : Wrote a t t
  | put {t' : FlatTables N} {g : FecGroup} (h : Wrote a t t') (hg : g.seq = a) : Wrote a t (groupPut t' a g)
  | mark {t' : FlatTables N} (h : Wrote a t t') : Wrote a t (setInvaild t' a)

section Wrote

variable {a e S : U32} {t t' : FlatTables N}

theorem Wrote.unmarked (h : Wrote a t t') (hne : a ≠ S) (hm : t'.replay (FlatTables.replaySlot S) = S) :
    t.replay (FlatTables.replaySlot S) = S := by
  induction h with
  | same => exact hm
  | put h hg ih => exact ih hm
  | mark h ih =>
    rw [FlatTables.setInvaild_replay, upd_apply] at hm
    split at hm
    · exact absurd hm hne
    · exact ih hm

theorem Wrote.marked (h : Wrote a t t') (hslot : a = S ∨ FlatTables.replaySlot a ≠ FlatTables.replaySlot S)
    (hm : t.replay (FlatTables.replaySlot S) = S) : t'.replay (FlatTables.replaySlot S) = S := by
  induction h with
  | same => exact hm
  | put h hg ih => exact ih
  | mark h ih =>
    rw [FlatTables.setInvaild_replay, upd_apply]
    split
    · rename_i hs
      exact hslot.resolve_right fun hne => hne hs.symm
    · exact ih

theorem Wrote.group (h : Wrote a t t') (hslot : FlatTables.groupSlot N a ≠ FlatTables.groupSlot N S) :
    t'.groups (FlatTables.groupSlot N S) = t.groups (FlatTables.groupSlot N S) := by
  induction h with
  | same => rfl
  | put h hg ih => rw [FlatTables.groupPut_groups, upd_ne _ _ hslot.symm, ih]
  | mark h ih => rw [FlatTables.setInvaild_groups, ih]

/-- A slot that is not `S`'s does not become it. -/
theorem Wrote.absent (h : Wrote a t t') (hne : a ≠ S) (habs : (t.groups (FlatTables.groupSlot N S)).seq ≠ S) :
    (t'.groups (FlatTables.groupSlot N S)).seq ≠ S := by
  induction h with
  | same => exact habs
  | put h hg ih =>
    rw [FlatTables.groupPut_groups, upd_apply]
    split
    · rwa [hg]
    · exact ih
  | mark h ih => exact ih

theorem dropped_owner (hS : S ≠ emptySeq) (hne : e ≠ S) : (t.dropped e).owner S = t.owner S := by
  unfold FlatTables.owner
  rw [FlatTables.dropped_groups]
  split
  · rename_i h
    -- erased, but it was not the group of `S` before either
    rw [if_neg (show emptySeq ≠ S from hS.symm), if_neg (by rw [h.2]; exact hne)]
    rfl
  · rfl

theorem dropped_absent (hS : S ≠ emptySeq) (habs : (t.groups (FlatTables.groupSlot N S)).seq ≠ S) :
    ((t.dropped e).groups (FlatTables.groupSlot N S)).seq ≠ S := by
  rw [FlatTables.dropped_groups]
  split
  · exact hS.symm
  · exact habs

end Wrote

/-! ## One call -/

variable {st : FecDecodeManager (FlatTables N)} {s : Bytes} {o : FeedOut (FlatTables N)} {h : Header} {S : U32}

theorem Evicts.seq {e : U32} (he : Evicts st s e) : (st.fecData st.index).used = true ∧ (st.fecData st.index).seq = e := by
  obtain ⟨-, -, -, -, hu, hseq⟩ := he
  exact ⟨hu, hseq⟩

/-- What an arriving datagram writes: its own entries, then perhaps those of the shard it
    evicts, then its own again. -/
theorem feedOne_wrote (ha : Arrives st s h) (ho : feedOne N st s = .ok o) : ∃ t, Wrote h.seq st.tables t ∧
    ((∀ e, ¬ Evicts st s e) ∧ Wrote h.seq t o.st.tables ∨ ∃ e, Evicts st s e ∧ Wrote h.seq (t.dropped e) o.st.tables) := by
  obtain ⟨i, out, hi, hout, rfl⟩ := feedOne_ok ho
  have hst := (output_ok hout).1
  simp only [hst]
  rcases input_ok hi with ⟨-, -, hno⟩ | ⟨h', p, ha', -, hp, hf⟩
  · exact absurd ha (hno h)
  obtain rfl := ha.unique ha'
  have hfind := FlatTables.find_owner st.tables h.seq
  have hseq : ∀ {g : FecGroup} {ok : Bool}, (st.tables.owner h.seq).accept h = (g, ok) → g.seq = h.seq := fun hacc =>
    (accept_frame hacc).1.trans (FlatTables.owner_seq _ _)
  cases hp with
  | refused hf' hacc =>
    rw [hfind] at hf'
    cases hf'
    cases hf
    simp only [FlatTables.groupPut_find]
    refine ⟨_, .put .same (hseq hacc), .inl ⟨?_, .same⟩⟩
    intro e he
    obtain ⟨h', g, ha', hacc', -⟩ := he
    obtain rfl := ha.unique ha'
    rw [hacc] at hacc'
    cases hacc'
  | self hf' hacc hev =>
    rw [hfind] at hf'
    cases hf'
    cases hf
    rw [FlatTables.groupPut_find, FlatTables.evict_eq] at hev
    split at hev
    · rename_i hu
      obtain ⟨rfl, -⟩ := Prod.mk.inj hev
      exact ⟨_, .put .same (hseq hacc), .inr ⟨_, ⟨h, _, ha, hacc, hu, rfl⟩, .same⟩⟩
    · cases hev
  | @stored t0 t1 g0 g1 d call hf' hacc hev hindex hlen hg =>
    rw [hfind] at hf'
    cases hf'
    rw [FlatTables.groupPut_find, FlatTables.evict_eq] at hev
    cases hf with
    | @stored _ _ _ _ g' _ _ seen hc =>
      have hback : g'.seq = h.seq := by
        rw [hc.group]
        show g1.seq = h.seq
        exact hseq hacc
      have hlast : ∀ {t : FlatTables N}, Wrote h.seq t t1 →
          Wrote h.seq t (if seen then setInvaild (groupPut t1 h.seq g') h.seq else groupPut t1 h.seq g') := by
        intro t hw
        cases seen with
        | true => exact (hw.put hback).mark
        | false => exact hw.put hback
      split at hev
      · rename_i hu
        obtain ⟨rfl, -⟩ := Prod.mk.inj hev
        exact ⟨_, .put .same (hseq hacc), .inr ⟨_, ⟨h, _, ha, hacc, hu, rfl⟩, hlast .same⟩⟩
      · rename_i hu
        obtain ⟨rfl, -⟩ := Prod.mk.inj hev
        exact ⟨_, .put .same (hseq hacc), .inl ⟨fun e he => hu he.seq.1, hlast .same⟩⟩

theorem feedOne_unmarked (ha : Arrives st s h) (ho : feedOne N st s = .ok o) (hne : h.seq ≠ S) (hfree : ¬ Evicts st s S)
    (hm : Marks o.st S) : Marks st S := by
  obtain ⟨t, hw, ⟨-, hw'⟩ | ⟨e, he, hw'⟩⟩ := feedOne_wrote ha ho
  · exact hw.unmarked hne (hw'.unmarked hne hm)
  · have hdrop := hw'.unmarked hne hm
    rw [FlatTables.dropped_replay, upd_apply] at hdrop
    split at hdrop
    · exact absurd (hdrop ▸ he) hfree
    · exact hw.unmarked hne hdrop

theorem feedOne_marked (ha : Arrives st s h) (ho : feedOne N st s = .ok o)
    (hslot : h.seq = S ∨ FlatTables.replaySlot h.seq ≠ FlatTables.replaySlot S)
    (hev : ∀ e, Evicts st s e → e = S ∨ FlatTables.replaySlot e ≠ FlatTables.replaySlot S) (hm : Marks st S) : Marks o.st S := by
  obtain ⟨t, hw, ⟨-, hw'⟩ | ⟨e, he, hw'⟩⟩ := feedOne_wrote ha ho
  · exact hw'.marked hslot (hw.marked hslot hm)
  · apply hw'.marked hslot
    rw [FlatTables.dropped_replay, upd_apply]
    split
    · rename_i hs
      exact (hev e he).resolve_right fun hne => hne hs.symm
    · exact hw.marked hslot hm

/-- An eviction marks the seq of the shard. -/
theorem Evicts.marks (ho : feedOne N st s = .ok o) (he : Evicts st s S)
    (hslot : ∀ h, Arrives st s h → h.seq = S ∨ FlatTables.replaySlot h.seq ≠ FlatTables.replaySlot S) : Marks o.st S := by
  obtain ⟨h, g, ha, -⟩ := id he
  obtain ⟨t, hw, ⟨hno, -⟩ | ⟨e, he', hw'⟩⟩ := feedOne_wrote ha ho
  · exact absurd he (hno S)
  · obtain rfl : e = S := he'.seq.2.symm.trans he.seq.2
    apply hw'.marked (hslot h ha)
    rw [FlatTables.dropped_replay, upd_same]

theorem feedOne_owner (ha : Arrives st s h) (ho : feedOne N st s = .ok o) (hS : S ≠ emptySeq)
    (hslot : FlatTables.groupSlot N h.seq ≠ FlatTables.groupSlot N S) (hfree : ¬ Evicts st s S) :
    o.st.tables.owner S = st.tables.owner S := by
  have hsame : ∀ {t t' : FlatTables N}, Wrote h.seq t t' → t'.owner S = t.owner S := by
    intro t t' hw
    unfold FlatTables.owner
    rw [hw.group hslot]
  obtain ⟨t, hw, ⟨-, hw'⟩ | ⟨e, he, hw'⟩⟩ := feedOne_wrote ha ho
  · rw [hsame hw', hsame hw]
  · rw [hsame hw', dropped_owner hS fun heq => hfree (heq ▸ he), hsame hw]

theorem feedOne_absent (ha : Arrives st s h) (ho : feedOne N st s = .ok o) (hS : S ≠ emptySeq) (hne : h.seq ≠ S)
    (habs : (st.tables.groups (FlatTables.groupSlot N S)).seq ≠ S) : (o.st.tables.groups (FlatTables.groupSlot N S)).seq ≠ S := by
  obtain ⟨t, hw, ⟨-, hw'⟩ | ⟨e, he, hw'⟩⟩ := feedOne_wrote ha ho
  · exact hw'.absent hne (hw.absent hne habs)
  · exact hw'.absent hne (dropped_absent hS (hw.absent hne habs))

/-! ## The ring -/

/-- A datagram of another seq that evicts no shard of `S` leaves them what they are. -/
theorem feedOne_shards (hs : Safe N st) (hl : Linked N st) (ha : Arrives st s h) (hproper : h.seq ≠ emptySeq) (hne : h.seq ≠ S)
    (hfree : ¬ Evicts st s S) (ho : feedOne N st s = .ok o) {p : Nat} (hu : (st.fecData p).used = true)
    (hseq : (st.fecData p).seq = S) : o.st.fecData p = st.fecData p := by
  obtain ⟨i, out, hi, hout, rfl⟩ := feedOne_ok ho
  have hst := (output_ok hout).1
  simp only [hst]
  rcases input_ok hi with ⟨e, -, -⟩ | ⟨h', pr, ha', -, hp, hf⟩
  · rw [e]
  obtain rfl := ha.unique ha'
  have hm : Initialised N st s := fun h' ha' he => absurd he (by obtain rfl := ha.unique ha'; exact hproper)
  have hk : Marked N st s := fun h' ha' he => absurd he (by obtain rfl := ha.unique ha'; exact hproper)
  have hlinked := placed_linked hl hk ha hp
  cases hp with
  | refused hf' hacc => cases hf; rfl
  | self hf' hacc hev => cases hf; rfl
  | @stored t0 t1 g0 g1 d call hf' hacc hev hindex hlen hg =>
    have hp := Placed.stored hf' hacc hev hindex hlen hg
    rw [FlatTables.find_owner] at hf'
    cases hf'
    cases hf with
    | stored hc =>
      have hp' : p ≠ st.index := fun e => hfree ⟨h, _, ha, hacc, e ▸ hu, e ▸ hseq⟩
      have hnot : ∀ i, (g1.joined h st.index).slotOf i ≠ some p := by
        intro i hi'
        obtain ⟨-, -, hseq', -⟩ := hlinked.2.2.2.slot hi'
        rw [(gather_sameRing hg).seq, store_other _ _ hp', hseq] at hseq'
        exact hne hseq'.symm
      refine (concluded_frame hg hc (placed_ready hs hp) (fun c e => ?_) hnot).trans (store_other _ _ hp')
      subst e
      exact (stored_call hs hm ha hp).fits

/-- How many stores before the ring comes to slot `p`. -/
def turn (N : FecBuffNum) (index p : Nat) : Nat := if index ≤ p then p - index else p + N.1 - index

/-- No shard in the ring is `w` seqs or more ahead of one that came after it. -/
def Aged (w : Nat) (st : FecDecodeManager (FlatTables N)) : Prop :=
  ∀ p < N.1, ∀ q < N.1, (st.fecData p).used = true → (st.fecData q).used = true → turn N st.index p < turn N st.index q →
    (st.fecData p).seq.toNat < (st.fecData q).seq.toNat + w

theorem clear_aged (w : Nat) (st0 : FecDecodeManager (FlatTables N)) : Aged w (clear N st0) := by
  intro p hp q hq hu
  have : ((clear N st0).fecData p).used = false := by
    show (if p < N.1 then { st0.fecData p with used := false } else st0.fecData p).used = false
    rw [if_pos hp]
  rw [this] at hu
  cases hu

/-- The ring after a call: as it was, or the datagram in the slot that was its turn. -/
theorem feedOne_slots (ho : feedOne N st s = .ok o) (hindex : st.index < N.1) :
    (o.st.index = st.index ∧ ∀ p, (o.st.fecData p).used = (st.fecData p).used ∧ (o.st.fecData p).seq = (st.fecData p).seq) ∨
      ∃ h, Arrives st s h ∧ o.st.index = (st.index + 1) % N.1 ∧ (o.st.fecData st.index).seq = h.seq ∧
        ∀ p ≠ st.index, (o.st.fecData p).used = (st.fecData p).used ∧ (o.st.fecData p).seq = (st.fecData p).seq := by
  have hmove := feedOne_index hindex ho
  rcases feedOne_ring ho with ⟨hn, hsame⟩ | ⟨h, ha, hstored, hsame⟩
  · refine .inl ⟨?_, fun p => ⟨hsame.used p, hsame.seq p⟩⟩
    rcases hmove with ⟨-, hi⟩ | ⟨hs, -⟩
    · exact hi
    · rw [hn] at hs
      cases hs
  · refine .inr ⟨h, ha, ?_, ?_, fun p hp => ?_⟩
    · rcases hmove with ⟨hs, -⟩ | ⟨-, hi⟩
      · rw [hstored] at hs
        cases hs
      · exact hi
    · have hseq : (o.st.fecData st.index).seq = ((st.store h).fecData st.index).seq := hsame.seq st.index
      rw [hseq, store_same]
    · have hused : (o.st.fecData p).used = ((st.store h).fecData p).used := hsame.used p
      have hseq : (o.st.fecData p).seq = ((st.store h).fecData p).seq := hsame.seq p
      rw [hused, hseq, store_other _ h hp]
      exact ⟨rfl, rfl⟩

theorem feedOne_aged {w : Nat} (hg : Aged w st) (hindex : st.index < N.1) (ho : feedOne N st s = .ok o)
    (hnew : ∀ h, Arrives st s h → ∀ p < N.1, (st.fecData p).used = true → (st.fecData p).seq.toNat < h.seq.toNat + w) :
    Aged w o.st := by
  have hpos : 0 < N.1 := by omega
  rcases feedOne_slots ho hindex with ⟨hi, hsame⟩ | ⟨h, ha, hi, hown, hsame⟩
  · intro p hp q hq
    rw [hi, (hsame p).1, (hsame p).2, (hsame q).1, (hsame q).2]
    exact hg p hp q hq
  · have hnext : o.st.index = if st.index + 1 = N.1 then 0 else st.index + 1 := by
      rw [hi]
      split
      · rename_i heq
        rw [heq, Nat.mod_self]
      · exact Nat.mod_eq_of_lt (by omega)
    intro p hp q hq hu hv hlt
    -- the new shard is the last in turn, and the others keep their order
    have hlast : p ≠ st.index := by
      rintro rfl
      unfold turn at hlt
      rw [hnext] at hlt
      split at hlt <;> split at hlt <;> split at hlt <;> omega
    rw [(hsame p hlast).1] at hu
    rw [(hsame p hlast).2]
    by_cases hq' : q = st.index
    · subst hq'
      rw [hown]
      exact hnew h ha p hp hu
    · rw [(hsame q hq').1] at hv
      rw [(hsame q hq').2]
      apply hg p hp q hq hu hv
      unfold turn at hlt ⊢
      rw [hnext] at hlt
      split at hlt <;> split at hlt <;> split at hlt <;> split <;> split <;> omega

end FecDecodeManager

end UdpSpeeder.Manager
