/-
  UdpSpeeder.Manager.Link — an encoder and the decoder at the other end, and a network that
  loses, repeats and reorders what is between them.

  Calls of the two ends interleave in any order: packets and timer calls at one, under settings
  that may change at any time, datagrams at the other. As long as no datagram comes `w` seqs or
  more behind one that came before it, every run is a run of a channel whose batches are the
  encoder's groups (`link_refines`): a group comes out whole or not at all, and once. Neither
  end stops (`link_never_stops`), a group comes out as soon as enough of its datagrams do
  (`link_hands_over`), and where that is so of every group nothing is lost (`link_loses_nothing`).
-/

import UdpSpeeder.Lib.Channel
import UdpSpeeder.Manager.Slide
import UdpSpeeder.Manager.Stream

namespace UdpSpeeder.Manager

open Lib Fec

variable {N : FecBuffNum}

/-- Dropped by the entry checks. -/
def Refused (t : Bytes) : Prop := ∀ h, parseHeader t = some h → h.refused ≠ none

theorem refused_headerBytes {seq : U32} {mode x y i : Nat} {p : Bytes} (hx : x < 256) (hy : y < 256)
    (h : x + y = 0 ∨ maxFecPacketNum ≤ x + y) : Refused (headerBytes seq mode x y i ++ p) := by
  intro q hq hno
  have hpass := Header.passed hno
  have hsmall := hpass.small
  have hinner := hpass.inner
  obtain ⟨-, -, h5, h6, -⟩ := @mem_headerBytes seq mode x y i p
  obtain ⟨-, rfl⟩ := Header.parseHeader_eq hq
  simp only [h5, h6, Nat.mod_eq_of_lt hx, Nat.mod_eq_of_lt hy] at hsmall hinner
  omega

namespace FecEncodeManager

open FecDecodeManager

/-! ## What the decoder makes of a group -/

namespace Sent

variable {g : Sent}

theorem shards_seqOf {t : Bytes} (ht : t ∈ g.shards) : seqOf t = g.seq := by
  obtain ⟨seq, ps, form⟩ := g
  cases form with
  | blob x y len B =>
    obtain ⟨i, -, rfl⟩ := List.mem_map.mp ht
    exact mem_headerBytes.1
  | rows y =>
    rcases List.mem_append.mp ht with ht | ht
    · obtain ⟨i, -, p, rfl⟩ := dataShards_mem ht
      exact mem_headerBytes.1
    · obtain ⟨i, -, rfl⟩ := List.mem_map.mp ht
      exact mem_headerBytes.1

/-- The first shard of a group tells its mode and its seq. -/
theorem Fits.rows_of_mode {seq : U32} (h : g.Fits) (hall : ∀ t ∈ g.shards, seqOf t = seq ∧ (mem t 4).toNat = 1) :
    ∃ p ps y, g = ⟨seq, p :: ps, .rows y⟩ := by
  obtain ⟨seq', ps, form⟩ := g
  cases form with
  | blob x y len B =>
    obtain ⟨q, hs⟩ := h
    have hfirst := hall _ (List.mem_map_of_mem (List.mem_range.mpr (show 0 < x + y from Nat.add_pos_left hs.pos y)))
    exact absurd ((mem_headerBytes.2.1).symm.trans hfirst.2) (by decide)
  | rows y =>
    cases ps with
    | nil => exact absurd h.1 (Nat.lt_irrefl 0)
    | cons p ps =>
      have hfirst : packetShard seq' 0 p ∈ Sent.shards ⟨seq', p :: ps, .rows y⟩ := List.mem_append_left _ (by simp [dataShards])
      have hseq : seqOf (packetShard seq' 0 p) = seq' := mem_headerBytes.1
      obtain rfl := hseq.symm.trans (hall _ hfirst).1
      exact ⟨p, ps, y, rfl⟩

/-- The shards of its code, how many of them it takes, and those that get in. -/
def total (g : Sent) : Nat :=
  match g.form with
  | .blob x y _ _ => x + y
  | .rows y => g.packets.length + y

def needed (g : Sent) : Nat :=
  match g.form with
  | .blob x _ _ _ => x
  | .rows _ => g.packets.length

noncomputable def useful (g : Sent) : List Bytes :=
  match g.form with
  | .blob _ _ _ _ => g.shards
  | .rows y => parityShards g.seq g.packets y

/-- What comes out of it, when something does: one packet over `max_data_len` keeps back a
    mode 1 group. -/
def brings (g : Sent) : Option (List Bytes) :=
  match g.form with
  | .blob _ _ _ _ => some g.packets
  | .rows _ => if ∀ p ∈ g.packets, p.length ≤ maxDataLen then some g.packets else none

theorem brings_eq {ps : List Bytes} (h : g.brings = some ps) : ps = g.packets := by
  unfold brings at h
  split at h
  · exact (Option.some.inj h).symm
  · split at h
    · exact (Option.some.inj h).symm
    · cases h

theorem dataShards_refused {seq : U32} {ps : List Bytes} {t : Bytes} (ht : t ∈ dataShards seq ps) : Refused t := by
  obtain ⟨i, -, p, rfl⟩ := dataShards_mem ht
  exact refused_headerBytes (by decide) (by decide) (.inl rfl)

/-- A code of 255 shards is one too many for the decoder. -/
theorem Fits.refused (h : g.Fits) (hn : maxFecPacketNum ≤ g.total) : ∀ t ∈ g.shards, Refused t := by
  obtain ⟨seq, ps, form⟩ := g
  intro t ht
  cases form with
  | blob x y len B =>
    obtain ⟨p, hs⟩ := h
    have hsmall := hs.small
    obtain ⟨i, -, rfl⟩ := List.mem_map.mp ht
    exact refused_headerBytes (by omega) (by omega) (.inr hn)
  | rows y =>
    obtain ⟨hpos, hsmall, -⟩ := h
    simp only at hpos hsmall
    rcases List.mem_append.mp ht with ht | ht
    · exact dataShards_refused ht
    · obtain ⟨j, -, rfl⟩ := List.mem_map.mp ht
      exact @refused_headerBytes _ _ ps.length _ _ _ (by omega) (by omega) (.inr hn)

/-- The shards among its datagrams, and what decoding them brings. -/
structure Source (N : FecBuffNum) (g : Sent) (f : ShardSet) : Prop where
  seq : f.seq = g.seq
  needed : f.x = g.needed
  arrived : ∀ ss, (f.arrived ss).length = distinct g.useful ss
  only : ∀ t ∈ g.shards, Refused t ∨ ∃ i, f.lo ≤ i ∧ i < f.x + f.y ∧ t = f.bytes i
  brings : ∀ (s : Bytes) (o : FeedOut (FlatTables N)), Decodes f s o → o.packets = g.brings

theorem Fits.source (h : g.Fits) (hn : g.total < maxFecPacketNum) : ∃ f, Source N g f := by
  obtain ⟨seq, ps, form⟩ := g
  cases form with
  | blob x y len B =>
    obtain ⟨p, hs⟩ := h
    refine ⟨blobSet seq x y len B hs.pos hn, rfl, rfl, fun ss => (distinct_map _ rfl ss).symm, ?_, ?_⟩
    · intro t ht
      obtain ⟨i, hi, rfl⟩ := List.mem_map.mp ht
      exact .inr ⟨i, Nat.zero_le i, List.mem_range.mp hi, rfl⟩
    · intro s o hx
      rcases hx with ⟨-, st, ss, t, d, g, h, c, ho, hp, hc⟩
      exact (hc.blob rfl (fun _ _ => rfl) hs.pack hs.len hs.short hs.few hp ho).2
  | rows y =>
    obtain ⟨hpos, -, hshort⟩ := h
    refine ⟨paritySet seq ps y hpos hn, rfl, rfl, distinct_parity hpos hn, ?_, ?_⟩
    · intro t ht
      rcases List.mem_append.mp ht with ht | ht
      · exact .inl (dataShards_refused ht)
      · obtain ⟨j, hj, rfl⟩ := List.mem_map.mp ht
        refine .inr ⟨ps.length + j, Nat.le_add_right _ _, Nat.add_lt_add_left (List.mem_range.mp hj) _, ?_⟩
        show _ = parityShard seq ps y (ps.length + j - ps.length)
        rw [Nat.add_sub_cancel_left]
    · intro s o hx
      rcases hx with ⟨-, st, ss, t, d, g, h, c, ho, hp, hc⟩
      exact hc.packets hshort hp ho

end Sent

theorem early_refused {e : FecEncodeManager} {ps : List Bytes} {t : Bytes} (ht : t ∈ e.early ps) : Refused t ∧ seqOf t = e.seq := by
  unfold early at ht
  split at ht
  · cases ht
  · obtain ⟨i, -, p, rfl⟩ := dataShards_mem ht
    exact ⟨Sent.dataShards_refused ht, mem_headerBytes.1⟩

/-! ## Where a datagram is from -/

section Streamed

variable {log : List EncodeCall} {e : FecEncodeManager} {seq0 : U32} {gs : List Sent}

theorem Streamed.origin (h : Streamed log e seq0 gs) {t : Bytes} (ht : t ∈ FecEncodeManager.wire log) :
    Refused t ∧ seqOf t = e.seq ∨ ∃ i, ∃ hi : i < gs.length, t ∈ gs[i].shards := by
  rw [h.wire] at ht
  rcases List.mem_append.mp ht with ht | ht
  · obtain ⟨g, hg, ht⟩ := List.mem_flatMap.mp ht
    obtain ⟨i, hi, rfl⟩ := List.mem_iff_getElem.mp hg
    exact .inr ⟨i, hi, ht⟩
  · exact .inl (early_refused ht)

/-- No seq so far is 0xFFFFFFFF. -/
def Below (seq0 : U32) (gs : List Sent) : Prop := seq0.toNat + gs.length < emptySeq.toNat

theorem Below.toNat (hb : Below seq0 gs) {i : Nat} (hi : i ≤ gs.length) : (seq0 + BitVec.ofNat 32 i).toNat = seq0.toNat + i := by
  have hempty : emptySeq.toNat = 2 ^ 32 - 1 := rfl
  unfold Below at hb
  rw [BitVec.toNat_add, BitVec.toNat_ofNat, Nat.mod_eq_of_lt (show i < 2 ^ 32 by omega), Nat.mod_eq_of_lt (by omega)]

theorem Streamed.seq_toNat (h : Streamed log e seq0 gs) (hb : Below seq0 gs) {i : Nat} (hi : i < gs.length) :
    gs[i].seq.toNat = seq0.toNat + i := by
  rw [h.seqs i hi, hb.toNat hi.le]

theorem Streamed.seq_proper (h : Streamed log e seq0 gs) (hb : Below seq0 gs) {i : Nat} (hi : i < gs.length) :
    gs[i].seq ≠ emptySeq := by
  intro heq
  have := h.seq_toNat hb hi
  rw [heq] at this
  unfold Below at hb
  omega

theorem Streamed.proper (h : Streamed log e seq0 gs) (hb : Below seq0 gs) : Proper (FecEncodeManager.wire log) := by
  intro t ht heq
  change seqOf t = emptySeq at heq
  rcases h.origin ht with ⟨-, hseq⟩ | ⟨i, hi, hmem⟩
  · have := hb.toNat le_rfl
    rw [← h.next, ← hseq, heq] at this
    unfold Below at hb
    omega
  · exact h.seq_proper hb hi ((Sent.shards_seqOf hmem).symm.trans heq)

/-- What is on the wire under the seq of a group is from the group. -/
theorem Streamed.only (h : Streamed log e seq0 gs) (hb : Below seq0 gs) {i : Nat} (hi : i < gs.length) {f : ShardSet}
    (hf : Sent.Source N gs[i] f) {t : Bytes} (ht : t ∈ FecEncodeManager.wire log) : f.Only t := by
  intro q hq hseq
  rcases h.origin ht with ⟨hbad, -⟩ | ⟨j, hj, hmem⟩
  · exact .inl (hbad q hq)
  · have h1 := h.seq_toNat hb hi
    have h2 := h.seq_toNat hb hj
    rw [← Sent.shards_seqOf hmem, seqOf_parse hq, hseq, hf.seq] at h2
    obtain rfl : i = j := by omega
    exact (hf.only t hmem).imp (fun hbad => hbad q hq) id

end Streamed

end FecEncodeManager

/-! ## The two ends -/

open FecEncodeManager FecDecodeManager

/-- The two ends, each with its calls so far. -/
structure Link (N : FecBuffNum) where
  encoder : FecEncodeManager
  log : List EncodeCall
  decoder : FecDecodeManager (FlatTables N)
  hist : List (Bytes × FeedOut (FlatTables N))

namespace Link

/-- What the options, the commands and the sockets let through. -/
structure Allowed (o : EncodeOptions) (s : Option Bytes) : Prop where
  par : o.gFecPar.InRange
  short : ∀ p, s = some p → p.length ≤ maxDataLen + 4

/-- Runs before the encoder's seq comes to 0xFFFFFFFF, with no datagram `w` seqs or more behind
    one that came before it. -/
inductive Run (N : FecBuffNum) (w : Nat) : List (Channel.Event Bytes) → Link N → Prop
  | start {e0 e : FecEncodeManager} {g : FecParameter} {seq : U32} (d0 : FecDecodeManager (FlatTables N)) (hg : g.InRange)
      (hc : e0.construct g seq = .ok e) (hseq : e.seq ≠ emptySeq) : Run N w [] ⟨e, [], clear N d0, []⟩
  | send {es : List (Channel.Event Bytes)} {l : Link N} (h : Run N w es l) {o : EncodeOptions} {s : Option Bytes} {out : EncodeOut}
      (ha : Allowed o s) (he : l.encoder.encodeOne o s = .ok out) (hseq : out.st.seq ≠ emptySeq) :
      Run N w (es ++ (EncodeCall.accepted ⟨l.encoder, o, s, out⟩).map .took)
        { l with encoder := out.st, log := l.log ++ [⟨l.encoder, o, s, out⟩] }
  | recv {es : List (Channel.Event Bytes)} {l : Link N} (h : Run N w es l) {s : Bytes} {out : FeedOut (FlatTables N)}
      (hs : s ∈ wire l.log) (hrecent : ∀ t ∈ l.hist.map Prod.fst, (seqOf t).toNat < (seqOf s).toNat + w)
      (ho : feedOne N l.decoder s = .ok out) :
      Run N w (es ++ out.packets.toList.map .handed) { l with decoder := out.st, hist := l.hist ++ [(s, out)] }

end Link

namespace Link

variable {w : Nat} {es : List (Channel.Event Bytes)} {l : Link N} {seq0 : U32} {gs : List Sent} {got : List Nat}

/-- The run, and the run of the channel that it is. -/
structure Carries (w : Nat) (es : List (Channel.Event Bytes)) (l : Link N) (seq0 : U32) (gs : List Sent) (got : List Nat) : Prop where
  called : Called l.log l.encoder
  fed : ∃ d0, Fed N (clear N d0) l.hist l.decoder
  streamed : Streamed l.log l.encoder seq0 gs
  below : Below seq0 gs
  recent : Recent w (l.hist.map Prod.fst)
  wire : ∀ t ∈ l.hist.map Prod.fst, t ∈ FecEncodeManager.wire l.log
  channel : Channel.Run es ⟨gs.map Sent.packets, pendingAfter l.log, got⟩
  brought : ∀ i ∈ got, ∃ hi : i < gs.length, ∃ e ∈ l.hist, seqOf e.1 = gs[i].seq ∧ e.2.packets ≠ none
  known : ∀ e ∈ l.hist, e.2.packets ≠ none → ∃ i ∈ got, ∃ hi : i < gs.length, seqOf e.1 = gs[i].seq

theorem Carries.send (h : Carries w es l seq0 gs got) {o : EncodeOptions} {s : Option Bytes} {out : EncodeOut}
    (he : l.encoder.encodeOne o s = .ok out) (hseq : out.st.seq ≠ emptySeq) :
    ∃ more, Carries w (es ++ (EncodeCall.accepted ⟨l.encoder, o, s, out⟩).map .took)
      { l with encoder := out.st, log := l.log ++ [⟨l.encoder, o, s, out⟩] } seq0 (gs ++ more) got := by
  obtain ⟨more, hm, hstreamed⟩ := h.streamed.next_call h.called he
  have hone : more.length ≤ 1 := by
    cases more with
    | nil => exact Nat.zero_le 1
    | cons g _ => rw [(hm.one g List.mem_cons_self).1]; exact le_rfl
  have hbelow : Below seq0 (gs ++ more) := by
    have hlt := h.below
    have hempty : emptySeq.toNat = 2 ^ 32 - 1 := rfl
    unfold Below at hlt ⊢
    refine Nat.lt_of_le_of_ne (by rw [List.length_append]; omega) fun heq => hseq (BitVec.eq_of_toNat_eq ?_)
    rw [hstreamed.next, BitVec.toNat_add, BitVec.toNat_ofNat, Nat.add_mod_mod, heq]
    rfl
  refine ⟨more, h.called.call he, h.fed, hstreamed, hbelow, h.recent, ?_, ?_, ?_, ?_⟩
  · intro t ht
    rw [wire_snoc]
    exact List.mem_append_left _ (h.wire t ht)
  · have htake := h.channel.take (EncodeCall.accepted ⟨l.encoder, o, s, out⟩)
    have hclose := @Channel.Run.close _ _ _ htake (more.map Sent.packets) (pendingAfter (l.log ++ [⟨l.encoder, o, s, out⟩])) (by
      rw [pendingAfter_snoc, ← List.flatMap_def]
      exact hm.packets)
    rwa [← List.map_append] at hclose
  · intro i hi
    obtain ⟨hlt, e, hmem, hs, hp⟩ := h.brought i hi
    refine ⟨by rw [List.length_append]; omega, e, hmem, ?_, hp⟩
    rw [List.getElem_append_left hlt]
    exact hs
  · intro e he hp
    obtain ⟨i, hi, hlt, hs⟩ := h.known e he hp
    refine ⟨i, hi, by rw [List.length_append]; omega, ?_⟩
    rw [List.getElem_append_left hlt]
    exact hs

theorem Carries.genuine (h : Carries w es l seq0 gs got) {i : Nat} {hi : i < gs.length} {f : ShardSet} (hf : Sent.Source N gs[i] f) :
    Genuine w f (l.hist.map Prod.fst) :=
  ⟨fun t ht => h.streamed.proper h.below t (h.wire t ht), h.recent, fun t ht => h.streamed.only h.below hi hf (h.wire t ht)⟩

theorem Carries.genuine_next (h : Carries w es l seq0 gs got) {i : Nat} {hi : i < gs.length} {f : ShardSet} (hf : Sent.Source N gs[i] f)
    {s : Bytes} (hs : s ∈ FecEncodeManager.wire l.log) (hrecent : ∀ t ∈ l.hist.map Prod.fst, (seqOf t).toNat < (seqOf s).toNat + w) :
    Genuine w f (l.hist.map Prod.fst ++ [s]) :=
  (h.genuine hf).next (h.streamed.proper h.below s hs) (h.streamed.only h.below hi hf hs) hrecent

theorem Refused.idle {st : FecDecodeManager (FlatTables N)} {s : Bytes} {out : FeedOut (FlatTables N)} (hs : Safe N st) (hbad : Refused s)
    (ho : feedOne N st s = .ok out) : out.packets = none :=
  (feedOne_idle hs (fun q ha => hbad q ha.parse ha.checks) ho).2.2

/-- A datagram brings nothing, or a group that had not come out. -/
theorem Carries.brings (hw : Width N w) (h : Carries w es l seq0 gs got) {s : Bytes} {out : FeedOut (FlatTables N)}
    (hs : s ∈ FecEncodeManager.wire l.log) (hrecent : ∀ t ∈ l.hist.map Prod.fst, (seqOf t).toNat < (seqOf s).toNat + w)
    (ho : feedOne N l.decoder s = .ok out) :
    out.packets = none ∨ ∃ i, ∃ hi : i < gs.length, seqOf s = gs[i].seq ∧ i ∉ got ∧ out.packets = some gs[i].packets := by
  obtain ⟨d0, hfed⟩ := h.fed
  have hproper : Proper (l.hist.map Prod.fst) := fun t ht => h.streamed.proper h.below t (h.wire t ht)
  have hsafe := (fed_ring hfed hproper).1
  rcases h.streamed.origin hs with ⟨hbad, -⟩ | ⟨i, hi, hmem⟩
  · exact .inl (Refused.idle hsafe hbad ho)
  have hfits := h.streamed.fits _ (List.getElem_mem hi)
  rcases Nat.lt_or_ge gs[i].total maxFecPacketNum with hn | hn
  swap
  · exact .inl (Refused.idle hsafe (hfits.refused hn s hmem) ho)
  obtain ⟨f, hf⟩ := @Sent.Fits.source N gs[i] hfits hn
  have hseq : seqOf s = f.seq := (Sent.shards_seqOf hmem).trans hf.seq.symm
  have hne : f.seq ≠ emptySeq := by
    rw [hf.seq]
    exact h.streamed.seq_proper h.below hi
  rcases fed_once hw hne hfed (h.genuine_next hf hs hrecent) hseq ho with hnone | ⟨hquiet, hdec⟩
  · exact .inl hnone
  · have hbrings := hf.brings s out hdec
    cases hg : gs[i].brings with
    | none => exact .inl (hbrings.trans hg)
    | some ps =>
      obtain rfl := Sent.brings_eq hg
      refine .inr ⟨i, hi, hseq.trans hf.seq, fun hgot => ?_, hbrings.trans hg⟩
      -- it has brought nothing yet
      obtain ⟨_, e, he, hes, hep⟩ := h.brought i hgot
      exact hep (hquiet e he fun q hq => (seqOf_parse hq).symm.trans (hes.trans hf.seq.symm))

theorem Carries.recv (hw : Width N w) (h : Carries w es l seq0 gs got) {s : Bytes} {out : FeedOut (FlatTables N)}
    (hs : s ∈ FecEncodeManager.wire l.log) (hrecent : ∀ t ∈ l.hist.map Prod.fst, (seqOf t).toNat < (seqOf s).toNat + w)
    (ho : feedOne N l.decoder s = .ok out) : ∃ got', Carries w (es ++ out.packets.toList.map .handed)
      { l with decoder := out.st, hist := l.hist ++ [(s, out)] } seq0 gs got' := by
  obtain ⟨d0, hfed⟩ := h.fed
  have hrecent' : Recent w ((l.hist ++ [(s, out)]).map Prod.fst) := by
    rw [List.map_append]
    refine List.pairwise_append.mpr ⟨h.recent, List.pairwise_singleton _ _, fun t ht u hu => ?_⟩
    rw [List.mem_singleton.mp hu]
    exact hrecent t ht
  have hwire : ∀ t ∈ (l.hist ++ [(s, out)]).map Prod.fst, t ∈ FecEncodeManager.wire l.log := by
    intro t ht
    rw [List.map_append] at ht
    exact (List.mem_append.mp ht).elim (h.wire t) fun ht => List.mem_singleton.mp ht ▸ hs
  have hkept : ∀ i ∈ got, ∃ hi : i < gs.length, ∃ e ∈ l.hist ++ [(s, out)], seqOf e.1 = gs[i].seq ∧ e.2.packets ≠ none := by
    intro i hi
    obtain ⟨hlt, e, he, hep⟩ := h.brought i hi
    exact ⟨hlt, e, List.mem_append_left _ he, hep⟩
  rcases h.brings hw hs hrecent ho with hnone | ⟨i, hi, hseq, hnew, hsome⟩
  · refine ⟨got, h.called, ⟨d0, hfed.next ho⟩, h.streamed, h.below, hrecent', hwire, ?_, hkept, ?_⟩
    · rw [hnone]
      simpa using h.channel
    · intro e he hp
      rcases List.mem_append.mp he with he | he
      · exact h.known e he hp
      · obtain rfl := List.mem_singleton.mp he
        exact absurd hnone hp
  · refine ⟨got ++ [i], h.called, ⟨d0, hfed.next ho⟩, h.streamed, h.below, hrecent', hwire, ?_, ?_, ?_⟩
    · have hhand := @Channel.Run.hand _ _ _ h.channel i (by simpa using hi) hnew
      rw [hsome]
      simpa using hhand
    · intro j hj
      rcases List.mem_append.mp hj with hj | hj
      · exact hkept j hj
      · obtain rfl := List.mem_singleton.mp hj
        exact ⟨hi, (s, out), by simp, hseq, by rw [hsome]; exact Option.some_ne_none _⟩
    · intro e he hp
      rcases List.mem_append.mp he with he | he
      · obtain ⟨j, hj, hlt, hs⟩ := h.known e he hp
        exact ⟨j, List.mem_append_left _ hj, hlt, hs⟩
      · obtain rfl := List.mem_singleton.mp he
        exact ⟨i, by simp, hi, hseq⟩

theorem Run.carries (hw : Width N w) (h : Run N w es l) : ∃ seq0 gs got, Carries w es l seq0 gs got := by
  induction h with
  | @start e0 e g seq d0 hg hc hseq =>
    refine ⟨e.seq, [], [], .start hc, ⟨d0, .start⟩, .start e, ?_, List.Pairwise.nil, ?_, .start, ?_, ?_⟩
    · have hempty : emptySeq.toNat = 2 ^ 32 - 1 := rfl
      have := e.seq.isLt
      refine Nat.lt_of_le_of_ne ?_ fun heq => hseq (BitVec.eq_of_toNat_eq heq)
      simp only [List.length_nil]
      omega
    · intro t ht
      cases ht
    · intro i hi
      cases hi
    · intro e he
      cases he
  | send h ha he hseq ih =>
    obtain ⟨seq0, gs, got, hc⟩ := ih
    obtain ⟨more, hc⟩ := hc.send he hseq
    exact ⟨_, _, _, hc⟩
  | recv h hs hrecent ho ih =>
    obtain ⟨seq0, gs, got, hc⟩ := ih
    obtain ⟨got', hc⟩ := hc.recv hw hs hrecent ho
    exact ⟨_, _, _, hc⟩

/-! ## What a run shows -/

/-- Whatever is lost, repeated, delayed or reordered, and however the calls of the two ends
    interleave, the run is one of a channel whose batches are the groups of the encoder: so
    what comes out is part of what was accepted, nothing of it twice, and each batch is a
    number of packets that came one after the other. -/
theorem link_refines (hw : Width N w) (h : Run N w es l) : ∃ seq0 gs got, Streamed l.log l.encoder seq0 gs ∧
    Channel.Run es ⟨gs.map Sent.packets, pendingAfter l.log, got⟩ ∧ (Channel.handeds es).flatten.Subperm (Channel.takens es) ∧
      ∀ b ∈ Channel.handeds es, b <:+: Channel.takens es := by
  obtain ⟨seq0, gs, got, hc⟩ := h.carries hw
  exact ⟨seq0, gs, got, hc.streamed, hc.channel, hc.channel.subperm, fun b hb => hc.channel.consecutive hb⟩

theorem lone_parity : parityShard 0 [lone] 1 0 ∈ parityShards 0 [lone] 1 := List.mem_map_of_mem (by decide)

theorem lone_distinct : 1 ≤ distinct (parityShards 0 [lone] 1) [parityShard 0 [lone] 1 0] :=
  List.length_pos_iff_exists_mem.mpr ⟨_, List.mem_filter.mpr ⟨lone_parity, by simp⟩⟩

/-- The packet that is a group of its own, and its parity shard. -/
theorem lone_run : ∃ l, Run leastNum 1 [.took lone, .handed [lone]] l ∧ accepted l.log = [lone] ∧
    wire l.log = dataShards 0 [lone] ++ parityShards 0 [lone] 1 ∧ l.hist.map Prod.fst = [parityShard 0 [lone] 1 0] := by
  obtain ⟨e, out, hnew, hseq, he, hret, hnext, hsent⟩ := @pairing_sent lone (by decide)
  have hstart : Run leastNum 1 [] ⟨e, [], leastDecoder, []⟩ := .start default pairing_inRange hnew (by rw [hseq]; decide)
  have hallowed : Allowed pairing (some lone) := ⟨pairing_inRange, fun p hp => by cases hp; decide⟩
  have hsend := hstart.send hallowed he (by rw [hnext]; decide)
  rw [show EncodeCall.accepted ⟨e, pairing, some lone, out⟩ = [lone] from if_pos hret] at hsend
  have hmem := List.mem_append_right (dataShards 0 [lone]) lone_parity
  obtain ⟨hin, hown, hkept, hothers⟩ := lone_amid hmem
  have hamid : Amid 0 1 default 0 (dataShards 0 [lone] ++ parityShards 0 [lone] 1) [parityShard 0 [lone] 1 0] :=
    ⟨⟨by decide, by decide, by decide⟩, by decide, hin, hown, hkept, hothers⟩
  obtain ⟨hist, st, hf, hss⟩ := hamid.run (by decide) lone_size (by decide)
  have hhanded := hamid.handed (by decide) lone_size (by decide) hf hss
  obtain ⟨⟨s, o⟩, rfl, rfl⟩ := List.map_eq_singleton_iff.mp hss
  obtain ⟨st', hf', ho⟩ := hf.split (List.nil_append _).symm
  rw [if_pos ⟨lone_distinct, by decide⟩] at hhanded
  unfold handed at hhanded
  rw [List.filter_cons, if_pos (decide_eq_true hmem), List.filter_nil, List.flatMap_cons, List.flatMap_nil, List.append_nil] at hhanded
  have hpackets : o.packets = some [lone] := by
    cases hnone : o.packets with
    | none => rw [hnone] at hhanded; cases hhanded
    | some ps => rw [hnone] at hhanded; exact congrArg some hhanded
  have hfirst := hf'.feedAll
  cases hfirst
  have hwire : wire [⟨e, pairing, some lone, out⟩] = dataShards 0 [lone] ++ parityShards 0 [lone] 1 := by
    simp only [wire, List.flatMap_cons, List.flatMap_nil, hsent, Option.getD_some, List.append_nil]
  have haccepted : accepted [⟨e, pairing, some lone, out⟩] = [lone] := by
    simp only [accepted, List.flatMap_cons, List.flatMap_nil, EncodeCall.accepted, if_pos hret, Option.toList_some, List.append_nil]
  have hrecv := hsend.recv (by rw [List.nil_append, hwire]; exact hmem) (by simp) ho
  rw [hpackets] at hrecv
  exact ⟨_, hrecv, haccepted, hwire, rfl⟩

theorem lone_width : Width leastNum 1 := ⟨by decide, by decide, by decide⟩

/-- The two datagrams show that it was a group of its own. -/
theorem lone_groups {log : List EncodeCall} {e : FecEncodeManager} (h : Streamed log e seq0 gs) (haccepted : accepted log = [lone])
    (hwire : wire log = dataShards 0 [lone] ++ parityShards 0 [lone] 1) : gs = [⟨0, [lone], .rows 1⟩] := by
  have hlone : ∀ t ∈ wire log, seqOf t = 0 ∧ (mem t 4).toNat = 1 := by
    intro t ht
    rw [hwire] at ht
    rcases List.mem_append.mp ht with ht | ht
    · obtain ⟨i, -, p, rfl⟩ := dataShards_mem ht
      exact ⟨mem_headerBytes.1, mem_headerBytes.2.1⟩
    · obtain ⟨j, -, rfl⟩ := List.mem_map.mp ht
      exact ⟨mem_headerBytes.1, mem_headerBytes.2.1⟩
  have hrows : ∀ g ∈ gs, ∃ p ps y, g = ⟨0, p :: ps, .rows y⟩ := by
    intro g hg
    refine (h.fits g hg).rows_of_mode fun t ht => hlone t ?_
    rw [h.wire]
    exact List.mem_append_left _ (List.mem_flatMap.mpr ⟨g, hg, ht⟩)
  have hpackets := haccepted.symm.trans h.packets
  have hlength := congrArg List.length (hwire.symm.trans h.wire)
  cases gs with
  | nil =>
    -- the parity would not have gone out
    rw [List.flatMap_nil, List.nil_append] at hpackets
    rw [← hpackets, List.flatMap_nil, List.nil_append] at hlength
    unfold early at hlength
    split at hlength <;> simp [dataShards, parityShards] at hlength
  | cons g gs =>
    obtain ⟨p, ps, y, rfl⟩ := hrows g List.mem_cons_self
    rw [List.flatMap_cons, List.cons_append, List.cons_append, List.cons.injEq] at hpackets
    obtain ⟨rfl, hrest⟩ := hpackets
    obtain ⟨hfront, hpending⟩ := List.append_eq_nil_iff.mp hrest.symm
    obtain ⟨rfl, hnone⟩ := List.append_eq_nil_iff.mp hfront
    cases gs with
    | nil =>
      have hearly : e.early [] = [] := by
        unfold early
        split <;> rfl
      rw [hpending, hearly] at hlength
      have hone : y = 1 := by simpa [Sent.shards, dataShards, parityShards] using hlength.symm
      rw [hone]
    | cons g gs =>
      obtain ⟨q, qs, z, rfl⟩ := hrows g (by simp)
      simp at hnone

theorem link_refines_lone : ∃ (l : Link leastNum) (seq0 : U32) (gs : List Sent) (got : List Nat), Streamed l.log l.encoder seq0 gs ∧
    Channel.Run [.took lone, .handed [lone]] ⟨gs.map Sent.packets, pendingAfter l.log, got⟩ ∧ [lone].Subperm [lone] := by
  obtain ⟨l, hrun, -⟩ := lone_run
  obtain ⟨seq0, gs, got, hstreamed, hchannel, hsub, -⟩ := link_refines lone_width hrun
  exact ⟨l, seq0, gs, got, hstreamed, hchannel, hsub⟩

theorem Run.steady (h : Run N w es l) : l.encoder.Steady := by
  induction h with
  | start d0 hg hc hseq => exact construct_steady hg hc
  | send h ha he hseq ih => exact (encodeOne_returns ih ha.par ha.short).ok he
  | recv h hs hrecent ho ih => exact ih

theorem Carries.returns (hw : Width N w) (h : Carries w es l seq0 gs got) {s : Bytes} (hs : s ∈ FecEncodeManager.wire l.log)
    (hlen : s.length ≤ maxDataLen) (hrecent : ∀ t ∈ l.hist.map Prod.fst, (seqOf t).toNat < (seqOf s).toNat + w) :
    ∃ out, feedOne N l.decoder s = .ok out := by
  obtain ⟨d0, hfed⟩ := h.fed
  have hproper : Proper (l.hist.map Prod.fst) := fun t ht => h.streamed.proper h.below t (h.wire t ht)
  have hsafe := (fed_ring hfed hproper).1
  have hfit : s.length + 100 < bufLen := by
    unfold bufLen
    omega
  have hdropped : Refused s → ∃ out, feedOne N l.decoder s = .ok out := fun hbad =>
    feedOne_run hsafe hfit (fun q ha => absurd ha.checks (hbad q ha.parse)) fun q g hst => absurd hst.arrives.checks (hbad q hst.arrives.parse)
  rcases h.streamed.origin hs with ⟨hbad, -⟩ | ⟨i, hi, hmem⟩
  · exact hdropped hbad
  have hfits := h.streamed.fits _ (List.getElem_mem hi)
  rcases Nat.lt_or_ge gs[i].total maxFecPacketNum with hn | hn
  swap
  · exact hdropped (hfits.refused hn s hmem)
  obtain ⟨f, hf⟩ := @Sent.Fits.source N gs[i] hfits hn
  refine fed_returns hw ?_ hfed (h.genuine_next hf hs hrecent) ((Sent.shards_seqOf hmem).trans hf.seq.symm) hfit
  rw [hf.seq]
  exact h.streamed.seq_proper h.below hi

/-- No packet, timer call or change of the settings stops the encoder, and no datagram that it
    sent stops the decoder, however late, often or out of order it comes. -/
theorem link_never_stops (hw : Width N w) (h : Run N w es l) :
    (∀ o s, Allowed o s → Returns o.Heavy (l.encoder.encodeOne o s) fun _ => True) ∧
      ∀ s ∈ wire l.log, s.length ≤ maxDataLen → (∀ t ∈ l.hist.map Prod.fst, (seqOf t).toNat < (seqOf s).toNat + w) →
        ∃ out, feedOne N l.decoder s = .ok out := by
  refine ⟨?_, ?_⟩
  · intro o s ha
    have hreturns := encodeOne_returns h.steady ha.par ha.short
    cases he : l.encoder.encodeOne o s with
    | ok out => trivial
    | error f => exact hreturns.error he
  · intro s hs hlen hrecent
    obtain ⟨seq0, gs, got, hc⟩ := h.carries hw
    exact hc.returns hw hs hlen hrecent

/-- The datagram that completed the group comes again. -/
theorem link_never_stops_lone : ∃ l : Link leastNum, parityShard 0 [lone] 1 0 ∈ wire l.log ∧
    ∃ out, feedOne leastNum l.decoder (parityShard 0 [lone] 1 0) = .ok out := by
  obtain ⟨l, hrun, -, hwire, hhist⟩ := lone_run
  have hmem : parityShard 0 [lone] 1 0 ∈ wire l.log := by
    rw [hwire]
    exact List.mem_append_right _ lone_parity
  refine ⟨l, hmem, (link_never_stops lone_width hrun).2 _ hmem (by decide) ?_⟩
  intro t ht
  rw [hhist, List.mem_singleton] at ht
  rw [ht]
  exact Nat.lt_succ_self _

theorem distinct_mono {shards ss ts : List Bytes} (h : ∀ s ∈ ss, s ∈ ts) : distinct shards ss ≤ distinct shards ts := by
  refine (List.monotone_filter_right shards fun s hs => ?_).length_le
  exact decide_eq_true (h s (of_decide_eq_true hs))

/-- Enough of the group came, from its first datagram on and before its place is needed for
    another. -/
structure Came (N : FecBuffNum) (heard : List Bytes) (g : Sent) : Prop where
  coded : g.total < maxFecPacketNum
  whole : g.brings = some g.packets
  near : ∃ before span after, heard = before ++ span ++ after ∧ (∀ t ∈ before, seqOf t ≠ g.seq) ∧ span.length ≤ N.1 ∧
    g.needed ≤ distinct g.useful span

theorem Carries.hands (hw : Width N w) (h : Carries w es l seq0 gs got) {i : Nat} (hi : i < gs.length)
    (hcame : Came N (l.hist.map Prod.fst) gs[i]) : i ∈ got := by
  obtain ⟨f, hf⟩ := @Sent.Fits.source N gs[i] (h.streamed.fits _ (List.getElem_mem hi)) hcame.coded
  obtain ⟨d0, hfed⟩ := h.fed
  have hgenuine := h.genuine hf
  have hne : f.seq ≠ emptySeq := by
    rw [hf.seq]
    exact h.streamed.seq_proper h.below hi
  obtain ⟨e, he, hdec⟩ : ∃ e ∈ l.hist, Decodes f e.1 e.2 := by
    obtain ⟨before, span, after, hsplit, hfirst, hspan, henough⟩ := hcame.near
    obtain ⟨front, last, hhist, hfront, rfl⟩ := List.map_eq_append_iff.mp hsplit
    obtain ⟨first, mid, rfl, rfl, rfl⟩ := List.map_eq_append_iff.mp hfront
    rw [hhist] at hfed hgenuine ⊢
    rw [List.length_map] at hspan
    refine fed_hands hw hne hfed hgenuine (fun e he => ?_) hspan ?_
    · rw [hf.seq]
      exact hfirst _ (List.mem_map_of_mem he)
    · rw [hf.needed, hf.arrived]
      exact henough.trans (distinct_mono fun s hs => by rw [List.map_append]; exact List.mem_append_right _ hs)
  obtain ⟨j, hj, hlt, hseq⟩ := h.known e he (by rw [hf.brings _ _ hdec, hcame.whole]; exact Option.some_ne_none _)
  -- seqs tell the groups apart
  have h1 := h.streamed.seq_toNat h.below hi
  have h2 := h.streamed.seq_toNat h.below hlt
  rw [← hseq, hdec.1, hf.seq] at h2
  obtain rfl : i = j := by omega
  exact hj

/-- Where that holds of every group, all that was accepted has come out, but for what is pending. -/
theorem Carries.complete (hw : Width N w) (h : Carries w es l seq0 gs got) (hcame : ∀ g ∈ gs, Came N (l.hist.map Prod.fst) g) :
    (Channel.takens es).Perm ((Channel.handeds es).flatten ++ pendingAfter l.log) := by
  apply h.channel.complete
  intro i hi
  rw [List.length_map] at hi
  exact h.hands hw hi (hcame _ (List.getElem_mem hi))

/-- A group comes out when as many of its shards come as it has data shards, within
    `fec_buff_num` datagrams of the first. -/
theorem link_hands_over (hw : Width N w) (h : Run N w es l) : ∃ seq0 gs got, Streamed l.log l.encoder seq0 gs ∧
    Channel.Run es ⟨gs.map Sent.packets, pendingAfter l.log, got⟩ ∧ ∀ i (hi : i < gs.length),
      gs[i].total < maxFecPacketNum → gs[i].brings = some gs[i].packets → ∀ before span after, l.hist = before ++ span ++ after →
        (∀ e ∈ before, seqOf e.1 ≠ gs[i].seq) → span.length ≤ N.1 →
          gs[i].needed ≤ distinct gs[i].useful (span.map Prod.fst) → i ∈ got := by
  obtain ⟨seq0, gs, got, hc⟩ := h.carries hw
  refine ⟨seq0, gs, got, hc.streamed, hc.channel, ?_⟩
  intro i hi hn hbrings before span after hsplit hfirst hspan henough
  refine hc.hands hw hi ⟨hn, hbrings, before.map Prod.fst, span.map Prod.fst, after.map Prod.fst, by rw [hsplit]; simp, ?_, ?_, henough⟩
  · intro t ht
    obtain ⟨e, he, rfl⟩ := List.mem_map.mp ht
    exact hfirst e he
  · rw [List.length_map]
    exact hspan

theorem lone_whole : Sent.brings ⟨0, [lone], .rows 1⟩ = some [lone] := by
  unfold Sent.brings
  exact if_pos (by decide)

/-- Its parity shard alone is enough. -/
theorem link_hands_over_lone : ∃ (l : Link leastNum) (gs : List Sent) (got : List Nat), gs = [⟨0, [lone], .rows 1⟩] ∧ 0 ∈ got ∧
    Channel.Run [.took lone, .handed [lone]] ⟨gs.map Sent.packets, pendingAfter l.log, got⟩ := by
  obtain ⟨l, hrun, haccepted, hwire, hhist⟩ := lone_run
  obtain ⟨seq0, gs, got, hstreamed, hchannel, hall⟩ := link_hands_over lone_width hrun
  obtain rfl := lone_groups hstreamed haccepted hwire
  have hlen : l.hist.length = 1 := by rw [← List.length_map Prod.fst, hhist]; rfl
  refine ⟨l, _, got, rfl, ?_, hchannel⟩
  refine hall 0 (by decide) (by decide) lone_whole [] l.hist [] (by simp) (by simp) (by rw [hlen]; decide) ?_
  rw [hhist]
  exact lone_distinct

/-- The network loses nothing that the parity does not make up for. -/
theorem link_loses_nothing (hw : Width N w) (h : Run N w es l) : ∃ seq0 gs, Streamed l.log l.encoder seq0 gs ∧
    ((∀ g ∈ gs, Came N (l.hist.map Prod.fst) g) →
      (Channel.takens es).Perm ((Channel.handeds es).flatten ++ pendingAfter l.log)) := by
  obtain ⟨seq0, gs, got, hc⟩ := h.carries hw
  exact ⟨seq0, gs, hc.streamed, hc.complete hw⟩

/-- The data shard was lost. -/
theorem link_loses_nothing_lone : ∃ (l : Link leastNum) (gs : List Sent), (∀ g ∈ gs, Came leastNum (l.hist.map Prod.fst) g) ∧
    l.hist.map Prod.fst = [parityShard 0 [lone] 1 0] ∧ [lone].Perm ([lone] ++ pendingAfter l.log) := by
  obtain ⟨l, hrun, haccepted, hwire, hhist⟩ := lone_run
  obtain ⟨seq0, gs, hstreamed, hall⟩ := link_loses_nothing lone_width hrun
  obtain rfl := lone_groups hstreamed haccepted hwire
  have hcame : ∀ g ∈ [⟨0, [lone], .rows 1⟩], Came leastNum (l.hist.map Prod.fst) g := by
    intro g hg
    obtain rfl := List.mem_singleton.mp hg
    rw [hhist]
    exact ⟨by decide, lone_whole, [], [parityShard 0 [lone] 1 0], [], by simp, by simp, by simp [leastNum], lone_distinct⟩
  exact ⟨l, _, hcame, hhist, hall hcame⟩

end Link

end UdpSpeeder.Manager
