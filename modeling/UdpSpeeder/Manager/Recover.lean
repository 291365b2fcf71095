/-
  UdpSpeeder.Manager.Recover — a mode 1 group from the encoder's packets to the decoder's.

  The encoder puts (0, 0) into a data shard where a parity shard has (x, y), and the entry
  checks of the decoder take no index that is not below their sum. So no data shard gets in
  (`packetShard_refused`), and the decoder has a group if and only if `x` of its parity shards
  reach it: then it hands out all packets at once, none of which went out before, unless one
  is longer than `max_data_len` (`Completes.packets`).
-/

import UdpSpeeder.Manager.Deliver
import UdpSpeeder.Manager.Ledger
import UdpSpeeder.Manager.Progress

namespace UdpSpeeder.Manager

open Lib Fec

/-! ## What the encoder sends -/

namespace FecEncodeManager

/-- A pending mode 1 group of some run of the encoder: its packets, and the datagrams that
    went out as they came in. -/
inductive Sends : List Bytes → List Bytes → FecEncodeManager → Prop
  | start {log : List EncodeCall} {e : FecEncodeManager} (h : Called log e) (hempty : e.counter = 0) : Sends [] [] e
  | packet {ps data : List Bytes} {e : FecEncodeManager} {o : EncodeOptions} {s t : Bytes} {out : EncodeOut} (h : Sends ps data e)
      (he : e.encodeOne o (some s) = .ok out) (hmode : out.st.fecPar.mode = 1) (hopen : out.st.counter ≠ 0)
      (hsent : out.sent = some [t]) : Sends (ps ++ [s]) (data ++ [t]) out.st

/-- A table whose rows the decoder takes. -/
def RowsTaken (p : FecParameter) : Prop := ∀ i < p.rsCnt, (p.rsPar i).x = i + 1 ∧ (p.rsPar i).x + (p.rsPar i).y ≤ 254

/-- Some run of the encoder in mode 1 sends the packets `ps` as a group, closed by the last of
    them or by the timer: a data shard for each, and the parity shards. -/
inductive SendsGroup : List Bytes → List Bytes → List Bytes → Prop
  | filled {ps data parity : List Bytes} {e : FecEncodeManager} {o : EncodeOptions} {s t : Bytes} {out : EncodeOut}
      (h : Sends ps data e) (he : e.encodeOne o (some s) = .ok out) (hmode : out.st.fecPar.mode = 1)
      (hrows : RowsTaken out.st.fecPar) (hclosed : out.st.counter = 0) (hsent : out.sent = some (t :: parity)) :
      SendsGroup (ps ++ [s]) (data ++ [t]) parity
  | flushed {ps data parity : List Bytes} {e : FecEncodeManager} {o : EncodeOptions} {out : EncodeOut} (h : Sends ps data e)
      (he : e.encodeOne o none = .ok out) (hmode : out.st.fecPar.mode = 1) (hrows : RowsTaken out.st.fecPar)
      (hclosed : out.st.counter = 0) (hsent : out.sent = some parity) : SendsGroup ps data parity

/-- The data shards of packets. -/
def dataShards (seq : U32) (ps : List Bytes) : List Bytes := ps.mapIdx (packetShard seq)

theorem dataShards_concat (seq : U32) (ps : List Bytes) (s : Bytes) :
    dataShards seq (ps ++ [s]) = dataShards seq ps ++ [packetShard seq ps.length s] := List.mapIdx_concat

/-- A call that leaves a mode 1 group open keeps its seq. -/
theorem encodeOne_seq {e : FecEncodeManager} {o : EncodeOptions} {s : Option Bytes} {out : EncodeOut} (he : e.encodeOne o s = .ok out)
    (h1 : out.st.fecPar.mode = 1) (hopen : out.st.counter ≠ 0) : out.st.seq = e.seq := by
  obtain ⟨e0, e', htake, -, htook, hst, -, hpar⟩ := encodeOne_fecPar he
  have hseq : e0.seq = e.seq := by rw [(takeUp_ok htake).1]
  rw [hpar] at h1
  have hst' : out.st.seq = e'.seq ∧ out.st.counter = e'.counter := by rw [hst]; exact ⟨rfl, rfl⟩
  rw [hst'.2] at hopen
  rw [hst'.1, ← hseq]
  generalize out.ret = ret at htook
  cases htook with
  | ignored => rfl
  | taken hopen' hfits hmode happend => omega
  | sent hopen' hmode happend hroom hsend => exact (fastSend_frame hsend).2.2.2.2.1.trans (append_ok happend).seq
  | filled hopen' hfits happend hfull hclose => exact absurd (close_frame hclose).2.1 hopen
  | flushed hopen' hcount hclose => exact absurd (close_frame hclose).2.1 hopen
  | overran hopen' hlong hcount hclose happend => have := hlong.1; omega

theorem Sends.spec {ps data : List Bytes} {e : FecEncodeManager} (h : Sends ps data e) : Pending e ps ∧ data = dataShards e.seq ps := by
  induction h with
  | start h hempty =>
    have hp := h.pending
    rw [List.length_eq_zero_iff.mp (hp.count.symm.trans hempty)] at hp
    exact ⟨hp, rfl⟩
  | @packet ps data e o s t out h he hmode hopen hsent ih =>
    obtain ⟨hp, rfl⟩ := ih
    have hret := encodeOne_sent hp he hsent
    have hafter : EncodeCall.after ⟨e, o, some s, out⟩ ps = ps ++ [s] := by
      simp [EncodeCall.after, EncodeCall.mode, hmode, hret, hopen]
    have hshards := (encodeOne_rows hp he hmode).2.2.2 hret
    rw [hsent] at hshards
    simp only [EncodeCall.rowShards, hopen, Option.toList_some, List.map_cons, List.map_nil, if_false, List.append_nil,
      Option.some.injEq, List.cons.injEq, and_true] at hshards
    refine ⟨hafter ▸ encodeOne_pending hp he, ?_⟩
    rw [encodeOne_seq he hmode hopen, hshards, dataShards_concat]

/-- A mode 1 group is not larger than the table. -/
theorem close_fits {e e' : FecEncodeManager} {o : EncodeOptions} {given : Bool} (h1 : e.fecPar.mode = 1)
    (hr : e.close o given = .ok e') : 0 < e.counter ∧ e.counter ≤ e.fecPar.rsCnt := by
  obtain ⟨e1, shape, fecLen, hcut, hc⟩ := close_ok hr
  obtain ⟨hle, he, rfl, -⟩ := cut_rows (by omega) hcut
  exact ⟨hc.pos, hle⟩

/-- A call that closes a mode 1 group: the table has a row for it. -/
theorem encodeOne_closed {e : FecEncodeManager} {ps : List Bytes} {o : EncodeOptions} {s : Option Bytes} {out : EncodeOut}
    (h : Pending e ps) (he : e.encodeOne o s = .ok out) (h1 : out.st.fecPar.mode = 1) (hret : out.ret = 0)
    (hclosed : out.st.counter = 0) : 0 < (ps ++ s.toList).length ∧ (ps ++ s.toList).length ≤ out.st.fecPar.rsCnt := by
  obtain ⟨e0, e', htake, -, htook, hst, -, hpar⟩ := encodeOne_fecPar he
  have hp := takeUp_pending h htake
  have hcount : out.st.counter = e'.counter := by rw [hst]
  rw [hcount] at hclosed
  rw [hpar] at h1 ⊢
  rw [List.length_append, ← hp.count]
  generalize out.ret = ret at htook hret
  cases htook with
  | ignored => cases hret
  | taken hopen hfits hmode happend => omega
  | sent hopen hmode happend hroom hsend =>
    obtain ⟨hc, -, -, -, -, hpos⟩ := fastSend_frame hsend
    omega
  | filled hopen hfits happend hfull hclose =>
    have ha := append_ok happend
    have := close_fits (ha.fecPar ▸ h1) hclose
    rw [ha.counter, ha.fecPar] at this
    exact this
  | flushed hopen hcount' hclose => exact close_fits h1 hclose
  | overran hopen hlong hcount' hclose happend => have := hlong.1; omega

theorem SendsGroup.spec {ps data parity : List Bytes} (h : SendsGroup ps data parity) : ∃ seq y, 0 < ps.length ∧
    ps.length + y < maxFecPacketNum ∧ data = dataShards seq ps ∧ parity = parityShards seq ps y := by
  -- the row of the table that the group was closed with
  have hsize : ∀ {p : FecParameter} {n : Nat}, RowsTaken p → 0 < n → n ≤ p.rsCnt → n + (p.rsPar (n - 1)).y < maxFecPacketNum := by
    intro p n hrows hpos hle
    obtain ⟨hx, hsum⟩ := hrows (n - 1) (by omega)
    unfold maxFecPacketNum
    omega
  cases h with
  | @filled ps data parity e o s t out h he hmode hrows hclosed hsent =>
    obtain ⟨hp, rfl⟩ := h.spec
    have hret := encodeOne_sent hp he hsent
    obtain ⟨hpos, hle⟩ := encodeOne_closed hp he hmode hret hclosed
    have hshards := (encodeOne_rows hp he hmode).2.2.2 hret
    rw [hsent] at hshards
    simp only [EncodeCall.rowShards, hclosed, Option.toList_some, List.map_cons, List.map_nil, if_true, List.singleton_append,
      Option.some.injEq, List.cons.injEq] at hshards
    exact ⟨_, _, hpos, hsize hrows hpos hle, by rw [hshards.1, dataShards_concat], hshards.2⟩
  | @flushed _ _ _ e o out h he hmode hrows hclosed hsent =>
    obtain ⟨hp, rfl⟩ := h.spec
    have hret := encodeOne_sent hp he hsent
    have hshards := (encodeOne_rows hp he hmode).2.2.2 hret
    obtain ⟨hpos, hle⟩ := encodeOne_closed hp he hmode hret hclosed
    rw [Option.toList_none, List.append_nil] at hpos hle
    rw [hsent] at hshards
    simp only [EncodeCall.rowShards, hclosed, Option.toList_none, List.map_nil, if_true, List.nil_append, List.append_nil,
      Option.some.injEq] at hshards
    exact ⟨_, _, hpos, hsize hrows hpos hle, rfl, hshards⟩

/-- A table of one row, 1:1, in mode 1. -/
def pairing : EncodeOptions where
  gFecPar := { (default : FecParameter) with rsCnt := 1, rsPar := fun _ => ⟨1, 1⟩, mtu := 1250, queueLen := 200, mode := 1 }
  shortPacketOptimize := true
  headerOverhead := 40
  now := 1

theorem pairing_inRange : pairing.gFecPar.InRange := by
  have hrow : ∀ i < 1, i = 0 := fun i hi => by omega
  refine ⟨⟨by decide, fun i hi => ?_, fun i hi => ?_⟩, by decide, by decide, .inr rfl⟩
  · rw [hrow i hi]
    rfl
  · rw [hrow i hi]
    decide

/-- Under it a packet is a group of its own. -/
theorem sendsGroup_pairing {p : Bytes} (hp : p.length ≤ maxDataLen + 4) : SendsGroup [p] (dataShards 0 [p]) (parityShards 0 [p] 1) := by
  let e : FecEncodeManager := clearData { (default : FecEncodeManager) with fecPar := pairing.gFecPar } 0
  have hnew : construct { (default : FecEncodeManager) with fecPar := pairing.gFecPar } pairing.gFecPar 0 = .ok e :=
    construct_self (by decide) 0
  have hcalled : Called [] e := .start hnew
  obtain ⟨out, he, -⟩ := (@encodeOne_returns e pairing (some p) (construct_steady pairing_inRange hnew) pairing_inRange
    fun q hq => by cases hq; exact hp).run (show ¬ pairing.Heavy by unfold EncodeOptions.Heavy; decide)
  have hsame : e.takeUp pairing.gFecPar = .ok e := if_neg fun h => h.2 rfl
  obtain ⟨e0, e', htake, -, htook, hst, -, hpar⟩ := encodeOne_fecPar he
  obtain rfl : e = e0 := Except.ok.inj (hsame.symm.trans htake)
  have hmode : out.st.fecPar.mode = 1 := by rw [hpar]; rfl
  obtain ⟨hret, hclosed⟩ : out.ret = 0 ∧ out.st.counter = 0 := by
    have hcount : out.st.counter = e'.counter := by rw [hst]
    rw [hcount]
    generalize out.ret = ret at htook
    cases htook with
    | ignored hzero hwhy =>
      obtain ⟨tail, -, hlong⟩ := hwhy p rfl
      exact absurd hlong.1 Nat.one_ne_zero
    | taken hopen hfits hmode => exact absurd hmode Nat.one_ne_zero
    | @sent _ e1 _ tail hopen h1 happend hroom hsend =>
      have ha := append_ok happend
      have htail : tail = ⟨1, 1⟩ := (Except.ok.inj hopen.last).symm
      refine absurd (.inr ⟨ha.fecPar ▸ h1, ?_⟩) hroom
      rw [ha.counter, htail]
      rfl
    | filled hopen hfits happend hfull hclose => exact ⟨rfl, (close_frame hclose).2.1⟩
    | overran hopen hlong => exact absurd hlong.1 Nat.one_ne_zero
  have hsent := (encodeOne_rows hcalled.pending he hmode).2.2.2 hret
  simp only [EncodeCall.rowShards, hclosed, hpar] at hsent
  have hrows : RowsTaken out.st.fecPar := by
    rw [hpar]
    intro i hi
    obtain rfl : i = 0 := Nat.lt_one_iff.mp hi
    exact ⟨rfl, by decide⟩
  exact .filled (.start hcalled rfl) he hmode hrows hclosed hsent

end FecEncodeManager

variable {N : FecBuffNum}

namespace FecDecodeManager

open DecodeState FecEncodeManager

/-! ## What gets in -/

/-- A data shard has the index of a packet and names no shards at all. -/
theorem packetShard_refused {seq : U32} {i : Nat} {p s : Bytes} (hi : i < 256) (hs : s = packetShard seq i p) :
    ∃ h, parseHeader s = some h ∧ h.seq = seq ∧ h.refused ≠ none := by
  subst hs
  refine ⟨_, parseHeader_headerBytes _ (by omega) (by omega) (by omega) hi, rfl, ?_⟩
  unfold Header.refused
  simp only [Nat.zero_le, Nat.add_zero, if_true]
  split
  · simp
  split
  · simp
  split
  · simp
  split <;> simp

theorem parityShard_rows (seq : U32) {ps : List Bytes} {y i : Nat} (hn : ps.length + y < maxFecPacketNum) (hlo : ps.length ≤ i)
    (hi : i < ps.length + y) : ∃ p, parseHeader (parityShard seq ps y (i - ps.length)) = some ⟨seq, 1, ps.length, y, i, p⟩ ∧
      p.length = longestRecord ps ∧ ∀ j < longestRecord ps, mem p j = shard ps.length (packetRows ps) i j := by
  unfold maxFecPacketNum at hn
  unfold parityShard
  rw [Nat.add_sub_cancel' hlo]
  refine ⟨_, parseHeader_headerBytes _ (by omega) (by omega) (by omega) (by omega), slice_length _ _ _, fun j hj => ?_⟩
  rw [mem_slice _ _ _ hj, Nat.zero_add]

theorem two_le_longestRecord {ps : List Bytes} (hpos : 0 < ps.length) : 2 ≤ longestRecord ps := by
  have := le_longestRecord (List.getElem_mem hpos)
  rw [record_length] at this
  omega

/-- The shards of a mode 1 group that get in. -/
noncomputable def paritySet (seq : U32) (ps : List Bytes) (y : Nat) (hpos : 0 < ps.length) (hn : ps.length + y < maxFecPacketNum) :
    ShardSet where
  seq := seq
  type := 1
  x := ps.length
  y := y
  len := longestRecord ps
  lo := ps.length
  blocks := packetRows ps
  bytes i := parityShard seq ps y (i - ps.length)
  pos := hpos
  small := hn
  typed := .inr ⟨rfl, two_le_longestRecord hpos⟩
  rows _ hlo hi := parityShard_rows seq hn hlo hi

/-! ## What comes out -/

variable {st0 st : FecDecodeManager (FlatTables N)} {s : Bytes} {o : FeedOut (FlatTables N)} {seq : U32} {ps : List Bytes} {y : Nat}
  {hpos : 0 < ps.length} {hn : ps.length + y < maxFecPacketNum}

/-- A row as it was coded reads as its packet. -/
theorem packetRows_reads {f : Nat → Byte} {i : Nat} (hi : i < ps.length) (hshort : ps[i].length ≤ 65535)
    (hf : ∀ j < longestRecord ps, f j = packetRows ps i j) : readU16 f 0 = ps[i].length ∧ slice f 2 ps[i].length = ps[i] := by
  have hat : HasAt f 0 (record ps[i]) := by
    intro j hj
    rw [Nat.zero_add, hf j (hj.trans_le (le_longestRecord (List.getElem_mem hi))), packetRows, List.getD_eq_getElem _ _ hi]
  rw [record, HasAt.append] at hat
  exact ⟨hasAt_be16 hat.1 hshort, hat.2.slice_eq⟩

/-- The completing call of a mode 1 group hands out all of its packets, or none. -/
theorem Completes.packets {ss : List Bytes} {t : FlatTables N} {d : DecodeState} {g : FecGroup} {h : Header} {c : DecodeCall}
    (hc : Completes (paritySet seq ps y hpos hn) ss d g h c) (hshort : ∀ p ∈ ps, p.length ≤ 65535)
    (hp : prepare N st s = .ok (.stored t d g h (some c))) (ho : feedOne N st s = .ok o) :
    o.packets = if ∀ p ∈ ps, p.length ≤ maxDataLen then some ps else none := by
  obtain ⟨d', hdec, hout⟩ := hc.decodes ho hp
  have hcount := decodeGroup_count hc.fits hdec
  have htype : h.type = 1 := hc.type
  unfold decodeGroup at hdec
  rw [if_neg (by omega)] at hdec
  obtain ⟨codes', m', arr', ptr, d1, hdec', hptr, -, hrun, hdone⟩ := decodeShards_run h.innerIndex hc.fits hcount hc.ready
  rw [hrun] at hdec
  cases hdec
  have hk : c.k = ps.length := hc.k
  have hsize : c.size = longestRecord ps := hc.size
  have hkn := hc.fits.kn
  -- every row is its packet, and none of them was there before
  have hread : ∀ i (hi : i < ps.length), readU16 (m' (ptr i)) 0 = ps[i].length ∧ slice (m' (ptr i)) 2 ps[i].length = ps[i] :=
    fun i hi => packetRows_reads hi (hshort _ (List.getElem_mem hi)) fun j hj =>
      (hdec' _ hc.rows).content hc.apart i (by omega) _ (hptr i (by omega)) j (by omega)
  have hmissed : missedPackets d.outputSArrBuf h.innerIndex c.k = List.range ps.length := by
    unfold missedPackets
    rw [hk, List.filter_eq_self]
    intro i hi
    have hi := List.mem_range.mp hi
    have hnone : c.arr i = none := by
      by_contra hsome
      have hlo : ps.length ≤ i := (ShardSet.mem_arrived.mp (hc.present i (by omega) (Option.isSome_iff_ne_none.mpr hsome))).2.1
      omega
    rw [hc.sArr Nat.one_ne_zero i (by omega), hnone]
    simp
  rw [hmissed, hk] at hdone
  have hall : d'.readyForOutput = true ↔ ∀ p ∈ ps, p.length ≤ maxDataLen := by
    rw [hdone.ready, List.forall_mem_iff_getElem]
    exact forall₂_congr fun i hi => by rw [(hread i hi).1]
  rcases hout with ⟨hno, hpackets⟩ | ⟨hyes, -, qs, hqs, hpackets⟩
  · rw [hpackets, if_neg fun h => ?_]
    rw [hall.mpr h] at hno
    cases hno
  · rw [hpackets, if_pos (hall.mp hyes)]
    obtain ⟨hsrc, hnum, harr⟩ := hdone.arr hyes
    have hbufs : d'.bufs = m' := by
      unfold bufs
      rw [hdone.fecData]
      rfl
    have hgiven := @outputPackets_arr d' ((List.range ps.length).map fun i => (ptr i, (ps.getD i []).length)) hsrc
      (by rw [hnum]; simp) fun j hj => by
        have hj : j < ps.length := by simpa using hj
        obtain ⟨h1, h2⟩ := harr j (by simpa using hj)
        simp only [List.getElem_range] at h1 h2
        simp only [List.getElem_map, List.getElem_range, List.getD_eq_getElem _ _ hj]
        exact ⟨h1, h2.trans (hread j hj).1⟩
    rw [hgiven] at hqs
    cases hqs
    rw [hbufs, List.map_map, Option.some.injEq]
    refine List.ext_getElem (by simp) fun j h1 h2 => ?_
    simp only [List.getElem_map, List.getElem_range, Function.comp_apply, List.getD_eq_getElem _ _ h2]
    exact (hread j h2).2

/-! ## A group among other datagrams -/

variable {base : U32} {w : Nat} {f : ShardSet} {hist : List (Bytes × FeedOut (FlatTables N))} {ss : List Bytes}

/-- A waiting group never goes to `rs_decode2` with too few shards. -/
theorem Tracks.enough (ht : Tracks f hist st) (hne : f.seq ≠ emptySeq) (hs : Safe N st) (honly : f.Only s)
    (hown : ∀ h, parseHeader s = some h → h.seq = f.seq) (hlen : s.length + 100 < bufLen) : Enough N st s := by
  rintro h g ⟨ha, ⟨g', hacc, rfl⟩, -⟩ htype hout -
  rcases honly h ha.parse (hown h ha.parse) with hbad | ⟨i, hi, hi', rfl⟩
  · exact absurd ha.checks hbad
  obtain ⟨q, hq, hlong, -⟩ := f.rows i hi hi'
  have hpayload := Header.parseHeader_length hq
  obtain rfl := Option.some.inj (ha.parse.symm.trans hq)
  have haccd := FecGroup.accept_ok hacc
  have hpass := Header.passed ha.checks
  have hrec := joined_record ((owner_record hs fun e => absurd e hne).accepted haccd hpass (by omega)) haccd hpass hs.index
  have hd := (haccd.taken (Nat.pos_iff_ne_zero.mp f.pos)).joined ⟨f.seq, f.type, f.x, f.y, i, q⟩ st.index
  have hx : _ = (f.x : Int) := hd.dataNum
  -- the shards that count are all below the group's size
  have hbelow : ∀ j, (g'.joined ⟨f.seq, f.type, f.x, f.y, i, q⟩ st.index).hasShard j = true → j < f.x + f.y := by
    intro j hj
    rw [FecGroup.hasShard_joined, Bool.or_eq_true, decide_eq_true_iff] at hj
    rcases hj with rfl | hj
    · exact hi'
    · unfold FecGroup.hasShard at hj
      rw [haccd.bitmap] at hj
      exact (ShardSet.mem_arrived.mp ((ht.has j).mp hj)).1
  have hsmall := f.small
  unfold maxFecPacketNum at hsmall
  have hcount := hrec.count
  rw [FecGroup.stored_eq (by omega) hbelow] at hcount
  rw [hd.total, ← hcount]
  unfold Manager.outcome at hout
  rw [if_neg htype, hx] at hout
  rw [hx]
  split at hout
  · split at hout
    · cases hout
    · split at hout
      · assumption
      · cases hout
  · cases hout

/-- What follows a marked seq is dropped. -/
theorem enough_of_marks {S : U32} (hm : Marks st S) (hown : ∀ h, parseHeader s = some h → h.seq = S) : Enough N st s := by
  rintro h g ⟨ha, -, -⟩ - - -
  have := (FlatTables.isValid_iff _ _).mp ha.valid
  rw [hown h ha.parse] at this
  exact absurd hm this

theorem dataShards_mem {t : Bytes} (ht : t ∈ dataShards seq ps) : ∃ i < ps.length, ∃ p, t = packetShard seq i p := by
  obtain ⟨i, hi, rfl⟩ := List.mem_mapIdx.mp ht
  exact ⟨i, hi, _, rfl⟩

theorem shards_seq (hn : ps.length + y < maxFecPacketNum) {t : Bytes} (ht : t ∈ dataShards seq ps ++ parityShards seq ps y) :
    ∃ h, parseHeader t = some h ∧ h.seq = seq := by
  rcases List.mem_append.mp ht with ht | ht
  · obtain ⟨i, hi, p, rfl⟩ := dataShards_mem ht
    obtain ⟨h, hp, hseq, -⟩ := @packetShard_refused seq i p _ (by unfold maxFecPacketNum at hn; omega) rfl
    exact ⟨h, hp, hseq⟩
  · obtain ⟨j, hj, rfl⟩ := List.mem_map.mp ht
    have hj := List.mem_range.mp hj
    obtain ⟨p, hp, -⟩ := parityShard_rows seq hn (Nat.le_add_right ps.length j) (by omega)
    rw [Nat.add_sub_cancel_left] at hp
    exact ⟨_, hp, rfl⟩

theorem longestRecord_le {m : Nat} (h : ∀ p ∈ ps, p.length ≤ m) : longestRecord ps ≤ m + 2 := by
  have hfold : ∀ (l : List Nat) (a : Nat), a ≤ m + 2 → (∀ b ∈ l, b ≤ m + 2) → l.foldl max a ≤ m + 2 := by
    intro l
    induction l with
    | nil => exact fun a ha _ => ha
    | cons b l ih => exact fun a ha hl => ih _ (max_le ha (hl b List.mem_cons_self)) fun c hc => hl c (List.mem_cons_of_mem _ hc)
  refine hfold _ 0 (Nat.zero_le _) fun b hb => ?_
  obtain ⟨p, hp, rfl⟩ := List.mem_map.mp hb
  have := h p hp
  rw [record_length]
  omega

theorem shards_short {m : Nat} (h : ∀ p ∈ ps, p.length ≤ m) {t : Bytes} (ht : t ∈ dataShards seq ps ++ parityShards seq ps y) :
    t.length ≤ 8 + (m + 2) := by
  rcases List.mem_append.mp ht with ht | ht
  · obtain ⟨i, hi, rfl⟩ := List.mem_mapIdx.mp ht
    have := h _ (List.getElem_mem hi)
    rw [packetShard, List.length_append, headerBytes_length, record_length]
    omega
  · obtain ⟨j, hj, rfl⟩ := List.mem_map.mp ht
    have := longestRecord_le h
    rw [parityShard, List.length_append, headerBytes_length, slice_length]
    omega

/-- The shards of a group among datagrams of other seqs: no call evicts one of them, and the
    others do not stop the decoder. -/
structure Amid (base : U32) (w : Nat) (st0 : FecDecodeManager (FlatTables N)) (seq : U32) (shards ss : List Bytes) : Prop where
  narrow : Narrow N base w
  window : InWindow base w seq
  within : Within base w ss
  own : ∀ s ∈ ss, s ∈ shards ∨ ∀ h, parseHeader s = some h → h.seq ≠ seq
  kept : AllSteps N (fun st s => ¬ Evicts st s seq) (clear N st0) ss
  others : AllSteps N (fun st s => s ∈ shards ∨ Harmless N st s) (clear N st0) ss

theorem Amid.only (h : Amid base w st0 seq (dataShards seq ps ++ parityShards seq ps y) ss) (hpos : 0 < ps.length)
    (hn : ps.length + y < maxFecPacketNum) (hs : s ∈ ss) : (paritySet seq ps y hpos hn).Only s := by
  intro q hq hseq
  rcases List.mem_append.mp ((h.own s hs).resolve_right fun hno => hno q hq hseq) with hmem | hmem
  · obtain ⟨i, hi, p, rfl⟩ := dataShards_mem hmem
    obtain ⟨q', hq', -, hbad⟩ := @packetShard_refused seq i p _ (by unfold maxFecPacketNum at hn; omega) rfl
    obtain rfl := Option.some.inj (hq.symm.trans hq')
    exact .inl hbad
  · obtain ⟨j, hj, rfl⟩ := List.mem_map.mp hmem
    refine .inr ⟨ps.length + j, Nat.le_add_right _ _, Nat.add_lt_add_left (List.mem_range.mp hj) _, ?_⟩
    show _ = parityShard seq ps y (ps.length + j - ps.length)
    rw [Nat.add_sub_cancel_left]

theorem Amid.follows {later : List Bytes} (h : Amid base w st0 seq (dataShards seq ps ++ parityShards seq ps y) ss)
    (hpos : 0 < ps.length) (hn : ps.length + y < maxFecPacketNum) (hss : hist.map Prod.fst ++ later = ss) :
    Follows base w (paritySet seq ps y hpos hn) st0 hist := by
  subst hss
  refine ⟨h.narrow, h.window, fun s hs => h.within s (List.mem_append_left _ hs),
    fun s hs => h.only hpos hn (List.mem_append_left _ hs), ?_⟩
  rintro past e rest st' rfl hf -
  exact h.kept past st' e.1 (rest.map Prod.fst ++ later) hf (by simp)

/-- Every call returns. -/
theorem Amid.run (h : Amid base w st0 seq (dataShards seq ps ++ parityShards seq ps y) ss) (hpos : 0 < ps.length)
    (hn : ps.length + y < maxFecPacketNum) (hshort : ∀ p ∈ ps, p.length ≤ maxDataLen + 4) :
    ∃ hist st, Fed N (clear N st0) hist st ∧ hist.map Prod.fst = ss := by
  refine (fed_iff_harmless st0 ss (.of_mem fun _ _ hs _ ha e => absurd e (h.within.proper h.narrow hs ha))).mpr ?_
  intro hist st s later hf e
  rcases h.others hist st s later hf e with hs | hs
  · have hfollow := h.follows hpos hn e
    have hlen : s.length + 100 < bufLen := by
      have := shards_short hshort hs
      unfold bufLen
      omega
    have hown : ∀ q, parseHeader s = some q → q.seq = seq := by
      intro q hq
      obtain ⟨q', hq', hseq⟩ := shards_seq hn hs
      obtain rfl := Option.some.inj (hq.symm.trans hq')
      exact hseq
    refine ⟨hlen, ?_⟩
    rcases fed_tracks hf hfollow with ht | ⟨-, hm⟩
    · exact ht.enough (fun e => h.narrow.marker (e ▸ h.window)) (fed_sound h.narrow hf hfollow.within).1.safe
        (h.only hpos hn (by rw [← e]; simp)) hown hlen
    · exact enough_of_marks hm hown
  · exact hs

/-- What the calls with the group's shards hand out. -/
def handed (shards : List Bytes) (hist : List (Bytes × FeedOut (FlatTables N))) : List Bytes :=
  (hist.filter fun e => decide (e.1 ∈ shards)).flatMap fun e => e.2.packets.getD []

theorem handed_append (shards : List Bytes) (hist later : List (Bytes × FeedOut (FlatTables N))) :
    handed shards (hist ++ later) = handed shards hist ++ handed shards later := by
  simp [handed]

theorem handed_nil {shards : List Bytes} (h : ∀ e ∈ hist, e.1 ∈ shards → e.2.packets = none) : handed shards hist = [] := by
  refine List.flatMap_eq_nil_iff.mpr fun e he => ?_
  obtain ⟨he, hs⟩ := List.mem_filter.mp he
  rw [h e he (of_decide_eq_true hs)]
  rfl

theorem distinct_parity (hpos : 0 < ps.length) (hn : ps.length + y < maxFecPacketNum) (ss : List Bytes) :
    ((paritySet seq ps y hpos hn).arrived ss).length = distinct (parityShards seq ps y) ss := by
  have hdata : ((List.range ps.length).filter fun i => decide (ps.length ≤ i ∧ parityShard seq ps y (i - ps.length) ∈ ss)) = [] := by
    refine List.filter_eq_nil_iff.mpr fun i hi => ?_
    have hi := List.mem_range.mp hi
    simp only [decide_eq_true_eq]
    omega
  have harrived : (paritySet seq ps y hpos hn).arrived ss =
      (List.range (ps.length + y)).filter fun i => decide (ps.length ≤ i ∧ parityShard seq ps y (i - ps.length) ∈ ss) := rfl
  unfold distinct parityShards
  rw [harrived, List.range_add, List.filter_append, hdata, List.nil_append, List.filter_map, List.filter_map, List.length_map, List.length_map]
  refine congrArg List.length (List.filter_congr fun j _ => ?_)
  simp

/-- With `x` parity shards fed, and only then, the packets come out, all of them short enough. -/
theorem Amid.handed (h : Amid base w st0 seq (dataShards seq ps ++ parityShards seq ps y) ss) (hpos : 0 < ps.length)
    (hn : ps.length + y < maxFecPacketNum) (hshort : ∀ p ∈ ps, p.length ≤ maxDataLen + 4) (hf : Fed N (clear N st0) hist st)
    (hss : hist.map Prod.fst = ss) : handed (dataShards seq ps ++ parityShards seq ps y) hist =
      if ps.length ≤ distinct (parityShards seq ps y) ss ∧ ∀ p ∈ ps, p.length ≤ maxDataLen then ps else [] := by
  subst hss
  have hfollow := h.follows hpos hn (List.append_nil _)
  have hown : ∀ s ∈ dataShards seq ps ++ parityShards seq ps y, Own seq s := by
    intro s hs q hq
    obtain ⟨q', hq', hseq⟩ := shards_seq hn hs
    obtain rfl := Option.some.inj (hq.symm.trans hq')
    exact hseq
  rw [← distinct_parity hpos hn]
  by_cases hx : ps.length ≤ ((paritySet seq ps y hpos hn).arrived (hist.map Prod.fst)).length
  · obtain ⟨past, e, later, rfl, h1, h2, hquiet⟩ := group_completed hf hfollow hx
    obtain ⟨h3, -, st', t, d, g, q, c, ho, hp, hc⟩ := fed_completes hf hfollow rfl h1 h2
    -- the completing datagram is one of the shards
    have hmem : e.1 ∈ parityShards seq ps y := by
      by_contra hno
      have hsame : (paritySet seq ps y hpos hn).arrived ((past ++ [e]).map Prod.fst) =
          (paritySet seq ps y hpos hn).arrived (past.map Prod.fst) := by
        rw [List.map_append]
        refine ShardSet.arrived_same fun i hlo hi he => absurd ?_ hno
        rw [he]
        exact List.mem_map_of_mem (List.mem_range.mpr (Nat.sub_lt_left_of_lt_add hlo hi))
      rw [hsame] at h2
      exact absurd h1 (Nat.not_lt.mpr h2)
    have hpackets := hc.packets (fun p hp => (hshort p hp).trans (by decide)) hp ho
    have hnone : ∀ l : List (Bytes × FeedOut (FlatTables N)), (∀ e' ∈ l, e' ∈ past ++ later) →
        FecDecodeManager.handed (dataShards seq ps ++ parityShards seq ps y) l = [] := fun l hl =>
      handed_nil fun e' he' hs => hquiet e' (hl e' he') (hown _ hs)
    rw [← List.singleton_append, handed_append, handed_append, hnone past fun e' he' => List.mem_append_left _ he',
      hnone later fun e' he' => List.mem_append_right _ he', List.nil_append, List.append_nil]
    unfold FecDecodeManager.handed
    rw [List.filter_cons, if_pos (decide_eq_true (List.mem_append_right _ hmem)), List.filter_nil, List.flatMap_cons,
      List.flatMap_nil, List.append_nil, hpackets]
    by_cases hall : ∀ p ∈ ps, p.length ≤ maxDataLen
    · rw [if_pos hall, if_pos ⟨hx, hall⟩, Option.getD_some]
    · rw [if_neg hall, if_neg fun h' => hall h'.2, Option.getD_none]
  · rw [if_neg fun h' => hx h'.1]
    refine handed_nil fun e he hs => ?_
    obtain ⟨past, later, rfl⟩ := List.append_of_mem he
    refine fed_quiet hf hfollow rfl (fun _ => ?_) (hown _ hs)
    have := arrived_mono (paritySet seq ps y hpos hn) ((past ++ [e]).map Prod.fst) (later.map Prod.fst)
    rw [← List.map_append, List.append_assoc, List.singleton_append] at this
    exact Nat.lt_of_le_of_lt this (Nat.lt_of_not_le hx)

/-! ## What should come out -/

/-- The packets that are due: all of them, once a parity shard and as many shards as packets
    were fed; else those whose data shard was. -/
def due (ps data parity ss : List Bytes) : List Bytes :=
  if (∃ t ∈ parity, t ∈ ss) ∧ ps.length ≤ distinct (data ++ parity) ss then ps
  else ((ps.zip data).filter fun x => decide (x.2 ∈ ss)).map Prod.fst

/-- Every packet that is due was handed out, and no packet twice, nor anything else. -/
structure HandedOver (ps data parity : List Bytes) (hist : List (Bytes × FeedOut (FlatTables N))) : Prop where
  due : (due ps data parity (hist.map Prod.fst)).Subperm (handed (data ++ parity) hist)
  once : (handed (data ++ parity) hist).Subperm ps

theorem distinct_append (ts us ss : List Bytes) : distinct (ts ++ us) ss = distinct ts ss + distinct us ss := by
  simp [distinct]

theorem due_sublist {ps data : List Bytes} (parity ss : List Bytes) (hlen : ps.length ≤ data.length) :
    (due ps data parity ss).Sublist ps := by
  unfold due
  split
  · exact List.Sublist.refl _
  · have := (List.filter_sublist (l := ps.zip data) (p := fun x => decide (x.2 ∈ ss))).map Prod.fst
    rwa [List.map_fst_zip hlen] at this

/-- Nothing is due of a group with packets as long as no data shard and too few parity shards were fed. -/
theorem due_nil {ps data parity ss : List Bytes} (hlen : data.length = ps.length) (hpos : 0 < ps.length) :
    due ps data parity ss = [] ↔ distinct parity ss < ps.length ∧ ∀ t ∈ data, t ∉ ss := by
  have hne : ps ≠ [] := List.ne_nil_of_length_pos hpos
  have hdata : ((ps.zip data).filter fun x => decide (x.2 ∈ ss)).map Prod.fst = [] ↔ ∀ t ∈ data, t ∉ ss := by
    rw [List.map_eq_nil_iff, List.filter_eq_nil_iff]
    constructor
    · intro h t ht hmem
      have hsnd : (ps.zip data).map Prod.snd = data := List.map_snd_zip hlen.le
      rw [← hsnd] at ht
      obtain ⟨x, hx, rfl⟩ := List.mem_map.mp ht
      exact h x hx (decide_eq_true hmem)
    · intro h x hx hmem
      exact h x.2 (List.of_mem_zip hx).2 (of_decide_eq_true hmem)
  -- with no data shard fed, only parity shards are counted
  have hcount : (∀ t ∈ data, t ∉ ss) → distinct data ss = 0 := by
    intro h
    unfold distinct
    rw [List.length_eq_zero_iff, List.filter_eq_nil_iff]
    exact fun t ht hmem => h t ht (of_decide_eq_true hmem)
  unfold due
  constructor
  · intro h
    split at h
    · exact absurd h hne
    · rename_i hfew
      have hno := hdata.mp h
      refine ⟨Nat.lt_of_not_le fun hle => hfew ⟨?_, ?_⟩, hno⟩
      · obtain ⟨t, ht⟩ := List.exists_mem_of_length_pos (hpos.trans_le hle)
        obtain ⟨ht, hmem⟩ := List.mem_filter.mp ht
        exact ⟨t, ht, of_decide_eq_true hmem⟩
      · rw [distinct_append]
        omega
  · rintro ⟨hlt, hno⟩
    rw [if_neg fun h => ?_]
    · exact hdata.mpr hno
    · have := h.2
      rw [distinct_append, hcount hno] at this
      omega

/-- A mode 1 group reaches the other side if and only if as many parity shards do as it has
    packets and none of these is over `max_data_len`, or if nothing was to come out of it:
    whatever is lost, repeated or reordered, and whatever of other seqs is mixed in. -/
theorem rows_delivered (base : U32) (w : Nat) (st0 : FecDecodeManager (FlatTables N)) (ps data parity ss : List Bytes) (S : U32)
    (he : SendsGroup ps data parity) (hshort : ∀ p ∈ ps, p.length ≤ maxDataLen + 4)
    (hhead : ∃ t ∈ data ++ parity, ∃ h, parseHeader t = some h ∧ h.seq = S) (hw : w ≤ min (groupTableSize N.1) antiReplayTableSize)
    (hm : ¬ InWindow base w emptySeq) (hS : InWindow base w S) (hin : Within base w ss)
    (hown : ∀ s ∈ ss, s ∈ data ++ parity ∨ ∀ h, parseHeader s = some h → h.seq ≠ S)
    (hkept : AllSteps N (fun st s => ¬ Evicts st s S) (clear N st0) ss)
    (hothers : AllSteps N (fun st s => s ∈ data ++ parity ∨ Harmless N st s) (clear N st0) ss) :
    (∃ hist st, Fed N (clear N st0) hist st ∧ hist.map Prod.fst = ss ∧ HandedOver ps data parity hist) ↔
      (ps.length ≤ distinct parity ss ∧ ∀ p ∈ ps, p.length ≤ maxDataLen) ∨ distinct parity ss < ps.length ∧ ∀ t ∈ data, t ∉ ss := by
  obtain ⟨seq, y, hpos, hn, rfl, rfl⟩ := he.spec
  obtain rfl : seq = S := by
    obtain ⟨t, ht, h, hp, hseq⟩ := hhead
    obtain ⟨h', hp', hseq'⟩ := shards_seq hn ht
    obtain rfl := Option.some.inj (hp.symm.trans hp')
    exact hseq'.symm.trans hseq
  have hamid : Amid base w st0 seq (dataShards seq ps ++ parityShards seq ps y) ss :=
    ⟨⟨by omega, by omega, hm⟩, hS, hin, hown, hkept, hothers⟩
  have hlen : (dataShards seq ps).length = ps.length := List.length_mapIdx
  constructor
  · rintro ⟨hist, st, hf, rfl, hdue, -⟩
    rw [hamid.handed hpos hn hshort hf rfl] at hdue
    split at hdue
    · rename_i hall
      exact .inl hall
    · exact .inr ((due_nil hlen hpos).mp (List.subperm_nil.mp hdue))
  · intro hcond
    obtain ⟨hist, st, hf, rfl⟩ := hamid.run hpos hn hshort
    have hhanded := hamid.handed hpos hn hshort hf rfl
    refine ⟨hist, st, hf, rfl, ?_, ?_⟩
    · rcases hcond with hall | hfew
      · rw [hhanded, if_pos hall]
        exact (due_sublist _ _ hlen.ge).subperm
      · rw [(due_nil hlen hpos).mpr hfew]
        exact List.nil_subperm
    · rw [hhanded]
      split
      · exact List.Subperm.refl _
      · exact List.nil_subperm

/-- The packet that is a group of its own. -/
def lone : Bytes := bytes [7]

theorem lone_size : [lone].length + 1 < maxFecPacketNum := by decide

theorem lone_group : SendsGroup [lone] (dataShards 0 [lone]) (parityShards 0 [lone] 1) := sendsGroup_pairing (by decide)

/-- One of its shards, alone. -/
theorem lone_amid {t : Bytes} (ht : t ∈ dataShards 0 [lone] ++ parityShards 0 [lone] 1) :
    Within 0 1 [t] ∧ (∀ s ∈ [t], s ∈ dataShards 0 [lone] ++ parityShards 0 [lone] 1 ∨ ∀ h, parseHeader s = some h → h.seq ≠ 0) ∧
      AllSteps leastNum (fun st s => ¬ Evicts st s 0) leastDecoder [t] ∧
      AllSteps leastNum (fun st s => s ∈ dataShards 0 [lone] ++ parityShards 0 [lone] 1 ∨ Harmless leastNum st s) leastDecoder [t] := by
  refine ⟨?_, fun s hs => .inl ?_, .single ?_, .single (.inl ht)⟩
  · intro s hs h hp
    rw [List.mem_singleton.mp hs] at hp
    obtain ⟨q, hq, hseq⟩ := shards_seq lone_size ht
    obtain rfl := Option.some.inj (hp.symm.trans hq)
    rw [hseq]
    decide
  · rwa [List.mem_singleton.mp hs]
  · rintro ⟨h, g, -, -, hu, -⟩
    cases hu

theorem rows_delivered_lone : ∃ data parity, SendsGroup [lone] data parity ∧
    ∃ hist st, Fed leastNum leastDecoder hist st ∧ hist.map Prod.fst = parity ∧ HandedOver [lone] data parity hist := by
  have hmem : parityShard 0 [lone] 1 0 ∈ parityShards 0 [lone] 1 := List.mem_map_of_mem (by decide)
  have hall := List.mem_append_right (dataShards 0 [lone]) hmem
  obtain ⟨hin, hown, hkept, hothers⟩ := lone_amid hall
  refine ⟨_, _, lone_group, (rows_delivered 0 1 default [lone] (dataShards 0 [lone]) (parityShards 0 [lone] 1) [parityShard 0 [lone] 1 0]
    0 lone_group (by decide) ⟨_, hall, shards_seq lone_size hall⟩ (by decide) (by decide) (by decide) hin hown hkept hothers).mpr
    (.inl ⟨?_, by decide⟩)⟩
  refine List.length_pos_iff_exists_mem.mpr ⟨_, List.mem_filter.mpr ⟨hmem, ?_⟩⟩
  simp

/-- Its data shard arrives, and nothing comes out. -/
theorem rows_not_delivered : ¬ ∀ (N : FecBuffNum) (base : U32) (w : Nat) (st0 : FecDecodeManager (FlatTables N))
    (ps data parity ss : List Bytes) (S : U32), SendsGroup ps data parity → (∀ p ∈ ps, p.length ≤ maxDataLen + 4) →
      (∃ t ∈ data ++ parity, ∃ h, parseHeader t = some h ∧ h.seq = S) → w ≤ min (groupTableSize N.1) antiReplayTableSize →
      ¬ InWindow base w emptySeq → InWindow base w S → Within base w ss →
      (∀ s ∈ ss, s ∈ data ++ parity ∨ ∀ h, parseHeader s = some h → h.seq ≠ S) →
      AllSteps N (fun st s => ¬ Evicts st s S) (clear N st0) ss →
      AllSteps N (fun st s => s ∈ data ++ parity ∨ Harmless N st s) (clear N st0) ss →
        ∃ hist st, Fed N (clear N st0) hist st ∧ hist.map Prod.fst = ss ∧ HandedOver ps data parity hist := by
  intro hclaim
  have hmem : packetShard 0 0 lone ∈ dataShards 0 [lone] := by decide
  have hall := List.mem_append_left (parityShards 0 [lone] 1) hmem
  obtain ⟨hin, hown, hkept, hothers⟩ := lone_amid hall
  obtain ⟨hist, st, hf, hss, hdue, -⟩ := hclaim leastNum 0 1 default [lone] (dataShards 0 [lone]) (parityShards 0 [lone] 1)
    [packetShard 0 0 lone] 0 lone_group (by decide) ⟨_, hall, shards_seq lone_size hall⟩ (by decide) (by decide) (by decide) hin hown hkept
    hothers
  have hamid : Amid 0 1 default 0 (dataShards 0 [lone] ++ parityShards 0 [lone] 1) [packetShard 0 0 lone] :=
    ⟨⟨by decide, by decide, by decide⟩, by decide, hin, hown, hkept, hothers⟩
  rw [hamid.handed (by decide) lone_size (by decide) hf hss, hss] at hdue
  -- no parity shard was fed: a data shard names no shape
  have hnone : distinct (parityShards 0 [lone] 1) [packetShard 0 0 lone] = 0 := by
    refine List.length_eq_zero_iff.mpr (List.filter_eq_nil_iff.mpr fun t ht hfed => ?_)
    obtain ⟨j, -, rfl⟩ := List.mem_map.mp ht
    have h := congrArg (fun s => (mem s 5).toNat) (List.mem_singleton.mp (of_decide_eq_true hfed))
    exact absurd h (by simp only [parityShard, packetShard, mem_headerBytes.2.2.1]; decide)
  rw [hnone, if_neg fun h => absurd h.1 (by decide)] at hdue
  exact ((@due_nil [lone] (dataShards 0 [lone]) _ _ rfl (by decide)).mp (List.subperm_nil.mp hdue)).2 _ hmem List.mem_cons_self

end FecDecodeManager

end UdpSpeeder.Manager
