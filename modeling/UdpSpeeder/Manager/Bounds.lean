/-
  UdpSpeeder.Manager.Bounds — where the packets handed out lie.

  A type 0 group is parsed inside what was joined, and a type 1 shard handed out on arrival
  ends where its payload does. A group of another type that is completed takes the length of
  every packet from the packet's own first two bytes, and nothing compares them with the
  length of the shards: `handed_out_inside` is exact about it.
-/

import UdpSpeeder.Manager.Ring

namespace UdpSpeeder.Manager

open Lib Fec

variable {N : FecBuffNum}

namespace FecDecodeManager

open DecodeState

/-- What a stored shard of a completed group comes with. -/
structure StoredCall (st : FecDecodeManager (FlatTables N)) (h : Header) (d : DecodeState) (g : FecGroup) (c : DecodeCall) :
    Prop where
  record : g.Record N
  bounded : Bounded g
  fits : CallFits c
  type : g.type = h.type
  dims : h.dataNum ≠ 0 → g.Dims h.dataNum h.redundantNum h.payload.length
  gather : gather N (st.toDecodeState.store h) g h = .ok (d, some c)
  blob : h.type = 0 → h.dataNum ≠ 0

theorem stored_call {st : FecDecodeManager (FlatTables N)} {s : Bytes} {h : Header} {t : FlatTables N} {d : DecodeState}
    {g : FecGroup} {c : DecodeCall} (hs : Safe N st) (hm : Initialised N st s) (ha : Arrives st s h)
    (hp : Placed N st h (.stored t d g h (some c))) : StoredCall st h d g c := by
  have hpass := Header.passed ha.checks
  cases hp with
  | stored hf hacc hev hindex hlen hg =>
    rw [FlatTables.find_owner] at hf
    cases hf
    have hacc' := FecGroup.accept_ok hacc
    have hrec := joined_record ((owner_record hs (hm h ha)).accepted hacc' hpass hlen) hacc' hpass hindex
    have hdims := fun hne => (hacc'.taken hne).joined h st.index
    have hb := bounded_of_complete hrec ((gather_ok hg).2 c rfl).1 fun h0 => by
      have := (hdims (hpass.blob h0)).dataNum
      omega
    exact ⟨hrec, hb, gather_fits hg hb hlen, hacc'.type, hdims, hg, hpass.blob⟩

/-- The packet handed out at position `i` lies in the joined blob of its group, or in its
    shard: the payload that just came in, or a shard of the length decoded at. -/
def Lies (mid : FecDecodeManager (FlatTables N)) (h : Header) (call : Option DecodeCall) (i : Nat) : Prop :=
  match mid.outputSArr with
  | .blob => h.type = 0 ∧ mid.blobDecode.outputBuf i + mid.blobDecode.outputLen i ≤ h.dataNum * h.payload.length
  | .arr => h.type ≠ 0 ∧ ∃ p, mid.outputSArrBuf i = some (p, 2) ∧
      mid.outputLenArrBuf i + 2 ≤ call.elim h.payload.length DecodeCall.size

/-- Everything handed out after the datagram lies where it should. -/
def Inside (N : FecBuffNum) (st : FecDecodeManager (FlatTables N)) (s : Bytes) : Prop :=
  ∀ o, feedOne N st s = .ok o → o.packets = none ∨
    ∃ t d g h call, prepare N st s = .ok (.stored t d g h call) ∧ ∀ i < o.n.toNat, Lies o.mid h call i

/-- The blocks that the shards of a completed group stand for begin with lengths that fit
    them, where they are still to be handed out; or one begins with a length that drops the
    whole group. -/
def Prefixed (N : FecBuffNum) (st : FecDecodeManager (FlatTables N)) (s : Bytes) : Prop :=
  ∀ t d g h c, prepare N st s = .ok (.stored t d g h (some c)) → h.type ≠ 0 → c.k ≤ (present c.arr c.n).length →
    ∀ D, Rows c.k c.n c.m c.arr D c.size → (∀ r < c.k, readU16 (D r) 0 ≤ maxDataLen) →
      ∀ r < c.k, c.arr r = none ∨ r = h.innerIndex → readU16 (D r) 0 + 2 ≤ c.size

/-! ## The three ways packets are handed out -/

theorem blob_lies {st : FecDecodeManager (FlatTables N)} {h : Header} {d d' : DecodeState} {g : FecGroup} {c : DecodeCall}
    (hc : StoredCall st h d g c) (h0 : h.type = 0) (hready : d.readyForOutput = false) (hr : decodeGroup d h c = .ok d')
    (hout : d'.readyForOutput = true) : d'.outputSArr = .blob ∧
      ∀ i < d'.outputN.toNat, d'.blobDecode.outputBuf i + d'.blobDecode.outputLen i ≤ h.dataNum * h.payload.length := by
  have hcount := decodeGroup_count hc.fits hr
  unfold decodeGroup at hr
  rw [if_pos h0] at hr
  obtain ⟨codes', m', arr', b, -, hcur, -, hrun⟩ := decodeBlob_run hc.fits hcount hready
  rw [hrun] at hr
  cases hr
  obtain ⟨n, hn, -, hsel, -, -, hwithin⟩ := b.output_within (by simpa using hout)
  have hsize : b.currentLen = h.dataNum * h.payload.length := by
    rcases ((gather_ok hc.gather).2 c rfl).2 with ⟨-, rfl⟩ | ⟨hne, -⟩
    · rw [hcur]
      have := (hc.dims (hc.blob h0)).dataNum
      show g.dataNum.toNat * h.payload.length = _
      rw [this, Int.toNat_natCast]
    · exact absurd h0 hne
  refine ⟨by simp [hsel], fun i hi => ?_⟩
  rw [← hsize]
  simp only [hn, Option.getD_some] at hi
  exact hwithin i hi

theorem fast_lies {d d' : DecodeState} {h : Header} (hready : d.readyForOutput = false) (hr : fastSend d h = .ok d')
    (hlen : (d.fecData d.index).len = h.payload.length) (htwo : h.type = 1 → 2 ≤ h.payload.length)
    (hout : d'.readyForOutput = true) : h.type ≠ 0 ∧ d'.outputSArr = .arr ∧ d'.outputN = 1 ∧
      d'.outputSArrBuf 0 = some (d.index, 2) ∧ d'.outputLenArrBuf 0 + 2 ≤ h.payload.length := by
  rcases fastSend_ok hr with ⟨rfl, -⟩ | ⟨h1, -, -, rfl⟩
  · rw [hready] at hout; cases hout
  · have := htwo h1
    refine ⟨by omega, rfl, rfl, by simp only [upd_same], ?_⟩
    simp only [upd_same, hlen]
    omega

/-- The packets of a completed group lie in their shards exactly when their lengths fit. -/
theorem shards_lie {st : FecDecodeManager (FlatTables N)} {h : Header} {d d' : DecodeState} {g : FecGroup} {c : DecodeCall}
    (hc : StoredCall st h d g c) (hne : h.type ≠ 0) (ho : Owned N d g h.seq) (hready : d.readyForOutput = false)
    (hr : decodeGroup d h c = .ok d') {D : Nat → Nat → Byte} (hD : Rows c.k c.n c.m c.arr D c.size) :
    (d'.readyForOutput = true ↔ ∀ r < c.k, readU16 (D r) 0 ≤ maxDataLen) ∧ (d'.readyForOutput = true →
      d'.outputSArr = .arr ∧ ((∀ i < d'.outputN.toNat, ∃ p, d'.outputSArrBuf i = some (p, 2) ∧
        d'.outputLenArrBuf i + 2 ≤ c.size) ↔
        ∀ r < c.k, c.arr r = none ∨ r = h.innerIndex → readU16 (D r) 0 + 2 ≤ c.size)) := by
  have hcount := decodeGroup_count hc.fits hr
  unfold decodeGroup at hr
  rw [if_neg hne] at hr
  obtain ⟨codes', m', arr', ptr, d1, hdec, hptr, -, hrun, hdone⟩ := decodeShards_run h.innerIndex hc.fits hcount hready
  rw [hrun] at hr
  cases hr
  have hshards : ShardsCall (st.toDecodeState.store h) g d c :=
    (((gather_ok hc.gather).2 c rfl).2.resolve_left fun h' => hne h'.1).2
  obtain ⟨hn, hslots⟩ := call_slots hc.gather
  have hkn := hc.fits.kn
  -- a shard that decoding agreed to is two bytes long at least
  have htwo : 2 ≤ c.size := by
    have hk := hc.fits.k
    obtain ⟨i, hi⟩ : ∃ i, i ∈ present c.arr c.n :=
      List.exists_mem_of_length_pos (by omega)
    obtain ⟨hi, hsome⟩ := mem_present.mp hi
    obtain ⟨p, hp⟩ := Option.isSome_iff_exists.mp hsome
    have := hshards.lens i (hn ▸ hi) p (by rw [← hslots i hi]; exact hp)
    omega
  have hapart : Apart c.k c.n c.arr := by
    intro i hi j hj _ hij p hpi hpj
    rw [hslots i hi] at hpi
    rw [hslots j hj] at hpj
    exact hij (ho.inj hpi hpj)
  have hlen : ∀ r < c.k, readU16 (m' (ptr r)) 0 = readU16 (D r) 0 := by
    intro r hr
    have hval := (hdec D hD).content hapart r hr _ (hptr r hr)
    exact readU16_congr (hval 0 (by omega)) (hval 1 (by omega))
  refine ⟨?_, ?_⟩
  · rw [hdone.ready]
    exact forall₂_congr fun r hr => by rw [hlen r hr]
  · intro hout
    obtain ⟨hsrc, hcnt, hent⟩ := hdone.arr hout
    refine ⟨hsrc, ?_⟩
    have hmem : ∀ r, r ∈ missedPackets d.outputSArrBuf h.innerIndex c.k ↔ r < c.k ∧ (c.arr r = none ∨ r = h.innerIndex) := by
      intro r
      rw [mem_missedPackets]
      refine and_congr_right fun hr => or_congr_left ?_
      rw [hshards.sArr r (by omega), Option.map_eq_none_iff, hslots r (by omega)]
    rw [hcnt, Int.toNat_natCast]
    constructor
    · intro hall r hr hmiss
      obtain ⟨j, hj, rfl⟩ := List.mem_iff_getElem.mp ((hmem r).mpr ⟨hr, hmiss⟩)
      obtain ⟨p, -, hle⟩ := hall j hj
      rw [(hent j hj).2, hlen _ hr] at hle
      exact hle
    · intro hall i hi
      obtain ⟨hr, hmiss⟩ := (hmem _).mp (List.getElem_mem hi)
      refine ⟨_, (hent i hi).1, ?_⟩
      rw [(hent i hi).2, hlen _ hr]
      exact hall _ hr hmiss

/-! ## One datagram -/

theorem placed_ready {st : FecDecodeManager (FlatTables N)} {h : Header} {t : FlatTables N} {d : DecodeState} {g : FecGroup}
    {call : Option DecodeCall} (hs : Safe N st) (hp : Placed N st h (.stored t d g h call)) : d.readyForOutput = false := by
  cases hp with
  | stored hf hacc hev hindex hlen hg => exact (gather_ready hg).trans hs.ready

theorem placed_len {st : FecDecodeManager (FlatTables N)} {h : Header} {t : FlatTables N} {d : DecodeState} {g : FecGroup}
    {call : Option DecodeCall} (hp : Placed N st h (.stored t d g h call)) :
    (d.fecData d.index).len = h.payload.length := by
  cases hp with
  | stored hf hacc hev hindex hlen hg =>
    have hsame := gather_sameRing hg
    have hd : d.index = st.index := hsame.index
    rw [hsame.len, hd]
    show ((st.toDecodeState.store h).fecData st.toDecodeState.index).len = _
    rw [store_same]

theorem inside_of_prefixed {st : FecDecodeManager (FlatTables N)} {s : Bytes} (hs : Safe N st) (hl : Linked N st)
    (hm : Initialised N st s) (hk : Marked N st s) (hpre : Prefixed N st s) : Inside N st s := by
  intro o ho
  by_cases hp : ∃ t d g h call, prepare N st s = .ok (.stored t d g h call)
  · obtain ⟨t, d, g, h, call, hp⟩ := hp
    obtain ⟨d', g', seen, hc, ⟨j, hmid⟩, hn | ⟨hready', hn, ps, -, -⟩⟩ := feedOne_stored ho hp
    · exact .inl hn.2
    refine .inr ⟨t, d, g, h, call, hp, fun i hi => ?_⟩
    rw [hn] at hi
    have hlies : o.mid.outputSArr = d'.outputSArr ∧ o.mid.blobDecode = d'.blobDecode ∧
        o.mid.outputSArrBuf = d'.outputSArrBuf ∧ o.mid.outputLenArrBuf = d'.outputLenArrBuf := by
      rw [hmid]; exact ⟨rfl, rfl, rfl, rfl⟩
    obtain ⟨e1, e2, e3, e4⟩ := hlies
    unfold Lies
    rw [e1, e2, e3, e4]
    rcases prepare_ok hp with ⟨ret, e, -⟩ | ⟨h', ha, hpl⟩
    · cases e
    obtain rfl : h = h' := by cases hpl; rfl
    have hready := placed_ready hs hpl
    have hpass := Header.passed ha.checks
    cases hc with
    | ends hend => rw [hready] at hready'; cases hready'
    | waits hout hfast =>
      obtain ⟨hne, hsrc, hcnt, hbuf, hlen⟩ := fast_lies hready hfast (placed_len hpl) hpass.short hready'
      rw [hcnt] at hi
      obtain rfl : i = 0 := by omega
      -- no call goes with a group that waits
      have hcall : call = none := by
        cases hpl with
        | stored _ _ _ _ _ hg =>
          cases call with
          | none => rfl
          | some c =>
            have := ((gather_ok hg).2 c rfl).1
            rw [hout] at this; cases this
      rw [hsrc, hcall]
      exact ⟨hne, d.index, hbuf, hlen⟩
    | @decodes _ c hout hcall hdec =>
      subst hcall
      have hsc := stored_call hs hm ha hpl
      by_cases h0 : h.type = 0
      · obtain ⟨hsrc, hin⟩ := blob_lies hsc h0 hready hdec hready'
        rw [hsrc]
        exact ⟨h0, hin i hi⟩
      · have hcount := decodeGroup_count hsc.fits hdec
        have hcn := hsc.fits.n
        unfold maxFecPacketNum at hcn
        obtain ⟨D, hD⟩ := exists_rows (m := c.m) hsc.fits.kn (by omega) hcount c.size
        obtain ⟨hiff, hin⟩ := shards_lie hsc h0 (placed_linked hl hk ha hpl).2.2.2 hready hdec hD
        obtain ⟨hsrc, hin⟩ := hin hready'
        obtain ⟨p, hp1, hp2⟩ := hin.mpr (hpre t d g h c hp h0 hcount D hD (hiff.mp hready')) i hi
        rw [hsrc]
        exact ⟨h0, p, hp1, hp2⟩
  · exact .inl (feedOne_stopped ho hs.ready fun t d g h call e => hp ⟨t, d, g, h, call, e⟩)

theorem prefixed_of_inside {st : FecDecodeManager (FlatTables N)} {s : Bytes} (hs : Safe N st) (hl : Linked N st)
    (hm : Initialised N st s) (hk : Marked N st s) (hin : Inside N st s) : Prefixed N st s := by
  intro t d g h c hp hne hcount D hD hmax
  rcases prepare_ok hp with ⟨ret, e, -⟩ | ⟨h', ha, hpl⟩
  · cases e
  obtain rfl : h = h' := by cases hpl; rfl
  have hready := placed_ready hs hpl
  have hsc := stored_call hs hm ha hpl
  -- the group decodes, so the call returns
  obtain ⟨d1, g1, seen1, hrun, hps⟩ := @conclude_run d g h (some c) hready fun c' e =>
    Option.some.inj e ▸ ⟨hsc.fits, hcount⟩
  obtain ⟨o, ho⟩ := feedOne_of_conclude hp hrun hps
  obtain ⟨d', g', seen, hc, ⟨j, hmid⟩, hout⟩ := feedOne_stored ho hp
  cases hc with
  | waits hout' => rw [((gather_ok hsc.gather).2 c rfl).1] at hout'; cases hout'
  | ends hend =>
    rcases hend with hend | ⟨-, hend⟩
    · rw [((gather_ok hsc.gather).2 c rfl).1] at hend; cases hend
    · cases hend
  | decodes _ hcall hdec =>
    cases hcall
    obtain ⟨hiff, hlie⟩ := shards_lie hsc hne (placed_linked hl hk ha hpl).2.2.2 hready hdec hD
    have hready' := hiff.mpr hmax
    obtain ⟨hsrc, hlie⟩ := hlie hready'
    rcases hout with ⟨hno, -⟩ | ⟨-, hn, ps, -, hps⟩
    · rw [hready'] at hno; cases hno
    refine hlie.mp fun i hi => ?_
    rcases hin o ho with hnone | ⟨t', d'', g'', h', call', hp', hall⟩
    · rw [hps] at hnone; cases hnone
    · rw [hp] at hp'
      cases hp'
      have := hall i (by rw [hn]; exact hi)
      have e : o.mid.outputSArr = d'.outputSArr ∧ o.mid.outputSArrBuf = d'.outputSArrBuf ∧
          o.mid.outputLenArrBuf = d'.outputLenArrBuf := by
        rw [hmid]; exact ⟨rfl, rfl, rfl⟩
      unfold Lies at this
      rw [e.1, hsrc, e.2.1, e.2.2] at this
      exact this.2

/-! ## Runs -/

/-- In every run in which 0xFFFFFFFF finds a record of its own, everything handed out lies in
    what was received or reconstructed for its group if and only if the lengths the blocks
    begin with fit the blocks. -/
theorem handed_out_inside (st0 : FecDecodeManager (FlatTables N)) (ss : List Bytes)
    (hm : AllSteps N (Initialised N) (clear N st0) ss) (hk : AllSteps N (Marked N) (clear N st0) ss) :
    AllSteps N (Inside N) (clear N st0) ss ↔ AllSteps N (Prefixed N) (clear N st0) ss := by
  constructor
  · intro hin hist st s rest hf e
    subst e
    exact prefixed_of_inside (fed_safe (clear_safe st0) hm hf) (fed_linked hf hk).1 (hm hist st s rest hf rfl)
      (hk hist st s rest hf rfl) (hin hist st s rest hf rfl)
  · intro hpre hist st s rest hf e
    subst e
    exact inside_of_prefixed (fed_safe (clear_safe st0) hm hf) (fed_linked hf hk).1 (hm hist st s rest hf rfl)
      (hk hist st s rest hf rfl) (hpre hist st s rest hf rfl)

/-- One packet of three bytes in a group of one. -/
def threeBytes : Bytes := bytes [0, 0, 0, 7, 1, 1, 1, 0, 0, 3, 97, 98, 99]

/-- Its shard is the block, and begins with its length. -/
theorem threeBytes_prefixed : Prefixed leastNum leastDecoder threeBytes := by
  intro t d g h c hp _ _ D hrows _ r hr _
  have hcall : callOf leastNum leastDecoder threeBytes = some c := by
    unfold callOf
    rw [hp]
  have hrun : (callOf leastNum leastDecoder threeBytes).map (fun c => (c.k, c.size, (present c.arr c.n).take c.k, c.arr 0,
      readU16 (c.m 0) 0)) = some (1, 5, [0], some 0, 3) := by decide +kernel
  rw [hcall, Option.map_some, Option.some.injEq] at hrun
  simp only [Prod.mk.injEq] at hrun
  obtain ⟨hk, hsize, hpresent, harr, hlen⟩ := hrun
  obtain rfl : r = 0 := by omega
  have hblock : ∀ i < 5, c.m 0 i = D 0 i := by
    intro i hi
    rw [hrows 0 (by rw [hpresent]; simp) 0 harr i (by omega), hk]
    exact shard_data (by decide) (by decide) i
  have hsame : readU16 (D 0) 0 = readU16 (c.m 0) 0 := by
    unfold readU16
    rw [hblock 0 (by decide), hblock 1 (by decide)]
  rw [hsame, hlen, hsize]

theorem handed_out_inside_one : AllSteps leastNum (Inside leastNum) leastDecoder [threeBytes] :=
  (handed_out_inside default _ (Proper.initialised (by decide) _) (Proper.marked (by decide) _)).mpr (.single threeBytes_prefixed)

/-- A shard of two bytes that says it is 3600 long: 3598 bytes left in the buffer go with it. -/
theorem handed_out_outside :
    ¬ AllSteps leastNum (Inside leastNum) leastDecoder [bytes [0, 0, 0, 7, 1, 1, 1, 0, 14, 16]] := by
  intro hall
  have hrun : (match feedOne leastNum leastDecoder (bytes [0, 0, 0, 7, 1, 1, 1, 0, 14, 16]) with
    | .error _ => none
    | .ok o => some (o.packets.isSome, o.n, o.mid.outputSArr, o.mid.outputLenArrBuf 0)) = some (true, 1, .arr, 3600) := by
    decide +kernel
  have hcall : (callOf leastNum leastDecoder (bytes [0, 0, 0, 7, 1, 1, 1, 0, 14, 16])).map DecodeCall.size = some 2 := by
    decide +kernel
  cases ho : feedOne leastNum leastDecoder (bytes [0, 0, 0, 7, 1, 1, 1, 0, 14, 16]) with
  | error e => rw [ho] at hrun; cases hrun
  | ok o =>
    rw [ho] at hrun
    obtain ⟨hps, hn, hsrc, hlen⟩ : o.packets.isSome = true ∧ o.n = 1 ∧ o.mid.outputSArr = .arr ∧
        o.mid.outputLenArrBuf 0 = 3600 := by simpa using hrun
    rcases hall [] _ _ [] .start rfl o ho with hnone | ⟨t, d, g, h, call, hp, hlies⟩
    · rw [hnone] at hps; cases hps
    · have hc : callOf leastNum leastDecoder (bytes [0, 0, 0, 7, 1, 1, 1, 0, 14, 16]) = call := by
        unfold callOf
        rw [hp]
      rw [hc] at hcall
      obtain ⟨c, rfl, hsize⟩ := Option.map_eq_some_iff.mp hcall
      have := hlies 0 (by rw [hn]; decide)
      unfold Lies at this
      rw [hsrc, hlen, Option.elim_some, hsize] at this
      obtain ⟨-, p, -, hle⟩ := this
      omega

end FecDecodeManager

end UdpSpeeder.Manager
