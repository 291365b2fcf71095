/-
  UdpSpeeder.Manager.Complete — what `gather` and `conclude` do with a stored shard: which
  buffers go to `rs_decode2`, and what is in the output arrays after it.

  On a group whose record is in order everything up to the call succeeds (`blobCall_run`,
  `shardsCall_run`); the call itself needs `data_num` shards below the group's size, which
  the count alone promises for type 0 groups only. After it, `decodeBlob_run` and
  `decodeShards_run` say what is handed out.
-/

import UdpSpeeder.Manager.Group

namespace UdpSpeeder.Manager

open Lib Fec

namespace DecodeState

variable {N : FecBuffNum}

/-! ## Gathering -/

theorem shardAt_ok {g : FecGroup} {i : Nat} {r : Option Nat} (h : shardAt N g i = .ok r) : i < 256 ∧ r = g.slotOf i := by
  unfold shardAt at h
  rw [check_bind] at h
  obtain ⟨hi, h⟩ := h
  refine ⟨hi, ?_⟩
  unfold FecGroup.slotOf
  split at h
  · rename_i hs
    rw [check_bind] at h
    obtain ⟨-, h⟩ := h
    cases h
    rw [if_pos hs]
  · rename_i hs
    cases h
    rw [if_neg hs]

theorem shardAt_run {g : FecGroup} (hg : g.Record N) {i : Nat} (hi : i < 256) : shardAt N g i = .ok (g.slotOf i) := by
  unfold shardAt FecGroup.slotOf
  rw [check_true hi, ok_bind]
  by_cases hs : g.hasShard i = true
  · have := hg.idx i hs
    rw [if_pos hs, if_pos hs, check_true (by omega), ok_bind]
  · rw [if_neg hs, if_neg hs]

/-- The pointers handed to `rs_decode2`: a slot for each shard below the group's size. -/
def gathered (g : FecGroup) (i : Nat) : Option Nat := if i < g.total then g.slotOf i else none

theorem present_gathered (g : FecGroup) : present (gathered g) g.total = g.stored g.total := by
  unfold present FecGroup.stored
  refine List.filter_congr fun i hi => ?_
  rw [gathered, if_pos (List.mem_range.mp hi), FecGroup.slotOf_isSome]

theorem codeDims_ok {g : FecGroup} {r : Nat × Nat} (h : codeDims g = .ok r) : r = (g.dataNum.toNat, g.total) := by
  unfold codeDims at h
  rw [check_bind] at h
  cases h.2
  rfl

theorem codeDims_run {g : FecGroup} {x y l : Nat} (d : g.Dims x y l) : codeDims g = .ok (x, x + y) := by
  have h : 0 ≤ g.dataNum ∧ 0 ≤ g.dataNum + g.redundantNum := by rw [d.dataNum, d.redundantNum]; omega
  unfold codeDims
  rw [check_true h, ok_bind, show (g.dataNum + g.redundantNum).toNat = x + y from d.total, d.dataNum, Int.toNat_natCast]

theorem fecTmpArr_ok {g : FecGroup} {arr : Nat → Option Nat} (h : fecTmpArr N g = .ok arr) : arr = gathered g := by
  funext i
  have hI := loopE_inv (fun (m : Nat) (a : Nat → Option Nat) => ∀ i, a i = if i < m then g.slotOf i else none)
    (fun i => by simp) _ arr h (by
      intro i _ a b ha hb j
      obtain ⟨di, hdi, hb⟩ := bind_ok.mp hb
      cases hb
      rw [upd_apply, ha, (shardAt_ok hdi).2]
      by_cases e : j = i
      · subst e; simp
      · simp only [e, if_false, show j < i + 1 ↔ j < i by omega])
  exact hI i

theorem fecTmpArr_run {g : FecGroup} (hg : g.Record N) (hs : g.total ≤ 256) : ∃ arr, fecTmpArr N g = .ok arr := by
  suffices h : ∃ arr, fecTmpArr N g = .ok arr ∧ True by
    obtain ⟨arr, h, -⟩ := h
    exact ⟨arr, h⟩
  refine loopE_ok (fun (_ : Nat) (_ : Nat → Option Nat) => True) trivial g.total ?_
  intro i hi a _
  exact ⟨upd a i (g.slotOf i), by rw [shardAt_run hg (by omega), ok_bind], trivial⟩

theorem blobCall_ok {d : DecodeState} {g : FecGroup} {len : Nat} {call : DecodeCall} (h : blobCall N d g len = .ok call) :
    call = ⟨g.dataNum.toNat, g.total, gathered g, d.bufs, len⟩ := by
  obtain ⟨arr, harr, h⟩ := bind_ok.mp h
  obtain ⟨r, hr, h⟩ := bind_ok.mp h
  rw [codeDims_ok hr] at h
  cases h
  rw [fecTmpArr_ok harr]

theorem blobCall_run (d : DecodeState) {g : FecGroup} (hg : g.Record N) {x y l : Nat} (hd : g.Dims x y l)
    (hs : x + y < maxFecPacketNum) (len : Nat) : blobCall N d g len = .ok ⟨x, x + y, gathered g, d.bufs, len⟩ := by
  unfold maxFecPacketNum at hs
  obtain ⟨arr, harr⟩ := fecTmpArr_run hg (by rw [hd.total]; omega)
  unfold blobCall
  rw [harr, ok_bind, codeDims_run hd, ok_bind, fecTmpArr_ok harr]

/-- What the scan has seen below `m`. -/
structure Scanned (d : DecodeState) (g : FecGroup) (m : Nat) (s : Scan) : Prop where
  arr : ∀ i, s.arr i = if i < m then (g.slotOf i).map (·, 0) else d.outputSArrBuf i
  ok : s.dataCheckOk = true ↔ ∀ i < m, ∀ di, g.slotOf i = some di → 2 ≤ (d.fecData di).len
  max : ∀ i < m, ∀ di, g.slotOf i = some di → ((d.fecData di).len : Int) ≤ s.maxLen
  attained : s.maxLen = -1 ∨ ∃ i < m, ∃ di, g.slotOf i = some di ∧ ((d.fecData di).len : Int) = s.maxLen

theorem Scanned.add {d : DecodeState} {g : FecGroup} {m : Nat} {s : Scan} (h : Scanned d g m s) :
    Scanned d g (m + 1) (s.add d m (g.slotOf m)) := by
  have hlt : ∀ i, i < m + 1 ↔ i < m ∨ i = m := fun i => by omega
  cases hm : g.slotOf m with
  | none =>
    have hno : ∀ {i di}, i < m + 1 → g.slotOf i = some di → i < m := by
      intro i di hi hdi
      rcases (hlt i).mp hi with h | rfl
      · exact h
      · rw [hm] at hdi; cases hdi
    refine ⟨?_, h.ok.trans ⟨fun h' i hi di hdi => h' i (hno hi hdi) di hdi, fun h' i hi => h' i (by omega)⟩,
      fun i hi di hdi => h.max i (hno hi hdi) di hdi, ?_⟩
    · intro i
      show upd s.arr m none i = _
      rw [upd_apply, h.arr]
      by_cases e : i = m
      · subst e; simp [hm]
      · simp only [e, if_false, hlt, or_false]
    · exact h.attained.imp_right fun ⟨i, hi, rest⟩ => ⟨i, by omega, rest⟩
  | some dm =>
    refine ⟨?_, ?_, ?_, ?_⟩
    · intro i
      show upd s.arr m (some (dm, 0)) i = _
      rw [upd_apply, h.arr]
      by_cases e : i = m
      · subst e; simp [hm]
      · simp only [e, if_false, hlt, or_false]
    · show (s.dataCheckOk && decide (2 ≤ (d.fecData dm).len)) = true ↔ _
      rw [Bool.and_eq_true, h.ok, decide_eq_true_iff]
      constructor
      · rintro ⟨h1, h2⟩ i hi di hdi
        rcases (hlt i).mp hi with h' | rfl
        · exact h1 i h' di hdi
        · rw [hm] at hdi; cases hdi; exact h2
      · intro h'
        exact ⟨fun i hi => h' i (by omega), h' m (by omega) dm hm⟩
    · intro i hi di hdi
      show _ ≤ if s.maxLen < (d.fecData dm).len then ((d.fecData dm).len : Int) else s.maxLen
      rcases (hlt i).mp hi with h' | rfl
      · have := h.max i h' di hdi
        split <;> omega
      · rw [hm] at hdi; cases hdi
        split <;> omega
    · show (if s.maxLen < (d.fecData dm).len then ((d.fecData dm).len : Int) else s.maxLen) = -1 ∨ ∃ i < m + 1, ∃ di,
        g.slotOf i = some di ∧ _ = if s.maxLen < (d.fecData dm).len then ((d.fecData dm).len : Int) else s.maxLen
      split
      · exact .inr ⟨m, by omega, dm, hm, rfl⟩
      · exact h.attained.imp_right fun ⟨i, hi, rest⟩ => ⟨i, by omega, rest⟩

theorem scanShards_ok {d : DecodeState} {g : FecGroup} {s : Scan} (h : scanShards N d g = .ok s) :
    Scanned d g g.total s := by
  refine loopE_inv (Scanned d g) ⟨fun i => by simp, by simp, fun i hi => by omega, .inl rfl⟩ _ s h ?_
  intro i _ a b ha hb
  obtain ⟨di, hdi, hb⟩ := bind_ok.mp hb
  cases hb
  rw [(shardAt_ok hdi).2]
  exact ha.add

theorem scanShards_run (d : DecodeState) {g : FecGroup} (hg : g.Record N) (hs : g.total ≤ 256) :
    ∃ s, scanShards N d g = .ok s := by
  suffices h : ∃ s, scanShards N d g = .ok s ∧ True by
    obtain ⟨s, h, -⟩ := h
    exact ⟨s, h⟩
  refine loopE_ok (fun (_ : Nat) (_ : Scan) => True) trivial g.total ?_
  intro i hi a _
  exact ⟨a.add d i (g.slotOf i), by rw [shardAt_run hg (by omega), ok_bind], trivial⟩

/-- The buffers once every shard of the group is padded up to `maxLen`. -/
structure Padded (d : DecodeState) (g : FecGroup) (m maxLen : Nat) (bufs : Mem Nat) : Prop where
  other : ∀ p, (∀ i < m, g.slotOf i ≠ some p) → bufs p = d.bufs p
  kept : ∀ p j, j < (d.fecData p).len ∨ maxLen ≤ j → bufs p j = d.bufs p j
  zero : ∀ i < m, ∀ p, g.slotOf i = some p → ∀ j, (d.fecData p).len ≤ j → j < maxLen → bufs p j = 0

theorem Padded.pad {d : DecodeState} {g : FecGroup} {m maxLen di : Nat} {bufs : Mem Nat} (h : Padded d g m maxLen bufs)
    (hdi : g.slotOf m = some di) (hle : (d.fecData di).len ≤ maxLen) : Padded d g (m + 1) maxLen
      (Function.update bufs di (copyTo (bufs di) (d.fecData di).len (fun _ => 0) (maxLen - (d.fecData di).len))) := by
  refine ⟨?_, ?_, ?_⟩
  · intro p hp
    have hne : p ≠ di := fun e => hp m (by omega) (e ▸ hdi)
    rw [Function.update_of_ne hne]
    exact h.other p fun i hi => hp i (by omega)
  · intro p j hj
    by_cases e : p = di
    · subst e
      rw [Function.update_self, copyTo_out _ _ (by omega)]
      exact h.kept p j hj
    · rw [Function.update_of_ne e]
      exact h.kept p j hj
  · intro i hi p hp j h1 h2
    by_cases e : p = di
    · subst e
      obtain ⟨r, rfl⟩ := Nat.exists_eq_add_of_le h1
      rw [Function.update_self, copyTo_in _ _ (by omega)]
    · rw [Function.update_of_ne e]
      have hne : i ≠ m := fun e' => e (by rw [e', hdi] at hp; cases hp; rfl)
      exact h.zero i (by omega) p hp j h1 h2

theorem padShards_ok {d : DecodeState} {g : FecGroup} {maxLen : Nat} {bufs : Mem Nat}
    (h : padShards N d g maxLen = .ok bufs) : Padded d g g.total maxLen bufs := by
  refine loopE_inv (fun m b => Padded d g m maxLen b) ⟨fun _ _ => rfl, fun _ _ _ => rfl, fun i hi => by omega⟩ _ bufs h ?_
  intro i _ a b ha hb
  obtain ⟨di, hdi, hb⟩ := bind_ok.mp hb
  have hslot := (shardAt_ok hdi).2
  cases di with
  | none =>
    cases hb
    refine ⟨fun p hp => ha.other p fun j hj => hp j (by omega), ha.kept, fun j hj p hp => ?_⟩
    have hne : j ≠ i := fun e => by rw [e, ← hslot] at hp; cases hp
    exact ha.zero j (by omega) p hp
  | some di =>
    simp only at hb
    rw [check_bind] at hb
    cases hb.2
    exact ha.pad hslot.symm hb.1

theorem padShards_run (d : DecodeState) {g : FecGroup} (hg : g.Record N) (hs : g.total ≤ 256) {maxLen : Nat}
    (hle : ∀ i < g.total, ∀ di, g.slotOf i = some di → (d.fecData di).len ≤ maxLen) :
    ∃ bufs, padShards N d g maxLen = .ok bufs := by
  suffices h : ∃ bufs, padShards N d g maxLen = .ok bufs ∧ True by
    obtain ⟨bufs, h, -⟩ := h
    exact ⟨bufs, h⟩
  refine loopE_ok (fun (_ : Nat) (_ : Mem Nat) => True) trivial g.total ?_
  intro i hi a _
  simp only [shardAt_run hg (show i < 256 by omega), ok_bind]
  cases hslot : g.slotOf i with
  | none => exact ⟨a, rfl, trivial⟩
  | some di =>
    simp only
    rw [check_true (hle i hi di hslot), ok_bind]
    exact ⟨_, rfl, trivial⟩

/-- Every shard below the group's size has a length prefix, none is longer than the group's
    length and one is as long: `data_check_ok`. -/
def LensAgree (d : DecodeState) (g : FecGroup) : Prop :=
  (∀ i < g.total, ∀ di, g.slotOf i = some di → 2 ≤ (d.fecData di).len ∧ ((d.fecData di).len : Int) ≤ g.len) ∧
    ∃ i < g.total, ∃ di, g.slotOf i = some di ∧ ((d.fecData di).len : Int) = g.len

/-- What the call is made of. -/
structure ShardsCall (d : DecodeState) (g : FecGroup) (d' : DecodeState) (c : DecodeCall) : Prop where
  k : c.k = g.dataNum.toNat
  n : c.n = g.total
  size : c.size = g.len.toNat
  arr : ∀ i < g.total, c.arr i = g.slotOf i
  sArr : ∀ i < g.total, d'.outputSArrBuf i = (g.slotOf i).map (·, 0)
  padded : Padded d g g.total c.size c.m
  lens : ∀ i < g.total, ∀ di, g.slotOf i = some di → 2 ≤ (d.fecData di).len ∧ (d.fecData di).len ≤ c.size

theorem shardsCall_ok {d d' : DecodeState} {g : FecGroup} {call : Option DecodeCall}
    (h : shardsCall N d g = .ok (d', call)) :
    d' = { d with outputSArrBuf := d'.outputSArrBuf } ∧ ∀ c, call = some c → ShardsCall d g d' c := by
  obtain ⟨scan, hscan, h⟩ := bind_ok.mp h
  have hs := scanShards_ok hscan
  split at h
  · cases h
    exact ⟨rfl, fun c hc => by cases hc⟩
  · rename_i hok
    rw [Bool.not_eq_true', Bool.not_eq_false, Bool.and_eq_true, decide_eq_true_iff, hs.ok] at hok
    obtain ⟨bufs, hbufs, h⟩ := bind_ok.mp h
    obtain ⟨r, hr, h⟩ := bind_ok.mp h
    rw [codeDims_ok hr] at h
    cases h
    refine ⟨rfl, fun c hc => ?_⟩
    cases hc
    have harr : ∀ i < g.total, scan.arr i = (g.slotOf i).map (·, 0) := fun i hi => by rw [hs.arr, if_pos hi]
    refine ⟨rfl, rfl, by rw [hok.2], ?_, harr, padShards_ok hbufs, fun i hi di hdi => ⟨hok.1 i hi di hdi, ?_⟩⟩
    · intro i hi
      show (scan.arr i).map Prod.fst = g.slotOf i
      rw [harr i hi]
      cases g.slotOf i <;> rfl
    · have := hs.max i hi di hdi
      show _ ≤ scan.maxLen.toNat
      omega

theorem shardsCall_run (d : DecodeState) {g : FecGroup} (hg : g.Record N) {x y l : Nat} (hd : g.Dims x y l)
    (hs : x + y < maxFecPacketNum) : ∃ d' call, shardsCall N d g = .ok (d', call) ∧ (call.isSome ↔ LensAgree d g) := by
  unfold maxFecPacketNum at hs
  have ht : g.total ≤ 256 := by rw [hd.total]; omega
  obtain ⟨scan, hscan⟩ := scanShards_run d hg ht
  have hsc := scanShards_ok hscan
  have hl := hd.len
  have hiff : (scan.dataCheckOk && decide (scan.maxLen = g.len)) = true ↔ LensAgree d g := by
    rw [Bool.and_eq_true, decide_eq_true_iff, hsc.ok]
    constructor
    · rintro ⟨h2, hmax⟩
      refine ⟨fun i hi di hdi => ⟨h2 i hi di hdi, ?_⟩, ?_⟩
      · rw [← hmax]; exact hsc.max i hi di hdi
      · rcases hsc.attained with h | ⟨i, hi, di, hdi, e⟩
        · omega
        · exact ⟨i, hi, di, hdi, by rw [e, hmax]⟩
    · rintro ⟨h2, i, hi, di, hdi, e⟩
      refine ⟨fun i hi di hdi => (h2 i hi di hdi).1, ?_⟩
      have h1 := hsc.max i hi di hdi
      rcases hsc.attained with h | ⟨i', hi', di', hdi', e'⟩
      · omega
      · have := (h2 i' hi' di' hdi').2
        omega
  unfold shardsCall
  rw [hscan, ok_bind]
  by_cases hok : (scan.dataCheckOk && decide (scan.maxLen = g.len)) = true
  · have hmax : scan.maxLen = g.len := by
      rw [Bool.and_eq_true, decide_eq_true_iff] at hok
      exact hok.2
    obtain ⟨bufs, hbufs⟩ := @padShards_run N { d with outputSArrBuf := scan.arr } g hg ht scan.maxLen.toNat
      fun i hi di hdi => by
        have h1 : ((d.fecData di).len : Int) ≤ scan.maxLen := hsc.max i hi di hdi
        show (d.fecData di).len ≤ _
        omega
    simp only [hok, Bool.not_true, Bool.false_eq_true, if_false]
    rw [hbufs, ok_bind, codeDims_run hd, ok_bind]
    exact ⟨_, _, rfl, iff_of_true rfl (hiff.mp hok)⟩
  · simp only [hok, Bool.not_false, if_true]
    exact ⟨_, _, rfl, iff_of_false Bool.false_ne_true fun h => hok (hiff.mpr h)⟩

/-! ## Concluding -/

/-- Shapes and sizes of a call within the limits of the code. -/
structure CallFits (c : DecodeCall) : Prop where
  k : 0 < c.k
  kn : c.k ≤ c.n
  n : c.n < maxFecPacketNum
  size : c.size + 100 < bufLen

theorem CallFits.int {c : DecodeCall} (h : CallFits c) : c.k * c.size ≤ intMax := by
  have h1 := h.kn
  have h2 := h.n
  have h3 := h.size
  unfold maxFecPacketNum at h2
  unfold bufLen maxDataLen at h3
  have : c.k * c.size ≤ 255 * 3700 := Nat.mul_le_mul (by omega) (by omega)
  unfold intMax
  omega

theorem rsDecode2_run {c : DecodeCall} (h : CallFits c) (codes : CodeTable)
    (hcount : c.k ≤ (present c.arr c.n).length) :
    ∃ codes' m' arr', rsDecode2 c.k c.n codes c.m c.arr c.size = .ok (0, codes', m', arr') ∧
      ∀ D, Rows c.k c.n c.m c.arr D c.size → Decoded c.k c.n c.m c.arr D c.size m' arr' := by
  have hn := h.n
  unfold maxFecPacketNum at hn
  obtain ⟨D, hD⟩ := exists_rows (m := c.m) h.kn (by omega) hcount c.size
  obtain ⟨codes', m', arr', hrun, -⟩ := rsDecode2_spec codes h.k h.kn (by omega) h.int hcount hD
  refine ⟨codes', m', arr', hrun, fun D' hD' => ?_⟩
  obtain ⟨_, _, _, hrun', hdec⟩ := rsDecode2_spec codes h.k h.kn (by omega) h.int hcount hD'
  rw [hrun] at hrun'
  cases hrun'
  exact hdec

theorem rsDecode2_filled {c : DecodeCall} {m' : Mem Nat} {arr' : Nat → Option Nat}
    (h : CallFits c) (hcount : c.k ≤ (present c.arr c.n).length)
    (hdec : ∀ D, Rows c.k c.n c.m c.arr D c.size → Decoded c.k c.n c.m c.arr D c.size m' arr') :
    ∀ r < c.k, (arr' r).isSome := by
  have hn := h.n
  unfold maxFecPacketNum at hn
  obtain ⟨D, hD⟩ := exists_rows (m := c.m) h.kn (by omega) hcount c.size
  exact (hdec D hD).filled

/-- A type 0 group completes: its slices are decoded, joined and parsed. -/
theorem decodeBlob_run {d : DecodeState} {c : DecodeCall} (h : CallFits c) (hcount : c.k ≤ (present c.arr c.n).length)
    (hready : d.readyForOutput = false) :
    ∃ codes' m' arr', ∃ b : BlobDecode, (∀ D, Rows c.k c.n c.m c.arr D c.size → Decoded c.k c.n c.m c.arr D c.size m' arr') ∧
      b.currentLen = c.k * c.size ∧
      (∀ i < c.k, ∀ p, arr' i = some p → ∀ j < c.size, b.inputBuf (c.size * i + j) = m' p j) ∧
      decodeBlob d c = .ok { d.withBufs m' with
        codes := codes'
        blobDecode := b.output.blob
        outputN := b.output.n.getD d.outputN
        outputSArr := if b.output.selected then .blob else d.outputSArr
        readyForOutput := decide (b.output.ret = 0) } := by
  obtain ⟨codes', m', arr', hrun, hdec⟩ := rsDecode2_run h d.codes hcount
  have hfilled := rsDecode2_filled h hcount hdec
  have hk := h.kn
  have hn := h.n
  have hjoin : c.k * c.size + 100 < blobBufSize := by
    have h3 := h.size
    have : c.k * c.size ≤ 255 * bufLen := Nat.mul_le_mul (by unfold maxFecPacketNum at hn; omega) (by omega)
    unfold blobBufSize maxFecPacketNum
    unfold bufLen maxDataLen at *
    omega
  obtain ⟨b, hb, hcur, hval⟩ := BlobDecode.inputs_joined d.blobDecode (fun i => m' ((arr' i).getD 0)) c.k c.size
    (by omega) hjoin
  refine ⟨codes', m', arr', b, hdec, hcur, ?_, ?_⟩
  · intro i hi p hp j hj
    rw [hval i hi j hj, hp, Option.getD_some]
  · have hloop : loopE c.k (fun i blob => do
        let p ← deref (arr' i) "fec_tmp_arr"
        BlobDecode.input blob (m' p) c.size) d.blobDecode.clear = .ok b := by
      rw [← hb]
      refine loopE_congr _ fun i hi t => ?_
      obtain ⟨p, hp⟩ := Option.isSome_iff_exists.mp (hfilled i hi)
      rw [hp]
      rfl
    unfold decodeBlob
    rw [hrun, ok_bind]
    simp only
    rw [check_true trivial, ok_bind, hloop, ok_bind]
    by_cases hret : b.output.ret = 0
    · rw [if_neg (by omega), check_true (show (d.withBufs m').readyForOutput = false from hready), ok_bind]
      simp [hret]
    · rw [if_pos hret]
      simp [hret, withBufs, hready]

/-- The pointers after `readLens`: those of the decoded packets are past their prefix. -/
theorem readLens_run {m : Mem Nat} {k : Nat} {s : Lens} {ptr : Nat → Nat} (hptr : ∀ i < k, s.arr i = some (ptr i, 0)) :
    ∃ t, readLens m k s = .ok t ∧ (∀ i, t.arr i = if i < k then some (ptr i, 2) else s.arr i) ∧
      (∀ i, t.len i = if i < k then readU16 (m (ptr i)) 0 else s.len i) ∧
      (t.fecResultOk = true ↔ s.fecResultOk = true ∧ ∀ i < k, readU16 (m (ptr i)) 0 ≤ maxDataLen) := by
  refine loopE_ok (fun (r : Nat) (t : Lens) => (∀ i, t.arr i = if i < r then some (ptr i, 2) else s.arr i) ∧
    (∀ i, t.len i = if i < r then readU16 (m (ptr i)) 0 else s.len i) ∧
    (t.fecResultOk = true ↔ s.fecResultOk = true ∧ ∀ i < r, readU16 (m (ptr i)) 0 ≤ maxDataLen)) (by simp) k ?_
  intro r hr t ⟨harr, hlen, hok⟩
  have hat : t.arr r = some (ptr r, 0) := by rw [harr, if_neg (by omega), hptr r hr]
  refine ⟨_, by rw [hat, deref, ok_bind], ?_, ?_, ?_⟩
  · intro i
    show upd t.arr r _ i = _
    rw [upd_apply, harr]
    by_cases e : i = r
    · subst e; simp
    · simp only [e, if_false, show i < r + 1 ↔ i < r by omega]
  · intro i
    show upd t.len r _ i = _
    rw [upd_apply, hlen]
    by_cases e : i = r
    · subst e; simp
    · simp only [e, if_false, show i < r + 1 ↔ i < r by omega]
  · show (t.fecResultOk && decide (readU16 (m (ptr r)) 0 ≤ maxDataLen)) = true ↔ _
    rw [Bool.and_eq_true, hok, decide_eq_true_iff, and_assoc]
    refine and_congr_right fun _ => ⟨fun h i hi => ?_, fun h => ⟨fun i hi => h i (by omega), h r (by omega)⟩⟩
    by_cases e : i = r
    · exact e ▸ h.2
    · exact h.1 i (by omega)

theorem missedPackets_sorted (arr : Nat → Option (Nat × Nat)) (innerIndex k : Nat) :
    (missedPackets arr innerIndex k).Pairwise (· < ·) := List.pairwise_lt_range.filter _

theorem mem_missedPackets {arr : Nat → Option (Nat × Nat)} {innerIndex k i : Nat} :
    i ∈ missedPackets arr innerIndex k ↔ i < k ∧ (arr i = none ∨ i = innerIndex) := by simp [missedPackets]

/-- What a completed group of another type leaves: shard `i` is in buffer `ptr i`. -/
structure ShardsDone (d : DecodeState) (missed : List Nat) (k : Nat) (m' : Mem Nat) (ptr : Nat → Nat) (d' : DecodeState) :
    Prop where
  fecData : d'.fecData = (d.withBufs m').fecData
  index : d'.index = d.index
  ready : d'.readyForOutput = true ↔ ∀ i < k, readU16 (m' (ptr i)) 0 ≤ maxDataLen
  arr : d'.readyForOutput = true → d'.outputSArr = .arr ∧ d'.outputN = missed.length ∧ ∀ j (hj : j < missed.length),
    d'.outputSArrBuf j = some (ptr missed[j], 2) ∧ d'.outputLenArrBuf j = readU16 (m' (ptr missed[j])) 0

theorem decodeShards_run {d : DecodeState} {c : DecodeCall} (innerIndex : Nat) (h : CallFits c)
    (hcount : c.k ≤ (present c.arr c.n).length) (hready : d.readyForOutput = false) :
    ∃ codes' m' arr' ptr d', (∀ D, Rows c.k c.n c.m c.arr D c.size → Decoded c.k c.n c.m c.arr D c.size m' arr') ∧
      (∀ i < c.k, arr' i = some (ptr i)) ∧ d'.codes = codes' ∧ decodeShards d innerIndex c = .ok d' ∧
      ShardsDone d (missedPackets d.outputSArrBuf innerIndex c.k) c.k m' ptr d' := by
  obtain ⟨codes', m', arr', hrun, hdec⟩ := rsDecode2_run h d.codes hcount
  have hfilled := rsDecode2_filled h hcount hdec
  have hk : c.k ≤ maxFecPacketNum + 5 := by have := h.kn; have := h.n; omega
  let ptr : Nat → Nat := fun i => (arr' i).getD 0
  have hptr : ∀ i < c.k, arr' i = some (ptr i) := by
    intro i hi
    obtain ⟨p, hp⟩ := Option.isSome_iff_exists.mp (hfilled i hi)
    simp only [ptr, hp, Option.getD_some]
  obtain ⟨t, ht, harr, hlen, hok⟩ := @readLens_run m' c.k
    ⟨fun i => if i < c.n then (arr' i).map (·, 0) else d.outputSArrBuf i, d.outputLenArrBuf, true⟩ ptr fun i hi => by
      have := h.kn
      show (if i < c.n then (arr' i).map (·, 0) else d.outputSArrBuf i) = _
      rw [if_pos (by omega), hptr i hi]
      rfl
  have hsorted := missedPackets_sorted d.outputSArrBuf innerIndex c.k
  have hbelow : ∀ j (hj : j < (missedPackets d.outputSArrBuf innerIndex c.k).length),
      (missedPackets d.outputSArrBuf innerIndex c.k)[j] < c.k := fun j hj =>
    (mem_missedPackets.mp (List.getElem_mem hj)).1
  unfold decodeShards
  rw [check_true hk, ok_bind, hrun, ok_bind]
  simp only
  rw [check_true trivial, ok_bind, ht, ok_bind]
  have hready' : (d.withBufs m').readyForOutput = false := hready
  simp only [true_and] at hok
  by_cases hall : ∀ i < c.k, readU16 (m' (ptr i)) 0 ≤ maxDataLen
  · rw [if_pos (hok.mpr hall), check_true hready', ok_bind]
    refine ⟨codes', m', arr', ptr, _, hdec, hptr, rfl, rfl, rfl, rfl, iff_of_true rfl hall, fun _ => ⟨rfl, rfl, ?_⟩⟩
    intro j hj
    refine ⟨(compact_sorted hsorted t.arr hj).trans ?_, (compact_sorted hsorted t.len hj).trans ?_⟩
    · rw [harr, if_pos (hbelow j hj)]
    · rw [hlen, if_pos (hbelow j hj)]
  · rw [if_neg (fun h' => hall (hok.mp h'))]
    exact ⟨codes', m', arr', ptr, _, hdec, hptr, rfl, rfl, rfl, rfl, iff_of_false Bool.false_ne_true hall,
      fun h' => by cases h'⟩

/-! ## What `output` hands out -/

theorem mapM_ok {α β : Type} {f : α → Except Fault β} {q : α → β} {l : List α} (h : ∀ a ∈ l, f a = .ok (q a)) :
    l.mapM f = .ok (l.map q) := by
  induction l with
  | nil => rfl
  | cons a l ih =>
    rw [List.mapM_cons, h a List.mem_cons_self, ok_bind, ih fun b hb => h b (List.mem_cons_of_mem _ hb), ok_bind]
    rfl

theorem map_range_getD {α β : Type} (f : α → β) (l : List α) (a : α) :
    (List.range l.length).map (fun j => f (l.getD j a)) = l.map f := by
  apply List.ext_getElem
  · simp
  · intro j h1 h2
    have hj : j < l.length := by simpa using h2
    simp only [List.getElem_map, List.getElem_range, List.getD_eq_getElem _ _ hj]

/-- The output array read as a list: entry `j` is a buffer, past its prefix, and a length. -/
theorem outputPackets_arr {d : DecodeState} {l : List (Nat × Nat)} (hsrc : d.outputSArr = .arr) (hn : d.outputN = l.length)
    (harr : ∀ j (hj : j < l.length), d.outputSArrBuf j = some (l[j].1, 2) ∧ d.outputLenArrBuf j = l[j].2) :
    d.outputPackets = .ok (l.map fun e => slice (d.bufs e.1) 2 e.2) := by
  unfold outputPackets
  rw [hsrc, hn, Int.toNat_natCast]
  have hq : ∀ j ∈ List.range l.length, d.arrPacket j =
      .ok ((fun j => slice (d.bufs (l.getD j (0, 0)).1) 2 (l.getD j (0, 0)).2) j) := by
    intro j hj
    have hj := List.mem_range.mp hj
    obtain ⟨h1, h2⟩ := harr j hj
    unfold arrPacket
    rw [h1, deref, ok_bind, h2]
    simp only [List.getD_eq_getElem _ _ hj]
  exact (mapM_ok hq).trans (congrArg Except.ok (map_range_getD (fun e => slice (d.bufs e.1) 2 e.2) l (0, 0)))

theorem outputPackets_blob {d : DecodeState} (hsrc : d.outputSArr = .blob) :
    d.outputPackets = .ok (d.blobDecode.packets d.outputN.toNat) := by
  unfold outputPackets
  rw [hsrc]

end DecodeState

end UdpSpeeder.Manager
