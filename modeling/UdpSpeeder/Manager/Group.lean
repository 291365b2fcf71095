/-
  UdpSpeeder.Manager.Group — one group of the decoder: its bitmap, what the checks of
  `FecGroup.accept` let through, and `Record`, what every initialised record satisfies
  whether or not its slot is still owned.
-/

import UdpSpeeder.Manager.Decode

namespace UdpSpeeder.Manager

open Lib Fec

/-! ## Headers -/

namespace Header

/-- A header the entry checks let through. -/
structure Passed (h : Header) : Prop where
  short : h.type = 1 → 2 ≤ h.payload.length
  prefix_ : h.type = 1 → h.dataNum = 0 → readU16 (mem h.payload) 0 + 2 = h.payload.length
  blob : h.type = 0 → h.dataNum ≠ 0
  small : h.dataNum + h.redundantNum < maxFecPacketNum
  inner : h.innerIndex < h.dataNum + h.redundantNum

theorem passed {h : Header} (hr : h.refused = none) : Passed h := by
  unfold refused at hr
  split at hr
  · cases hr
  rename_i h1
  split at hr
  · cases hr
  rename_i h2
  split at hr
  · cases hr
  rename_i h3
  split at hr
  · cases hr
  rename_i h4
  split at hr
  · cases hr
  rename_i h5
  refine ⟨?_, ?_, fun e e0 => h3 ⟨e, e0⟩, by omega, by omega⟩
  · intro e
    by_contra hlt
    exact h1 ⟨e, by omega⟩
  · intro e e0
    by_contra hne
    exact h2 ⟨e, e0, hne⟩

theorem parseHeader_eq {s : Bytes} {h : Header} (hp : parseHeader s = some h) : 8 ≤ s.length ∧ h = {
    seq := readU32 (mem s) 0
    type := (mem s 4).toNat
    dataNum := (mem s 5).toNat
    redundantNum := (mem s 6).toNat
    innerIndex := (mem s 7).toNat
    payload := s.drop 8 } := by
  unfold parseHeader at hp
  split at hp
  · cases hp
  · cases hp
    exact ⟨by omega, rfl⟩

theorem parseHeader_length {s : Bytes} {h : Header} (hp : parseHeader s = some h) : h.payload.length + 8 = s.length := by
  obtain ⟨hlen, rfl⟩ := parseHeader_eq hp
  simp only [List.length_drop]
  omega

end Header

namespace FecGroup

/-! ## The bitmap -/

@[simp] theorem hasShard_init (g : FecGroup) (seq : U32) (i : Nat) : (g.init seq).hasShard i = false := by
  simp [hasShard, init]

theorem hasShard_setShard (g : FecGroup) (i j : Nat) (v : Int) :
    (g.setShard i v).hasShard j = (decide (j = i) || g.hasShard j) := by
  simp only [hasShard, setShard, upd_apply]
  by_cases hw : j / 32 = i / 32
  · have hb : i % 32 < 32 := Nat.mod_lt i (by decide)
    have hj : j % 32 < 32 := Nat.mod_lt j (by decide)
    rw [if_pos hw, hw, BitVec.getLsbD_or, BitVec.getLsbD_twoPow]
    by_cases e : j = i
    · subst e; simp [hb]
    · have : j % 32 ≠ i % 32 := by omega
      simp [e, Ne.symm this]
  · have : j ≠ i := fun e => hw (by rw [e])
    rw [if_neg hw]
    simp [this]

theorem shardIdx_setShard (g : FecGroup) (i j : Nat) (v : Int) :
    (g.setShard i v).shardIdx j = if j = i then v else g.shardIdx j := rfl

/-- The shards stored below `n`. -/
def stored (g : FecGroup) (n : Nat) : List Nat := (List.range n).filter g.hasShard

/-- One bit more, one shard more. -/
theorem stored_setShard {g : FecGroup} {i n : Nat} (v : Int) (hi : i < n) (hnew : g.hasShard i = false) :
    ((g.setShard i v).stored n).length = (g.stored n).length + 1 := by
  have h : ∀ m, ((g.setShard i v).stored m).length = (g.stored m).length + if i < m then 1 else 0 := by
    intro m
    induction m with
    | zero => rfl
    | succ m ih =>
      simp only [stored, List.range_succ, List.filter_append, List.length_append] at ih ⊢
      rw [ih]
      simp only [List.filter_cons, List.filter_nil, hasShard_setShard]
      by_cases e : m = i
      · subst e; simp [hnew]
      · cases hm : g.hasShard m
        · simp [e, show i < m + 1 ↔ i < m by omega]
        · simp only [e, decide_false, Bool.or_true, if_true, List.length_singleton, show i < m + 1 ↔ i < m by omega]
          omega
  rw [h n, if_pos hi]

theorem stored_eq {g : FecGroup} {m n : Nat} (hmn : m ≤ n) (h : ∀ i, g.hasShard i = true → i < m) :
    g.stored n = g.stored m := by
  obtain ⟨r, rfl⟩ := Nat.exists_eq_add_of_le hmn
  have hpast : ((List.range r).map (m + ·)).filter g.hasShard = [] := by
    refine List.filter_eq_nil_iff.mpr fun i hi hs => ?_
    obtain ⟨j, -, rfl⟩ := List.mem_map.mp hi
    have := h _ hs
    omega
  unfold stored
  rw [List.range_add, List.filter_append, hpast, List.append_nil]

/-- The ring slot of shard `i`, if it is there. -/
def slotOf (g : FecGroup) (i : Nat) : Option Nat := if g.hasShard i then some (g.shardIdx i).toNat else none

theorem slotOf_isSome {g : FecGroup} {i : Nat} : (g.slotOf i).isSome = g.hasShard i := by
  unfold slotOf
  split <;> simp_all

theorem slotOf_setShard (g : FecGroup) (i j slot : Nat) :
    (g.setShard i slot).slotOf j = if j = i then some slot else g.slotOf j := by
  unfold slotOf
  rw [hasShard_setShard, shardIdx_setShard]
  by_cases e : j = i
  · simp [e]
  · simp [e]

/-- Data and parity shards together. -/
def total (g : FecGroup) : Nat := (g.dataNum + g.redundantNum).toNat

/-! ## What a datagram brings -/

/-- The dimensions a group has taken from a datagram. -/
structure Dims (g : FecGroup) (x y l : Nat) : Prop where
  dataNum : g.dataNum = x
  redundantNum : g.redundantNum = y
  len : g.len = l

theorem Dims.total {g : FecGroup} {x y l : Nat} (h : g.Dims x y l) : g.total = x + y := by
  unfold FecGroup.total
  rw [h.dataNum, h.redundantNum]
  omega

theorem Dims.unique {g : FecGroup} {x y l x' y' l' : Nat} (h : g.Dims x y l) (h' : g.Dims x' y' l') :
    x = x' ∧ y = y' ∧ l = l' := by
  have h1 := h.dataNum.symm.trans h'.dataNum
  have h2 := h.redundantNum.symm.trans h'.redundantNum
  have h3 := h.len.symm.trans h'.len
  omega

/-- A group before and after it accepts a datagram. -/
structure Accepted (g g' : FecGroup) (h : Header) : Prop where
  open_ : g.fecDone = false
  fresh : g.hasShard h.innerIndex = false
  oldType : g.type = -1 ∨ g.type = h.type
  type : g'.type = h.type
  seq : g'.seq = g.seq
  done : g'.fecDone = false
  count : g'.shardCount = g.shardCount
  bitmap : g'.shardBitmap = g.shardBitmap
  idx : g'.shardIdx = g.shardIdx
  dims : (h.dataNum = 0 ∨ g.dataNum ≠ -1) ∧ g'.dataNum = g.dataNum ∧ g'.redundantNum = g.redundantNum ∧ g'.len = g.len ∨
    h.dataNum ≠ 0 ∧ g.dataNum = -1
  taken : h.dataNum ≠ 0 → g'.Dims h.dataNum h.redundantNum h.payload.length

theorem accept_ok {g g' : FecGroup} {h : Header} (hr : g.accept h = (g', true)) : Accepted g g' h := by
  unfold accept at hr
  split at hr
  · cases hr
  rename_i hdone
  split at hr
  · cases hr
  rename_i hnew
  split at hr
  · cases hr
  rename_i htype
  have hdone : g.fecDone = false := by simpa using hdone
  have hnew : g.hasShard h.innerIndex = false := by simpa using hnew
  have htype : g.type = -1 ∨ g.type = h.type := by omega
  simp only at hr
  -- the type is set now, whichever way
  have hset : ∀ {g1 : FecGroup}, (if g.type = -1 then { g with type := (h.type : Int) } else g) = g1 →
      g1.type = h.type ∧ g1 = { g with type := g1.type } := by
    intro g1 e
    subst e
    split
    · exact ⟨rfl, rfl⟩
    · rename_i hne
      exact ⟨htype.resolve_left hne, rfl⟩
  generalize hg1 : (if g.type = -1 then { g with type := (h.type : Int) } else g) = g1 at hr
  obtain ⟨ht, hg1⟩ := hset hg1
  rw [hg1] at hr
  simp only at hr
  split at hr
  · rename_i h0
    cases hr
    exact ⟨hdone, hnew, htype, ht, rfl, hdone, rfl, rfl, rfl, .inl ⟨.inl h0, rfl, rfl, rfl⟩, fun hne => absurd h0 hne⟩
  · rename_i h0
    split at hr
    · rename_i hnone
      cases hr
      exact ⟨hdone, hnew, htype, ht, rfl, hdone, rfl, rfl, rfl, .inr ⟨h0, hnone⟩, fun _ => ⟨rfl, rfl, rfl⟩⟩
    · rename_i hsome
      split at hr
      · cases hr
      · rename_i hsame
        cases hr
        refine ⟨hdone, hnew, htype, ht, rfl, hdone, rfl, rfl, rfl, .inl ⟨.inr hsome, rfl, rfl, rfl⟩, fun _ => ?_⟩
        exact ⟨by show g.dataNum = _; omega, by show g.redundantNum = _; omega, by show g.len = _; omega⟩

/-- A refusal leaves the group as it was, but for a type it did not have. -/
theorem accept_refused {g g' : FecGroup} {h : Header} (hr : g.accept h = (g', false)) :
    g' = g ∨ g.type = -1 ∧ g.dataNum ≠ -1 ∧ g' = { g with type := h.type } := by
  unfold accept at hr
  split at hr
  · cases hr; exact .inl rfl
  split at hr
  · cases hr; exact .inl rfl
  split at hr
  · cases hr; exact .inl rfl
  simp only at hr
  by_cases ht : g.type = -1
  · simp only [ht, if_true] at hr
    split at hr
    · cases hr
    · split at hr
      · cases hr
      · rename_i hne
        split at hr
        · cases hr; exact .inr ⟨ht, hne, rfl⟩
        · cases hr
  · simp only [ht, if_false] at hr
    split at hr
    · cases hr
    · split at hr
      · cases hr
      · split at hr
        · cases hr; exact .inl rfl
        · cases hr

@[simp] theorem joined_type (g : FecGroup) (h : Header) (slot : Nat) : (g.joined h slot).type = g.type := rfl
@[simp] theorem joined_seq (g : FecGroup) (h : Header) (slot : Nat) : (g.joined h slot).seq = g.seq := rfl
@[simp] theorem joined_dataNum (g : FecGroup) (h : Header) (slot : Nat) : (g.joined h slot).dataNum = g.dataNum := rfl
@[simp] theorem joined_redundantNum (g : FecGroup) (h : Header) (slot : Nat) :
    (g.joined h slot).redundantNum = g.redundantNum := rfl
@[simp] theorem joined_len (g : FecGroup) (h : Header) (slot : Nat) : (g.joined h slot).len = g.len := rfl
@[simp] theorem joined_count (g : FecGroup) (h : Header) (slot : Nat) :
    (g.joined h slot).shardCount = g.shardCount + 1 := rfl
@[simp] theorem joined_done (g : FecGroup) (h : Header) (slot : Nat) : (g.joined h slot).fecDone = g.fecDone := rfl
@[simp] theorem joined_total (g : FecGroup) (h : Header) (slot : Nat) : (g.joined h slot).total = g.total := rfl

theorem Dims.joined {g : FecGroup} {x y l : Nat} (d : g.Dims x y l) (h : Header) (slot : Nat) :
    (g.joined h slot).Dims x y l := ⟨d.dataNum, d.redundantNum, d.len⟩

theorem hasShard_joined (g : FecGroup) (h : Header) (slot i : Nat) :
    (g.joined h slot).hasShard i = (decide (i = h.innerIndex) || g.hasShard i) := hasShard_setShard g h.innerIndex i slot

theorem slotOf_joined (g : FecGroup) (h : Header) (slot i : Nat) :
    (g.joined h slot).slotOf i = if i = h.innerIndex then some slot else g.slotOf i :=
  slotOf_setShard g h.innerIndex i slot

/-! ## Records -/

/-- What every record satisfies from its first `init` on: indices in range, the count
    right, dimensions within the limits, and a type 0 group's shards below its size. -/
structure Record (N : FecBuffNum) (g : FecGroup) : Prop where
  idx : ∀ i, g.hasShard i = true → 0 ≤ g.shardIdx i ∧ g.shardIdx i < N.1
  low : ∀ i, g.hasShard i = true → i < 256
  count : g.shardCount = (g.stored 256).length
  dims : g.dataNum = -1 ∨ ∃ x y l : Nat, g.Dims x y l ∧ 0 < x ∧ x + y < maxFecPacketNum ∧ l + 100 < bufLen
  blob : g.type = 0 → ∀ i, g.hasShard i = true → ∃ x y l : Nat, g.Dims x y l ∧ i < x + y
  blank : g.type = -1 → ∀ i, g.hasShard i = false

theorem init_record (N : FecBuffNum) (g : FecGroup) (seq : U32) : Record N (g.init seq) where
  idx i h := by simp at h
  low i h := by simp at h
  count := by
    have : (g.init seq).stored 256 = [] := List.filter_eq_nil_iff.mpr fun i _ => by simp
    rw [this]; rfl
  dims := .inl rfl
  blob h := by simp [init] at h
  blank _ i := by simp

theorem Record.congr {N : FecBuffNum} {g g' : FecGroup} (h : Record N g) (hb : g'.shardBitmap = g.shardBitmap)
    (hi : g'.shardIdx = g.shardIdx) (hc : g'.shardCount = g.shardCount) (ht : g'.type = g.type)
    (hd : g'.dataNum = g.dataNum) (hr : g'.redundantNum = g.redundantNum) (hl : g'.len = g.len) : Record N g' := by
  have hs : ∀ i, g'.hasShard i = g.hasShard i := fun i => by simp only [hasShard, hb]
  have hdims : ∀ {x y l : Nat}, g.Dims x y l → g'.Dims x y l := fun d =>
    ⟨hd.trans d.dataNum, hr.trans d.redundantNum, hl.trans d.len⟩
  refine ⟨?_, ?_, ?_, ?_, ?_, ?_⟩
  · intro i h'
    rw [hi]; exact h.idx i (by rwa [hs] at h')
  · intro i h'
    exact h.low i (by rwa [hs] at h')
  · rw [hc, h.count]
    simp only [stored, funext hs]
  · rcases h.dims with hn | ⟨x, y, l, d, rest⟩
    · exact .inl (hd.trans hn)
    · exact .inr ⟨x, y, l, hdims d, rest⟩
  · intro h0 i h'
    obtain ⟨x, y, l, d, hlt⟩ := h.blob (ht ▸ h0) i (by rwa [hs] at h')
    exact ⟨x, y, l, hdims d, hlt⟩
  · intro h1 i
    rw [hs]; exact h.blank (ht ▸ h1) i

/-- Every shard of a type 0 group counts. -/
theorem Record.blob_count {N : FecBuffNum} {g : FecGroup} {x y l : Nat} (hg : Record N g) (h0 : g.type = 0)
    (hd : g.Dims x y l) (hs : x + y < maxFecPacketNum) : (g.stored (x + y)).length = g.shardCount := by
  unfold maxFecPacketNum at hs
  rw [hg.count, stored_eq (show x + y ≤ 256 by omega)]
  intro i hi
  obtain ⟨x', y', l', hd', hlt⟩ := hg.blob h0 i hi
  obtain ⟨rfl, rfl, -⟩ := hd.unique hd'
  exact hlt

/-- An accepted datagram keeps a record one. -/
theorem Record.accepted {N : FecBuffNum} {g g' : FecGroup} {h : Header} (hg : Record N g) (ha : Accepted g g' h)
    (hp : h.Passed) (hlen : h.payload.length + 100 < bufLen) : Record N g' := by
  have hs : ∀ i, g'.hasShard i = g.hasShard i := fun i => by simp only [hasShard, ha.bitmap]
  have hsmall := hp.small
  have hinner := hp.inner
  refine ⟨?_, ?_, ?_, ?_, ?_, ?_⟩
  · intro i hi
    rw [ha.idx]; exact hg.idx i (by rwa [hs] at hi)
  · intro i hi
    exact hg.low i (by rwa [hs] at hi)
  · rw [ha.count, hg.count]
    simp only [stored, funext hs]
  · by_cases h0 : h.dataNum = 0
    · rcases ha.dims with ⟨-, hd, hr, hl⟩ | ⟨hne, -⟩
      · rcases hg.dims with hn | ⟨x, y, l, d, rest⟩
        · exact .inl (hd.trans hn)
        · exact .inr ⟨x, y, l, ⟨hd.trans d.dataNum, hr.trans d.redundantNum, hl.trans d.len⟩, rest⟩
      · exact absurd h0 hne
    · exact .inr ⟨_, _, _, ha.taken h0, by omega, hp.small, hlen⟩
  · intro h0 i hi
    rw [hs] at hi
    have ht0 : h.type = 0 := by have := ha.type; omega
    have d := ha.taken (hp.blob ht0)
    refine ⟨_, _, _, d, ?_⟩
    rcases ha.oldType with hb | ht
    · rw [hg.blank hb i] at hi; cases hi
    · -- an earlier shard lies below the same dimensions
      obtain ⟨x, y, l, d', hlt⟩ := hg.blob (by omega) i hi
      rcases ha.dims with ⟨-, hd, hr, hl⟩ | ⟨-, hn⟩
      · obtain ⟨rfl, rfl, rfl⟩ := d.unique ⟨hd.trans d'.dataNum, hr.trans d'.redundantNum, hl.trans d'.len⟩
        exact hlt
      · have := d'.dataNum; omega
  · intro h1
    have := ha.type
    omega

/-- So does its shard, in a slot of the ring. -/
theorem Record.join {N : FecBuffNum} {g : FecGroup} {h : Header} {slot : Nat} (hg : Record N g)
    (hnew : g.hasShard h.innerIndex = false) (ht : g.type = h.type) (hlow : h.innerIndex < 256) (hslot : slot < N.1)
    (h0 : h.type = 0 → ∃ x y l : Nat, g.Dims x y l ∧ h.innerIndex < x + y) : Record N (g.joined h slot) := by
  have hs : ∀ i, (g.joined h slot).hasShard i = true → i = h.innerIndex ∨ g.hasShard i = true := by
    intro i hi
    rw [hasShard_joined, Bool.or_eq_true, decide_eq_true_iff] at hi
    exact hi
  refine ⟨?_, ?_, ?_, ?_, ?_, ?_⟩
  · intro i hi
    show 0 ≤ (g.setShard h.innerIndex slot).shardIdx i ∧ (g.setShard h.innerIndex slot).shardIdx i < N.1
    rw [shardIdx_setShard]
    split
    · omega
    · rename_i hne
      exact hg.idx i ((hs i hi).resolve_left hne)
  · intro i hi
    rcases hs i hi with rfl | hi
    · exact hlow
    · exact hg.low i hi
  · show g.shardCount + 1 = ((g.setShard h.innerIndex slot).stored 256).length
    rw [stored_setShard _ hlow hnew, hg.count]
  · exact hg.dims.imp_right fun ⟨x, y, l, d, rest⟩ => ⟨x, y, l, d.joined h slot, rest⟩
  · intro hz i hi
    rw [joined_type] at hz
    rcases hs i hi with rfl | hi
    · obtain ⟨x, y, l, d, hlt⟩ := h0 (by omega)
      exact ⟨x, y, l, d.joined h slot, hlt⟩
    · obtain ⟨x, y, l, d, hlt⟩ := hg.blob hz i hi
      exact ⟨x, y, l, d.joined h slot, hlt⟩
  · intro h1
    rw [joined_type] at h1
    omega

/-- And a refusal. -/
theorem Record.refused {N : FecBuffNum} {g g' : FecGroup} {h : Header} (hg : Record N g)
    (hr : g.accept h = (g', false)) : Record N g' := by
  rcases accept_refused hr with rfl | ⟨ht, -, rfl⟩
  · exact hg
  · have hs : ∀ i, g.hasShard i = false := hg.blank ht
    have hdims : g.dataNum = -1 ∨ ∃ x y l : Nat, Dims { g with type := h.type } x y l ∧ 0 < x ∧
        x + y < maxFecPacketNum ∧ l + 100 < bufLen :=
      hg.dims.imp_right fun ⟨x, y, l, d, rest⟩ => ⟨x, y, l, ⟨d.dataNum, d.redundantNum, d.len⟩, rest⟩
    refine ⟨hg.idx, hg.low, hg.count, hdims, fun _ i hi => ?_, fun _ => hs⟩
    have : g.hasShard i = true := hi
    rw [hs i] at this; cases this

end FecGroup

end UdpSpeeder.Manager
