/-
  UdpSpeeder.Manager.Deliver — a mode 0 group from the encoder's packets to the decoder's.

  A run that follows one group (`Follows`) has a single call at which the group's shards
  reach `data_num`; up to it they wait, after it the seq is marked (`fed_tracks`). That call
  decodes rows of the code over the slices of the pack, so the parser finds the packets the
  encoder packed (`Completes.blob`).
-/

import UdpSpeeder.Manager.Join
import UdpSpeeder.Manager.Shapes

namespace UdpSpeeder.Manager

open Lib Fec

variable {N : FecBuffNum}

namespace FecDecodeManager

open DecodeState

variable {base : U32} {w : Nat} {f : ShardSet} {st0 st : FecDecodeManager (FlatTables N)}
  {hist past later : List (Bytes × FeedOut (FlatTables N))} {e : Bytes × FeedOut (FlatTables N)}

/-! ## Runs, call by call -/

theorem Fed.split (hf : Fed N st0 hist st) (he : hist = past ++ e :: later) :
    ∃ st', Fed N st0 past st' ∧ feedOne N st' e.1 = .ok e.2 := by
  induction hf generalizing later with
  | start => simp at he
  | @next hist st hf s o ho ih =>
    rcases concat_split he with ⟨-, rfl, rfl⟩ | ⟨later', -, he⟩
    · exact ⟨st, hf, ho⟩
    · exact ih he

/-- A count that grows along a list passes every bound at some element. -/
theorem exists_crossing {α : Type} {count : List α → Nat} {x : Nat} (past l : List α) (h0 : count past < x)
    (hx : x ≤ count (past ++ l)) :
    ∃ mid a later, l = mid ++ a :: later ∧ count (past ++ mid) < x ∧ x ≤ count (past ++ mid ++ [a]) := by
  induction l generalizing past with
  | nil =>
    rw [List.append_nil] at hx
    omega
  | cons a l ih =>
    by_cases h : count (past ++ [a]) < x
    · obtain ⟨mid, b, later, rfl, h1, h2⟩ := ih (past ++ [a]) h (by simpa using hx)
      exact ⟨a :: mid, b, later, rfl, by simpa using h1, by simpa using h2⟩
    · exact ⟨[], a, l, rfl, by simpa using h0, by simpa using Nat.le_of_not_lt h⟩

/-- How many calls stored a shard. -/
def stores (hist : List (Bytes × FeedOut (FlatTables N))) : Nat := (hist.filter fun e => e.2.stored.isSome).length

theorem stores_append (hist later : List (Bytes × FeedOut (FlatTables N))) : stores (hist ++ later) = stores hist + stores later := by
  simp [stores]

theorem stores_cons (e : Bytes × FeedOut (FlatTables N)) (hist : List (Bytes × FeedOut (FlatTables N))) :
    stores (e :: hist) = stores hist + if e.2.stored.isSome then 1 else 0 := by
  unfold stores
  rw [List.filter_cons]
  split <;> simp

theorem feedOne_index {s : Bytes} {o : FeedOut (FlatTables N)} (hs : st.index < N.1) (ho : feedOne N st s = .ok o) :
    o.stored = none ∧ o.st.index = st.index ∨ o.stored = some st.index ∧ o.st.index = (st.index + 1) % N.1 := by
  obtain ⟨i, out, hi, hout, rfl⟩ := feedOne_ok ho
  have hst := (output_ok hout).1
  simp only [hst]
  rcases input_ok hi with ⟨e, hn, -⟩ | ⟨h, p, -, -, hp, hf⟩
  · rw [e]
    exact .inl ⟨hn, rfl⟩
  · cases hp with
    | refused => cases hf; exact .inl ⟨rfl, rfl⟩
    | self => cases hf; exact .inl ⟨rfl, rfl⟩
    | stored hf' hacc hev hindex hlen hg =>
      cases hf with
      | stored hc =>
        have h1 : _ = st.index := (gather_sameRing hg).index
        have h2 := hc.sameRing.index
        refine .inr ⟨by rw [h1], ?_⟩
        simp only [h2, h1]
        split
        · rename_i heq
          rw [heq, Nat.mod_self]
        · rw [Nat.mod_eq_of_lt (by omega)]

/-- The index has moved on once for each store. -/
theorem fed_index (hs : st0.index < N.1) (hf : Fed N st0 hist st) :
    st.index < N.1 ∧ ∀ past e later p, hist = past ++ e :: later → e.2.stored = some p →
      p < N.1 ∧ st.index = (p + 1 + stores later) % N.1 := by
  induction hf with
  | start => exact ⟨hs, fun past e later p he => by simp at he⟩
  | @next hist st hf s o ho ih =>
    obtain ⟨hlt, hall⟩ := ih
    have hstep := feedOne_index hlt ho
    have hpos : 0 < N.1 := by have := N.2; omega
    refine ⟨?_, ?_⟩
    · rcases hstep with ⟨-, h⟩ | ⟨-, h⟩
      · rwa [h]
      · rw [h]
        exact Nat.mod_lt _ hpos
    · intro past e later p he hp
      rcases concat_split he with ⟨rfl, -, rfl⟩ | ⟨later, rfl, he'⟩
      · rcases hstep with ⟨h, -⟩ | ⟨h, h'⟩
        · rw [h] at hp; cases hp
        · rw [h] at hp
          cases hp
          exact ⟨hlt, h'⟩
      · obtain ⟨hp', hi⟩ := hall past e later p he' hp
        refine ⟨hp', ?_⟩
        rw [stores_append]
        rcases hstep with ⟨h, h'⟩ | ⟨h, h'⟩
        · rw [h', hi, show stores [(s, o)] = 0 by simp [stores, h]]
          rfl
        · rw [h', hi, show stores [(s, o)] = 1 by simp [stores, h], Nat.mod_add_mod, Nat.add_assoc]

/-- The ring comes round to a slot after as many stores as it has slots. -/
theorem stores_of_round (hs : st0.index < N.1) (hf : Fed N st0 hist st) (he : hist = past ++ e :: later)
    (hp : e.2.stored = some st.index) : N.1 ≤ stores (e :: later) := by
  obtain ⟨hlt, hi⟩ := (fed_index hs hf).2 past e later _ he hp
  rw [stores_cons, hp, Option.isSome_some, if_pos rfl]
  have h1 := Nat.div_add_mod (st.index + 1 + stores later) N.1
  rw [← hi] at h1
  -- a whole number of turns, and more than none
  rcases Nat.eq_zero_or_pos ((st.index + 1 + stores later) / N.1) with h0 | hpos
  · rw [h0, Nat.mul_zero] at h1
    omega
  · have : N.1 * 1 ≤ N.1 * ((st.index + 1 + stores later) / N.1) := Nat.mul_le_mul_left _ hpos
    omega

/-! ## A group over a run -/

/-- While the group waits, no call evicts a shard of it. -/
def Spared (f : ShardSet) (st0 : FecDecodeManager (FlatTables N)) (hist : List (Bytes × FeedOut (FlatTables N))) : Prop :=
  ∀ past e later st', hist = past ++ e :: later → Fed N (clear N st0) past st' →
    (f.arrived (past.map Prod.fst)).length < f.x → ¬ Evicts st' e.1 f.seq

/-- A run that the group can be followed through. -/
structure Follows (base : U32) (w : Nat) (f : ShardSet) (st0 : FecDecodeManager (FlatTables N))
    (hist : List (Bytes × FeedOut (FlatTables N))) : Prop where
  narrow : Narrow N base w
  window : InWindow base w f.seq
  within : Within base w (hist.map Prod.fst)
  only : ∀ s ∈ hist.map Prod.fst, f.Only s
  spared : Spared f st0 hist

theorem Follows.upTo (h : Follows base w f st0 (past ++ later)) : Follows base w f st0 past :=
  ⟨h.narrow, h.window, fun s hs => h.within s (by rw [List.map_append]; exact List.mem_append_left _ hs),
    fun s hs => h.only s (by rw [List.map_append]; exact List.mem_append_left _ hs),
    fun p e l st' he => h.spared p e (l ++ later) st' (by rw [he]; simp)⟩

theorem arrived_mono (f : ShardSet) (ss ts : List Bytes) : (f.arrived ss).length ≤ (f.arrived (ss ++ ts)).length := by
  refine ((f.arrived_nodup ss).subperm fun i hi => ?_).length_le
  obtain ⟨h1, h2, h3⟩ := ShardSet.mem_arrived.mp hi
  exact ShardSet.mem_arrived.mpr ⟨h1, h2, List.mem_append_left _ h3⟩

/-- The group waits, or is complete and marked. -/
theorem fed_tracks (hf : Fed N (clear N st0) hist st) (hw : Follows base w f st0 hist) :
    Tracks f hist st ∨ f.x ≤ (f.arrived (hist.map Prod.fst)).length ∧ Marks st f.seq := by
  induction hf with
  | start => exact .inl (clear_tracks f (fun e => hw.narrow.marker (e ▸ hw.window)) st0)
  | @next hist st hf s o ho ih =>
    have hsound := (fed_sound hw.narrow hf hw.upTo.within).1
    have hin := hw.within s (by simp)
    rcases ih hw.upTo with ht | ⟨hx, hm⟩
    · rcases ht.step hw.narrow hw.window hsound hin (hw.only s (by simp)) (hw.spared hist _ [] st rfl hf ht.waiting) ho with
        ⟨h, -⟩ | ⟨h, hm, -⟩
      · exact .inl h
      · exact .inr ⟨h.ge, hm⟩
    · refine .inr ⟨?_, (marked_step hw.narrow hw.window hsound hm hin ho).1⟩
      rw [List.map_append]
      exact Nat.le_trans hx (arrived_mono f _ _)

/-- Every call but the completing one brings nothing of the group. -/
theorem fed_quiet (hf : Fed N (clear N st0) hist st) (hw : Follows base w f st0 hist) (he : hist = past ++ e :: later)
    (hno : (f.arrived (past.map Prod.fst)).length < f.x → (f.arrived ((past ++ [e]).map Prod.fst)).length < f.x)
    (hown : Own f.seq e.1) : e.2.packets = none := by
  obtain ⟨st', hf', ho⟩ := hf.split he
  subst he
  have hsound := (fed_sound hw.narrow hf' hw.upTo.within).1
  have hin := hw.within e.1 (by simp)
  rcases fed_tracks hf' hw.upTo with ht | ⟨-, hm⟩
  · rcases ht.step hw.narrow hw.window hsound hin (hw.only e.1 (by simp)) (hw.spared past _ later st' rfl hf' ht.waiting) ho with
      ⟨-, h⟩ | ⟨h, -⟩
    · exact h hown
    · have := hno ht.waiting
      rw [h] at this
      omega
  · exact (marked_step hw.narrow hw.window hsound hm hin ho).2 hown

/-- The call at which the shards reach `data_num` hands them to `rs_decode2`. -/
theorem fed_completes (hf : Fed N (clear N st0) hist st) (hw : Follows base w f st0 hist) (he : hist = past ++ e :: later)
    (hlt : (f.arrived (past.map Prod.fst)).length < f.x) (hx : f.x ≤ (f.arrived ((past ++ [e]).map Prod.fst)).length) :
    (f.arrived ((past ++ [e]).map Prod.fst)).length = f.x ∧ e.2.stored.isSome ∧ ∃ st' t d g h c,
      feedOne N st' e.1 = .ok e.2 ∧ prepare N st' e.1 = .ok (.stored t d g h (some c)) ∧
        Completes f ((past ++ [e]).map Prod.fst) d g h c := by
  obtain ⟨st', hf', ho⟩ := hf.split he
  subst he
  have hsound := (fed_sound hw.narrow hf' hw.upTo.within).1
  have hin := hw.within e.1 (by simp)
  rcases fed_tracks hf' hw.upTo with ht | ⟨hx', -⟩
  · rcases ht.step hw.narrow hw.window hsound hin (hw.only e.1 (by simp)) (hw.spared past _ later st' rfl hf' ht.waiting) ho with
      ⟨h, -⟩ | ⟨hcount, -, hst, t, d, g, h, c, hp, hc⟩
    · exact absurd hx (Nat.not_le.mpr h.waiting)
    · exact ⟨hcount, hst, st', t, d, g, h, c, ho, hp, hc⟩
  · omega

/-- With enough shards fed there is one completing call, and no other brings anything. -/
theorem group_completed (hf : Fed N (clear N st0) hist st) (hw : Follows base w f st0 hist)
    (hx : f.x ≤ (f.arrived (hist.map Prod.fst)).length) :
    ∃ past e later, hist = past ++ e :: later ∧ (f.arrived (past.map Prod.fst)).length < f.x ∧
      f.x ≤ (f.arrived ((past ++ [e]).map Prod.fst)).length ∧
        ∀ e' ∈ past ++ later, Own f.seq e'.1 → e'.2.packets = none := by
  obtain ⟨past, e, later, rfl, h1, h2⟩ := @exists_crossing _ (fun l : List (Bytes × FeedOut (FlatTables N)) =>
    (f.arrived (l.map Prod.fst)).length) f.x [] hist (by simpa [ShardSet.arrived] using f.pos) hx
  simp only [List.nil_append] at h1 h2
  refine ⟨past, e, later, rfl, h1, h2, fun e' he' hown => ?_⟩
  rcases List.mem_append.mp he' with he' | he'
  · obtain ⟨a, b, rfl⟩ := List.append_of_mem he'
    refine @fed_quiet N base w f st0 st _ a (b ++ e :: later) e' hf hw (by simp) (fun _ => ?_) hown
    have := arrived_mono f ((a ++ [e']).map Prod.fst) (b.map Prod.fst)
    rw [← List.map_append, List.append_assoc, List.singleton_append] at this
    exact Nat.lt_of_le_of_lt this h1
  · obtain ⟨a, b, rfl⟩ := List.append_of_mem he'
    refine @fed_quiet N base w f st0 st _ (past ++ e :: a) b e' hf hw (by simp) (fun hlt => ?_) hown
    have := arrived_mono f ((past ++ [e]).map Prod.fst) (a.map Prod.fst)
    rw [← List.map_append, List.append_assoc, List.singleton_append] at this
    omega

/-! ## Mode 0 -/

theorem blobShard_rows (seq : U32) {x y : Nat} (len : Nat) (B : Nat → Byte) (hn : x + y < maxFecPacketNum) {i : Nat}
    (hi : i < x + y) : ∃ p, parseHeader (blobShard seq x y len B i) = some ⟨seq, 0, x, y, i, p⟩ ∧ p.length = len ∧
      ∀ j < len, mem p j = shard x (fun c j => B (len * c + j)) i j := by
  unfold maxFecPacketNum at hn
  refine ⟨_, parseHeader_headerBytes _ (by omega) (by omega) (by omega) (by omega), slice_length _ _ _, fun j hj => ?_⟩
  rw [mem_slice _ _ _ hj, Nat.zero_add]

/-- The shards of a mode 0 group. -/
noncomputable def blobSet (seq : U32) (x y len : Nat) (B : Nat → Byte) (hx : 0 < x) (hn : x + y < maxFecPacketNum) : ShardSet where
  seq := seq
  type := 0
  x := x
  y := y
  len := len
  lo := 0
  blocks c j := B (len * c + j)
  bytes := blobShard seq x y len B
  pos := hx
  small := hn
  typed := .inl rfl
  rows _ _ hi := blobShard_rows seq len B hn hi

/-- The completing call of a mode 0 group hands out the packets of the pack. -/
theorem Completes.blob {ss : List Bytes} {s : Bytes} {o : FeedOut (FlatTables N)} {t : FlatTables N} {d : DecodeState}
    {g : FecGroup} {h : Header} {c : DecodeCall} {B : Nat → Byte} {ps : List Bytes} (hc : Completes f ss d g h c)
    (h0 : f.type = 0) (hblocks : ∀ i j, f.blocks i j = B (f.len * i + j)) (hpack : HasAt B 0 (pack ps))
    (hlen : f.len = roundUpDiv (pack ps).length f.x) (hshort : ∀ p ∈ ps, p.length ≤ 65535)
    (hfew : ps.length ≤ maxBlobPacketNum) (hp : prepare N st s = .ok (.stored t d g h (some c)))
    (ho : feedOne N st s = .ok o) : o.n = ps.length ∧ o.packets = some ps := by
  obtain ⟨d', hdec, hout⟩ := hc.decodes ho hp
  have hcount := decodeGroup_count hc.fits hdec
  unfold decodeGroup at hdec
  rw [if_pos (hc.type.trans h0)] at hdec
  obtain ⟨codes', m', arr', b, hdec', hcur, hval, hrun⟩ := decodeBlob_run hc.fits hcount hc.ready
  rw [hrun] at hdec
  cases hdec
  have hdone := hdec' f.blocks hc.rows
  have hfits : (pack ps).length ≤ b.currentLen := by
    rw [hcur, hc.k, hc.size, hlen]
    exact le_roundUpDiv_mul _ f.pos
  have hat : HasAt b.inputBuf 0 (pack ps) := by
    refine hpack.congr fun j hj => ?_
    rw [Nat.zero_add]
    -- byte `j` is in slice `j / len`
    have hpos : 0 < f.len := by
      rcases Nat.eq_zero_or_pos f.len with h' | h'
      · rw [hcur, hc.size, h', Nat.mul_zero] at hfits
        omega
      · exact h'
    have hdiv := Nat.div_add_mod j f.len
    have hmod := Nat.mod_lt j hpos
    have hslice : j / f.len < c.k := by
      rw [hcur, hc.size] at hfits
      rw [Nat.div_lt_iff_lt_mul hpos]
      omega
    obtain ⟨p, hp⟩ := Option.isSome_iff_exists.mp (hdone.filled _ hslice)
    have h1 := hval _ hslice p hp (j % f.len) (by rw [hc.size]; exact hmod)
    have h2 := hdone.content hc.apart _ hslice p hp (j % f.len) (by rw [hc.size]; exact hmod)
    rw [hc.size, hdiv] at h1
    rw [h1, h2, hblocks, hdiv]
  obtain ⟨h1, h2, h3, h4⟩ := b.output_pack ps hshort hfew hat hfits
  rcases hout with ⟨hno, -⟩ | ⟨-, hn, qs, hqs, hpackets⟩
  · simp only [h1, decide_true] at hno
    cases hno
  · simp only [h2, Option.getD_some] at hn
    rw [outputPackets_blob (by simp [h3])] at hqs
    simp only [h2, Option.getD_some, Int.toNat_natCast, h4] at hqs
    cases hqs
    exact ⟨hn, hpackets⟩

/-- Some run of the encoder in mode 0 sends the packets `ps` as the group `shards`, off a table
    whose rows the decoder takes. -/
inductive Emits : List Bytes → List Bytes → Prop
  | closed {e : FecEncodeManager} {ps shards : List Bytes} {o : EncodeOptions} {s : Option Bytes} {out : FecEncodeManager.EncodeOut}
      (hpacks : FecEncodeManager.Packs e ps) (he : e.encodeOne o s = .ok out) (hmode : out.st.fecPar.mode = 0)
      (hrows : ∀ i < out.st.fecPar.rsCnt, (out.st.fecPar.rsPar i).x = i + 1 ∧
        (out.st.fecPar.rsPar i).x + (out.st.fecPar.rsPar i).y ≤ 254)
      (hsent : out.sent = some shards) : Emits (out.group ps s) shards

/-- How many of the shards have been fed. -/
def distinct (shards ss : List Bytes) : Nat := (shards.filter fun s => decide (s ∈ ss)).length

/-- From the first of the shards fed to the `x`-th, the `x`-th included, at most `fec_buff_num`
    shards are stored, of whatever group. -/
def Room (N : FecBuffNum) (shards : List Bytes) (x : Nat) (hist : List (Bytes × FeedOut (FlatTables N))) : Prop :=
  ∀ before first span last later, hist = before ++ first :: span ++ last :: later → (∀ e ∈ before, e.1 ∉ shards) →
    first.1 ∈ shards → distinct shards ((before ++ first :: span).map Prod.fst) < x →
      x ≤ distinct shards ((before ++ first :: span ++ [last]).map Prod.fst) → stores (first :: span) + 1 ≤ N.1

/-- The call that stores the `x`-th of the shards hands out exactly the packets, and no other
    call, unless its datagram is of another seq, hands out anything. -/
def Delivered (S : U32) (shards : List Bytes) (x : Nat) (ps : List Bytes) (hist : List (Bytes × FeedOut (FlatTables N))) : Prop :=
  ∃ past e later, hist = past ++ e :: later ∧ distinct shards (past.map Prod.fst) < x ∧
    distinct shards ((past ++ [e]).map Prod.fst) = x ∧ e.2.stored.isSome ∧ e.2.n = (ps.length : Int) ∧ e.2.packets = some ps ∧
      ∀ e' ∈ past ++ later, Own S e'.1 → e'.2.packets = none

theorem distinct_map (f : ShardSet) (hlo : f.lo = 0) (ss : List Bytes) :
    distinct ((List.range (f.x + f.y)).map f.bytes) ss = (f.arrived ss).length := by
  unfold distinct ShardSet.arrived
  rw [List.filter_map, List.length_map]
  refine congrArg List.length (List.filter_congr fun i _ => ?_)
  rw [Function.comp_apply, decide_eq_decide, hlo]
  simp

/-- Room in the ring spares the group. -/
theorem Room.spared {shards : List Bytes} (hroom : Room N shards f.x hist) (hshards : shards = (List.range (f.x + f.y)).map f.bytes)
    (hlo : f.lo = 0) (hn : Narrow N base w) (hw : Within base w (hist.map Prod.fst))
    (hown : ∀ s ∈ hist.map Prod.fst, s ∈ shards ∨ ∀ h, parseHeader s = some h → h.seq ≠ f.seq)
    (hx : f.x ≤ distinct shards (hist.map Prod.fst)) : Spared f st0 hist := by
  rintro past e later st' rfl hf hlt ⟨-, -, -, -, hu, hseq⟩
  have hcount : ∀ ss, distinct shards ss = (f.arrived ss).length := fun ss => by rw [hshards, distinct_map f hlo]
  obtain ⟨hsound, hring⟩ := fed_sound hn hf fun s hs => hw s (by rw [List.map_append]; exact List.mem_append_left _ hs)
  -- the shard in the slot, and the stores since
  obtain ⟨a, s, o, b, h, rfl, hstored, -, hparse, hseq', -⟩ := hring _ hsound.safe.index hu
  have hround := stores_of_round (clear_safe st0).index hf rfl hstored
  have hin : s ∈ shards := (hown s (by simp)).resolve_right fun hno => hno h hparse (hseq'.trans hseq)
  -- the first shard fed
  obtain ⟨before, first, span, hsplit, hbefore, hfirst, hmore⟩ : ∃ before first span,
      a ++ (s, o) :: b = before ++ first :: span ∧ (∀ e ∈ before, e.1 ∉ shards) ∧ first.1 ∈ shards ∧
        stores ((s, o) :: b) ≤ stores (first :: span) := by
    by_cases hany : ∃ e ∈ a, e.1 ∈ shards
    · obtain ⟨first, hfind⟩ := Option.isSome_iff_exists.mp
        ((@List.find?_isSome _ a fun e => decide (e.1 ∈ shards)).mpr (by simpa using hany))
      obtain ⟨hfirst, before, span, rfl, hbefore⟩ := List.find?_eq_some_iff_append.mp hfind
      refine ⟨before, first, span ++ (s, o) :: b, by simp, by simpa using hbefore, by simpa using hfirst, ?_⟩
      rw [← List.cons_append, stores_append]
      exact Nat.le_add_left _ _
    · exact ⟨a, (s, o), b, rfl, fun e he hin => hany ⟨e, he, hin⟩, hin, le_rfl⟩
  rw [hsplit] at hlt hx hroom
  obtain ⟨mid, last, rest, hlast, h1, h2⟩ := @exists_crossing _ (fun l : List (Bytes × FeedOut (FlatTables N)) =>
    distinct shards (l.map Prod.fst)) f.x (before ++ first :: span) (e :: later) (by rw [hcount]; exact hlt) hx
  have := hroom before first (span ++ mid) last rest (by rw [hlast]; simp) hbefore hfirst (by simpa using h1) (by simpa using h2)
  rw [← List.cons_append, stores_append] at this
  omega

/-- What the encoder emitted is a group the decoder can follow. -/
theorem Emits.shards {ps shards : List Bytes} (he : Emits ps shards) : ∃ (f : ShardSet) (B : Nat → Byte),
    shards = (List.range (f.x + f.y)).map f.bytes ∧ f.lo = 0 ∧ f.type = 0 ∧ (∀ i j, f.blocks i j = B (f.len * i + j)) ∧
      HasAt B 0 (pack ps) ∧ f.len = roundUpDiv (pack ps).length f.x ∧ (∀ p ∈ ps, p.length ≤ 65535) ∧
        ps.length ≤ maxBlobPacketNum := by
  cases he with
  | @closed e qs _ o s out hpacks he hmode hrows hsent =>
    rcases (FecEncodeManager.encodeOne_blob hpacks.holding he hmode).2 with hnone | ⟨x, y, len, B, hs, hsent'⟩
    · rw [hnone] at hsent
      cases hsent
    obtain ⟨r, hr, hrow⟩ := hs.row fun i hi => (hrows i hi).1
    have hsum := (hrows r hr).2
    rw [← hrow] at hsum
    have hn : x + y < maxFecPacketNum := Nat.lt_succ_of_le hsum
    rw [hsent'] at hsent
    exact ⟨blobSet e.seq x y len B hs.pos hn, B, (Option.some.inj hsent).symm, rfl, rfl, fun _ _ => rfl, hs.pack, hs.len, hs.short,
      hs.few⟩

/-- Every group the encoder sends in mode 0 reaches the other side, whatever is lost, repeated,
    reordered or mixed in, if and only if no datagram stops the decoder. -/
theorem blob_delivered (base : U32) (w : Nat) (st0 : FecDecodeManager (FlatTables N)) (ps shards ss : List Bytes) (S : U32) (x : Nat)
    (he : Emits ps shards) (hhead : ∃ t ∈ shards, ∃ h, parseHeader t = some h ∧ h.seq = S ∧ h.dataNum = x)
    (hw : w < min (groupTableSize N.1) antiReplayTableSize) (hm : ¬ InWindow base w emptySeq) (hin : Within base w ss)
    (hown : ∀ s ∈ ss, s ∈ shards ∨ ∀ h, parseHeader s = some h → h.seq ≠ S) (hx : x ≤ distinct shards ss)
    (hroom : ∀ hist st, Fed N (clear N st0) hist st → hist.map Prod.fst = ss → Room N shards x hist) :
    (∃ hist st, Fed N (clear N st0) hist st ∧ hist.map Prod.fst = ss ∧ Delivered S shards x ps hist) ↔
      AllSteps N (Harmless N) (clear N st0) ss := by
  have hn : Narrow N base w := ⟨by omega, by omega, hm⟩
  rw [← fed_iff_harmless st0 ss (.of_mem fun _ _ hs _ ha e => absurd e (hin.proper hn hs ha))]
  constructor
  · rintro ⟨hist, st, hf, e, -⟩
    exact ⟨hist, st, hf, e⟩
  rintro ⟨hist, st, hf, rfl⟩
  obtain ⟨f, B, hshards, hlo, h0, hblocks, hpack, hlen, hshort, hfew⟩ := he.shards
  have hcount : ∀ ss, distinct shards ss = (f.arrived ss).length := fun ss => by rw [hshards, distinct_map f hlo]
  obtain ⟨rfl, rfl⟩ : f.seq = S ∧ f.x = x := by
    obtain ⟨t, ht, h, hp, rfl, rfl⟩ := hhead
    rw [hshards] at ht
    obtain ⟨i, hi, rfl⟩ := List.mem_map.mp ht
    obtain ⟨q, hq, -⟩ := f.rows i (by omega) (List.mem_range.mp hi)
    rw [hq] at hp
    cases hp
    exact ⟨rfl, rfl⟩
  have hwindow : InWindow base w f.seq := by
    have hsome : 0 < (f.arrived (hist.map Prod.fst)).length := by
      rw [← hcount]
      exact Nat.lt_of_lt_of_le f.pos hx
    obtain ⟨i, hi⟩ := List.exists_mem_of_length_pos hsome
    obtain ⟨hi, hi', hmem⟩ := ShardSet.mem_arrived.mp hi
    obtain ⟨q, hq, -⟩ := f.rows i hi' hi
    exact hin _ hmem _ hq
  have honly : ∀ s ∈ hist.map Prod.fst, f.Only s := by
    intro s hs h hp hseq
    have hmem := (hown s hs).resolve_right fun hno => hno h hp hseq
    rw [hshards] at hmem
    obtain ⟨i, hi, rfl⟩ := List.mem_map.mp hmem
    exact .inr ⟨i, by omega, List.mem_range.mp hi, rfl⟩
  have hfollow : Follows base w f st0 hist :=
    ⟨hn, hwindow, hin, honly, (hroom hist st hf rfl).spared hshards hlo hn hin hown hx⟩
  rw [hcount] at hx
  obtain ⟨past, e, later, hsplit, h1, h2, hquiet⟩ := group_completed hf hfollow hx
  obtain ⟨h3, hstored, st', t, d, g, h, c, ho, hp, hc⟩ := fed_completes hf hfollow hsplit h1 h2
  obtain ⟨hnum, hpackets⟩ := hc.blob h0 hblocks hpack hlen hshort hfew hp ho
  exact ⟨hist, st, hf, rfl, past, e, later, hsplit, by rw [hcount]; exact h1, by rw [hcount]; exact h3, hstored, hnum, hpackets,
    hquiet⟩

/-- A run shorter than the ring leaves room. -/
theorem Room.of_short (shards : List Bytes) (x : Nat) (h : hist.length ≤ N.1) : Room N shards x hist := by
  rintro before first span last later rfl - - - -
  have := List.length_filter_le (fun e : Bytes × FeedOut (FlatTables N) => e.2.stored.isSome) (first :: span)
  simp only [List.length_append, List.length_cons] at h this
  unfold stores
  omega

/-- One packet, in a group of one data and one parity shard. -/
theorem emits_probe : ∃ ps shards len B, Emits ps shards ∧ shards = (List.range 2).map (blobShard 0 1 1 len B) := by
  let p : FecParameter := { (default : FecParameter) with rsCnt := 1, rsPar := fun _ => ⟨1, 1⟩ }
  have hrows : FecParameter.RowsBelow p.rsPar p.rsCnt := by
    intro i hi
    have hi : i = 0 := Nat.lt_one_iff.mp hi
    subst hi
    exact ⟨rfl, by decide⟩
  obtain ⟨e0, e, hnew, hseq, h⟩ := @FecEncodeManager.construct_probed p 1 (by decide)
  obtain ⟨out, len, B, hone, -, hnext, hsent⟩ := h.last hrows (by decide) rfl (by decide) (by decide)
  rw [hseq] at hsent
  refine ⟨_, _, len, B, .closed (.start hnew) hone (by rw [hnext.fecPar]; rfl) (fun i hi => ?_) hsent, rfl⟩
  rw [hnext.fecPar] at hi ⊢
  have hi : i = 0 := Nat.lt_one_iff.mp hi
  subst hi
  exact ⟨rfl, by decide⟩

theorem blobShard_seq (seq : U32) {x y i : Nat} (len : Nat) (B : Nat → Byte) (hn : x + y < maxFecPacketNum) (hi : i < x + y)
    {h : Header} (hp : parseHeader (blobShard seq x y len B i) = some h) : h.seq = seq ∧ h.dataNum = x := by
  obtain ⟨p, hp', -⟩ := blobShard_rows seq len B hn hi
  rw [hp'] at hp
  cases hp
  exact ⟨rfl, rfl⟩

/-- Its parity shard alone. -/
theorem blob_delivered_parity : ∃ ps shards len B, Emits ps shards ∧
    ((∃ hist st, Fed leastNum leastDecoder hist st ∧ hist.map Prod.fst = [blobShard 0 1 1 len B 1] ∧
      Delivered 0 shards 1 ps hist) ↔ AllSteps leastNum (Harmless leastNum) leastDecoder [blobShard 0 1 1 len B 1]) := by
  obtain ⟨ps, shards, len, B, he, hshards⟩ := emits_probe
  have hmem : blobShard 0 1 1 len B 1 ∈ shards := by
    rw [hshards]
    exact List.mem_map_of_mem (by decide)
  have hseq : ∀ h, parseHeader (blobShard 0 1 1 len B 1) = some h → h.seq = 0 ∧ h.dataNum = 1 := fun h hp =>
    blobShard_seq 0 len B (by decide) (by decide) hp
  obtain ⟨q, hq, -⟩ := @blobShard_rows 0 1 1 len B (by decide) 1 (by decide)
  refine ⟨ps, shards, len, B, he, blob_delivered 0 10 default ps shards _ 0 1 he ⟨_, hmem, _, hq, rfl, rfl⟩ (by decide) (by decide)
    (fun s hs h hp => ?_) (fun s hs => ?_) ?_ fun hist st hf e => .of_short shards 1 ?_⟩
  · rw [List.mem_singleton.mp hs] at hp
    rw [(hseq h hp).1]
    decide
  · rw [List.mem_singleton.mp hs]
    exact .inl hmem
  · refine List.length_pos_iff_exists_mem.mpr ⟨_, List.mem_filter.mpr ⟨hmem, ?_⟩⟩
    simp
  · have := congrArg List.length e
    rw [List.length_map] at this
    rw [this]
    exact (by decide : 1 ≤ 300)

/-- Two datagrams of another seq stop the decoder before the group's first shard is read. -/
theorem blob_not_delivered : ¬ ∀ (N : FecBuffNum) (base : U32) (w : Nat) (st0 : FecDecodeManager (FlatTables N))
    (ps shards ss : List Bytes) (S : U32) (x : Nat), Emits ps shards →
      (∃ t ∈ shards, ∃ h, parseHeader t = some h ∧ h.seq = S ∧ h.dataNum = x) →
      w < min (groupTableSize N.1) antiReplayTableSize → ¬ InWindow base w emptySeq → Within base w ss →
      (∀ s ∈ ss, s ∈ shards ∨ ∀ h, parseHeader s = some h → h.seq ≠ S) → x ≤ distinct shards ss →
      (∀ hist st, Fed N (clear N st0) hist st → hist.map Prod.fst = ss → Room N shards x hist) →
        ∃ hist st, Fed N (clear N st0) hist st ∧ hist.map Prod.fst = ss ∧ Delivered S shards x ps hist := by
  intro hall
  obtain ⟨ps, shards, len, B, he, hshards⟩ := emits_probe
  have hmem : blobShard 0 1 1 len B 0 ∈ shards := by
    rw [hshards]
    exact List.mem_map_of_mem (by decide)
  have hseq : ∀ h, parseHeader (blobShard 0 1 1 len B 0) = some h → h.seq = 0 ∧ h.dataNum = 1 := fun h hp =>
    blobShard_seq 0 len B (by decide) (by decide) hp
  obtain ⟨q, hq, -⟩ := @blobShard_rows 0 1 1 len B (by decide) 0 (by decide)
  have hforeign : ∀ s ∈ [bytes [0, 0, 0, 9, 1, 0, 200, 150, 0, 0], bytes [0, 0, 0, 9, 1, 2, 0, 0, 5, 6]], ∀ h,
      parseHeader s = some h → h.seq = 9 := by
    intro s hs h hp
    obtain ⟨-, rfl⟩ := Header.parseHeader_eq hp
    clear hp
    revert s
    exact (by decide : ∀ s ∈ [bytes [0, 0, 0, 9, 1, 0, 200, 150, 0, 0], bytes [0, 0, 0, 9, 1, 2, 0, 0, 5, 6]],
      readU32 (mem s) 0 = 9)
  obtain ⟨hist, st, hf, e, -⟩ := hall leastNum 0 10 default ps shards
    ([bytes [0, 0, 0, 9, 1, 0, 200, 150, 0, 0], bytes [0, 0, 0, 9, 1, 2, 0, 0, 5, 6]] ++ [blobShard 0 1 1 len B 0]) 0 1 he
    ⟨_, hmem, _, hq, rfl, rfl⟩ (by decide) (by decide) (fun s hs h hp => by
      rcases List.mem_append.mp hs with hs | hs
      · rw [hforeign s hs h hp]
        decide
      · rw [List.mem_singleton.mp hs] at hp
        rw [(hseq h hp).1]
        decide)
    (fun s hs => by
      rcases List.mem_append.mp hs with hs | hs
      · refine .inr fun h hp => ?_
        rw [hforeign s hs h hp]
        decide
      · rw [List.mem_singleton.mp hs]
        exact .inl hmem)
    (List.length_pos_iff_exists_mem.mpr ⟨_, List.mem_filter.mpr ⟨hmem, by simp⟩⟩)
    (fun hist st hf e => .of_short shards 1 (by
      have := congrArg List.length e
      rw [List.length_map] at this
      rw [this]
      exact (by decide : 3 ≤ 300)))
  have hstop : (feedAll leastNum leastDecoder
      [bytes [0, 0, 0, 9, 1, 0, 200, 150, 0, 0], bytes [0, 0, 0, 9, 1, 2, 0, 0, 5, 6]]).isOk = false := by decide +kernel
  have hrun := hf.feedAll
  rw [e, feedAll_append] at hrun
  obtain ⟨st', hst', -⟩ := bind_ok.mp hrun
  change feedAll leastNum leastDecoder _ = _ at hst'
  rw [hst'] at hstop
  cases hstop

end FecDecodeManager

end UdpSpeeder.Manager
