/-
  UdpSpeeder.Manager.Rows — groups of the encoder in mode 1: each packet in a row of its own,
  sent as it comes in, and the parity shards when the group is closed.

  A row keeps its packet, behind its length, from `append` to the close (`HasRows`), so
  the parity is that of the packets as they were given, with zeros up to the longest.
-/

import UdpSpeeder.Manager.Pack

namespace UdpSpeeder.Manager

open Lib Fec

/-! ## The shards of a group -/

/-- The data shard of a packet: it names its index and no shape. -/
def packetShard (seq : U32) (i : Nat) (p : Bytes) : Bytes := headerBytes seq 1 0 0 i ++ record p

/-- What the parity is coded from: each packet behind its length, and zeros. -/
def packetRows (ps : List Bytes) (c j : Nat) : Byte := mem (record (ps.getD c [])) j

/-- The length of the longest packet behind its length. -/
def longestRecord (ps : List Bytes) : Nat := (ps.map fun p => (record p).length).foldl max 0

noncomputable def parityShard (seq : U32) (ps : List Bytes) (y j : Nat) : Bytes :=
  headerBytes seq 1 ps.length y (ps.length + j) ++
    slice (shard ps.length (packetRows ps) (ps.length + j)) 0 (longestRecord ps)

noncomputable def parityShards (seq : U32) (ps : List Bytes) (y : Nat) : List Bytes := (List.range y).map (parityShard seq ps y)

namespace FecEncodeManager

/-- Rows that keep these bytes behind the place of the header. -/
structure Keeps (e : FecEncodeManager) (rs : List Bytes) : Prop where
  len : ∀ i (hi : i < rs.length), e.inputLen i = rs[i].length
  row : ∀ i (hi : i < rs.length), HasAt (e.inputBuf i) 8 rs[i]

theorem Keeps.nil (e : FecEncodeManager) : Keeps e [] := ⟨fun i hi => absurd hi (by simp), fun i hi => absurd hi (by simp)⟩

theorem Keeps.append {e e' : FecEncodeManager} {rs : List Bytes} {s : Bytes} (h : e.Keeps rs) (hcount : e.counter = rs.length)
    (h1 : e.fecPar.mode = 1) {now : Nat} (hr : e.append now s = .ok e') : e'.Keeps (rs ++ [record s]) := by
  obtain ⟨hlen, -, -, -, hlens, hbuf⟩ := (append_ok hr).row h1
  rw [hcount] at hlens hbuf
  refine ⟨?_, ?_⟩
  · intro i hi
    rw [hlens, upd_apply]
    split
    · rename_i e
      subst e
      rw [List.getElem_concat_length rfl, record_length]
      omega
    · rename_i hne
      have hi : i < rs.length := by rw [List.length_append, List.length_singleton] at hi; omega
      rw [List.getElem_append_left hi]
      exact h.len i hi
  · intro i hi
    rw [hbuf]
    by_cases e : i = rs.length
    · subst e
      rw [upd_same, List.getElem_concat_length rfl, record, HasAt.append]
      refine ⟨(writeU16_hasAt _ 8 s.length).congr fun j hj => copyTo_out _ _ (.inl ?_), fun j hj => copyTo_in _ _ hj⟩
      have hj : j < 2 := hj
      omega
    · have hi : i < rs.length := by rw [List.length_append, List.length_singleton] at hi; omega
      rw [upd_ne _ _ e, List.getElem_append_left hi]
      exact h.row i hi

/-- An early send writes a header and nothing else. -/
theorem Keeps.send {e e' : FecEncodeManager} {rs : List Bytes} (h : e.Keeps rs) (hr : e.fastSend = .ok e') : e'.Keeps rs := by
  unfold fastSend at hr
  rw [check_bind, check_bind, check_bind] at hr
  cases hr.2.2.2
  refine ⟨h.len, fun i hi => ?_⟩
  simp only [upd_apply]
  split
  · rename_i e
    subst e
    exact (h.row _ hi).congr fun j hj => putHeader_out _ _ _ _ _ _ (by omega)
  · exact h.row i hi

/-- And hands out the last row. -/
theorem fastSend_output {e e' : FecEncodeManager} (hr : e.fastSend = .ok e') :
    e'.output.2 = some [(e.counter - 1, e.inputLen (e.counter - 1) + 8)] := by
  unfold fastSend at hr
  rw [check_bind, check_bind, check_bind] at hr
  cases hr.2.2.2
  simp [output]

/-- The rows of the packets of a pending group. -/
structure HasRows (e : FecEncodeManager) (ps : List Bytes) : Prop where
  len : ∀ i (hi : i < ps.length), e.inputLen i = (record ps[i]).length
  row : ∀ i (hi : i < ps.length), HasAt (e.inputBuf i) 8 (record ps[i])

theorem hasRows_iff {e : FecEncodeManager} {ps : List Bytes} : e.HasRows ps ↔ e.Keeps (ps.map record) := by
  constructor
  · rintro ⟨hlen, hrow⟩
    exact ⟨fun i hi => by rw [List.getElem_map]; exact hlen i (by simpa using hi),
      fun i hi => by rw [List.getElem_map]; exact hrow i (by simpa using hi)⟩
  · rintro ⟨hlen, hrow⟩
    refine ⟨?_, ?_⟩
    · intro i hi
      have := hlen i (by simpa using hi)
      rwa [List.getElem_map] at this
    · intro i hi
      have := hrow i (by simpa using hi)
      rwa [List.getElem_map] at this

theorem HasRows.nil (e : FecEncodeManager) : HasRows e [] := hasRows_iff.mpr (.nil e)

theorem HasRows.append {e e' : FecEncodeManager} {ps : List Bytes} {s : Bytes} (h : e.HasRows ps) (hcount : e.counter = ps.length)
    (h1 : e.fecPar.mode = 1) {now : Nat} (hr : e.append now s = .ok e') : e'.HasRows (ps ++ [s]) := by
  have := (hasRows_iff.mp h).append (by rw [hcount, List.length_map]) h1 hr
  rw [hasRows_iff, List.map_append]
  exact this

theorem HasRows.longest {e : FecEncodeManager} {ps : List Bytes} (h : e.HasRows ps) :
    longest e.inputLen ps.length = longestRecord ps := by
  suffices hall : ∀ n ≤ ps.length, FecEncodeManager.longest e.inputLen n = longestRecord (ps.take n) by
    rw [hall ps.length le_rfl, List.take_length]
  intro n hn
  induction n with
  | zero => rfl
  | succ n ih =>
    unfold FecEncodeManager.longest at ih ⊢
    rw [loop_succ, ih (by omega)]
    unfold longestRecord
    rw [List.take_add_one, List.getElem?_eq_getElem (by omega), Option.toList_some, List.map_append, List.foldl_append, h.len n (by omega)]
    simp only [List.map_cons, List.map_nil, List.foldl_cons, List.foldl_nil]
    split <;> omega

theorem le_longestRecord {ps : List Bytes} {p : Bytes} (hp : p ∈ ps) : (record p).length ≤ longestRecord ps := by
  unfold longestRecord
  generalize 0 = m
  induction ps generalizing m with
  | nil => cases hp
  | cons q ps ih =>
    simp only [List.map_cons, List.foldl_cons]
    rcases List.mem_cons.mp hp with rfl | hp
    · have : ∀ (l : List Nat) (m : Nat), m ≤ l.foldl max m := by
        intro l
        induction l with
        | nil => intro m; exact le_rfl
        | cons a l ih => intro m; exact (le_max_left m a).trans (ih _)
      exact (le_max_right _ _).trans (this _ _)
    · exact ih hp _

/-- A data row of a closed group, as far as its packet goes. -/
theorem HasRows.data {e e' : FecEncodeManager} {ps : List Bytes} {shape : RsParameter} {fecLen : Nat} {given : Bool}
    (h : e.HasRows ps) (h1 : e.fecPar.mode = 1) (hc : Closed e shape fecLen given e') (hx : shape.x = ps.length)
    (hlen : fecLen = longestRecord ps) {i : Nat} (hi : i < ps.length) :
    slice (e'.inputBuf i) 0 (8 + e.inputLen i) = packetShard e.seq i ps[i] := by
  have hrow : e.shardRow shape fecLen i = copyTo (putHeader (e.inputBuf i) e.seq e.fecPar.mode 0 0 i) (8 + e.inputLen i)
      (fun _ => 0) (fecLen - e.inputLen i) := by
    unfold shardRow
    rw [if_pos ⟨h1, by omega⟩]
  have hlong := le_longestRecord (List.getElem_mem hi)
  rw [h.len i hi] at hrow ⊢
  refine slice_row ((putHeader_hasAt (e.inputBuf i) e.seq 1 0 0 i).congr fun j hj => ?_) fun j hj => ?_
  · rw [headerBytes_length] at hj
    rw [Nat.zero_add, hc.header i (by omega) j hj, hrow, h1, copyTo_out _ _ (by omega)]
  · rw [headerBytes_length, hc.coded i (by omega) j (by omega), shard_data (by have := hc.small; omega) (by omega), hrow,
      copyTo_out _ _ (by omega), putHeader_out _ _ _ _ _ _ (by omega)]
    exact h.row i hi j hj

/-- A parity row. -/
theorem HasRows.parity {e e' : FecEncodeManager} {ps : List Bytes} {shape : RsParameter} {fecLen : Nat} {given : Bool}
    (h : e.HasRows ps) (h1 : e.fecPar.mode = 1) (hc : Closed e shape fecLen given e') (hx : shape.x = ps.length)
    (hlen : fecLen = longestRecord ps) {j : Nat} (hj : j < shape.y) :
    slice (e'.inputBuf (ps.length + j)) 0 (8 + fecLen) = parityShard e.seq ps shape.y j := by
  have hrow : e.shardRow shape fecLen (ps.length + j) =
      putHeader (e.inputBuf (ps.length + j)) e.seq e.fecPar.mode shape.x shape.y (ps.length + j) := by
    unfold shardRow
    rw [if_neg (by omega)]
    simp only
    rw [if_neg (by omega)]
  have hblock := hasAt_slice (shard ps.length (packetRows ps) (ps.length + j)) 0 fecLen
  unfold parityShard
  rw [← hlen]
  have := @slice_row (e'.inputBuf (ps.length + j)) (headerBytes e.seq 1 ps.length shape.y (ps.length + j))
    (slice (shard ps.length (packetRows ps) (ps.length + j)) 0 fecLen)
    ((putHeader_hasAt (e.inputBuf (ps.length + j)) e.seq 1 ps.length shape.y (ps.length + j)).congr fun i hi => by
      rw [headerBytes_length] at hi
      rw [Nat.zero_add, hc.header _ (by omega) i hi, hrow, h1, hx])
    (fun i hi => by
      rw [slice_length] at hi
      rw [mem_slice _ _ _ hi, Nat.zero_add, headerBytes_length, hc.coded _ (by omega) i hi, hx]
      refine shard_congr (fun c hc' => ?_) _
      -- row `c` is its packet behind its length, and zeros
      unfold shardRow packetRows
      rw [if_pos ⟨h1, by omega⟩, h.len c hc', List.getD_eq_getElem _ _ hc']
      have hlong := le_longestRecord (List.getElem_mem hc')
      by_cases hic : i < (record ps[c]).length
      · rw [copyTo_out _ _ (by omega), putHeader_out _ _ _ _ _ _ (by omega)]
        exact h.row c hc' i hic
      · obtain ⟨r, rfl⟩ : ∃ r, i = (record ps[c]).length + r := ⟨i - (record ps[c]).length, by omega⟩
        rw [← Nat.add_assoc, copyTo_in _ _ (by omega)]
        simp [mem])
  rw [slice_length, headerBytes_length] at this
  exact this

/-- The rows that closing a mode 1 group hands out, and how much of each. -/
theorem close_output {e e' : FecEncodeManager} {o : EncodeOptions} {given : Bool} (h1 : e.fecPar.mode = 1)
    (hr : e.close o given = .ok e') :
    let shape : RsParameter := ⟨e.counter, (e.fecPar.rsPar (e.counter - 1)).y⟩
    let fecLen := FecEncodeManager.longest e.inputLen e.counter
    Closed e shape fecLen given e' ∧
      e'.output.2 = some ((packetToSend shape given).map fun i => (i, e.shardLen shape fecLen i)) := by
  obtain ⟨e1, shape, fecLen, hcut, hc⟩ := close_ok hr
  obtain ⟨-, he, rfl, rfl⟩ := cut_rows (by omega) hcut
  rw [he] at hc
  have hlist : ∀ shape, e.handedOut shape given = packetToSend shape given := fun shape => if_pos h1
  have hout := @output_sent e' _ (e.shardLen ⟨e.counter, (e.fecPar.rsPar (e.counter - 1)).y⟩
    (FecEncodeManager.longest e.inputLen e.counter)) hc.ready hc.count hc.sent
  rw [hlist] at hout
  exact ⟨hc, by rw [hout]⟩

/-- A closed group hands out its last packet, unless the timer closed it, and its parity. -/
theorem HasRows.close {e e' : FecEncodeManager} {ps : List Bytes} {o : EncodeOptions} {given : Bool} (h : e.HasRows ps)
    (hcount : e.counter = ps.length) (h1 : e.fecPar.mode = 1) (hr : e.close o given = .ok e') :
    e'.sentBy = some ((if given then [packetShard e.seq (ps.length - 1) (ps.getD (ps.length - 1) [])] else []) ++
      parityShards e.seq ps (e.fecPar.rsPar (ps.length - 1)).y) := by
  obtain ⟨hc, hout⟩ := close_output h1 hr
  rw [hcount, h.longest] at hc hout
  have hpos : 0 < ps.length := hc.pos
  have hdata : slice (e'.inputBuf (ps.length - 1)) 0 (e.shardLen ⟨ps.length, (e.fecPar.rsPar (ps.length - 1)).y⟩
      (longestRecord ps) (ps.length - 1)) = packetShard e.seq (ps.length - 1) (ps.getD (ps.length - 1) []) := by
    unfold shardLen
    rw [if_pos ⟨h1, show ps.length - 1 < ps.length by omega⟩, List.getD_eq_getElem _ _ (by omega)]
    exact h.data h1 hc rfl rfl (by omega)
  unfold sentBy
  rw [hout, output_frame]
  simp only [Option.map_some, Option.some.injEq, datagrams, List.map_map, packetToSend, List.map_append]
  congr 1
  · cases given with
    | false => rfl
    | true =>
      simp only [if_true, List.map_cons, List.map_nil, Function.comp_apply]
      rw [hdata]
  · refine List.map_congr_left fun j hj => ?_
    have hj := List.mem_range.mp hj
    simp only [Function.comp_apply]
    unfold shardLen
    rw [if_neg (show ¬ (_ ∧ ps.length + j < ps.length) by omega)]
    exact h.parity h1 hc rfl rfl hj

/-- The last packet handed out as it came in; its row keeps it. -/
theorem HasRows.send {e e' : FecEncodeManager} {ps : List Bytes} (h : e.HasRows ps) (hcount : e.counter = ps.length)
    (h1 : e.fecPar.mode = 1) (hr : e.fastSend = .ok e') : e'.HasRows ps ∧
      e'.sentBy = some [packetShard e.seq (ps.length - 1) (ps.getD (ps.length - 1) [])] := by
  refine ⟨hasRows_iff.mpr ((hasRows_iff.mp h).send hr), ?_⟩
  unfold fastSend at hr
  rw [check_bind] at hr
  obtain ⟨hpos, hr⟩ := hr
  rw [check_bind, check_bind] at hr
  cases hr.2.2
  have hlast : ps.length - 1 < ps.length := by omega
  rw [hcount]
  unfold sentBy output
  simp only [if_true, Option.map_some, List.range_one, List.map_cons, List.map_nil, datagrams, upd_same, Option.some.injEq,
    List.cons.injEq, and_true]
  rw [h.len _ hlast, List.getD_eq_getElem _ _ hlast, h1, Nat.add_comm]
  refine slice_row (putHeader_hasAt _ e.seq 1 0 0 _) ((h.row _ hlast).congr fun j hj => ?_)
  exact putHeader_out _ _ _ _ _ _ (Nat.le_add_right 8 j)

end FecEncodeManager

end UdpSpeeder.Manager
