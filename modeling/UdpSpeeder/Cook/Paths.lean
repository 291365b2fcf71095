/-
  UdpSpeeder.Cook.Paths — the ways to XOR, together (`packet_cook.cpp`).

  `xor_tile_avx512` takes 64 bytes at a time and then at most one vector of 32 and one of
  16; the others are in `Cook.Tile`. Each with a tile of its own width, they all mask the
  data with the pattern over and over, and touch nothing behind it: what one of them did,
  any of them undoes (`xor_paths_agree`).
-/

import UdpSpeeder.Cook.Tile

namespace UdpSpeeder.Cook

open Lib

/-! ## `xor_tile_avx512` -/

/-- Four vectors of 16 bytes. -/
def xorQuad (wrap : Nat → Nat) (tile : Buffer) (i : Nat) (s : XorState) : Except Fault XorState := do
  let s ← xorPair wrap tile i s
  xorPair wrap tile (i + 32) s

/-- Four vectors against a tile of 16 bytes, without moving in it. -/
def xorQuadSame (tile : Buffer) (i : Nat) (s : XorState) : Except Fault XorState := do
  let s ← xorPairSame tile i s
  xorPairSame tile (i + 32) s

/-- Its loop. -/
def avx512Quads (data : Buffer) (len : Nat) (tile : Buffer) (tileLen : Nat) : Except Fault (Nat × XorState) :=
  if tileLen = 16 then strides len 64 (xorQuadSame tile) 0 (0, data)
  else strides len 64 (xorQuad (wrapSub tileLen) tile) 0 (0, data)

/-- `if (i + n <= len) { ...; i += n; }`. -/
def stride (len n : Nat) (body : Nat → XorState → Except Fault XorState) (i : Nat) (s : XorState) : Except Fault (Nat × XorState) :=
  if i + n ≤ len then do
    let s ← body i s
    .ok (i + n, s)
  else .ok (i, s)

def xorTileAvx512 (data : Buffer) (len : Nat) (tile : Buffer) (tileLen : Nat) : Except Fault Buffer := do
  let (i, s) ← avx512Quads data len tile tileLen
  let (i, s) ← stride len 32 (xorPair (wrapSub tileLen) tile) i s
  let (i, s) ← stride len 16 (xorVec 16 (wrapSub tileLen) tile) i s
  let (_, s) ← strides len 1 (xorVec 1 (wrapZero tileLen) tile) i s
  .ok s.2

/-! ## All of them -/

inductive Path where
  | of (simd : Simd)
  | avx512
  deriving DecidableEq, Repr

namespace Path

def width : Path → Nat
  | of simd => simd.width
  | avx512 => 16

def xorTile : Path → Buffer → Nat → Buffer → Nat → Except Fault Buffer
  | of simd => Cook.xorTile simd
  | avx512 => xorTileAvx512

/-- The pattern expanded into `tile`, and the data against it. -/
def xorPattern (p : Path) (tile : Buffer) (pat : Nat → Byte) (patLen : Nat) (data : Buffer) (len : Nat) : Except Fault Buffer :=
  let tileLen := cookLcm patLen p.width
  p.xorTile data len ⟨expandTile tile.mem tileLen pat patLen, tile.size⟩ tileLen

end Path

section

variable {data tile : Buffer} {tileLen len n i : Nat} {wrap : Nat → Nat} {s : XorState}

theorem xorQuad_ok (hdvd : 16 ∣ tileLen) (hpos : 0 < tileLen) (htile : tileLen ≤ tile.size) (hwrap : ∀ t ≤ tileLen, wrap t = t % tileLen)
    (hi : 16 ∣ i) (hsize : i + 64 ≤ data.size) (h : Xored data tile tileLen i s) :
    ∃ s', xorQuad wrap tile i s = .ok s' ∧ Xored data tile tileLen (i + 64) s' := by
  obtain ⟨s1, h1, hx1⟩ := xorPair_ok hdvd hpos htile hwrap hi (by omega) h
  obtain ⟨s2, h2, hx2⟩ := xorPair_ok hdvd hpos htile hwrap (Nat.dvd_add hi (by decide)) (by omega) hx1
  exact ⟨s2, by unfold xorQuad; rw [h1, ok_bind, h2], hx2⟩

theorem xorQuadSame_ok (h16 : tileLen = 16) (htile : tileLen ≤ tile.size) (hi : 16 ∣ i) (hsize : i + 64 ≤ data.size)
    (h : Xored data tile tileLen i s) : ∃ s', xorQuadSame tile i s = .ok s' ∧ Xored data tile tileLen (i + 64) s' := by
  obtain ⟨s1, h1, hx1⟩ := xorPairSame_ok h16 htile hi (by omega) h
  obtain ⟨s2, h2, hx2⟩ := xorPairSame_ok h16 htile (Nat.dvd_add hi (by decide)) (by omega) hx1
  exact ⟨s2, by unfold xorQuadSame; rw [h1, ok_bind, h2], hx2⟩

/-- A step that is made at most once. -/
theorem stride_ok {w : Nat} {body : Nat → XorState → Except Fault XorState} (hw : w ∣ n) (hi : w ∣ i) (hle : i ≤ len)
    (h : Xored data tile tileLen i s) (hbody : i + n ≤ len → ∃ s', body i s = .ok s' ∧ Xored data tile tileLen (i + n) s') :
    ∃ i' s', stride len n body i s = .ok (i', s') ∧ w ∣ i' ∧ i' ≤ len ∧ Xored data tile tileLen i' s' := by
  unfold stride
  split
  · rename_i hroom
    obtain ⟨s', hs', hx⟩ := hbody hroom
    exact ⟨i + n, s', by rw [hs']; rfl, Nat.dvd_add hi hw, hroom, hx⟩
  · exact ⟨i, s, rfl, hi, hle, h⟩

theorem avx512Quads_ok (hdvd : 16 ∣ tileLen) (hpos : 0 < tileLen) (htile : tileLen ≤ tile.size) (hlen : len ≤ data.size) :
    ∃ i s, avx512Quads data len tile tileLen = .ok (i, s) ∧ 16 ∣ i ∧ i ≤ len ∧ Xored data tile tileLen i s := by
  have hstart : Xored data tile tileLen 0 (0, data) := ⟨(Nat.zero_mod _).symm, rfl⟩
  unfold avx512Quads
  split
  · rename_i h16
    exact vectors_ok (by decide) (Nat.dvd_zero _) (Nat.zero_le _) hstart fun i' s' hi' hle h =>
      xorQuadSame_ok h16 htile hi' (by omega) h
  · exact vectors_ok (by decide) (Nat.dvd_zero _) (Nat.zero_le _) hstart fun i' s' hi' hle h =>
      xorQuad_ok hdvd hpos htile wrapSub_eq hi' (by omega) h

theorem xorTileAvx512_ok (hdvd : 16 ∣ tileLen) (hpos : 0 < tileLen) (htile : tileLen ≤ tile.size) (hlen : len ≤ data.size) :
    xorTileAvx512 data len tile tileLen = .ok (data.masked len fun j => tile.mem (j % tileLen)) := by
  obtain ⟨i1, s1, h1, hi1, hle1, hx1⟩ := avx512Quads_ok hdvd hpos htile hlen
  obtain ⟨i2, s2, h2, hi2, hle2, hx2⟩ := stride_ok (by decide) hi1 hle1 hx1 fun hroom =>
    xorPair_ok hdvd hpos htile wrapSub_eq hi1 (by omega) hx1
  obtain ⟨i3, s3, h3, -, hle3, hx3⟩ := stride_ok dvd_rfl hi2 hle2 hx2 fun hroom =>
    xorVec_ok hdvd hpos htile wrapSub_eq hi2 (by omega) hx2
  unfold xorTileAvx512
  simp only [h1, ok_bind, h2, h3, tail_ok hpos htile hlen hle3 hx3]

end

namespace Path

theorem width_pos (p : Path) : 0 < p.width := by
  cases p with
  | of simd => exact simd.width_pos
  | avx512 => decide

theorem xorTile_masks (p : Path) (data tile : Buffer) {tileLen len : Nat} (hdvd : p.width ∣ tileLen) (hpos : 0 < tileLen)
    (htile : tileLen ≤ tile.size) (hlen : len ≤ data.size) :
    p.xorTile data len tile tileLen = .ok (data.masked len fun j => tile.mem (j % tileLen)) := by
  cases p with
  | of simd => exact Cook.xorTile_ok simd hdvd hpos htile hlen
  | avx512 => exact xorTileAvx512_ok hdvd hpos htile hlen

theorem xorPattern_masks (p : Path) (tile data : Buffer) (pat : Nat → Byte) {patLen len : Nat} (hpat : 0 < patLen)
    (htile : cookLcm patLen p.width ≤ tile.size) (hlen : len ≤ data.size) :
    p.xorPattern tile pat patLen data len = .ok (data.masked len fun j => pat (j % patLen)) := by
  have hpos : 0 < cookLcm patLen p.width := by
    rw [cookLcm_eq]
    exact Nat.lcm_pos hpat p.width_pos
  have hwidth : p.width ∣ cookLcm patLen p.width := by
    rw [cookLcm_eq]
    exact Nat.dvd_lcm_right _ _
  have hdvd : patLen ∣ cookLcm patLen p.width := by
    rw [cookLcm_eq]
    exact Nat.dvd_lcm_left _ _
  refine (p.xorTile_masks data ⟨expandTile tile.mem (cookLcm patLen p.width) pat patLen, tile.size⟩ hwidth hpos htile hlen).trans ?_
  refine congrArg (fun pad => Except.ok (data.masked len pad)) ?_
  funext j
  simp only
  rw [expandTile_repeats hpat _ (Nat.mod_lt j hpos), Nat.mod_mod_of_dvd _ hdvd]

end Path

theorem masked_masked (data : Buffer) (len : Nat) (pad : Nat → Byte) : (data.masked len pad).masked len pad = data := by
  unfold Buffer.masked
  simp only
  congr 1
  funext j
  split
  · rw [Byte.xor_assoc, Byte.xor_self, Byte.xor_zero]
  · rfl

/-- Any path masks exactly the data with the pattern, whatever the tile held before, and any
    path takes the mask off again. -/
theorem xor_paths_agree (p : Path) (tile : Buffer) (pat : Nat → Byte) (patLen : Nat) (data : Buffer) (len : Nat) (hpat : 0 < patLen)
    (htile : cookLcm patLen p.width ≤ tile.size) (hlen : len ≤ data.size) :
    ∃ out, p.xorPattern tile pat patLen data len = .ok out ∧ out.size = data.size ∧
      (∀ i < len, out.mem i = data.mem i ^^^ pat (i % patLen)) ∧ (∀ i, len ≤ i → out.mem i = data.mem i) ∧
      ∀ (q : Path) (tile' : Buffer), cookLcm patLen q.width ≤ tile'.size → q.xorPattern tile' pat patLen out len = .ok data := by
  refine ⟨_, p.xorPattern_masks tile data pat hpat htile hlen, rfl, fun i hi => if_pos hi, fun i hi => if_neg (Nat.not_lt.mpr hi),
    fun q tile' htile' => ?_⟩
  exact (q.xorPattern_masks tile' (data.masked len fun j => pat (j % patLen)) pat hpat htile' hlen).trans
    (congrArg Except.ok (masked_masked _ _ _))

/-- Three bytes against 130. -/
theorem xor_paths_agree_three : ∃ out, Path.avx512.xorPattern ⟨fun _ => 0, 48⟩ Byte.ofNat 3 ⟨fun _ => 0, 130⟩ 130 = .ok out ∧
    out.mem 129 = 0 ∧ (Path.of .word32).xorPattern ⟨fun _ => 0, 12⟩ Byte.ofNat 3 out 130 = .ok ⟨fun _ => 0, 130⟩ := by
  obtain ⟨out, hout, -, hin, -, hback⟩ := xor_paths_agree .avx512 ⟨fun _ => 0, 48⟩ Byte.ofNat 3 ⟨fun _ => 0, 130⟩ 130 (by decide)
    (by rw [cookLcm_eq]; decide) (Nat.le_refl _)
  exact ⟨out, hout, hin 129 (by decide), hback (.of .word32) _ (by rw [cookLcm_eq]; decide)⟩

end UdpSpeeder.Cook
