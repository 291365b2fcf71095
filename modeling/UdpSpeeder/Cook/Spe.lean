/-
  UdpSpeeder.Cook.Spe — XOR on a PowerPC with SPE (`packet_cook.cpp`, `xor_spe.S`).

  The 64-bit loads need an aligned address, so up to seven bytes go one by one first
  (`head`), and the tile, which then stands inside itself, is turned round into a local copy
  of 512 bytes. With a longer tile and unaligned data of eight bytes behind the head the
  assertion before the copy fails, and only then (`xorTile_eq`).
-/

import UdpSpeeder.Cook.Tile

namespace UdpSpeeder.Cook.Spe

open Lib

/-! ## `xor_tile_spe` -/

/-- Four vectors of 8 bytes. -/
def xorQuad (wrap : Nat → Nat) (tile : Buffer) (i : Nat) (s : XorState) : Except Fault XorState := do
  let s ← xorVec 8 wrap tile i s
  let s ← xorVec 8 wrap tile (i + 8) s
  let s ← xorVec 8 wrap tile (i + 16) s
  xorVec 8 wrap tile (i + 24) s

/-- `len / 32` times `.Lmain_loop`, `(len & 24) / 8` times `.Ltail8_loop`, `len & 7` times `.Ltail1_loop`. -/
def xorTileSpe (data : Buffer) (len : Nat) (tile : Buffer) (tileLen : Nat) : Except Fault Buffer := do
  let (i, s) ← strides len 32 (xorQuad (wrapZero tileLen) tile) 0 (0, data)
  let (i, s) ← strides len 8 (xorVec 8 (wrapZero tileLen) tile) i s
  let (_, s) ← strides len 1 (xorVec 1 (wrapZero tileLen) tile) i s
  .ok s.2

/-! ## `xor_tile` -/

/-- `data + i`. -/
def advance (b : Buffer) (i : Nat) : Buffer := ⟨fun j => b.mem (i + j), b.size - i⟩

/-- With `r` in the place of `data + i`. -/
def putBack (b : Buffer) (i : Nat) (r : Buffer) : Buffer := { b with mem := fun j => if j < i then b.mem j else r.mem (j - i) }

/-- Bytes up to the next multiple of 8. -/
def headLen (addr : Nat) : Nat := (8 - addr % 8) % 8

/-- `memcpy(dst + i, src + j, n)`. -/
def memcpy (dst : Buffer) (i : Nat) (src : Buffer) (j n : Nat) : Except Fault Buffer := do
  src.within j n "src"
  dst.within i n "dst"
  .ok { dst with mem := copyTo dst.mem i (fun k => src.mem (j + k)) n }

/-- `rtile`, the tile from `t` on and round, and eight bytes more. -/
def rotate (tile : Buffer) (tileLen t : Nat) : Except Fault Buffer := do
  check (tileLen ≤ 512) (.assert "tile_len <= 512")
  let rtile : Buffer := ⟨fun _ => 0, 512 + 8⟩
  let rtile ← memcpy rtile 0 tile t (tileLen - t)
  let rtile ← memcpy rtile (tileLen - t) tile 0 t
  memcpy rtile tileLen rtile 0 8

/-- On data at the address `addr`. -/
def xorTile (addr : Nat) (data : Buffer) (len : Nat) (tile : Buffer) (tileLen : Nat) : Except Fault Buffer := do
  let head := min (headLen addr) len
  let (i, t, data) ← strides head 1 (xorVec 1 (wrapZero tileLen) tile) 0 (0, data)
  let remaining := len - i
  if 8 ≤ remaining ∧ t ≠ 0 then do
    let rtile ← rotate tile tileLen t
    let out ← xorTileSpe (advance data i) remaining rtile tileLen
    .ok (putBack data i out)
  else if 8 ≤ remaining then do
    let out ← xorTileSpe (advance data i) remaining tile tileLen
    .ok (putBack data i out)
  else do
    -- too short
    let (_, s) ← strides len 1 (xorVec 1 (wrapZero tileLen) tile) i (t, data)
    .ok s.2

/-! ## What it computes -/

variable {data tile : Buffer} {tileLen len n i t : Nat} {s : XorState}

theorem xorQuad_ok (hdvd : 8 ∣ tileLen) (hpos : 0 < tileLen) (htile : tileLen ≤ tile.size) (hi : 8 ∣ i) (hsize : i + 32 ≤ data.size)
    (h : Xored data tile tileLen i s) : ∃ s', xorQuad (wrapZero tileLen) tile i s = .ok s' ∧ Xored data tile tileLen (i + 32) s' := by
  obtain ⟨s1, h1, hx1⟩ := xorVec_ok hdvd hpos htile wrapZero_eq hi (by omega) h
  obtain ⟨s2, h2, hx2⟩ := xorVec_ok hdvd hpos htile wrapZero_eq (Nat.dvd_add hi (by decide)) (by omega) hx1
  obtain ⟨s3, h3, hx3⟩ := xorVec_ok hdvd hpos htile wrapZero_eq (Nat.dvd_add hi (by decide : 8 ∣ 16)) (by omega) hx2
  obtain ⟨s4, h4, hx4⟩ := xorVec_ok hdvd hpos htile wrapZero_eq (Nat.dvd_add hi (by decide : 8 ∣ 24)) (by omega) hx3
  exact ⟨s4, by unfold xorQuad; rw [h1, ok_bind, h2, ok_bind, h3, ok_bind, h4], hx4⟩

/-- As its header says. -/
theorem xorTileSpe_ok (hdvd : 8 ∣ tileLen) (hpos : 0 < tileLen) (htile : tileLen ≤ tile.size) (hlen : len ≤ data.size) :
    xorTileSpe data len tile tileLen = .ok (data.masked len fun j => tile.mem (j % tileLen)) := by
  have hstart : Xored data tile tileLen 0 (0, data) := ⟨(Nat.zero_mod _).symm, rfl⟩
  have hquad : ∀ i' s', 8 ∣ i' → i' + 32 ≤ len → Xored data tile tileLen i' s' →
      ∃ s'', xorQuad (wrapZero tileLen) tile i' s' = .ok s'' ∧ Xored data tile tileLen (i' + 32) s'' :=
    fun i' s' hi' hle h => xorQuad_ok hdvd hpos htile hi' (by omega) h
  have hvec : ∀ i' s', 8 ∣ i' → i' + 8 ≤ len → Xored data tile tileLen i' s' →
      ∃ s'', xorVec 8 (wrapZero tileLen) tile i' s' = .ok s'' ∧ Xored data tile tileLen (i' + 8) s'' :=
    fun i' s' hi' hle h => xorVec_ok hdvd hpos htile wrapZero_eq hi' (by omega) h
  obtain ⟨i1, s1, h1, hi1, hle1, hx1⟩ := vectors_ok (by decide) (Nat.dvd_zero _) (Nat.zero_le _) hstart hquad
  obtain ⟨i2, s2, h2, -, hle2, hx2⟩ := vectors_ok dvd_rfl hi1 hle1 hx1 hvec
  unfold xorTileSpe
  simp only [h1, ok_bind, h2, tail_ok hpos htile hlen hle2 hx2]

theorem memcpy_ok {dst src : Buffer} {i j n : Nat} (hsrc : j + n ≤ src.size) (hdst : i + n ≤ dst.size) :
    memcpy dst i src j n = .ok { dst with mem := copyTo dst.mem i (fun k => src.mem (j + k)) n } := by
  unfold memcpy
  rw [within_ok hsrc, ok_bind, within_ok hdst, ok_bind]

/-- A tile that fits is turned round. -/
theorem rotate_ok (hle : tileLen ≤ 512) (h8 : 8 ≤ tileLen) (htile : tileLen ≤ tile.size) (ht : t < tileLen) :
    ∃ rtile, rotate tile tileLen t = .ok rtile ∧ tileLen ≤ rtile.size ∧ ∀ j < tileLen, rtile.mem j = tile.mem ((t + j) % tileLen) := by
  unfold rotate
  rw [check_true hle, ok_bind]
  simp only
  rw [memcpy_ok (by omega) (by simp only; omega), ok_bind, memcpy_ok (by omega) (by simp only; omega), ok_bind,
    memcpy_ok (by simp only; omega) (by simp only; omega)]
  refine ⟨_, rfl, by simp only; omega, fun j hj => ?_⟩
  simp only
  rw [copyTo_out _ _ (.inl hj)]
  by_cases hfront : j < tileLen - t
  · rw [copyTo_out _ _ (.inl hfront), ← Nat.zero_add j, copyTo_in _ _ hfront, Nat.zero_add, Nat.mod_eq_of_lt (by omega)]
  · obtain ⟨k, rfl⟩ := Nat.exists_eq_add_of_le (Nat.not_lt.mp hfront)
    rw [copyTo_in _ _ (by omega), Nat.zero_add, show t + (tileLen - t + k) = tileLen + k by omega, Nat.add_mod_left,
      Nat.mod_eq_of_lt (by omega)]

/-- `i` bytes and then the others. -/
theorem putBack_masked {pad pad' : Nat → Byte} (hi : i ≤ len) (hpad : ∀ j, i + j < len → pad' j = pad (i + j)) :
    putBack (data.masked i pad) i ((advance (data.masked i pad) i).masked (len - i) pad') = data.masked len pad := by
  unfold putBack advance Buffer.masked
  simp only [Buffer.mk.injEq, and_true]
  funext j
  by_cases hlow : j < i
  · rw [if_pos hlow, if_pos hlow, if_pos (by omega)]
  · obtain ⟨k, rfl⟩ := Nat.exists_eq_add_of_le (Nat.not_lt.mp hlow)
    rw [if_neg hlow, Nat.add_sub_cancel_left, if_neg hlow]
    by_cases hhigh : i + k < len
    · rw [if_pos (by omega), if_pos hhigh, hpad k hhigh]
    · rw [if_neg (by omega), if_neg hhigh]

/-- The tile has to be turned round: the data is not aligned, and there is a vector of it. -/
def Turned (addr len : Nat) : Prop := headLen addr ≠ 0 ∧ headLen addr + 8 ≤ len

instance (addr len : Nat) : Decidable (Turned addr len) := inferInstanceAs (Decidable (_ ∧ _))

theorem xorTile_eq (addr : Nat) (hdvd : 8 ∣ tileLen) (hpos : 0 < tileLen) (htile : tileLen ≤ tile.size) (hlen : len ≤ data.size) :
    xorTile addr data len tile tileLen =
      if Turned addr len ∧ 512 < tileLen then .error (.assert "tile_len <= 512")
      else .ok (data.masked len fun j => tile.mem (j % tileLen)) := by
  have h8 : 8 ≤ tileLen := Nat.le_of_dvd hpos hdvd
  have hhead8 : headLen addr < 8 := Nat.mod_lt _ (by decide)
  have hstart : Xored data tile tileLen 0 (0, data) := ⟨(Nat.zero_mod _).symm, rfl⟩
  have hheadLe : min (headLen addr) len ≤ len := Nat.min_le_right _ _
  have hhead := tail_ok hpos htile (hheadLe.trans hlen) (Nat.zero_le _) hstart
  have hsize : ∀ i ≤ len, len - i ≤ (advance (data.masked i fun j => tile.mem (j % tileLen)) i).size := fun i hi => Nat.sub_le_sub_right hlen i
  rw [Nat.mod_eq_of_lt (by omega)] at hhead
  unfold xorTile
  simp only [hhead, ok_bind]
  by_cases hturned : Turned addr len
  · obtain ⟨hne, hroom⟩ := hturned
    rw [Nat.min_eq_left (by omega), if_pos ⟨by omega, hne⟩]
    by_cases hbig : 512 < tileLen
    · rw [if_pos ⟨⟨hne, hroom⟩, hbig⟩]
      unfold rotate check
      rw [if_neg (by omega)]
      rfl
    · obtain ⟨rtile, hrotate, hrsize, hrtile⟩ := rotate_ok (Nat.not_lt.mp hbig) h8 htile (show headLen addr < tileLen by omega)
      rw [if_neg (fun h => hbig h.2), hrotate, ok_bind, xorTileSpe_ok hdvd hpos hrsize (hsize _ (by omega)), ok_bind]
      refine congrArg Except.ok (putBack_masked (by omega) fun j _ => ?_)
      rw [hrtile _ (Nat.mod_lt _ hpos), Nat.add_mod_mod]
  · rw [if_neg (fun h : Turned addr len ∧ 512 < tileLen => hturned h.1)]
    by_cases hroom : 8 ≤ len - min (headLen addr) len
    · -- aligned, so there is no head
      have hzero : headLen addr = 0 := by
        by_contra hne
        exact hturned ⟨hne, by omega⟩
      rw [hzero, Nat.zero_min] at hroom ⊢
      rw [if_neg (fun h => h.2 rfl), if_pos hroom, xorTileSpe_ok hdvd hpos htile (hsize 0 (Nat.zero_le _)), ok_bind]
      refine congrArg Except.ok (putBack_masked (Nat.zero_le _) fun j _ => ?_)
      rw [Nat.zero_add]
    · have hx : Xored data tile tileLen (min (headLen addr) len) (min (headLen addr) len, data.masked _ _) :=
        ⟨(Nat.mod_eq_of_lt (by omega)).symm, rfl⟩
      rw [if_neg (fun h => hroom h.1), if_neg hroom, tail_ok hpos htile hlen hheadLe hx, ok_bind]

end UdpSpeeder.Cook.Spe
