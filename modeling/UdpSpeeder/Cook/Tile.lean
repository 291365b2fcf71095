/-
  UdpSpeeder.Cook.Tile — XOR with a repeating pattern (`packet_cook.cpp`).

  The pattern is repeated into a tile whose length is a multiple of the vector width, and the
  data is taken a vector, or several, at a time; the bytes that are left go one by one. Every
  loop keeps `t = i % tile_len` (`Xored`), so on each platform byte `j` meets byte
  `j % tile_len` of the tile (`xorTile_ok`).

  The loop tests are statements about numbers, as those of `Fec.Addmul` are. The build for
  the SPE of a PowerPC, which looks at the address of the data, is in `Cook.Spe`.
-/

import UdpSpeeder.Common
import Mathlib.Data.Nat.GCD.Basic

namespace UdpSpeeder.Cook

open Lib

/-! ## Memory -/

/-- The memory behind a pointer; `size` bytes of it may be used. -/
structure Buffer where
  mem : Nat → Byte
  size : Nat
  deriving Inhabited

namespace Buffer

/-- `n` bytes at `i` are in it. -/
def within (b : Buffer) (i : Int) (n : Nat) (array : String) : Except Fault Unit := check (0 ≤ i ∧ i + n ≤ b.size) (.range array)

/-- The first bytes. -/
def Holds (b : Buffer) (p : Bytes) : Prop := slice b.mem 0 p.length = p

end Buffer

/-! ## Tiles -/

/-- What `xor_tile` is compiled to, or picks at run time, without an SPE. -/
inductive Simd where
  | sse2
  | avx2
  | neon
  /-- Generic platforms, by the bytes of an `unsigned long`. -/
  | word32
  | word64
  deriving DecidableEq, Repr

/-- `COOK_VEC_WIDTH`. -/
def Simd.width : Simd → Nat
  | .sse2 => 16
  | .avx2 => 16
  | .neon => 16
  | .word32 => 4
  | .word64 => 8

def cookGcd (a b : Nat) : Nat := if _h : b = 0 then a else cookGcd b (a % b)
termination_by b
decreasing_by exact Nat.mod_lt _ (Nat.pos_of_ne_zero _h)

def cookLcm (a b : Nat) : Nat := a / cookGcd a b * b

/-- The loop of `expand_tile`. -/
def doubleTile (tileLen : Nat) (tile : Nat → Byte) (filled : Nat) : Nat → Byte :=
  if _h : 0 < filled ∧ filled < tileLen then
    let chunk := min (tileLen - filled) filled
    doubleTile tileLen (copyTo tile filled tile chunk) (filled + chunk)
  else tile
termination_by tileLen - filled
decreasing_by omega

def expandTile (tile : Nat → Byte) (tileLen : Nat) (pat : Nat → Byte) (patLen : Nat) : Nat → Byte :=
  doubleTile tileLen (copyTo tile 0 pat patLen) patLen

/-! ## The loops -/

/-- The index into the tile, and the data. -/
abbrev XorState := Nat × Buffer

/-- `data[i..] ^= tile[t..]`, `n` bytes of them. -/
def Buffer.xorAt (b : Buffer) (i : Nat) (tile : Buffer) (t n : Nat) : Except Fault Buffer := do
  b.within i n "data"
  tile.within t n "tile"
  .ok { b with mem := fun j => if i ≤ j ∧ j < i + n then b.mem j ^^^ tile.mem (t + (j - i)) else b.mem j }

/-- `if (t >= tile_len) t -= tile_len`. -/
def wrapSub (tileLen t : Nat) : Nat := if tileLen ≤ t then t - tileLen else t

/-- `if (t >= tile_len) t = 0`. -/
def wrapZero (tileLen t : Nat) : Nat := if tileLen ≤ t then 0 else t

/-- `n` bytes at `i`, and on in the tile. -/
def xorVec (n : Nat) (wrap : Nat → Nat) (tile : Buffer) (i : Nat) (s : XorState) : Except Fault XorState := do
  let b ← s.2.xorAt i tile s.1 n
  .ok (wrap (s.1 + n), b)

/-- Two vectors of 16 bytes. -/
def xorPair (wrap : Nat → Nat) (tile : Buffer) (i : Nat) (s : XorState) : Except Fault XorState := do
  let s ← xorVec 16 wrap tile i s
  xorVec 16 wrap tile (i + 16) s

/-- Two vectors against a tile of 16 bytes, without moving in it. -/
def xorPairSame (tile : Buffer) (i : Nat) (s : XorState) : Except Fault XorState := do
  let b ← s.2.xorAt i tile 0 16
  let b ← b.xorAt (i + 16) tile 0 16
  .ok (s.1, b)

/-- `for (; i + n <= len; i += n)`: where it ends, and the state. -/
def strides (len n : Nat) (body : Nat → XorState → Except Fault XorState) (i : Nat) (s : XorState) :
    Except Fault (Nat × XorState) := do
  let s ← loopE ((len - i) / n) (fun m => body (i + m * n)) s
  .ok (i + (len - i) / n * n, s)

/-- The first loop of `xor_tile_avx2`. -/
def avx2Pairs (data : Buffer) (len : Nat) (tile : Buffer) (tileLen : Nat) : Except Fault (Nat × XorState) :=
  if tileLen = 16 then strides len 32 (xorPairSame tile) 0 (0, data)
  else strides len 32 (xorPair (wrapSub tileLen) tile) 0 (0, data)

/-- Whole vectors. -/
def xorVectors (simd : Simd) (data : Buffer) (len : Nat) (tile : Buffer) (tileLen : Nat) : Except Fault (Nat × XorState) :=
  match simd with
  | .sse2 => strides len 16 (xorVec 16 (wrapZero tileLen) tile) 0 (0, data)
  | .avx2 => do
    let (i, s) ← avx2Pairs data len tile tileLen
    strides len 16 (xorVec 16 (wrapZero tileLen) tile) i s
  | .neon => do
    let (i, s) ← strides len 32 (xorPair (wrapZero tileLen) tile) 0 (0, data)
    strides len 16 (xorVec 16 (wrapZero tileLen) tile) i s
  | .word32 => strides len 4 (xorVec 4 (wrapZero tileLen) tile) 0 (0, data)
  | .word64 => strides len 8 (xorVec 8 (wrapZero tileLen) tile) 0 (0, data)

def xorTile (simd : Simd) (data : Buffer) (len : Nat) (tile : Buffer) (tileLen : Nat) : Except Fault Buffer := do
  let (i, s) ← xorVectors simd data len tile tileLen
  -- the bytes behind the last vector
  let (_, s) ← strides len 1 (xorVec 1 (wrapZero tileLen) tile) i s
  .ok s.2

/-! ## Lengths -/

theorem cookGcd_eq (a b : Nat) : cookGcd a b = Nat.gcd a b := by
  fun_induction cookGcd a b with
  | case1 a => rw [Nat.gcd_zero_right]
  | case2 a b h ih => rw [ih, Nat.gcd_comm a b, Nat.gcd_rec b a, Nat.gcd_comm]

theorem cookLcm_eq (a b : Nat) : cookLcm a b = Nat.lcm a b := by
  unfold cookLcm Nat.lcm
  rw [cookGcd_eq, Nat.div_mul_right_comm (Nat.gcd_dvd_left a b)]

theorem Simd.width_pos (simd : Simd) : 0 < simd.width := by cases simd <;> decide

theorem Simd.width_le (simd : Simd) : simd.width ≤ 16 := by cases simd <;> decide

/-! ## Tiles repeat the pattern -/

theorem doubleTile_repeats {pat : Nat → Byte} {n tileLen filled : Nat} {tile : Nat → Byte} (hpos : 0 < filled)
    (hfilled : n ∣ filled ∨ tileLen ≤ filled) (htile : ∀ j < filled, tile j = pat (j % n)) :
    ∀ j < tileLen, doubleTile tileLen tile filled j = pat (j % n) := by
  fun_induction doubleTile tileLen tile filled with
  | case1 tile filled h chunk ih =>
    have hdvd : n ∣ filled := hfilled.resolve_right (by omega)
    have hchunk : chunk = min (tileLen - filled) filled := rfl
    refine ih (by omega) ?_ fun j hj => ?_
    · by_cases hlt : filled < tileLen - filled
      · rw [show filled + chunk = filled + filled by omega]
        exact .inl (Nat.dvd_add hdvd hdvd)
      · exact .inr (by omega)
    · by_cases hlow : j < filled
      · rw [copyTo_out _ _ (.inl hlow)]
        exact htile j hlow
      · obtain ⟨i, rfl⟩ := Nat.exists_eq_add_of_le (Nat.not_lt.mp hlow)
        rw [copyTo_in _ _ (by omega), htile i (by omega)]
        obtain ⟨k, rfl⟩ := hdvd
        rw [Nat.mul_add_mod]
  | case2 tile filled h =>
    intro j hj
    exact htile j (by omega)

theorem expandTile_repeats {tile pat : Nat → Byte} {n tileLen : Nat} (hn : 0 < n) :
    ∀ j < tileLen, expandTile tile tileLen pat n j = pat (j % n) := by
  refine doubleTile_repeats hn (.inl dvd_rfl) fun j hj => ?_
  rw [← Nat.zero_add j, copyTo_in _ _ hj, Nat.zero_add, Nat.mod_eq_of_lt hj]

/-! ## Each byte meets its own -/

/-- The first `len` bytes against a pad. -/
def Buffer.masked (b : Buffer) (len : Nat) (pad : Nat → Byte) : Buffer :=
  { b with mem := fun j => if j < len then b.mem j ^^^ pad j else b.mem j }

/-- `i` bytes are done, and the tile stands where the next one meets it. -/
structure Xored (data tile : Buffer) (tileLen i : Nat) (s : XorState) : Prop where
  index : s.1 = i % tileLen
  bytes : s.2 = data.masked i fun j => tile.mem (j % tileLen)

theorem within_ok {b : Buffer} {i n : Nat} {array : String} (h : i + n ≤ b.size) : b.within i n array = .ok () := by
  unfold Buffer.within
  exact check_true (by omega)

theorem within_zero {b : Buffer} {n : Nat} {array : String} (h : n ≤ b.size) : b.within 0 n array = .ok () := by
  unfold Buffer.within
  exact check_true (by omega)

section XorTile

variable {data tile : Buffer} {tileLen len n i : Nat} {wrap : Nat → Nat} {s : XorState}

/-- A vector never straddles the end of the tile. -/
theorem vector_fits (hdvd : n ∣ tileLen) (hi : n ∣ i) (hpos : 0 < tileLen) : i % tileLen + n ≤ tileLen := by
  have hlt := Nat.mod_lt i hpos
  have hleft : n ∣ tileLen - i % tileLen := Nat.dvd_sub hdvd ((Nat.dvd_mod_iff hdvd).mpr hi)
  have := Nat.le_of_dvd (by omega) hleft
  omega

theorem xorVec_ok (hdvd : n ∣ tileLen) (hpos : 0 < tileLen) (htile : tileLen ≤ tile.size) (hwrap : ∀ t ≤ tileLen, wrap t = t % tileLen)
    (hi : n ∣ i) (hsize : i + n ≤ data.size) (h : Xored data tile tileLen i s) :
    ∃ s', xorVec n wrap tile i s = .ok s' ∧ Xored data tile tileLen (i + n) s' := by
  obtain ⟨t, b⟩ := s
  obtain ⟨ht, hb⟩ := h
  simp only at ht hb
  subst ht hb
  have hfits := vector_fits hdvd hi hpos
  unfold xorVec Buffer.xorAt
  simp only
  rw [within_ok (by exact hsize), ok_bind, within_ok (by omega)]
  refine ⟨_, rfl, ?_, ?_⟩
  · simp only
    rw [hwrap _ hfits, Nat.mod_add_mod]
  · simp only [Buffer.masked, Buffer.mk.injEq, and_true]
    funext j
    by_cases hlow : j < i
    · rw [if_neg (by omega), if_pos hlow, if_pos (by omega)]
    · by_cases hhigh : j < i + n
      · obtain ⟨k, rfl⟩ := Nat.exists_eq_add_of_le (Nat.not_lt.mp hlow)
        have hk : (i + k) % tileLen = i % tileLen + k := by
          rw [← Nat.mod_add_mod, Nat.mod_eq_of_lt (by omega)]
        rw [if_pos (by omega), if_neg hlow, if_pos hhigh, hk, Nat.add_sub_cancel_left]
      · rw [if_neg (by omega), if_neg hlow, if_neg hhigh]

theorem xorPair_ok (hdvd : 16 ∣ tileLen) (hpos : 0 < tileLen) (htile : tileLen ≤ tile.size) (hwrap : ∀ t ≤ tileLen, wrap t = t % tileLen)
    (hi : 16 ∣ i) (hsize : i + 32 ≤ data.size) (h : Xored data tile tileLen i s) :
    ∃ s', xorPair wrap tile i s = .ok s' ∧ Xored data tile tileLen (i + 32) s' := by
  obtain ⟨s1, h1, hx1⟩ := xorVec_ok hdvd hpos htile hwrap hi (by omega) h
  obtain ⟨s2, h2, hx2⟩ := xorVec_ok hdvd hpos htile hwrap (Nat.dvd_add hi dvd_rfl) (by omega) hx1
  exact ⟨s2, by unfold xorPair; rw [h1, ok_bind, h2], hx2⟩

theorem wrapSub_eq (t : Nat) (ht : t ≤ tileLen) : wrapSub tileLen t = t % tileLen := by
  unfold wrapSub
  split
  · rw [show t = tileLen by omega, Nat.sub_self, Nat.mod_self]
  · rw [Nat.mod_eq_of_lt (by omega)]

theorem wrapZero_eq (t : Nat) (ht : t ≤ tileLen) : wrapZero tileLen t = t % tileLen := by
  unfold wrapZero
  split
  · rw [show t = tileLen by omega, Nat.mod_self]
  · rw [Nat.mod_eq_of_lt (by omega)]

/-- Against a tile of one vector the two ways are one. -/
theorem xorPairSame_eq (b : Buffer) : xorPairSame tile i (0, b) = xorPair (wrapSub 16) tile i (0, b) := by
  unfold xorPairSame xorPair xorVec
  simp only
  cases b.xorAt i tile 0 16 with
  | error f => rfl
  | ok b1 =>
    show (b1.xorAt (i + 16) tile 0 16 >>= fun b => Except.ok (0, b)) = _
    cases hb : b1.xorAt (i + 16) tile 0 16 with
    | error f => simp [wrapSub, hb]
    | ok b2 => simp [wrapSub, hb]

theorem xorPairSame_ok (h16 : tileLen = 16) (htile : tileLen ≤ tile.size) (hi : 16 ∣ i) (hsize : i + 32 ≤ data.size)
    (h : Xored data tile tileLen i s) : ∃ s', xorPairSame tile i s = .ok s' ∧ Xored data tile tileLen (i + 32) s' := by
  subst h16
  obtain ⟨t, b⟩ := s
  obtain rfl : t = 0 := h.index.trans (Nat.mod_eq_zero_of_dvd hi)
  rw [xorPairSame_eq]
  exact xorPair_ok dvd_rfl (by decide) htile wrapSub_eq hi hsize h

theorem strides_ok {body : Nat → XorState → Except Fault XorState} (P : Nat → XorState → Prop) (h : P i s)
    (hbody : ∀ i' s', P i' s' → i' + n ≤ len → ∃ s'', body i' s' = .ok s'' ∧ P (i' + n) s'') :
    ∃ s', strides len n body i s = .ok (i + (len - i) / n * n, s') ∧ P (i + (len - i) / n * n) s' := by
  obtain ⟨s', hs', hP⟩ := @loopE_ok _ _ (fun m s' => P (i + m * n) s') (fun m => body (i + m * n)) s (by rw [Nat.zero_mul]; exact h)
    ((len - i) / n) fun m hm s' hs' => by
      have hle : (m + 1) * n ≤ len - i := (Nat.mul_le_mul_right n hm).trans (Nat.div_mul_le_self _ _)
      rw [Nat.add_mul, Nat.one_mul] at hle
      have hn : 0 < n := Nat.pos_of_ne_zero fun hn => by rw [hn, Nat.div_zero] at hm; omega
      obtain ⟨s'', hs'', hP⟩ := hbody _ s' hs' (by omega)
      exact ⟨s'', hs'', by rwa [Nat.add_mul, Nat.one_mul, ← Nat.add_assoc]⟩
  exact ⟨s', by unfold strides; rw [hs']; rfl, hP⟩

theorem strides_le (hi : i ≤ len) : i + (len - i) / n * n ≤ len := by
  have := Nat.div_mul_le_self (len - i) n
  omega

/-- Strides of whole vectors, from an index that is one of theirs. -/
theorem vectors_ok {w : Nat} {body : Nat → XorState → Except Fault XorState} (hw : w ∣ n) (hi : w ∣ i) (hle : i ≤ len)
    (h : Xored data tile tileLen i s) (hbody : ∀ i' s', w ∣ i' → i' + n ≤ len → Xored data tile tileLen i' s' →
      ∃ s'', body i' s' = .ok s'' ∧ Xored data tile tileLen (i' + n) s'') :
    ∃ i' s', strides len n body i s = .ok (i', s') ∧ w ∣ i' ∧ i' ≤ len ∧ Xored data tile tileLen i' s' := by
  have hboth : ∀ i' s', w ∣ i' ∧ Xored data tile tileLen i' s' → i' + n ≤ len →
      ∃ s'', body i' s' = .ok s'' ∧ w ∣ i' + n ∧ Xored data tile tileLen (i' + n) s'' := by
    intro i' s' hx hle'
    obtain ⟨s'', hs'', hx''⟩ := hbody i' s' hx.1 hle' hx.2
    exact ⟨s'', hs'', Nat.dvd_add hx.1 hw, hx''⟩
  obtain ⟨s', hs', hi', hx⟩ := strides_ok (fun i s => w ∣ i ∧ Xored data tile tileLen i s) ⟨hi, h⟩ hboth
  exact ⟨_, s', hs', hi', strides_le hle, hx⟩

theorem avx2Pairs_ok (hdvd : 16 ∣ tileLen) (hpos : 0 < tileLen) (htile : tileLen ≤ tile.size) (hlen : len ≤ data.size) :
    ∃ i s, avx2Pairs data len tile tileLen = .ok (i, s) ∧ 16 ∣ i ∧ i ≤ len ∧ Xored data tile tileLen i s := by
  have hstart : Xored data tile tileLen 0 (0, data) := ⟨(Nat.zero_mod _).symm, rfl⟩
  have hpair : ∀ i' s', 16 ∣ i' → i' + 32 ≤ len → Xored data tile tileLen i' s' →
      ∃ s'', xorPair (wrapSub tileLen) tile i' s' = .ok s'' ∧ Xored data tile tileLen (i' + 32) s'' :=
    fun i' s' hi' hle h => xorPair_ok hdvd hpos htile wrapSub_eq hi' (by omega) h
  unfold avx2Pairs
  split
  · rename_i h16
    exact vectors_ok (by decide) (Nat.dvd_zero _) (Nat.zero_le _) hstart fun i' s' hi' hle h =>
      xorPairSame_ok h16 htile hi' (by omega) h
  · exact vectors_ok (by decide) (Nat.dvd_zero _) (Nat.zero_le _) hstart hpair

theorem xorVectors_ok (simd : Simd) (hdvd : simd.width ∣ tileLen) (hpos : 0 < tileLen) (htile : tileLen ≤ tile.size)
    (hlen : len ≤ data.size) : ∃ i s, xorVectors simd data len tile tileLen = .ok (i, s) ∧ i ≤ len ∧ Xored data tile tileLen i s := by
  have hstart : Xored data tile tileLen 0 (0, data) := ⟨(Nat.zero_mod _).symm, rfl⟩
  have hsingle : ∀ w, w ∣ tileLen → ∀ {i s}, w ∣ i → i ≤ len → Xored data tile tileLen i s →
      ∃ i' s', strides len w (xorVec w (wrapZero tileLen) tile) i s = .ok (i', s') ∧ i' ≤ len ∧ Xored data tile tileLen i' s' := by
    intro w hw i s hi hle h
    have hvec : ∀ i' s', w ∣ i' → i' + w ≤ len → Xored data tile tileLen i' s' →
        ∃ s'', xorVec w (wrapZero tileLen) tile i' s' = .ok s'' ∧ Xored data tile tileLen (i' + w) s'' :=
      fun i' s' hi' hle' h' => xorVec_ok hw hpos htile wrapZero_eq hi' (by omega) h'
    obtain ⟨i', s', hs', -, hle', hx⟩ := vectors_ok dvd_rfl hi hle h hvec
    exact ⟨i', s', hs', hle', hx⟩
  cases simd with
  | sse2 => exact hsingle 16 hdvd (Nat.dvd_zero _) (Nat.zero_le _) hstart
  | avx2 =>
    obtain ⟨i, s, hs, hi, hle, hx⟩ := avx2Pairs_ok hdvd hpos htile hlen
    simp only [xorVectors, hs, ok_bind]
    exact hsingle 16 hdvd hi hle hx
  | neon =>
    have hpair : ∀ i' s', 16 ∣ i' → i' + 32 ≤ len → Xored data tile tileLen i' s' →
        ∃ s'', xorPair (wrapZero tileLen) tile i' s' = .ok s'' ∧ Xored data tile tileLen (i' + 32) s'' :=
      fun i' s' hi' hle' h' => xorPair_ok hdvd hpos htile wrapZero_eq hi' (by omega) h'
    obtain ⟨i, s, hs, hi, hle, hx⟩ := vectors_ok (by decide) (Nat.dvd_zero _) (Nat.zero_le _) hstart hpair
    simp only [xorVectors, hs, ok_bind]
    exact hsingle 16 hdvd hi hle hx
  | word32 => exact hsingle 4 hdvd (Nat.dvd_zero _) (Nat.zero_le _) hstart
  | word64 => exact hsingle 8 hdvd (Nat.dvd_zero _) (Nat.zero_le _) hstart

/-- Byte by byte to the end. -/
theorem tail_ok (hpos : 0 < tileLen) (htile : tileLen ≤ tile.size) (hlen : len ≤ data.size) (hle : i ≤ len)
    (h : Xored data tile tileLen i s) : strides len 1 (xorVec 1 (wrapZero tileLen) tile) i s =
      .ok (len, len % tileLen, data.masked len fun j => tile.mem (j % tileLen)) := by
  have hbyte : ∀ i' s', Xored data tile tileLen i' s' → i' + 1 ≤ len →
      ∃ s'', xorVec 1 (wrapZero tileLen) tile i' s' = .ok s'' ∧ Xored data tile tileLen (i' + 1) s'' :=
    fun i' s' h' hle' => xorVec_ok (one_dvd _) hpos htile wrapZero_eq (one_dvd _) (by omega) h'
  obtain ⟨s', hs', hx'⟩ := strides_ok _ h hbyte
  rw [Nat.div_one, Nat.mul_one, Nat.add_sub_cancel' hle] at hs' hx'
  rw [hs', ← hx'.bytes, ← hx'.index]

/-- On every platform, byte `j` meets byte `j % tile_len` of the tile. -/
theorem xorTile_ok (simd : Simd) (hdvd : simd.width ∣ tileLen) (hpos : 0 < tileLen) (htile : tileLen ≤ tile.size) (hlen : len ≤ data.size) :
    xorTile simd data len tile tileLen = .ok (data.masked len fun j => tile.mem (j % tileLen)) := by
  obtain ⟨i, s, hs, hle, hx⟩ := xorVectors_ok simd hdvd hpos htile hlen
  unfold xorTile
  simp only [hs, ok_bind, tail_ok hpos htile hlen hle hx]

end XorTile

end UdpSpeeder.Cook
