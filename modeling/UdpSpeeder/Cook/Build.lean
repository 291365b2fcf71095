/-
  UdpSpeeder.Cook.Build — what `packet_cook.cpp` can be built for: the vectors or words of
  `Cook.Tile`, or the SPE of `Cook.Spe`, whose `xor_tile` also goes by the address of the
  data.

  With a tile that an SPE can turn round the build does not matter (`Site.xorTile_ok`). The
  tile of an IV always is one (`xorWithPattern_ok`); that of a key need not be.
-/

import UdpSpeeder.Cook.Spe

namespace UdpSpeeder.Cook

open Lib

/-- What the program is compiled for. -/
inductive Build where
  | simd (simd : Simd)
  /-- `HAVE_PPC_SPE`. -/
  | spe
  deriving DecidableEq, Repr

/-- A build and, where it matters, the address of the data. -/
inductive Site where
  | simd (simd : Simd)
  | spe (addr : Nat)
  deriving DecidableEq, Repr

instance : Coe Simd Build := ⟨.simd⟩

instance : Coe Simd Site := ⟨.simd⟩

/-- `COOK_VEC_WIDTH`. -/
def Build.width : Build → Nat
  | .simd s => s.width
  | .spe => 8

/-- Called with data at the address. -/
def Build.on : Build → Nat → Site
  | .simd s, _ => .simd s
  | .spe, addr => .spe addr

def Site.build : Site → Build
  | .simd s => .simd s
  | .spe _ => .spe

namespace Site

/-- `xor_tile`. -/
def xorTile : Site → Buffer → Nat → Buffer → Nat → Except Fault Buffer
  | .simd s => Cook.xorTile s
  | .spe addr => Spe.xorTile addr

/-- The tile is not turned round, or not too long for that. -/
def Takes : Site → Nat → Nat → Prop
  | .simd _, _, _ => True
  | .spe addr, len, tileLen => Spe.Turned addr len → tileLen ≤ 512

end Site

/-- The pattern is in the buffer too, at `pat`. -/
def xorWithPattern (site : Site) (data : Buffer) (len pat patLen : Nat) : Except Fault Buffer :=
  if patLen = 0 ∨ len = 0 then .ok data
  else do
    let tileLen := cookLcm patLen site.build.width
    check (tileLen ≤ 512) (.assert "tile_len <= 512")
    data.within pat patLen "data"
    let tile := expandTile (fun _ => 0) tileLen (fun j => data.mem (pat + j)) patLen
    site.xorTile data len ⟨copyTo tile tileLen tile site.build.width, 512 + site.build.width⟩ tileLen

@[simp] theorem Build.on_build (build : Build) (addr : Nat) : (build.on addr).build = build := by cases build <;> rfl

theorem Build.width_pos (build : Build) : 0 < build.width := by
  cases build with
  | simd s => exact s.width_pos
  | spe => decide

theorem Build.width_le (build : Build) : build.width ≤ 16 := by
  cases build with
  | simd s => exact s.width_le
  | spe => decide

/-- A pattern and the tile made for it. -/
theorem cookLcm_tile {n : Nat} (build : Build) (hn : 0 < n) : n ∣ cookLcm n build.width ∧ build.width ∣ cookLcm n build.width ∧
    0 < cookLcm n build.width ∧ cookLcm n build.width ≤ 16 * n := by
  rw [cookLcm_eq]
  refine ⟨Nat.dvd_lcm_left _ _, Nat.dvd_lcm_right _ _, Nat.lcm_pos hn build.width_pos, ?_⟩
  have hle : Nat.lcm n build.width ≤ n * build.width := Nat.le_of_dvd (Nat.mul_pos hn build.width_pos) (Nat.lcm_dvd_mul _ _)
  have := Nat.mul_le_mul_left n build.width_le
  omega

section

variable {data tile : Buffer} {tileLen len : Nat}

/-- Byte `j` meets byte `j % tile_len` of the tile, unless an SPE is to turn round one too long. -/
theorem Site.xorTile_eq (site : Site) (hdvd : site.build.width ∣ tileLen) (hpos : 0 < tileLen) (htile : tileLen ≤ tile.size)
    (hlen : len ≤ data.size) : (site.Takes len tileLen → site.xorTile data len tile tileLen = .ok (data.masked len fun j => tile.mem (j % tileLen))) ∧
      (¬ site.Takes len tileLen → site.xorTile data len tile tileLen = .error (.assert "tile_len <= 512")) := by
  cases site with
  | simd s => exact ⟨fun _ => Cook.xorTile_ok s hdvd hpos htile hlen, fun hno => absurd trivial hno⟩
  | spe addr =>
    have heq := Spe.xorTile_eq addr hdvd hpos htile hlen
    refine ⟨fun htakes => heq.trans (if_neg fun h => ?_), fun hno => heq.trans (if_pos ?_)⟩
    · have := htakes h.1
      omega
    · simp only [Takes, not_forall, Nat.not_le] at hno
      exact ⟨hno.1, hno.2⟩

theorem Site.xorTile_ok (site : Site) (hdvd : site.build.width ∣ tileLen) (hpos : 0 < tileLen) (htile : tileLen ≤ tile.size)
    (hlen : len ≤ data.size) (htakes : site.Takes len tileLen) :
    site.xorTile data len tile tileLen = .ok (data.masked len fun j => tile.mem (j % tileLen)) :=
  (site.xorTile_eq hdvd hpos htile hlen).1 htakes

theorem Site.takes_short (site : Site) (h : tileLen ≤ 512) : site.Takes len tileLen := by
  cases site with
  | simd _ => trivial
  | spe addr => exact fun _ => h

/-- The pattern of `patLen` bytes at `pat`, repeated. -/
theorem xorWithPattern_ok (site : Site) {pat patLen : Nat} (hlen : len ≤ data.size) (hpat : pat + patLen ≤ data.size)
    (h1 : 1 ≤ patLen) (h32 : patLen ≤ 32) :
    xorWithPattern site data len pat patLen = .ok (data.masked len fun j => data.mem (pat + j % patLen)) := by
  obtain ⟨hdvd, hwidth, hpos, hle⟩ := cookLcm_tile site.build h1
  unfold xorWithPattern
  by_cases hzero : len = 0
  · rw [if_pos (.inr hzero), hzero]
    simp [Buffer.masked]
  · have hfits : cookLcm patLen site.build.width ≤ 512 := by omega
    rw [if_neg (by omega)]
    simp only
    rw [check_true hfits, ok_bind, within_ok hpat, ok_bind,
      site.xorTile_ok hwidth hpos (by simp only; omega) hlen (site.takes_short hfits)]
    refine congrArg (fun pad => Except.ok (data.masked len pad)) ?_
    funext j
    have hj := Nat.mod_lt j hpos
    simp only
    rw [copyTo_out _ _ (.inl hj), expandTile_repeats h1 _ hj, Nat.mod_mod_of_dvd _ hdvd]

end

end UdpSpeeder.Cook
