/-
  UdpSpeeder.Cook.SpeAsm — `xor_tile_spe` as it is written, in assembly (`xor_spe.S`).

  With the requirements of its header (`Call`) it returns, on every length, with the tile
  xored over the data and nothing else in the memory changed, after loading and storing
  doublewords at aligned addresses only; only the registers of its header and `r3` change,
  and the high words of five (`xorTileSpe_returns`). So it does what `Cook.Spe` takes it to do.
-/

import UdpSpeeder.Lib.Ppc
import UdpSpeeder.Cook.Spe

namespace UdpSpeeder.Cook.SpeAsm

open Lib Lib.Ppc

attribute [local instance] neZero_regs

/-! ## The program -/

inductive Label where
  | mainLoop
  | nw1
  | nw2
  | nw3
  | nw4
  | tail8
  | tail8Loop
  | tail8Nowrap
  | tail1
  | tail1Loop
  | tail1Nowrap
  deriving DecidableEq, Repr

/-- `.Ltail1_loop`, and what follows. -/
def tail1Loop : Code Label :=
  .op (.lbz 8 0 3) ::
  .op (.lbzx 9 5 0) ::
  .op (.xor 8 8 9) ::
  .op (.stb 8 0 3) ::
  .op (.addi 3 3 1) ::
  .op (.addic 0 0 1) ::
  .op (.cmpw 0 6) ::
  .branch .lt .tail1Nowrap ::
  .op (.li 0 0) ::
  .label .tail1Nowrap ::
  .branch .dnz .tail1Loop ::
  .ret .always :: []

/-- `.Ltail1`: the bytes that are left. -/
def tail1 : Code Label :=
  .op (.andiDot 7 4 7) ::
  .ret .eq ::
  .op (.mtctr 7) ::
  .label .tail1Loop :: tail1Loop

/-- `.Ltail8_loop`. -/
def tail8Loop : Code Label :=
  .op (.add 8 5 0) ::
  .op (.evldd 7 0 3) ::
  .op (.evldd 10 0 8) ::
  .op (.evxor 7 7 10) ::
  .op (.evstdd 7 0 3) ::
  .op (.addi 3 3 8) ::
  .op (.addic 0 0 8) ::
  .op (.cmpw 0 6) ::
  .branch .lt .tail8Nowrap ::
  .op (.li 0 0) ::
  .label .tail8Nowrap ::
  .branch .dnz .tail8Loop ::
  .label .tail1 :: tail1

/-- `.Ltail8`: the doublewords that are left. -/
def tail8 : Code Label :=
  .op (.andiDot 7 4 24) ::
  .branch .eq .tail1 ::
  .op (.srwi 7 7 3) ::
  .op (.mtctr 7) ::
  .label .tail8Loop :: tail8Loop

/-- `.Lmain_loop`: four doublewords. -/
def mainLoop : Code Label :=
  .op (.add 8 5 0) ::
  .op (.evldd 7 0 3) ::
  .op (.evldd 9 8 3) ::
  .op (.evldd 11 16 3) ::
  .op (.evldd 10 0 8) ::
  .op (.evxor 7 7 10) ::
  .op (.addic 0 0 8) ::
  .op (.cmpw 0 6) ::
  .branch .lt .nw1 ::
  .op (.li 0 0) ::
  .label .nw1 ::
  .op (.add 8 5 0) ::
  .op (.evldd 10 0 8) ::
  .op (.evxor 9 9 10) ::
  .op (.addic 0 0 8) ::
  .op (.cmpw 0 6) ::
  .branch .lt .nw2 ::
  .op (.li 0 0) ::
  .label .nw2 ::
  .op (.add 8 5 0) ::
  .op (.evldd 10 0 8) ::
  .op (.evxor 11 11 10) ::
  .op (.addic 0 0 8) ::
  .op (.cmpw 0 6) ::
  .branch .lt .nw3 ::
  .op (.li 0 0) ::
  .label .nw3 ::
  .op (.add 8 5 0) ::
  .op (.evldd 12 24 3) ::
  .op (.evldd 10 0 8) ::
  .op (.evxor 12 12 10) ::
  .op (.addic 0 0 8) ::
  .op (.cmpw 0 6) ::
  .branch .lt .nw4 ::
  .op (.li 0 0) ::
  .label .nw4 ::
  .op (.evstdd 7 0 3) ::
  .op (.evstdd 9 8 3) ::
  .op (.evstdd 11 16 3) ::
  .op (.evstdd 12 24 3) ::
  .op (.addi 3 3 32) ::
  .branch .dnz .mainLoop ::
  .label .tail8 :: tail8

/-- `void xor_tile_spe(char *data, int len, const char *tile, int tile_len)`, with its
    arguments in `r3` to `r6`. -/
def xorTileSpe : Code Label :=
  .op (.cmpwi 4 0) ::
  .ret .le ::
  .op (.li 0 0) ::
  .op (.srwiDot 7 4 5) ::
  .branch .eq .tail8 ::
  .op (.mtctr 7) ::
  .label .mainLoop :: mainLoop

theorem address_add (a : Word) (i n : Nat) : a + .ofNat 32 i + .ofNat 32 n = a + .ofNat 32 (i + n) := by
  rw [BitVec.add_assoc, ← BitVec.ofNat_add]

/-! ## A call -/

/-- What it is called with: the requirements of its header, and a tile that is apart from the data. -/
structure Call where
  data : Word
  len : Nat
  tile : Word
  tileLen : Nat
  mem : Memory
  data_aligned : Aligned data
  tile_aligned : Aligned tile
  tileLen_dvd : 8 ∣ tileLen
  tileLen_pos : 0 < tileLen
  tileLen_int : tileLen < 2 ^ 31
  len_int : len < 2 ^ 31
  apart : ∀ i < len, ∀ j < tileLen, data + .ofNat 32 i ≠ tile + .ofNat 32 j

namespace Call

variable (c : Call)

/-- The memory with the first `i` bytes done. -/
def masked (i : Nat) : Memory := fun x =>
  if (x - c.data).toNat < i then c.mem x ^^^ c.mem (c.tile + .ofNat 32 ((x - c.data).toNat % c.tileLen)) else c.mem x

variable {c} {i o n : Nat}

theorem masked_zero : c.masked 0 = c.mem := by
  funext x
  unfold masked
  rw [if_neg (Nat.not_lt_zero _)]

theorem masked_tile (hi : i ≤ c.len) (ho : o < c.tileLen) : c.masked i (c.tile + .ofNat 32 o) = c.mem (c.tile + .ofNat 32 o) := by
  unfold masked
  refine if_neg fun hlt => c.apart _ (hlt.trans_le hi) o ho ?_
  rw [BitVec.ofNat_toNat, BitVec.setWidth_eq, BitVec.add_comm, BitVec.sub_add_cancel]

theorem masked_data (hi : i ≤ n) (hn : n < c.len) : c.masked i (c.data + .ofNat 32 n) = c.mem (c.data + .ofNat 32 n) := by
  have hlen := c.len_int
  unfold masked
  rw [if_neg (by bv_omega)]

theorem word_tile {i o : Nat} (hi : i ≤ c.len) (ho : o + 4 ≤ c.tileLen) :
    word (c.masked i) (c.tile + .ofNat 32 o) = word c.mem (c.tile + .ofNat 32 o) :=
  word_congr fun j hj => by
    rw [BitVec.add_assoc, ← BitVec.ofNat_add]
    exact masked_tile hi (by omega)

theorem word_data {i n : Nat} (hi : i ≤ n) (hn : n + 4 ≤ c.len) :
    word (c.masked i) (c.data + .ofNat 32 n) = word c.mem (c.data + .ofNat 32 n) :=
  word_congr fun j hj => by
    rw [BitVec.add_assoc, ← BitVec.ofNat_add]
    exact masked_data (by omega) (by omega)

theorem mod_lt (c : Call) (i : Nat) : i % c.tileLen < c.tileLen := Nat.mod_lt _ c.tileLen_pos

/-- The end of the tile is not inside a doubleword. -/
theorem room (c : Call) (hi : 8 ∣ i) : i % c.tileLen + 8 ≤ c.tileLen := by
  obtain ⟨k, hk⟩ := c.tileLen_dvd
  obtain ⟨l, hl⟩ := (Nat.dvd_mod_iff c.tileLen_dvd).mpr hi
  have := c.mod_lt i
  omega

theorem aligned_data (hi : 8 ∣ i) : Aligned (c.data + .ofNat 32 i) := by
  have ha : c.data.toNat % 8 = 0 := c.data_aligned
  unfold Aligned
  rw [BitVec.toNat_add, BitVec.toNat_ofNat]
  omega

theorem aligned_tile (hi : 8 ∣ i) : Aligned (c.tile + .ofNat 32 (i % c.tileLen)) := by
  have ha : c.tile.toNat % 8 = 0 := c.tile_aligned
  obtain ⟨k, hk⟩ := (Nat.dvd_mod_iff c.tileLen_dvd).mpr hi
  unfold Aligned
  rw [BitVec.toNat_add, BitVec.toNat_ofNat]
  omega

/-- `n` bytes more, that do not go over the end of the tile. -/
theorem masked_add (hroom : i % c.tileLen + n ≤ c.tileLen) (hlen : i + n ≤ c.len) :
    (fun x => if (x - (c.data + .ofNat 32 i)).toNat < n then
        c.mem x ^^^ c.mem (c.tile + .ofNat 32 (i % c.tileLen) + (x - (c.data + .ofNat 32 i)))
      else c.masked i x) = c.masked (i + n) := by
  have hint := c.len_int
  funext x
  unfold masked
  rw [← BitVec.sub_sub]
  generalize x - c.data = y
  by_cases hin : (y - .ofNat 32 i).toNat < n
  · obtain ⟨j, hj, rfl⟩ : ∃ j < n, y = .ofNat 32 (i + j) := ⟨(y - .ofNat 32 i).toNat, hin, by bv_omega⟩
    have hoff : BitVec.ofNat 32 (i + j) - .ofNat 32 i = .ofNat 32 j := by rw [BitVec.ofNat_add, BitVec.add_comm, BitVec.add_sub_cancel]
    have hy : (BitVec.ofNat 32 (i + j)).toNat = i + j := by rw [BitVec.toNat_ofNat, Nat.mod_eq_of_lt (by omega)]
    have hmod : (i + j) % c.tileLen = i % c.tileLen + j := by
      rw [Nat.add_mod, Nat.mod_eq_of_lt (show j < c.tileLen by omega), Nat.mod_eq_of_lt (by omega)]
    rw [if_pos hin, hy, if_pos (by omega), hmod, hoff, BitVec.add_assoc, ← BitVec.ofNat_add]
  · rw [if_neg hin]
    by_cases hlow : y.toNat < i
    · rw [if_pos hlow, if_pos (by omega)]
    · rw [if_neg hlow, if_neg (by bv_omega)]

end Call

/-! ## Rounds -/

variable {c : Call} {i n : Nat} {Q : State → Prop} {s : State}

/-- `i` bytes are done. -/
structure At (c : Call) (i : Nat) (s : State) : Prop where
  off : s.lo 0 = .ofNat 32 (i % c.tileLen)
  data : s.lo 3 = c.data + .ofNat 32 i
  len : s.lo 4 = .ofNat 32 c.len
  tile : s.lo 5 = c.tile
  tileLen : s.lo 6 = .ofNat 32 c.tileLen
  mem : s.mem = c.masked i

namespace At

theorem setCtr (h : At c i s) (x : Word) : At c i (s.setCtr x) := ⟨h.off, h.data, h.len, h.tile, h.tileLen, h.mem⟩

theorem flags (h : At c i s) (o : Ordering) (ca : Bool) : At c i (s.flags o ca) := ⟨h.off, h.data, h.len, h.tile, h.tileLen, h.mem⟩

theorem set7 (h : At c i s) (x : Word) : At c i (s.set 7 x) :=
  ⟨by simpa using h.off, by simpa using h.data, by simpa using h.len, by simpa using h.tile, by simpa using h.tileLen, h.mem⟩

end At

/-- `n` further in the tile, or at its start again. -/
theorem returns_wrap {p k : Code Label} {l : Label} {v : BitVec 16} (hk : target p l = k) (hv : v.signExtend 32 = .ofNat 32 n)
    (hoff : s.lo 0 = .ofNat 32 (i % c.tileLen)) (hlen : s.lo 6 = .ofNat 32 c.tileLen) (hroom : i % c.tileLen + n ≤ c.tileLen)
    (hnext : ∀ o ca, Returns p Q k ((s.set 0 (.ofNat 32 ((i + n) % c.tileLen))).flags o ca)) :
    Returns p Q (.op (.addic 0 0 v) :: .op (.cmpw 0 6) :: .branch .lt l :: .op (.li 0 0) :: .label l :: k) s := by
  have hint := c.tileLen_int
  have hpos := c.tileLen_pos
  have hadd : BitVec.ofNat 32 (i % c.tileLen) + v.signExtend 32 = .ofNat 32 (i % c.tileLen + n) := by rw [hv, ← BitVec.ofNat_add]
  have hcmp : compare ((BitVec.ofNat 32 (i % c.tileLen + n)).toInt) (BitVec.ofNat 32 c.tileLen).toInt = .lt ↔ i % c.tileLen + n < c.tileLen := by
    rw [toInt_ofNat (by omega), toInt_ofNat hint, compare_lt_iff_lt]
    omega
  have hmod : (i + n) % c.tileLen = (i % c.tileLen + n) % c.tileLen := by rw [Nat.mod_add_mod]
  refine returns_op rfl (returns_op rfl (returns_branch (fun hlt => ?_) fun hge => ?_))
  · simp only [Cond.holds, State.flags_lo, State.set_lo, State.flags_cr0, hoff, hlen, hadd, Fin.reduceEq, if_true, if_false,
      decide_eq_true_eq, hcmp] at hlt
    rw [hmod, Nat.mod_eq_of_lt hlt, ← hadd, ← hoff] at hnext
    rw [hk]
    exact hnext _ _
  · simp only [Cond.holds, State.flags_lo, State.set_lo, State.flags_cr0, hoff, hlen, hadd, Fin.reduceEq, if_true, if_false,
      decide_eq_false_iff_not, hcmp] at hge
    have hend : (i % c.tileLen + n) % c.tileLen = 0 := by rw [show i % c.tileLen + n = c.tileLen by omega, Nat.mod_self]
    refine returns_op rfl (returns_label l ?_)
    simp only [Cond.count, State.flags_set, State.set_set]
    rw [hmod, hend] at hnext
    exact hnext _ _

/-- A byte. -/
theorem masked_byte (hi : i < c.len) :
    Function.update (c.masked i) (c.data + .ofNat 32 i)
      (((c.masked i (c.data + .ofNat 32 i)).setWidth 32 ^^^ (c.masked i (c.tile + .ofNat 32 (i % c.tileLen))).setWidth 32).setWidth 8) =
        c.masked (i + 1) := by
  rw [← Call.masked_add (c.mod_lt i) hi, Call.masked_data le_rfl hi, Call.masked_tile hi.le (c.mod_lt i)]
  funext x
  rw [Function.update_apply]
  by_cases hx : x = c.data + .ofNat 32 i
  · rw [if_pos hx, hx, BitVec.sub_self, if_pos (by decide), BitVec.add_zero, BitVec.setWidth_xor, BitVec.setWidth_setWidth_of_le _ (by decide),
      BitVec.setWidth_setWidth_of_le _ (by decide), BitVec.setWidth_eq, BitVec.setWidth_eq]
  · rw [if_neg hx, if_neg (by bv_omega)]

theorem tail1_round (h : At c i s) (hi : i < c.len)
    (hnext : ∀ s', At c (i + 1) s' → s'.ctr = s.ctr → Returns xorTileSpe Q (.branch .dnz .tail1Loop :: .ret .always :: []) s') :
    Returns xorTileSpe Q tail1Loop s := by
  refine returns_op rfl (returns_op rfl (returns_op rfl (returns_op rfl (returns_op rfl
    (returns_wrap (c := c) (i := i) (n := 1) rfl rfl ?_ ?_ (c.mod_lt i) fun o ca => hnext _ ⟨?_, ?_, ?_, ?_, ?_, ?_⟩ ?_)))))
  · simpa using h.off
  · simpa using h.tileLen
  · simp
  · simp [h.data, BitVec.add_assoc, BitVec.ofNat_add]
  · simpa using h.len
  · simpa using h.tile
  · simpa using h.tileLen
  · simpa [h.mem, h.off, h.data, h.tile] using masked_byte hi
  · simp

/-- A doubleword, loaded when `j` bytes were done. -/
theorem masked_dword {j : Nat} (hj : j ≤ i) (hi : 8 ∣ i) (hlen : i + 8 ≤ c.len) :
    putWord
      (putWord (c.masked i) (c.data + .ofNat 32 i)
        (word (c.masked j) (c.data + .ofNat 32 i) ^^^ word (c.masked j) (c.tile + .ofNat 32 (i % c.tileLen))))
      (c.data + .ofNat 32 i + 4#32)
      (word (c.masked j) (c.data + .ofNat 32 i + 4#32) ^^^ word (c.masked j) (c.tile + .ofNat 32 (i % c.tileLen) + 4#32)) =
    c.masked (i + 8) := by
  have hroom := c.room hi
  have ha := Call.word_data (c := c) (show j ≤ i + 4 by omega) (by omega)
  have hb := Call.word_tile (c := c) (show j ≤ c.len by omega) (show i % c.tileLen + 4 + 4 ≤ c.tileLen by omega)
  rw [← address_add] at ha hb
  rw [Call.word_data hj (by omega), Call.word_tile (by omega) (by omega), ha, hb, ← Call.masked_add hroom hlen]
  exact putDword_xor (c.masked i) c.mem c.mem _ _

theorem tail8_round (h : At c i s) (hi : 8 ∣ i) (hlen : i + 8 ≤ c.len)
    (hnext : ∀ s', At c (i + 8) s' → s'.ctr = s.ctr → Returns xorTileSpe Q (.branch .dnz .tail8Loop :: .label .tail1 :: tail1) s') :
    Returns xorTileSpe Q tail8Loop s := by
  refine returns_op rfl (returns_op (exec_evldd ?_) (returns_op (exec_evldd ?_) (returns_op rfl (returns_op (exec_evstdd ?_) (returns_op rfl
    (returns_wrap (c := c) (i := i) (n := 8) rfl rfl ?_ ?_ (c.room hi) fun o ca => hnext _ ⟨?_, ?_, ?_, ?_, ?_, ?_⟩ ?_))))))
  · simpa [h.data] using Call.aligned_data hi
  · simpa [h.tile, h.off] using Call.aligned_tile hi
  · simpa [h.data] using Call.aligned_data hi
  · simpa using h.off
  · simpa using h.tileLen
  · simp
  · simp [h.data, BitVec.add_assoc, BitVec.ofNat_add]
  · simpa using h.len
  · simpa using h.tile
  · simpa using h.tileLen
  · simpa [h.mem, h.off, h.data, h.tile] using masked_dword le_rfl hi hlen
  · simp

theorem main_round (h : At c i s) (hi : 8 ∣ i) (hlen : i + 32 ≤ c.len)
    (hnext : ∀ s', At c (i + 32) s' → s'.ctr = s.ctr → Returns xorTileSpe Q (.branch .dnz .mainLoop :: .label .tail8 :: tail8) s') :
    Returns xorTileSpe Q mainLoop s := by
  have h8 : 8 ∣ i + 8 := Nat.dvd_add hi (by decide)
  have h16 : 8 ∣ i + 16 := Nat.dvd_add hi (by decide)
  have h24 : 8 ∣ i + 24 := Nat.dvd_add hi (by decide)
  have hdata8 := address_add c.data i 8
  have hdata16 := address_add c.data i 16
  have hdata24 := address_add c.data i 24
  -- the first doubleword of the tile
  refine returns_op rfl (returns_op (exec_evldd ?_) (returns_op (exec_evldd ?_) (returns_op (exec_evldd ?_) (returns_op (exec_evldd ?_)
    (returns_op rfl (returns_wrap (c := c) (i := i) (n := 8) rfl rfl ?_ ?_ (c.room hi) fun o1 ca1 => ?_))))))
  · simpa [h.data] using Call.aligned_data hi
  · simpa [h.data, hdata8] using Call.aligned_data h8
  · simpa [h.data, hdata16] using Call.aligned_data h16
  · simpa [h.tile, h.off] using Call.aligned_tile hi
  · simpa using h.off
  · simpa using h.tileLen
  -- the second
  refine returns_op rfl (returns_op (exec_evldd ?_) (returns_op rfl
    (returns_wrap (c := c) (i := i + 8) (n := 8) rfl rfl ?_ ?_ (c.room h8) fun o2 ca2 => ?_)))
  · simpa [h.tile] using Call.aligned_tile h8
  · simp
  · simpa using h.tileLen
  -- the third
  refine returns_op rfl (returns_op (exec_evldd ?_) (returns_op rfl
    (returns_wrap (c := c) (i := i + 16) (n := 8) rfl rfl ?_ ?_ (c.room h16) fun o3 ca3 => ?_)))
  · simpa [h.tile] using Call.aligned_tile h16
  · simp
  · simpa using h.tileLen
  -- the fourth
  refine returns_op rfl (returns_op (exec_evldd ?_) (returns_op (exec_evldd ?_) (returns_op rfl
    (returns_wrap (c := c) (i := i + 24) (n := 8) rfl rfl ?_ ?_ (c.room h24) fun o4 ca4 => ?_))))
  · simpa [h.data, hdata24] using Call.aligned_data h24
  · simpa [h.tile] using Call.aligned_tile h24
  · simp
  · simpa using h.tileLen
  refine returns_op (exec_evstdd ?_) (returns_op (exec_evstdd ?_) (returns_op (exec_evstdd ?_) (returns_op (exec_evstdd ?_) (returns_op rfl
    (hnext _ ⟨?_, ?_, ?_, ?_, ?_, ?_⟩ ?_)))))
  · simpa [h.data] using Call.aligned_data hi
  · simpa [h.data, hdata8] using Call.aligned_data h8
  · simpa [h.data, hdata16] using Call.aligned_data h16
  · simpa [h.data, hdata24] using Call.aligned_data h24
  · simp
  · simp [h.data, BitVec.add_assoc, BitVec.ofNat_add]
  · simpa using h.len
  · simpa using h.tile
  · simpa using h.tileLen
  · have hmem := masked_dword le_rfl hi (show i + 8 ≤ c.len by omega)
    have hmem8 := masked_dword (c := c) (i := i + 8) (j := i) (by omega) h8 (by omega)
    have hmem16 := masked_dword (c := c) (i := i + 16) (j := i) (by omega) h16 (by omega)
    have hmem24 := masked_dword (c := c) (i := i + 24) (j := i) (by omega) h24 (by omega)
    simp only [Nat.add_assoc, Nat.reduceAdd] at hmem8 hmem16 hmem24
    simp [h.mem, h.off, h.data, h.tile, hdata8, hdata16, hdata24, Nat.add_assoc, hmem, hmem8, hmem16, hmem24]
  · simp

/-! ## Loops -/

theorem compare_zero {n : Nat} (hn : n < 2 ^ 31) : compare (BitVec.ofNat 32 n).toInt 0 = .eq ↔ n = 0 := by
  rw [toInt_ofNat hn, compare_eq_iff_eq]
  omega

theorem tail1_returns (h : At c (c.len / 8 * 8) s) (hQ : ∀ s', At c c.len s' → Q s') : Returns xorTileSpe Q tail1 s := by
  have hint := c.len_int
  have hlow : BitVec.ofNat 32 c.len &&& 7#32 = .ofNat 32 (c.len % 8) := ofNat_and_low c.len 3 (by decide)
  have hleft : c.len / 8 * 8 + c.len % 8 = c.len := Nat.div_add_mod' c.len 8
  refine returns_op rfl (returns_ret (fun hzero => ?_) fun hsome => ?_)
  · have hnone : c.len % 8 = 0 := by
      simpa [Cond.holds, State.record, h.len, hlow, compare_zero (show c.len % 8 < 2 ^ 31 by omega)] using hzero
    rw [hnone, Nat.add_zero] at hleft
    rw [hleft] at h
    exact hQ _ ((h.set7 _).flags _ _)
  · have hpos : c.len % 8 ≠ 0 := by
      simpa [Cond.holds, State.record, h.len, hlow, compare_zero (show c.len % 8 < 2 ^ 31 by omega)] using hsome
    refine returns_op rfl (returns_label _ (returns_loop (l := .tail1Loop) (k := .ret .always :: []) rfl (I := fun j s => At c (c.len / 8 * 8 + j) s) (fun j s x h => h.setCtr x)
      (n := c.len % 8) (by omega) (fun j s' hj h' hnext => tail1_round h' (by omega) hnext) (fun s' h' => ?_) (by omega) ?_ ?_))
    · rw [hleft] at h'
      exact returns_ret (fun _ => hQ s' h') fun hnever => by cases hnever
    · simp [Cond.count, State.record, h.len, hlow]
    · exact ((h.set7 _).flags _ _).setCtr _

theorem tail8_returns (h : At c (c.len / 32 * 32) s) (hQ : ∀ s', At c c.len s' → Q s') : Returns xorTileSpe Q tail8 s := by
  have hint := c.len_int
  have hlow := ofNat_and_24 (show c.len < 2 ^ 32 by omega)
  have hleft : c.len / 32 * 32 + c.len % 32 / 8 * 8 = c.len / 8 * 8 := by omega
  refine returns_op rfl (returns_branch (fun hzero => ?_) fun hsome => ?_)
  · have hnone : c.len % 32 / 8 * 8 = 0 := by
      rw [← compare_zero (show c.len % 32 / 8 * 8 < 2 ^ 31 by omega)]
      simpa [Cond.holds, State.record, h.len, hlow] using hzero
    rw [hnone, Nat.add_zero] at hleft
    rw [hleft] at h
    exact tail1_returns ((h.set7 _).flags _ _) hQ
  · have hpos : c.len % 32 / 8 * 8 ≠ 0 := by
      rw [Ne, ← compare_zero (show c.len % 32 / 8 * 8 < 2 ^ 31 by omega)]
      simpa [Cond.holds, State.record, h.len, hlow] using hsome
    refine returns_op rfl (returns_op rfl (returns_label _ (returns_loop (l := .tail8Loop) (k := .label .tail1 :: tail1) rfl (I := fun j s => At c (c.len / 32 * 32 + j * 8) s)
      (fun j s x h => h.setCtr x) (n := c.len % 32 / 8) (by omega) (fun j s' hj h' hnext => ?_) (fun s' h' => ?_) (by omega) ?_ ?_)))
    · refine tail8_round h' (by omega) (by omega) fun s'' h'' => hnext s'' ?_
      rw [Nat.add_mul, Nat.one_mul, ← Nat.add_assoc]
      exact h''
    · rw [hleft] at h'
      exact returns_label _ (tail1_returns h' hQ)
    · simp [Cond.count, State.record, h.len, hlow, ofNat_shiftRight 3 (show c.len % 32 / 8 * 8 < 2 ^ 32 by omega)]
    · rw [Nat.zero_mul, Nat.add_zero]
      exact (((h.set7 _).flags _ _).set7 _).setCtr _

/-- The arguments are in the registers; of a length that is not positive nothing is done. -/
structure Entry (c : Call) (s : State) : Prop where
  data : s.lo 3 = c.data
  len : c.len = (s.lo 4).toInt.toNat
  tile : s.lo 5 = c.tile
  tileLen : s.lo 6 = .ofNat 32 c.tileLen
  mem : s.mem = c.mem

theorem returns_masked (h : Entry c s) : Returns xorTileSpe (fun s' => s'.mem = c.masked c.len) xorTileSpe s := by
  have hint := c.len_int
  refine returns_op rfl (returns_ret (fun hle => ?_) fun hgt => ?_)
  · have hnone : c.len = 0 := by
      have hle : (s.lo 4).toInt ≤ 0 := by simpa [Cond.holds, compare_gt_iff_gt] using hle
      rw [h.len]
      omega
    simpa [Cond.count, hnone, Call.masked_zero] using h.mem
  · have hsome : 0 < (s.lo 4).toInt := by simpa [Cond.holds, compare_gt_iff_gt] using hgt
    have hlen : s.lo 4 = .ofNat 32 c.len := by
      apply BitVec.eq_of_toInt_eq
      rw [toInt_ofNat hint, h.len]
      omega
    have hshift : s.lo 4 >>> 5 = .ofNat 32 (c.len / 32) := by
      rw [hlen]
      exact ofNat_shiftRight 5 (by omega)
    have hstart : At c 0 (s.set 0 0) := by
      refine ⟨?_, ?_, ?_, ?_, ?_, ?_⟩
      · simp
      · simp [h.data]
      · simpa using hlen
      · simpa using h.tile
      · simpa using h.tileLen
      · simpa [Call.masked_zero] using h.mem
    refine returns_op rfl (returns_op rfl (returns_branch (fun hzero => ?_) fun hsome => ?_))
    · have hnone : c.len / 32 = 0 := by
        rw [← compare_zero (show c.len / 32 < 2 ^ 31 by omega)]
        simpa [Cond.holds, Cond.count, State.record, hshift] using hzero
      refine tail8_returns ?_ fun s' h' => h'.mem
      rw [hnone, Nat.zero_mul]
      exact ((hstart.flags _ _).set7 _).flags _ _
    · have hpos : c.len / 32 ≠ 0 := by
        rw [Ne, ← compare_zero (show c.len / 32 < 2 ^ 31 by omega)]
        simpa [Cond.holds, Cond.count, State.record, hshift] using hsome
      refine returns_op rfl (returns_label _ (returns_loop (l := .mainLoop) (k := .label .tail8 :: tail8) rfl (I := fun j s => At c (j * 32) s) (fun j s x h => h.setCtr x)
        (n := c.len / 32) (by omega) (fun j s' hj h' hnext => ?_) (fun s' h' => ?_) (by omega) ?_ ?_))
      · refine main_round h' (by omega) (by omega) fun s'' h'' => hnext s'' ?_
        rw [Nat.add_mul, Nat.one_mul]
        exact h''
      · exact returns_label _ (tail8_returns h' fun s' h' => h'.mem)
      · simp [Cond.count, State.record, hshift]
      · rw [Nat.zero_mul]
        exact (((hstart.flags _ _).set7 _).flags _ _).setCtr _

/-! ## `xor_tile_spe` -/

/-- The registers it changes. -/
def clobbered : List Reg := [0, 3, 7, 8, 9, 10, 11, 12]

/-- Those whose high words it changes. -/
def clobberedHi : List Reg := [7, 9, 10, 11, 12]

theorem dests_clobbered : ∀ r ∈ dests xorTileSpe, r ∈ clobbered := by decide

theorem destsHi_clobbered : ∀ r ∈ destsHi xorTileSpe, r ∈ clobberedHi := by decide

theorem Call.masked_in (c : Call) {j : Nat} (hj : j < c.len) :
    c.masked c.len (c.data + .ofNat 32 j) = c.mem (c.data + .ofNat 32 j) ^^^ c.mem (c.tile + .ofNat 32 (j % c.tileLen)) := by
  have hint := c.len_int
  have hoff : (c.data + .ofNat 32 j - c.data).toNat = j := by bv_omega
  unfold masked
  rw [hoff, if_pos hj]

theorem Call.masked_out (c : Call) {x : Word} (hx : ∀ j < c.len, x ≠ c.data + .ofNat 32 j) : c.masked c.len x = c.mem x := by
  unfold masked
  refine if_neg fun hlt => hx _ hlt ?_
  rw [BitVec.ofNat_toNat, BitVec.setWidth_eq, BitVec.add_comm, BitVec.sub_add_cancel]

/-- What `Cook.Spe` computes of the data and the tile is in the memory when it returns. -/
theorem returns_xorTileSpe {data tile : Buffer} (h : Entry c s) (hdata : c.len ≤ data.size) (htile : c.tileLen ≤ tile.size)
    (hdataMem : ∀ j < c.len, c.mem (c.data + .ofNat 32 j) = (data.mem j).bits)
    (htileMem : ∀ j < c.tileLen, c.mem (c.tile + .ofNat 32 j) = (tile.mem j).bits) :
    ∃ out, Spe.xorTileSpe data c.len tile c.tileLen = .ok out ∧
      Returns xorTileSpe (fun s' => ∀ j < c.len, s'.mem (c.data + .ofNat 32 j) = (out.mem j).bits) xorTileSpe s := by
  refine ⟨_, Spe.xorTileSpe_ok c.tileLen_dvd c.tileLen_pos htile hdata, ?_⟩
  obtain ⟨n, s', hrun, hmem⟩ := returns_masked h
  refine ⟨n, s', hrun, fun j hj => ?_⟩
  rw [hmem, c.masked_in hj, hdataMem j hj, htileMem _ (c.mod_lt j), ← Byte.bits_xor]
  unfold Buffer.masked
  simp only [if_pos hj]

/-- Called as its header says, on any length, it returns: byte `j` of the data is xored with
    byte `j % tile_len` of the tile, nothing else in the memory changes, and neither do the
    registers it does not name. -/
theorem xorTileSpe_returns (c : Call) (s : State) (h : Entry c s) :
    ∃ n s', run xorTileSpe n xorTileSpe s = .ok (some s') ∧
      (∀ j < c.len, s'.mem (c.data + .ofNat 32 j) = c.mem (c.data + .ofNat 32 j) ^^^ c.mem (c.tile + .ofNat 32 (j % c.tileLen))) ∧
      (∀ x, (∀ j < c.len, x ≠ c.data + .ofNat 32 j) → s'.mem x = c.mem x) ∧
      (∀ r ∉ clobbered, s'.lo r = s.lo r) ∧ ∀ r ∉ clobberedHi, s'.hi r = s.hi r := by
  obtain ⟨n, s', hrun, hmem⟩ := returns_masked h
  refine ⟨n, s', hrun, ?_, ?_, fun r hr => run_lo (fun hd => hr (dests_clobbered r hd)) hrun,
    fun r hr => run_hi (fun hd => hr (destsHi_clobbered r hd)) hrun⟩
  · intro j hj
    rw [hmem]
    exact c.masked_in hj
  · intro x hx
    rw [hmem]
    exact c.masked_out hx

/-- 75 bytes at 64 and a tile of 24 at 1024. -/
def packet : Call where
  data := 64
  len := 75
  tile := 1024
  tileLen := 24
  mem := fun x => x.setWidth 8
  data_aligned := by decide
  tile_aligned := by decide
  tileLen_dvd := by decide
  tileLen_pos := by decide
  tileLen_int := by decide
  len_int := by decide
  apart := fun i hi j hj => by bv_omega

def packetEntry : State :=
  ⟨fun r => if r = 3 then 64 else if r = 4 then 75 else if r = 5 then 1024 else if r = 6 then 24 else 0, fun _ => 0, 0, .eq, false, packet.mem⟩

theorem xorTileSpe_returns_packet : ∃ n s', run xorTileSpe n xorTileSpe packetEntry = .ok (some s') ∧
    (∀ j < 75, s'.mem (64 + .ofNat 32 j) = packet.mem (64 + .ofNat 32 j) ^^^ packet.mem (1024 + .ofNat 32 (j % 24))) ∧
    (∀ x, (∀ j < 75, x ≠ 64 + .ofNat 32 j) → s'.mem x = packet.mem x) ∧
    (∀ r ∉ clobbered, s'.lo r = packetEntry.lo r) ∧ ∀ r ∉ clobberedHi, s'.hi r = packetEntry.hi r :=
  xorTileSpe_returns packet packetEntry ⟨rfl, rfl, rfl, rfl, rfl⟩

end UdpSpeeder.Cook.SpeAsm
