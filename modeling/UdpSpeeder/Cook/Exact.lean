/-
  UdpSpeeder.Cook.Exact — `de_cook` reads back what `do_cook` made, and nothing else.

  Each of the three steps is an exact layer over byte strings (`keyLayer`, `obscureLayer`,
  `crcLayer`); so is their composition (`cookLayer`). `do_cook` is its `wrap` under the IV it
  draws (`doCook_ok`), and every IV can be drawn (`exists_draws`); `de_cook` is its `unwrap`,
  and stays inside the bytes it is given (`deCook_ok`). With an SPE both may stop at the key
  (`Site.Encrypts`).
-/

import UdpSpeeder.Cook.Codec
import UdpSpeeder.Lib.Layer
import Mathlib.Tactic.IntervalCases

namespace UdpSpeeder.Cook

open Lib

/-! ## Masks -/

/-- Every byte against its own of the pad. -/
def mask (pad : Nat → Byte) (p : Bytes) : Bytes := p.mapIdx fun j b => b ^^^ pad j

@[simp] theorem mask_length (pad : Nat → Byte) (p : Bytes) : (mask pad p).length = p.length := List.length_mapIdx

theorem mask_mask (pad : Nat → Byte) (p : Bytes) : mask pad (mask pad p) = p := by
  refine List.ext_getElem (by simp) fun j h1 h2 => ?_
  simp [mask, Byte.xor_assoc]

theorem masked_slice (b : Buffer) (len : Nat) (pad : Nat → Byte) : slice (b.masked len pad).mem 0 len = mask pad (slice b.mem 0 len) := by
  refine List.ext_getElem (by simp) fun j h1 h2 => ?_
  have hj : j < len := by simpa using h1
  simp [mask, slice_getElem, Buffer.masked, hj]

/-- A buffer and its first bytes. -/
theorem slice_holds {b : Buffer} {len : Nat} {p : Bytes} (h : slice b.mem 0 len = p) : b.Holds p := by
  have hlen : p.length = len := by rw [← h, slice_length]
  unfold Buffer.Holds
  rw [hlen, h]

/-! ## The layers -/

/-- The IVs a context draws. -/
def CookCtx.Iv (ctx : CookCtx) : Type := { iv : Bytes // ctx.ivMin ≤ iv.length ∧ iv.length ≤ ctx.ivMax }

/-- What `1 <= iv_min <= iv_max <= 32` and `cook_ctx_prepare_key` leave. -/
structure CookCtx.Ready (site : Site) (ctx : CookCtx) : Prop where
  ivMin : 1 ≤ ctx.ivMin
  ivLe : ctx.ivMin ≤ ctx.ivMax
  ivMax : ctx.ivMax ≤ 32
  tile : ctx.keyTileLen = 0 ∨ (site.build.width ∣ ctx.keyTileLen ∧ ctx.keyTileLen ≤ keyTileSize)

/-- The key over and over. -/
def CookCtx.pad (ctx : CookCtx) (j : Nat) : Byte := if ctx.keyTileLen = 0 then 0 else ctx.keyTile (j % ctx.keyTileLen)

/-- The IV over and over. -/
def ivPad (iv : Bytes) (j : Nat) : Byte := iv.getD (j % iv.length) 0

def crcBytes (p : Bytes) : Bytes := slice (writeU32 (fun _ => 0) 0 (crc32c p)) 0 4

def obscured (iv p : Bytes) : Bytes := mask (ivPad iv) p ++ iv ++ [.ofNat iv.length]

/-- What `de_obscure` does to a byte string. -/
def unobscure (ctx : CookCtx) (x : Bytes) : Except Int Bytes :=
  match x.getLast? with
  | none => .error (-1)
  | some b =>
    if b.toNat < ctx.ivMin ∨ ctx.ivMax < b.toNat then .error (-1)
    else if x.length < 1 + b.toNat then .error (-1)
    else .ok (mask (ivPad ((x.drop (x.length - 1 - b.toNat)).take b.toNat)) (x.take (x.length - 1 - b.toNat)))

section Layers

variable {site : Site} {ctx : CookCtx}

theorem unobscure_exact (hmax : ctx.ivMax ≤ 32) (x y : Bytes) :
    unobscure ctx x = .ok y ↔ ∃ iv : ctx.Iv, obscured iv.1 y = x := by
  constructor
  · intro h
    unfold unobscure at h
    cases hlast : x.getLast? with
    | none => rw [hlast] at h; cases h
    | some b =>
      rw [hlast] at h
      simp only at h
      split at h
      · cases h
      · rename_i hrange
        split at h
        · cases h
        · rename_i hlen
          cases h
          have hx : x = x.take (x.length - 1) ++ [b] := by
            obtain ⟨init, rfl⟩ := List.getLast?_eq_some_iff.mp hlast
            simp
          have hiv : ((x.drop (x.length - 1 - b.toNat)).take b.toNat).length = b.toNat := by
            rw [List.length_take, List.length_drop]
            omega
          have hbody : x.take (x.length - 1) = x.take (x.length - 1 - b.toNat) ++ (x.drop (x.length - 1 - b.toNat)).take b.toNat := by
            rw [← List.take_add]
            congr 1
            omega
          generalize (x.drop (x.length - 1 - b.toNat)).take b.toNat = iv at hiv hbody
          refine ⟨⟨iv, by omega⟩, ?_⟩
          show mask (ivPad iv) (mask (ivPad iv) _) ++ iv ++ [Byte.ofNat iv.length] = x
          rw [mask_mask, hiv, Byte.ofNat_toNat, ← hbody, ← hx]
  · rintro ⟨⟨iv, h1, h2⟩, rfl⟩
    have hb : (Byte.ofNat iv.length).toNat = iv.length := by
      rw [Byte.toNat_ofNat]
      omega
    have hlen : (obscured iv y).length = y.length + iv.length + 1 := by simp [obscured, Nat.add_assoc]
    have hlast : (obscured iv y).getLast? = some (.ofNat iv.length) := by simp [obscured]
    unfold unobscure
    rw [hlast]
    simp only
    rw [if_neg (by rw [hb]; omega), if_neg (by rw [hb, hlen]; omega), hb, hlen,
      show y.length + iv.length + 1 - 1 - iv.length = (mask (ivPad iv) y).length by rw [mask_length]; omega]
    unfold obscured
    rw [List.append_assoc, List.drop_left, List.take_left, List.take_left, mask_mask]

def keyLayer (ctx : CookCtx) : Layer Int Unit Bytes := .involution (mask ctx.pad) (mask_mask ctx.pad)

def obscureLayer (h : ctx.Ready site) : Layer Int ctx.Iv Bytes where
  wrap iv := obscured iv.1
  unwrap := unobscure ctx
  exact := unobscure_exact h.ivMax

def crcLayer : Layer Int Unit Bytes := .trailer crcBytes 4 (fun _ => slice_length _ _ _) (-2)

/-- An IV of the least length. -/
theorem CookCtx.Ready.nonempty (h : ctx.Ready site) : Nonempty ctx.Iv :=
  ⟨⟨List.replicate ctx.ivMin 0, by rw [List.length_replicate]; exact ⟨Nat.le_refl _, h.ivLe⟩⟩⟩

/-- The three of them, each unless it is disabled. -/
def cookLayer (h : ctx.Ready site) : Layer Int (Unit × ctx.Iv × Unit) Bytes :=
  have := h.nonempty
  .comp (.disabled ctx.disableXor (keyLayer ctx))
    (.comp (.disabled ctx.disableObscure (obscureLayer h)) (.disabled ctx.disableChecksum crcLayer))

end Layers

/-! ## Drawing an IV -/

/-- Byte `j` of the numbers from here on. -/
def drawnByte (d : Draws) (j : Nat) : Byte := byteOf (d (j / 8)) (j % 8)

theorem getFakeRandomChars_eq (mem : Nat → Byte) (off len : Nat) (d : Draws) :
    (getFakeRandomChars mem off len d).1 = copyTo mem off (drawnByte d) len := by
  have hword : ∀ m, ∀ j < 8, byteOf (d m) j = drawnByte d (m * 8 + j) := by
    intro m j hj
    unfold drawnByte
    rw [show (m * 8 + j) / 8 = m by omega, show (m * 8 + j) % 8 = j by omega]
  have hloop := @loop_inv ((Nat → Byte) × Draws) (fun m s => s.1 = copyTo mem off (drawnByte d) (m * 8) ∧ s.2 = fun i => d (i + m))
    (fun m s => (copyTo s.1 (off + m * 8) (byteOf (s.2 0)) 8, s.2.tail)) (mem, d) ⟨by funext j; simp [copyTo], rfl⟩ (len / 8)
    fun m _ s hs => by
      obtain ⟨h1, h2⟩ := hs
      refine ⟨?_, ?_⟩
      · simp only [h1, h2, Nat.zero_add]
        rw [copyTo_congr _ (hword m), copyTo_add, Nat.add_mul, Nat.one_mul]
      · rw [h2]
        funext i
        show d (i + 1 + m) = d (i + (m + 1))
        rw [Nat.add_right_comm, Nat.add_assoc]
  unfold getFakeRandomChars
  generalize loop (len / 8) _ (mem, d) = r at hloop ⊢
  obtain ⟨mem', d'⟩ := r
  obtain ⟨h1, h2⟩ := hloop
  simp only at h1 h2 ⊢
  split
  · simp only [h1, h2, Nat.zero_add]
    rw [copyTo_congr _ fun j hj => hword (len / 8) j (by omega), copyTo_add, show len / 8 * 8 + len % 8 = len by omega]
  · simp only
    rw [h1, show len / 8 * 8 = len by omega]

/-- The IV that `do_obscure` makes of the numbers. -/
def drawnIv (ctx : CookCtx) (d : Draws) : Bytes :=
  if ctx.ivMin = ctx.ivMax then slice (drawnByte d) 0 ctx.ivMin
  else slice (drawnByte d.tail) 0 (ctx.ivMin + ((d 0).setWidth 32).toNat % (ctx.ivMax + 1 - ctx.ivMin))

theorem drawnIv_range {ctx : CookCtx} (h : ctx.ivMin ≤ ctx.ivMax) (d : Draws) :
    ctx.ivMin ≤ (drawnIv ctx d).length ∧ (drawnIv ctx d).length ≤ ctx.ivMax := by
  unfold drawnIv
  split
  · rw [slice_length]
    omega
  · rw [slice_length]
    have := Nat.mod_lt ((d 0).setWidth 32).toNat (show 0 < ctx.ivMax + 1 - ctx.ivMin by omega)
    omega

theorem randomBetween_ok {ctx : CookCtx} (h : ctx.ivMin ≤ ctx.ivMax) (d : Draws) :
    ∃ d', randomBetween ctx.ivMin ctx.ivMax d = .ok ((drawnIv ctx d).length, d') ∧
      drawnIv ctx d = slice (drawnByte d') 0 (drawnIv ctx d).length := by
  unfold randomBetween drawnIv
  rw [check_true h, ok_bind]
  split
  · exact ⟨d, by rw [slice_length], by rw [slice_length]⟩
  · exact ⟨d.tail, by rw [slice_length], by rw [slice_length]⟩

/-- Eight bytes as a number in memory. -/
def wordOf (f : Nat → Byte) : BitVec 64 :=
  .ofNat 64 ((f 0).toNat + 256 * ((f 1).toNat + 256 * ((f 2).toNat + 256 * ((f 3).toNat + 256 * ((f 4).toNat + 256 * ((f 5).toNat +
    256 * ((f 6).toNat + 256 * (f 7).toNat)))))))

theorem byteOf_wordOf (f : Nat → Byte) {j : Nat} (hj : j < 8) : byteOf (wordOf f) j = f j := by
  have h0 := (f 0).toNat_lt
  have h1 := (f 1).toNat_lt
  have h2 := (f 2).toNat_lt
  have h3 := (f 3).toNat_lt
  have h4 := (f 4).toNat_lt
  have h5 := (f 5).toNat_lt
  have h6 := (f 6).toNat_lt
  have h7 := (f 7).toNat_lt
  unfold byteOf wordOf
  rw [← Byte.toNat_inj, Byte.toNat_ofNat, BitVec.toNat_ofNat]
  interval_cases j <;> omega

/-- Every IV is drawn under some numbers. -/
theorem exists_draws {ctx : CookCtx} (h : ctx.ivMax ≤ 32) (iv : ctx.Iv) : ∃ d, drawnIv ctx d = iv.1 := by
  obtain ⟨iv, hmin, hmax⟩ := iv
  simp only
  let words : Draws := fun m => wordOf fun j => iv.getD (m * 8 + j) 0
  have hslice : slice (drawnByte words) 0 iv.length = iv := by
    refine List.ext_getElem (slice_length _ _ _) fun j h1 h2 => ?_
    rw [slice_getElem, Nat.zero_add]
    unfold drawnByte
    rw [byteOf_wordOf _ (Nat.mod_lt _ (by decide)), show j / 8 * 8 + j % 8 = j by omega]
    simp [h2]
  by_cases he : ctx.ivMin = ctx.ivMax
  · refine ⟨words, ?_⟩
    unfold drawnIv
    rw [if_pos he, show ctx.ivMin = iv.length by omega, hslice]
  · refine ⟨fun i => if i = 0 then .ofNat 64 (iv.length - ctx.ivMin) else words (i - 1), ?_⟩
    unfold drawnIv
    rw [if_neg he]
    have hn : ctx.ivMin + ((BitVec.ofNat 64 (iv.length - ctx.ivMin)).setWidth 32).toNat % (ctx.ivMax + 1 - ctx.ivMin) = iv.length := by
      rw [BitVec.toNat_setWidth, BitVec.toNat_ofNat, Nat.mod_eq_of_lt (by omega), Nat.mod_eq_of_lt (by omega),
        Nat.mod_eq_of_lt (by omega)]
      omega
    show slice (drawnByte words) 0 (ctx.ivMin + ((BitVec.ofNat 64 (iv.length - ctx.ivMin)).setWidth 32).toNat % _) = iv
    rw [hn, hslice]

/-! ## `do_cook` wraps -/

/-- A pattern in memory, over and over. -/
theorem ivPad_slice (f : Nat → Byte) (off : Nat) {k : Nat} (hk : 0 < k) : (fun j => f (off + j % k)) = ivPad (slice f off k) := by
  funext j
  have hj := Nat.mod_lt j hk
  unfold ivPad
  rw [slice_length, List.getD_eq_getElem _ _ (by rw [slice_length]; exact hj), slice_getElem]

theorem Buffer.Holds.congr {b b' : Buffer} {p : Bytes} (h : b.Holds p) (hmem : ∀ j < p.length, b'.mem j = b.mem j) : b'.Holds p := by
  unfold Buffer.Holds at *
  conv_rhs => rw [← h]
  exact slice_congr fun j hj => by rw [Nat.zero_add, hmem j hj]

theorem Buffer.Holds.unique {b : Buffer} {p q : Bytes} (hp : b.Holds p) (hq : b.Holds q) (hlen : p.length = q.length) : p = q := by
  unfold Buffer.Holds at *
  rw [← hp, ← hq, hlen]

section Simulate

variable {site : Site} {ctx : CookCtx} {data : Buffer} {p : Bytes} {d : Draws}

/-- The key is masked with, unless an SPE is to turn round a tile too long for that. -/
theorem encrypt0_eq (htile : ctx.keyTileLen = 0 ∨ (site.build.width ∣ ctx.keyTileLen ∧ ctx.keyTileLen ≤ keyTileSize)) {len : Nat}
    (hlen : len ≤ data.size) : (site.Takes len ctx.keyTileLen → encrypt0 site ctx data len = .ok (data.masked len ctx.pad)) ∧
      (¬ site.Takes len ctx.keyTileLen → encrypt0 site ctx data len = .error (.assert "tile_len <= 512")) := by
  unfold encrypt0
  split
  · rename_i hzero
    have hpad : ctx.pad = fun _ => 0 := by
      funext j
      simp [CookCtx.pad, hzero]
    rw [hpad]
    refine ⟨fun _ => by simp [Buffer.masked], fun hno => absurd (site.takes_short ?_) hno⟩
    omega
  · rename_i hne
    obtain ⟨hdvd, hsize⟩ := htile.resolve_left hne
    have hpad : ctx.pad = fun j => ctx.keyTile (j % ctx.keyTileLen) := by
      funext j
      simp [CookCtx.pad, hne]
    rw [hpad]
    exact site.xorTile_eq hdvd (Nat.pos_of_ne_zero hne) hsize hlen

theorem masked_holds (hp : data.Holds p) (pad : Nat → Byte) : (data.masked p.length pad).Holds (mask pad p) := by
  unfold Buffer.Holds at *
  rw [mask_length, masked_slice, hp]

/-- What stands behind the first bytes. -/
theorem holds_append {q : Bytes} (hp : data.Holds p) (hq : slice data.mem p.length q.length = q) : data.Holds (p ++ q) := by
  unfold Buffer.Holds at *
  rw [List.length_append, slice_add, hp, Nat.zero_add, hq]

/-- The packet and its checksum, if there is one. -/
def checked (ctx : CookCtx) (p : Bytes) : Bytes := if ctx.disableChecksum then p else p ++ crcBytes p

theorem checked_length (ctx : CookCtx) (p : Bytes) : p.length ≤ (checked ctx p).length ∧ (checked ctx p).length ≤ p.length + 4 := by
  unfold checked
  split
  · omega
  · rw [List.length_append, show (crcBytes p).length = 4 from slice_length _ _ _]
    omega

theorem putCrc32_ok (hp : data.Holds p) (hroom : p.length + 4 ≤ data.size) :
    ∃ data', putCrc32 ctx data p.length = .ok (data', (checked ctx p).length) ∧ data'.Holds (checked ctx p) ∧ data'.size = data.size := by
  have hlen : (crcBytes p).length = 4 := slice_length _ _ _
  unfold putCrc32 checked
  split
  · exact ⟨data, rfl, hp, rfl⟩
  · rw [within_zero (by omega), ok_bind, within_ok hroom, ok_bind, List.length_append, hlen]
    refine ⟨_, rfl, holds_append ?_ ?_, rfl⟩
    · exact hp.congr fun j hj => writeU32_out _ (.inl hj)
    · rw [hlen, show slice data.mem 0 p.length = p from hp]
      exact slice_congr fun j hj => writeU32_in _ _ _ _ _ hj

theorem doObscure_ok (h : ctx.Ready site) (hp : data.Holds p) (hshort : p.length < 3800)
    (hroom : p.length + (drawnIv ctx d).length + 1 ≤ data.size) :
    ∃ data' d', doObscure site ctx data p.length d = .ok (data', (obscured (drawnIv ctx d) p).length, d') ∧
      data'.Holds (obscured (drawnIv ctx d) p) ∧ data'.size = data.size := by
  obtain ⟨hmin, hmax⟩ := drawnIv_range h.ivLe d
  obtain ⟨d1, hdraw, hbytes⟩ := randomBetween_ok h.ivLe d
  have := h.ivMin
  have := h.ivMax
  unfold doObscure
  rw [check_true hshort, ok_bind, hdraw, ok_bind]
  simp only
  generalize drawnIv ctx d = iv at hmin hmax hbytes hroom
  rw [within_ok (by omega), ok_bind, getFakeRandomChars_eq]
  -- the packet, the IV and its length, before the packet is masked
  generalize hmem : upd (copyTo data.mem p.length (drawnByte d1) iv.length) (iv.length + p.length) (.ofNat iv.length) = mem
  have hbefore : ∀ j < p.length, mem j = data.mem j := by
    intro j hj
    rw [← hmem, upd_ne _ _ (by omega), copyTo_out _ _ (.inl hj)]
  have hiv : slice mem p.length iv.length = iv := by
    conv_rhs => rw [hbytes]
    refine slice_congr fun j hj => ?_
    rw [← hmem, upd_ne _ _ (by omega), copyTo_in _ _ hj, Nat.zero_add]
  have hlast : mem (p.length + iv.length) = .ofNat iv.length := by rw [← hmem, Nat.add_comm, upd_same]
  rw [xorWithPattern_ok site (by simp only; omega) (by simp only; omega) (by omega) (by omega), ok_bind]
  simp only
  rw [ivPad_slice mem p.length (by omega), hiv]
  have hlen : (obscured iv p).length = p.length + iv.length + 1 := by simp [obscured, Nat.add_assoc]
  rw [hlen]
  refine ⟨_, _, rfl, ?_, rfl⟩
  have hpacket : Buffer.Holds { data with mem := mem } p := hp.congr hbefore
  refine holds_append (holds_append (masked_holds hpacket _) ?_) ?_
  · rw [mask_length]
    conv_rhs => rw [← hiv]
    exact slice_congr fun j hj => by simp [Buffer.masked]
  · rw [List.length_append, mask_length]
    have : ¬ p.length + iv.length < p.length := by omega
    simp [slice, Buffer.masked, hlast, this]

/-- The IV and the length behind them, if they are obscured. -/
def hidden (ctx : CookCtx) (iv p : Bytes) : Bytes := if ctx.disableObscure then p else obscured iv p

theorem hidden_length (ctx : CookCtx) (iv p : Bytes) : p.length ≤ (hidden ctx iv p).length := by
  unfold hidden
  split
  · exact Nat.le_refl _
  · simp [obscured]

theorem cookLayer_wrap (h : ctx.Ready site) (i : Unit × ctx.Iv × Unit) (p : Bytes) : (cookLayer h).wrap i p =
    if ctx.disableXor then hidden ctx i.2.1.1 (checked ctx p) else mask ctx.pad (hidden ctx i.2.1.1 (checked ctx p)) := by
  simp [cookLayer, Layer.comp, keyLayer, Layer.involution, obscureLayer, crcLayer, Layer.trailer, hidden, checked]

theorem le_cookLayer_wrap (h : ctx.Ready site) (i : Unit × ctx.Iv × Unit) (p : Bytes) : p.length ≤ ((cookLayer h).wrap i p).length := by
  have h1 := (checked_length ctx p).1
  have h2 := hidden_length ctx i.2.1.1 (checked ctx p)
  rw [cookLayer_wrap]
  split
  · omega
  · rw [mask_length]
    omega

/-- The key is over a packet of this length without an assertion that fails, or there is none. -/
def Site.Encrypts (site : Site) (ctx : CookCtx) (len : Nat) : Prop := ctx.disableXor = true ∨ site.Takes len ctx.keyTileLen

theorem Site.encrypts_simd (simd : Simd) (ctx : CookCtx) (len : Nat) : Site.Encrypts simd ctx len := .inr trivial

/-- The length of a cooked packet. -/
def CookCtx.cookedLength (ctx : CookCtx) (d : Draws) (len : Nat) : Nat :=
  len + (if ctx.disableChecksum then 0 else 4) + if ctx.disableObscure then 0 else (drawnIv ctx d).length + 1

theorem cookedLength_eq (ctx : CookCtx) (d : Draws) (p : Bytes) :
    (hidden ctx (drawnIv ctx d) (checked ctx p)).length = ctx.cookedLength d p.length := by
  unfold hidden checked CookCtx.cookedLength
  split <;> split <;> simp [obscured, show (crcBytes p).length = 4 from slice_length _ _ _, Nat.add_assoc]

/-- `do_cook` up to the key. -/
theorem doCook_eq (h : ctx.Ready site) (hp : data.Holds p) (hshort : p.length + 4 < 3800) (hroom : p.length + 37 ≤ data.size) (d : Draws) :
    ∃ data' d', data'.Holds (hidden ctx (drawnIv ctx d) (checked ctx p)) ∧ ctx.cookedLength d p.length ≤ data'.size ∧
      doCook site ctx data p.length d = enabled ctx.disableXor data' (encrypt0 site ctx data' (ctx.cookedLength d p.length)) >>=
        fun data => .ok (data, ctx.cookedLength d p.length, d') := by
  obtain ⟨data1, hput, hp1, hsize1⟩ := @putCrc32_ok ctx data p hp (by omega)
  have hlen1 := (checked_length ctx p).2
  have hhide : ∃ data2 d2, enabled ctx.disableObscure (data1, (checked ctx p).length, d)
        (doObscure site ctx data1 (checked ctx p).length d) = .ok (data2, (hidden ctx (drawnIv ctx d) (checked ctx p)).length, d2) ∧
      data2.Holds (hidden ctx (drawnIv ctx d) (checked ctx p)) ∧ (hidden ctx (drawnIv ctx d) (checked ctx p)).length ≤ data2.size := by
    unfold hidden enabled
    split
    · exact ⟨data1, d, rfl, hp1, by omega⟩
    · have := (drawnIv_range h.ivLe d).2
      have := h.ivMax
      obtain ⟨data2, d2, hob, hp2, hsize2⟩ := @doObscure_ok site ctx data1 _ d h hp1 (by omega) (by omega)
      refine ⟨data2, d2, hob, hp2, ?_⟩
      simp only [obscured, List.length_append, mask_length, List.length_singleton]
      omega
  obtain ⟨data2, d2, hhide, hp2, hsize2⟩ := hhide
  rw [cookedLength_eq] at hhide hsize2
  refine ⟨data2, d2, hp2, hsize2, ?_⟩
  unfold doCook
  simp only [hput, ok_bind, hhide]

/-- `do_cook` makes of a packet what the layers do, under the IV drawn. -/
theorem doCook_ok (h : ctx.Ready site) (hp : data.Holds p) (hshort : p.length + 4 < 3800) (hroom : p.length + 37 ≤ data.size) (d : Draws)
    (hkey : site.Encrypts ctx (ctx.cookedLength d p.length)) : ∃ data' d', doCook site ctx data p.length d =
        .ok (data', ((cookLayer h).wrap ((), ⟨drawnIv ctx d, drawnIv_range h.ivLe d⟩, ()) p).length, d') ∧
      data'.Holds ((cookLayer h).wrap ((), ⟨drawnIv ctx d, drawnIv_range h.ivLe d⟩, ()) p) ∧
      ((cookLayer h).wrap ((), ⟨drawnIv ctx d, drawnIv_range h.ivLe d⟩, ()) p).length ≤ data'.size := by
  obtain ⟨data2, d2, hp2, hsize2, hrun⟩ := doCook_eq h hp hshort hroom d
  rw [hrun, cookLayer_wrap]
  simp only
  rw [← cookedLength_eq] at hkey hsize2 ⊢
  generalize hidden ctx (drawnIv ctx d) (checked ctx p) = q at hkey hp2 hsize2
  unfold enabled
  split
  · exact ⟨data2, d2, rfl, hp2, hsize2⟩
  · rename_i hon
    rw [(encrypt0_eq h.tile hsize2).1 (hkey.resolve_left hon), ok_bind, mask_length]
    exact ⟨_, d2, rfl, masked_holds hp2 _, hsize2⟩

/-- It stops at the assertion otherwise. -/
theorem doCook_asserts (h : ctx.Ready site) (hp : data.Holds p) (hshort : p.length + 4 < 3800) (hroom : p.length + 37 ≤ data.size) (d : Draws)
    (hkey : ¬ site.Encrypts ctx (ctx.cookedLength d p.length)) :
    doCook site ctx data p.length d = .error (.assert "tile_len <= 512") := by
  obtain ⟨data2, d2, hp2, hsize2, hrun⟩ := doCook_eq h hp hshort hroom d
  obtain ⟨hon, hno⟩ := not_or.mp hkey
  rw [hrun]
  unfold enabled
  rw [if_neg hon, (encrypt0_eq h.tile hsize2).2 hno]
  rfl

/-! ## `de_cook` unwraps -/

/-- What a step leaves of what its layer reads. -/
def Reads (y : Except Int Bytes) (size : Nat) (r : Int × Buffer × Int) : Prop :=
  match y with
  | .ok p => r.1 = 0 ∧ r.2.2 = p.length ∧ r.2.1.Holds p ∧ r.2.1.size = size ∧ p.length ≤ size
  | .error _ => r.1 ≠ 0

theorem slice_getLast (f : Nat → Byte) (n : Nat) : (slice f 0 (n + 1)).getLast? = some (f n) := by
  rw [slice_add]
  simp [slice]

theorem deObscure_ok (h : ctx.Ready site) {len : Nat} (hlen : len ≤ data.size) :
    ∃ r, deObscure site ctx data len = .ok r ∧ Reads (unobscure ctx (slice data.mem 0 len)) data.size r := by
  have h1 := h.ivMin
  have h32 := h.ivMax
  unfold deObscure unobscure
  cases len with
  | zero =>
    refine ⟨_, if_pos (by decide), ?_⟩
    simp [Reads]
  | succ n =>
    have hlast : ((n + 1 : Nat) : Int) - 1 = (n : Nat) := by omega
    rw [if_neg (by omega), slice_getLast, hlast, within_ok (show n + 1 ≤ data.size from hlen), ok_bind, slice_length]
    simp only [Int.toNat_natCast]
    generalize (data.mem n).toNat = k
    by_cases hrange : k < ctx.ivMin ∨ ctx.ivMax < k
    · rw [if_pos hrange, if_pos hrange]
      exact ⟨_, rfl, show (-1 : Int) ≠ 0 by decide⟩
    · rw [if_neg hrange, if_neg hrange]
      by_cases hshort : n + 1 < 1 + k
      · rw [if_pos (by omega), if_pos hshort]
        exact ⟨_, rfl, show (-1 : Int) ≠ 0 by decide⟩
      · obtain ⟨m, rfl⟩ : ∃ m, n = m + k := ⟨n - k, by omega⟩
        have hm : ((m + k : Nat) : Int) - (k : Nat) = (m : Nat) := by omega
        rw [if_neg (by omega), if_neg hshort, hm, Int.toNat_natCast,
          xorWithPattern_ok site (by omega) (by omega) (by omega) (by omega), ok_bind]
        have hbody : m + k + 1 - 1 - k = m := by omega
        refine ⟨_, rfl, rfl, ?_, ?_, rfl, ?_⟩
        · simp only [hbody, mask_length, List.length_take, slice_length]
          omega
        · rw [hbody, slice_take _ _ (by omega), slice_drop _ _ (by omega), slice_take _ _ (by omega), ivPad_slice _ _ (by omega)]
          refine slice_holds (masked_slice _ _ _ |>.trans ?_)
          simp only [Nat.zero_add]
        · rw [mask_length, List.length_take, slice_length]
          omega

theorem readU32_eq_iff (f : Nat → Byte) (off : Nat) (l : U32) :
    readU32 f off = l ↔ slice f off 4 = slice (writeU32 (fun _ => 0) 0 l) 0 4 := by
  constructor
  · rintro rfl
    have h0 := (f off).toNat_lt
    have h1 := (f (off + 1)).toNat_lt
    have h2 := (f (off + 2)).toNat_lt
    have h3 := (f (off + 3)).toNat_lt
    refine slice_congr fun i hi => ?_
    rw [← Byte.toNat_inj]
    interval_cases i <;> simp [readU32, writeU32] <;> omega
  · intro h
    have hbytes : ∀ i < 4, f (off + i) = writeU32 (fun _ => 0) 0 l (0 + i) := by
      intro i hi
      rw [← slice_getElem f off 4 i (by rw [slice_length]; exact hi),
        ← slice_getElem (writeU32 (fun _ => 0) 0 l) 0 4 i (by rw [slice_length]; exact hi)]
      exact getElem_congr_coll h
    rw [readU32_congr hbytes, readU32_writeU32]

theorem rmCrc32_ok {len : Nat} (hlen : len ≤ data.size) : ∃ r, rmCrc32 ctx data len = .ok r ∧
    Reads (if ctx.disableChecksum then .ok (slice data.mem 0 len) else crcLayer.unwrap (slice data.mem 0 len)) data.size r := by
  unfold rmCrc32
  split
  · exact ⟨_, rfl, rfl, by rw [slice_length], slice_holds rfl, rfl, by rw [slice_length]; exact hlen⟩
  · rw [check_true (by omega), ok_bind]
    simp only [crcLayer, Layer.trailer, slice_length]
    by_cases hshort : len < 4
    · rw [if_pos (by omega), if_pos hshort]
      exact ⟨_, rfl, show (-1 : Int) ≠ 0 by decide⟩
    · obtain ⟨n, rfl⟩ : ∃ n, len = n + 4 := ⟨len - 4, by omega⟩
      have hn : ((n + 4 : Nat) : Int) - 4 = (n : Nat) := by omega
      rw [if_neg (by omega), if_neg hshort, hn, Int.toNat_natCast, within_ok hlen, ok_bind, within_zero (by omega), ok_bind,
        Nat.add_sub_cancel, slice_take _ _ (by omega), slice_drop _ _ (by omega), Nat.zero_add, Nat.add_sub_cancel_left]
      have hiff : readU32 data.mem n = crc32c (slice data.mem 0 n) ↔ slice data.mem n 4 = crcBytes (slice data.mem 0 n) := readU32_eq_iff _ _ _
      by_cases hsame : readU32 data.mem n = crc32c (slice data.mem 0 n)
      · rw [if_neg (by simp [hsame]), if_neg (not_not.mpr (hiff.mp hsame))]
        exact ⟨_, rfl, rfl, by rw [slice_length], slice_holds rfl, rfl, by rw [slice_length]; omega⟩
      · rw [if_pos (Ne.symm hsame), if_pos fun h => hsame (hiff.mpr h)]
        exact ⟨_, rfl, show (-1 : Int) ≠ 0 by decide⟩

theorem unobscure_error {x : Bytes} {e : Int} (h : unobscure ctx x = .error e) : e = -1 := by
  unfold unobscure at h
  split at h
  · cases h
    rfl
  · split at h
    · cases h
      rfl
    · split at h
      · cases h
        rfl
      · cases h

theorem crcLayer_error {x : Bytes} {e : Int} (h : crcLayer.unwrap x = .error e) : e = -2 := by
  simp only [crcLayer, Layer.trailer] at h
  split at h
  · cases h
    rfl
  · split at h
    · cases h
      rfl
    · cases h

theorem cookLayer_unwrap (h : ctx.Ready site) (x : Bytes) : (cookLayer h).unwrap x =
    (if ctx.disableObscure then .ok (if ctx.disableXor then x else mask ctx.pad x)
      else unobscure ctx (if ctx.disableXor then x else mask ctx.pad x)).bind
        fun z => if ctx.disableChecksum then .ok z else crcLayer.unwrap z := by
  have hkey : (if ctx.disableXor then Except.ok x else (keyLayer ctx).unwrap x) =
      (Except.ok (if ctx.disableXor then x else mask ctx.pad x) : Except Int Bytes) := by
    split <;> rfl
  have hcrc : (Layer.disabled ctx.disableChecksum crcLayer).unwrap = fun z => if ctx.disableChecksum then .ok z else crcLayer.unwrap z :=
    funext fun z => Layer.disabled_unwrap _ _ z
  simp only [cookLayer, Layer.comp, Layer.disabled_unwrap, hkey, hcrc]
  rfl

/-- What `de_cook` answers for what the layers read. -/
def Answers (y : Except Int Bytes) (r : DeCookOut) : Prop :=
  match y with
  | .ok p => r.ret = 0 ∧ r.len = p.length ∧ r.data.Holds p
  | .error e => r.ret = e ∧ (e = -1 ∨ e = -2)

theorem deCookRest_ok (h : ctx.Ready site) {len : Nat} (hlen : len ≤ data.size) : ∃ r, deCookRest site ctx data len = .ok r ∧
    Answers ((if ctx.disableObscure then .ok (slice data.mem 0 len) else unobscure ctx (slice data.mem 0 len)).bind
      fun z => if ctx.disableChecksum then .ok z else crcLayer.unwrap z) r := by
  have hstep : ∃ r, enabled ctx.disableObscure (0, data, (len : Int)) (deObscure site ctx data len) = .ok r ∧
      Reads (if ctx.disableObscure then .ok (slice data.mem 0 len) else unobscure ctx (slice data.mem 0 len)) data.size r := by
    unfold enabled
    split
    · exact ⟨_, rfl, rfl, by rw [slice_length], slice_holds rfl, rfl, by rw [slice_length]; exact hlen⟩
    · exact deObscure_ok h hlen
  obtain ⟨⟨ret, data1, len1⟩, hstep, hreads⟩ := hstep
  unfold deCookRest
  rw [hstep, ok_bind]
  simp only
  cases hz : (if ctx.disableObscure then .ok (slice data.mem 0 len) else unobscure ctx (slice data.mem 0 len)) with
  | error e =>
    rw [hz] at hreads
    have he : e = -1 := by
      split at hz
      · cases hz
      · exact unobscure_error hz
    rw [if_pos (show ret ≠ 0 from hreads), he]
    exact ⟨_, rfl, rfl, .inl rfl⟩
  | ok z =>
    rw [hz] at hreads
    obtain ⟨hret, hlen1, hz1, hsize1, hzlen⟩ := hreads
    simp only at hret hlen1 hz1 hsize1
    obtain ⟨⟨ret2, data2, len2⟩, hcrc, hreads2⟩ := @rmCrc32_ok ctx data1 z.length (hsize1 ▸ hzlen)
    rw [if_neg (by simp [hret]), hlen1, hcrc, ok_bind]
    rw [show slice data1.mem 0 z.length = z from hz1] at hreads2
    simp only [Except.bind]
    cases hp : (if ctx.disableChecksum then Except.ok z else crcLayer.unwrap z) with
    | error e =>
      rw [hp] at hreads2
      have he : e = -2 := by
        split at hp
        · cases hp
        · exact crcLayer_error hp
      rw [if_pos (show ret2 ≠ 0 from hreads2), he]
      exact ⟨_, rfl, rfl, .inr rfl⟩
    | ok p =>
      rw [hp] at hreads2
      obtain ⟨hret2, hlen2, hp2, -⟩ := hreads2
      rw [if_neg (by simpa using hret2)]
      exact ⟨_, rfl, rfl, hlen2, hp2⟩

/-- The key over the first bytes, or nothing. -/
theorem keyStep_ok (htile : ctx.keyTileLen = 0 ∨ (site.build.width ∣ ctx.keyTileLen ∧ ctx.keyTileLen ≤ keyTileSize)) {len : Nat}
    (hlen : len ≤ data.size) (hkey : site.Encrypts ctx len) :
    ∃ data1, enabled ctx.disableXor data (encrypt0 site ctx data len) = .ok data1 ∧ data1.size = data.size ∧
      slice data1.mem 0 len = if ctx.disableXor then slice data.mem 0 len else mask ctx.pad (slice data.mem 0 len) := by
  unfold enabled
  split
  · exact ⟨data, rfl, rfl, rfl⟩
  · rename_i hon
    exact ⟨_, (encrypt0_eq htile hlen).1 (hkey.resolve_left hon), rfl, masked_slice _ _ _⟩

theorem keyStep_asserts (htile : ctx.keyTileLen = 0 ∨ (site.build.width ∣ ctx.keyTileLen ∧ ctx.keyTileLen ≤ keyTileSize)) {len : Nat}
    (hlen : len ≤ data.size) (hkey : ¬ site.Encrypts ctx len) :
    enabled ctx.disableXor data (encrypt0 site ctx data len) = .error (.assert "tile_len <= 512") := by
  obtain ⟨hon, hno⟩ := not_or.mp hkey
  unfold enabled
  rw [if_neg hon, (encrypt0_eq htile hlen).2 hno]

/-- `de_cook` answers for any bytes what the layers read, and reads no others. -/
theorem deCook_ok (h : ctx.Ready site) {len : Nat} (hlen : len ≤ data.size) (hkey : site.Encrypts ctx len) :
    ∃ r, deCook site ctx data len = .ok r ∧ Answers ((cookLayer h).unwrap (slice data.mem 0 len)) r := by
  obtain ⟨data1, hkey, hsize, hslice⟩ := keyStep_ok h.tile hlen hkey
  unfold deCook
  rw [hkey, ok_bind, cookLayer_unwrap, ← hslice]
  exact deCookRest_ok h (hsize ▸ hlen)

theorem deCook_asserts (htile : ctx.keyTileLen = 0 ∨ (site.build.width ∣ ctx.keyTileLen ∧ ctx.keyTileLen ≤ keyTileSize)) {len : Nat}
    (hlen : len ≤ data.size) (hkey : ¬ site.Encrypts ctx len) : deCook site ctx data len = .error (.assert "tile_len <= 512") := by
  unfold deCook
  rw [keyStep_asserts htile hlen hkey]
  rfl

end Simulate

/-! ## In place -/

section InPlace

variable {site : Site} {ctx : CookCtx} {data data' : Buffer} {len len' : Nat} {d d' : Draws}

/-- What `do_cook` lays over byte `j` of a packet: the IV it draws, and the key. -/
def CookCtx.cover (ctx : CookCtx) (d : Draws) (j : Nat) : Byte :=
  (if ctx.disableObscure then 0 else ivPad (drawnIv ctx d) j) ^^^ if ctx.disableXor then 0 else ctx.pad j

theorem Buffer.Holds.mem_eq {b : Buffer} {p : Bytes} (h : b.Holds p) {j : Nat} (hj : j < p.length) : b.mem j = p[j] := by
  have := List.getElem_of_eq h (show j < (slice b.mem 0 p.length).length by rw [slice_length]; exact hj)
  rw [slice_getElem, Nat.zero_add] at this
  exact this

theorem putCrc32_covers (hlen : len ≤ data.size) (hr : putCrc32 ctx data len = .ok (data', len')) :
    len ≤ len' ∧ len' ≤ data'.size ∧ ∀ j < len, data'.mem j = data.mem j := by
  unfold putCrc32 at hr
  split at hr
  · cases hr
    exact ⟨Nat.le_refl _, hlen, fun _ _ => rfl⟩
  · obtain ⟨-, -, hr⟩ := bind_ok.mp hr
    obtain ⟨u, hroom, hr⟩ := bind_ok.mp hr
    obtain ⟨-, hroom⟩ := check_ok.mp hroom
    cases hr
    exact ⟨by omega, by simp only; omega, fun j hj => writeU32_out _ (.inl hj)⟩

theorem doObscure_covers (h : ctx.Ready site) (hr : doObscure site ctx data len d = .ok (data', len', d')) :
    len ≤ len' ∧ len' ≤ data'.size ∧ ∀ j < len, data'.mem j = data.mem j ^^^ ivPad (drawnIv ctx d) j := by
  have hroom : len < 3800 ∧ len + (drawnIv ctx d).length + 1 ≤ data.size := by
    obtain ⟨d1, hdraw, -⟩ := randomBetween_ok h.ivLe d
    unfold doObscure at hr
    rw [check_bind] at hr
    obtain ⟨hshort, hr⟩ := hr
    rw [hdraw, ok_bind] at hr
    obtain ⟨u, hroom, hr⟩ := bind_ok.mp hr
    obtain ⟨-, hroom⟩ := check_ok.mp hroom
    exact ⟨hshort, by omega⟩
  have hp : data.Holds (slice data.mem 0 len) := slice_holds rfl
  have hlen : (slice data.mem 0 len).length = len := slice_length _ _ _
  obtain ⟨data1, d1, hob, hholds, hsize⟩ := @doObscure_ok site ctx data _ d h hp (by omega) (by omega)
  rw [hlen, hr] at hob
  cases hob
  have hobs : (obscured (drawnIv ctx d) (slice data.mem 0 len)).length = len + (drawnIv ctx d).length + 1 := by
    simp [obscured, Nat.add_assoc]
  refine ⟨by omega, by omega, fun j hj => ?_⟩
  rw [hholds.mem_eq (show j < _ by omega)]
  simp [obscured, mask, slice_getElem, hj]

/-- The packet itself is covered where it lies, whatever is put behind it. -/
theorem doCook_covers (h : ctx.Ready site) (hlen : len ≤ data.size) (hr : doCook site ctx data len d = .ok (data', len', d')) :
    ∀ j < len, data'.mem j = data.mem j ^^^ ctx.cover d j := by
  unfold doCook at hr
  obtain ⟨⟨data1, len1⟩, hput, hr⟩ := bind_ok.mp hr
  obtain ⟨⟨data2, len2, d2⟩, hob, hr⟩ := bind_ok.mp hr
  obtain ⟨data3, hkey, hr⟩ := bind_ok.mp hr
  cases hr
  obtain ⟨hle, hroom1, hsame⟩ := putCrc32_covers hlen hput
  have hhide : len1 ≤ len' ∧ len' ≤ data2.size ∧ ∀ j < len1,
      data2.mem j = data1.mem j ^^^ if ctx.disableObscure then 0 else ivPad (drawnIv ctx d) j := by
    unfold enabled at hob
    split at hob
    · rename_i hoff
      cases hob
      exact ⟨Nat.le_refl _, hroom1, fun j _ => by rw [if_pos hoff, Byte.xor_zero]⟩
    · rename_i hon
      obtain ⟨hle2, hroom2, hcover⟩ := doObscure_covers h hob
      exact ⟨hle2, hroom2, fun j hj => by rw [if_neg hon, hcover j hj]⟩
  obtain ⟨hle2, hroom2, hcover⟩ := hhide
  intro j hj
  unfold CookCtx.cover
  rw [← Byte.xor_assoc, ← hsame j hj, ← hcover j (by omega)]
  unfold enabled at hkey
  split at hkey
  · rename_i hoff
    cases hkey
    rw [if_pos hoff, Byte.xor_zero]
  · rename_i hon
    have htakes : site.Takes len' ctx.keyTileLen := by
      by_contra hno
      rw [(encrypt0_eq h.tile hroom2).2 hno] at hkey
      cases hkey
    rw [(encrypt0_eq h.tile hroom2).1 htakes] at hkey
    cases hkey
    rw [if_neg hon]
    simp only [Buffer.masked, if_pos (show j < len' by omega)]

end InPlace

/-! ## The whole of it -/

theorem strlen_ok {key : Nat → Byte} {n : Nat} (hn : n ≤ 999) (hkey : ∀ i < n, key i ≠ 0) (hend : key n = 0) : strlen key = .ok n := by
  have hfind : (List.range 1000).find? (fun i => decide (key i = 0)) = some n := by
    rw [List.find?_range_eq_some]
    exact ⟨by simpa using hend, List.mem_range.mpr (by omega), fun j hj => by simpa using hkey j hj⟩
  unfold strlen
  rw [hfind]

/-- With a key there is a tile of it, on any build. -/
theorem prepareKey_tile (build : Build) (ctx : CookCtx) {n : Nat} (hpos : 0 < n) (hn : n ≤ 999) (hkey : ∀ i < n, ctx.key i ≠ 0)
    (hend : ctx.key n = 0) : ∃ tile, (∀ j < cookLcm n build.width, tile j = ctx.key (j % n)) ∧
      ctx.prepareKey build = .ok { ctx with keyLen := n, keyTileLen := cookLcm n build.width, keyTile := tile } := by
  obtain ⟨-, -, -, hsize⟩ := cookLcm_tile build hpos
  have hw := build.width_le
  unfold CookCtx.prepareKey
  rw [strlen_ok hn hkey hend, ok_bind, if_neg hpos.ne']
  simp only
  rw [check_true (by unfold keyTileSize; omega), ok_bind]
  exact ⟨_, fun j hj => by rw [copyTo_out _ _ (.inl hj), expandTile_repeats hpos _ hj], rfl⟩

/-- A prepared context pads with the key over and over. -/
theorem prepareKey_ok (build : Build) (ctx : CookCtx) {n : Nat} (hn : n ≤ 999) (hkey : ∀ i < n, ctx.key i ≠ 0) (hend : ctx.key n = 0)
    (hmin : 1 ≤ ctx.ivMin) (hle : ctx.ivMin ≤ ctx.ivMax) (hmax : ctx.ivMax ≤ 32) :
    ∃ ctx', ctx.prepareKey build = .ok ctx' ∧ (∀ addr, ctx'.Ready (build.on addr)) ∧ ctx'.keyTileLen = cookLcm n build.width ∧
      ∀ j, ctx'.pad j = if n = 0 then 0 else ctx.key (j % n) := by
  rcases Nat.eq_zero_or_pos n with hzero | hkeyed
  · unfold CookCtx.prepareKey
    rw [strlen_ok hn hkey hend, ok_bind, if_pos hzero]
    exact ⟨_, rfl, fun _ => ⟨hmin, hle, hmax, .inl rfl⟩, by simp [cookLcm, hzero], fun j => by simp [CookCtx.pad, hzero]⟩
  · obtain ⟨hdvd, hwidth, hpos, hsize⟩ := cookLcm_tile build hkeyed
    obtain ⟨tile, htile, hprep⟩ := prepareKey_tile build ctx hkeyed hn hkey hend
    refine ⟨_, hprep, fun addr => ⟨hmin, hle, hmax, .inr ?_⟩, rfl, fun j => ?_⟩
    · rw [build.on_build]
      exact ⟨hwidth, by simp only [keyTileSize]; omega⟩
    unfold CookCtx.pad
    simp only
    rw [if_neg (by omega), if_neg hkeyed.ne', htile _ (Nat.mod_lt j hpos), Nat.mod_mod_of_dvd _ hdvd]

/-- Preparing the key only writes what is made of the key. -/
theorem prepareKey_same {build : Build} {ctx ctx' : CookCtx} (h : ctx.prepareKey build = .ok ctx') :
    ctx' = { ctx with keyLen := ctx'.keyLen, keyTileLen := ctx'.keyTileLen, keyTile := ctx'.keyTile } := by
  unfold CookCtx.prepareKey at h
  obtain ⟨n, -, h⟩ := bind_ok.mp h
  split at h
  · cases h
    rfl
  · simp only at h
    obtain ⟨-, -, h⟩ := bind_ok.mp h
    cases h
    rfl

/-- A cooked packet is no shorter, and as long only if nothing is put behind it. -/
theorem doCook_grows {site : Site} {ctx : CookCtx} {data data' : Buffer} {len len' : Nat} {d d' : Draws}
    (h : doCook site ctx data len d = .ok (data', len', d')) : len ≤ len' ∧ (len' = len → ctx.disableChecksum ∧ ctx.disableObscure) := by
  unfold doCook at h
  obtain ⟨⟨data1, len1⟩, hput, h⟩ := bind_ok.mp h
  obtain ⟨⟨data2, len2, d2⟩, hob, h⟩ := bind_ok.mp h
  obtain ⟨data3, -, h⟩ := bind_ok.mp h
  cases h
  have h1 : len ≤ len1 ∧ (len1 = len → ctx.disableChecksum) := by
    unfold putCrc32 at hput
    split at hput
    · cases hput
      exact ⟨Nat.le_refl _, fun _ => by assumption⟩
    · obtain ⟨-, -, hput⟩ := bind_ok.mp hput
      obtain ⟨-, -, hput⟩ := bind_ok.mp hput
      cases hput
      exact ⟨by omega, fun _ => by omega⟩
  have h2 : len1 ≤ len' ∧ (len' = len1 → ctx.disableObscure) := by
    unfold enabled at hob
    split at hob
    · cases hob
      exact ⟨Nat.le_refl _, fun _ => by assumption⟩
    · unfold doObscure at hob
      obtain ⟨-, -, hob⟩ := bind_ok.mp hob
      obtain ⟨⟨ivLen, d1⟩, -, hob⟩ := bind_ok.mp hob
      obtain ⟨-, -, hob⟩ := bind_ok.mp hob
      obtain ⟨data4, -, hob⟩ := bind_ok.mp hob
      cases hob
      exact ⟨by omega, fun _ => by omega⟩
  exact ⟨h1.1.trans h2.1, fun heq => ⟨h1.2 (by omega), h2.2 (by omega)⟩⟩

/-- With nothing to put behind a packet there is only the key. -/
theorem doCook_key {site : Site} {ctx : CookCtx} (h : ctx.Ready site) (hcrc : ctx.disableChecksum) (hob : ctx.disableObscure)
    {data : Buffer} {len : Nat} (hlen : len ≤ data.size) (d : Draws) (hkey : site.Encrypts ctx len) :
    doCook site ctx data len d = .ok (if ctx.disableXor then data else data.masked len ctx.pad, len, d) := by
  unfold doCook putCrc32 enabled
  simp only [hcrc, hob, if_true, ok_bind]
  split
  · rfl
  · rename_i hon
    rw [(encrypt0_eq h.tile hlen).1 (hkey.resolve_left hon)]
    rfl

/-- The bytes alone, with room for nothing else. -/
def Buffer.ofBytes (x : Bytes) : Buffer := ⟨UdpSpeeder.mem x, x.length⟩

/-- The default lengths and a key of three bytes. -/
def ctxAbc : CookCtx := { (default : CookCtx) with key := UdpSpeeder.mem [.ofNat 0x61, .ofNat 0x62, .ofNat 0x63], ivMin := 4, ivMax := 32 }

end UdpSpeeder.Cook
