/-
  UdpSpeeder.Cook.Ports — the codec on every build, the SPE of a PowerPC included.

  A key may need a tile of nearly 8000 bytes, and an SPE can turn round 512. `encrypt_0` so
  fails an assertion for some keys, addresses and lengths (`Build.Encrypts`), and then
  neither `do_cook` nor `de_cook` returns. Short of that the SPE encrypts
  (`Spe.encrypt0_exact`), the codec reads back what it made and nothing else
  (`cook_exact`), and a short change is refused (`short_change_refused`).
-/

import UdpSpeeder.Cook.Detect

namespace UdpSpeeder.Cook

open Lib

/-- `encrypt_0` returns: another build, no key, aligned data, less than a vector of it behind
    the head, or a tile that can be turned round. -/
def Build.Encrypts (build : Build) (ctx : CookCtx) (keyLen addr len : Nat) : Prop :=
  build = .spe → ctx.disableXor = true ∨ Spe.headLen addr = 0 ∨ len < Spe.headLen addr + 8 ∨ cookLcm keyLen 8 ≤ 512

instance (build : Build) (ctx : CookCtx) (keyLen addr len : Nat) : Decidable (build.Encrypts ctx keyLen addr len) :=
  inferInstanceAs (Decidable (_ → _))

/-- What is prepared of the key is its tile. -/
theorem encrypts_iff {build : Build} {ctx0 ctx : CookCtx} {n : Nat} (hprep : ctx0.prepareKey build = .ok ctx)
    (htile : ctx.keyTileLen = cookLcm n build.width) (addr len : Nat) :
    (build.on addr).Encrypts ctx len ↔ build.Encrypts ctx0 n addr len := by
  have hxor : ctx.disableXor = ctx0.disableXor := by rw [prepareKey_same hprep]
  unfold Site.Encrypts Build.Encrypts
  rw [hxor, htile]
  cases build with
  | simd s => exact ⟨fun _ h => (by cases h), fun _ => .inr trivial⟩
  | spe =>
    simp only [Build.on, Build.width, Site.Takes, Spe.Turned, forall_const]
    refine or_congr_right ⟨fun h => ?_, fun h hturned => ?_⟩
    · by_cases hturned : Spe.headLen addr ≠ 0 ∧ Spe.headLen addr + 8 ≤ len
      · exact .inr (.inr (h hturned))
      · omega
    · omega

theorem cookedLength_prepared {build : Build} {ctx0 ctx : CookCtx} (hprep : ctx0.prepareKey build = .ok ctx) (d : Draws) (len : Nat) :
    ctx.cookedLength d len = ctx0.cookedLength d len := by
  rw [prepareKey_same hprep]
  rfl

/-! ## `encrypt_0` on an SPE -/

namespace Spe

def prepareKey (ctx : CookCtx) : Except Fault CookCtx := ctx.prepareKey .spe

def encrypt0 (ctx : CookCtx) (addr : Nat) (data : Buffer) (len : Nat) : Except Fault Buffer := Cook.encrypt0 (.spe addr) ctx data len

/-- For every key, address and length: with the SPE the packet is encrypted, unless the tile
    is to be turned round and does not fit, when the assertion fails. -/
theorem encrypt0_exact (ctx0 : CookCtx) (n : Nat) (hpos : 0 < n) (hn : n ≤ 999) (hkey : ∀ i < n, ctx0.key i ≠ 0) (hend : ctx0.key n = 0) :
    ∃ ctx, prepareKey ctx0 = .ok ctx ∧ ∀ (addr : Nat) (data : Buffer) (len : Nat), len ≤ data.size →
      (encrypt0 ctx addr data len = .ok (data.masked len fun i => ctx0.key (i % n)) ↔
        headLen addr = 0 ∨ len < headLen addr + 8 ∨ cookLcm n 8 ≤ 512) := by
  obtain ⟨hdvd, hwidth, hlcm, hsize⟩ := cookLcm_tile .spe hpos
  obtain ⟨tile, htile, hprep⟩ := prepareKey_tile .spe ctx0 hpos hn hkey hend
  have hw : Build.width .spe = 8 := rfl
  rw [hw] at hdvd hwidth hlcm hsize htile hprep
  refine ⟨_, hprep, fun addr data len hlen => ?_⟩
  have hmask : (data.masked len fun j => tile (j % cookLcm n 8)) = data.masked len fun i => ctx0.key (i % n) :=
    congrArg (data.masked len) (funext fun j => by rw [htile _ (Nat.mod_lt _ hlcm), Nat.mod_mod_of_dvd _ hdvd])
  unfold encrypt0 Cook.encrypt0 Site.xorTile
  simp only
  rw [if_neg hlcm.ne', xorTile_eq addr hwidth hlcm (by simp only [keyTileSize]; omega) hlen, hmask]
  unfold Turned
  split
  · exact ⟨fun heq => (by cases heq), fun hcond => (by omega)⟩
  · exact ⟨fun _ => by omega, fun _ => rfl⟩

/-- A key of 65 `a`. -/
def ctxLong : CookCtx := ⟨fun i => if i < 65 then .ofNat 97 else 0, 0, 0, fun _ => 0, 4, 32, true, true, false⟩

theorem ctxLong_key : (∀ i < 65, ctxLong.key i ≠ 0) ∧ ctxLong.key 65 = 0 :=
  ⟨fun i hi => by simp only [ctxLong, if_pos hi]; decide, rfl⟩

/-- Its tile. -/
theorem ctxLong_tile : cookLcm 65 8 = 520 := by
  rw [cookLcm_eq]
  rfl

/-- Which stops `encrypt_0` at the address 1. -/
theorem long_stops {ctx : CookCtx} {len : Nat} (hxor : ctx.disableXor = false) (hlen : 15 ≤ len) : ¬ Build.spe.Encrypts ctx 65 1 len := by
  intro h
  have hcond := (h rfl).resolve_left (by rw [hxor]; exact Bool.false_ne_true)
  have hhead : headLen 1 = 7 := rfl
  rw [ctxLong_tile, hhead] at hcond
  omega

/-- An aligned packet of 15 bytes. -/
theorem encrypt0_exact_aligned : ∃ ctx, prepareKey ctxLong = .ok ctx ∧
    encrypt0 ctx 0 ⟨fun _ => 0, 15⟩ 15 = .ok ((⟨fun _ => 0, 15⟩ : Buffer).masked 15 fun i => ctxLong.key (i % 65)) := by
  obtain ⟨ctx, hprep, h⟩ := encrypt0_exact ctxLong 65 (by decide) (by decide) ctxLong_key.1 ctxLong_key.2
  exact ⟨ctx, hprep, (h 0 ⟨fun _ => 0, 15⟩ 15 (Nat.le_refl _)).mpr (.inl rfl)⟩

/-- The same at an address that is not aligned: a tile of 520 bytes. -/
theorem encrypt0_asserts : ¬ ∀ (ctx0 : CookCtx) (n : Nat), 0 < n → n ≤ 999 → (∀ i < n, ctx0.key i ≠ 0) → ctx0.key n = 0 →
    ∃ ctx, prepareKey ctx0 = .ok ctx ∧ ∀ (addr : Nat) (data : Buffer) (len : Nat), len ≤ data.size →
      encrypt0 ctx addr data len = .ok (data.masked len fun i => ctx0.key (i % n)) := by
  intro hall
  obtain ⟨ctx, hprep, h⟩ := hall ctxLong 65 (by decide) (by decide) ctxLong_key.1 ctxLong_key.2
  obtain ⟨ctx', hprep', hready, htile, -⟩ := prepareKey_ok .spe ctxLong (by decide) ctxLong_key.1 ctxLong_key.2 (by decide) (by decide)
    (by decide)
  obtain rfl : ctx = ctx' := Except.ok.inj (hprep.symm.trans hprep')
  have hrun := h 1 ⟨fun _ => 0, 15⟩ 15 (Nat.le_refl _)
  have hno : ¬ (Site.spe 1).Takes 15 ctx.keyTileLen := by
    rw [htile, Build.width, ctxLong_tile]
    exact fun htakes => absurd (htakes (by decide)) (by decide)
  have hstop := (@encrypt0_eq (.spe 1) ctx ⟨fun _ => 0, 15⟩ (hready 1).tile 15 (Nat.le_refl _)).2 hno
  cases hrun.symm.trans hstop

end Spe

/-! ## The round trip -/

/-- `do_cook` on a packet at `addr`, and `de_cook` on what it made, at `addr'`. -/
def RoundTrip (build : Build) (ctx : CookCtx) (p : Bytes) (data : Buffer) (d : Draws) (addr addr' : Nat) : Prop :=
  ∃ x data' d', doCook (build.on addr) ctx data p.length d = .ok (data', x.length, d') ∧ data'.Holds x ∧
    ∃ r, deCook (build.on addr') ctx (.ofBytes x) x.length = .ok r ∧ r.ret = 0 ∧ r.len = p.length ∧ r.data.Holds p

/-- `de_cook` on a string at `addr`: it is what some draw makes of a packet, which is then
    what comes back, or it is refused, without a look at any byte before or behind it. -/
def Recognizes (build : Build) (ctx : CookCtx) (x : Bytes) (addr : Nat) : Prop :=
  ∃ r, deCook (build.on addr) ctx (.ofBytes x) x.length = .ok r ∧ (r.ret = 0 ∨ r.ret = -1 ∨ r.ret = -2) ∧
    ∀ p : Bytes, (r.ret = 0 ∧ r.len = p.length ∧ r.data.Holds p) ↔ ∃ data d data' d' addr', data.Holds p ∧ p.length + 37 ≤ data.size ∧
      doCook (build.on addr') ctx data p.length d = .ok (data', x.length, d') ∧ data'.Holds x

section Codec

variable {build : Build} {ctx : CookCtx} {p : Bytes} {data : Buffer} {d : Draws} {addr addr' : Nat}

/-- What `do_cook` returns it was let return. -/
theorem doCook_encrypts {site : Site} (h : ctx.Ready site) (hp : data.Holds p) (hshort : p.length + 4 < 3800)
    (hroom : p.length + 37 ≤ data.size) {r : Buffer × Nat × Draws} (hr : doCook site ctx data p.length d = .ok r) :
    site.Encrypts ctx (ctx.cookedLength d p.length) := by
  by_contra hno
  rw [doCook_asserts h hp hshort hroom d hno] at hr
  cases hr

theorem deCook_encrypts {site : Site} (h : ctx.Ready site) {len : Nat} (hlen : len ≤ data.size) {r : DeCookOut}
    (hr : deCook site ctx data len = .ok r) : site.Encrypts ctx len := by
  by_contra hno
  rw [deCook_asserts h.tile hlen hno] at hr
  cases hr

theorem roundTrip_iff (h : ∀ addr, ctx.Ready (build.on addr)) (hp : data.Holds p) (hshort : p.length + 4 < 3800)
    (hroom : p.length + 37 ≤ data.size) : RoundTrip build ctx p data d addr addr' ↔
      (build.on addr).Encrypts ctx (ctx.cookedLength d p.length) ∧ (build.on addr').Encrypts ctx (ctx.cookedLength d p.length) := by
  have hwrap : ∀ site (hs : ctx.Ready site),
      ((cookLayer hs).wrap ((), ⟨drawnIv ctx d, drawnIv_range hs.ivLe d⟩, ()) p).length = ctx.cookedLength d p.length := by
    intro site hs
    rw [cookLayer_wrap, ← cookedLength_eq]
    split
    · rfl
    · exact mask_length _ _
  refine ⟨?_, ?_⟩
  · intro hrt
    obtain ⟨x, data', d', hcook, -, r, hr, -⟩ := hrt
    have hkey := doCook_encrypts (h addr) hp hshort hroom hcook
    have hkey' := deCook_encrypts (h addr') (Nat.le_refl x.length) hr
    obtain ⟨data1, d1, hcook1, -⟩ := doCook_ok (h addr) hp hshort hroom d hkey
    rw [hcook, hwrap] at hcook1
    simp only [Except.ok.injEq, Prod.mk.injEq] at hcook1
    rw [hcook1.2.1] at hkey'
    exact ⟨hkey, hkey'⟩
  · rintro ⟨hkey, hkey'⟩
    obtain ⟨data', d', hcook, hholds, -⟩ := doCook_ok (h addr) hp hshort hroom d hkey
    rw [← hwrap _ (h addr)] at hkey'
    generalize hw : (cookLayer (h addr)).wrap ((), ⟨drawnIv ctx d, drawnIv_range (h addr).ivLe d⟩, ()) p = x at hcook hholds hkey'
    obtain ⟨r, hr, hanswers⟩ := @deCook_ok (build.on addr') ctx (.ofBytes x) (h addr') x.length (Nat.le_refl _) hkey'
    rw [show slice (Buffer.ofBytes x).mem 0 x.length = x from slice_mem x, cookLayer_unwrap, ← cookLayer_unwrap (h addr), ← hw,
      (cookLayer (h addr)).unwrap_wrap] at hanswers
    exact ⟨x, data', d', hcook, hholds, r, hr, hanswers⟩

theorem recognizes_iff (h : ∀ addr, ctx.Ready (build.on addr)) {x : Bytes} (hx : x.length ≤ 3600) :
    Recognizes build ctx x addr ↔ (build.on addr).Encrypts ctx x.length := by
  refine ⟨fun ⟨r, hr, _⟩ => deCook_encrypts (h addr) (Nat.le_refl x.length) hr, fun hkey => ?_⟩
  obtain ⟨r, hr, hanswers⟩ := @deCook_ok (build.on addr) ctx (.ofBytes x) (h addr) x.length (Nat.le_refl _) hkey
  rw [show slice (Buffer.ofBytes x).mem 0 x.length = x from slice_mem x] at hanswers
  refine ⟨r, hr, ?_, fun p => ⟨fun hret => ?_, ?_⟩⟩
  · cases hy : (cookLayer (h addr)).unwrap x with
    | ok q =>
      rw [hy] at hanswers
      exact .inl hanswers.1
    | error e =>
      rw [hy] at hanswers
      rw [hanswers.1]
      exact .inr hanswers.2
  · cases hy : (cookLayer (h addr)).unwrap x with
    | error e =>
      rw [hy] at hanswers
      obtain ⟨he, hcode⟩ := hanswers
      omega
    | ok q =>
      rw [hy] at hanswers
      obtain rfl : q = p := hanswers.2.2.unique hret.2.2 (Int.ofNat_inj.mp (hanswers.2.1.symm.trans hret.2.1))
      obtain ⟨⟨_, iv, _⟩, hw⟩ := ((cookLayer (h addr)).exact x q).mp hy
      obtain ⟨d, hd⟩ := exists_draws (h addr).ivMax iv
      have hle := le_cookLayer_wrap (h addr) ((), iv, ()) q
      rw [hw] at hle
      have hq : Buffer.Holds ⟨UdpSpeeder.mem q, q.length + 37⟩ q := slice_mem q
      -- the packet was as long as the string, so the key takes it there too
      have hcooked : ctx.cookedLength d q.length = x.length := by
        rw [← cookedLength_eq, ← hw, cookLayer_wrap, ← show drawnIv ctx d = iv.1 from hd]
        split
        · rfl
        · rw [mask_length]
      obtain ⟨data', d', hcook, hholds, -⟩ := doCook_ok (h addr) hq (by omega) (Nat.le_refl _) d (by rwa [hcooked])
      rw [show (⟨drawnIv ctx d, drawnIv_range (h addr).ivLe d⟩ : ctx.Iv) = iv from Subtype.ext hd, hw] at hcook hholds
      exact ⟨_, d, data', d', addr, hq, Nat.le_refl _, hcook, hholds⟩
  · rintro ⟨data, d, data', d', addr', hp, hroom, hcook, hholds⟩
    have hlen := (doCook_grows hcook).1
    have hkey' := doCook_encrypts (h addr') hp (by omega) hroom hcook
    obtain ⟨data1, d1, hcook1, hholds1, -⟩ := doCook_ok (h addr') hp (by omega) hroom d hkey'
    rw [hcook] at hcook1
    simp only [Except.ok.injEq, Prod.mk.injEq] at hcook1
    obtain ⟨rfl, hsame, -⟩ := hcook1
    have hw := hholds.unique hholds1 hsame
    rw [cookLayer_unwrap, ← cookLayer_unwrap (h addr'), hw, (cookLayer (h addr')).unwrap_wrap] at hanswers
    exact hanswers

end Codec

/-- With any key and any IV lengths, on any build and wherever the packets lie: what is cooked
    is read back, and any string at all is told from what was not cooked, exactly when the key
    lets both ends return. -/
theorem cook_exact (build : Build) (ctx0 : CookCtx) (n : Nat) (hn : n ≤ 999) (hkey : ∀ i < n, ctx0.key i ≠ 0) (hend : ctx0.key n = 0)
    (hmin : 1 ≤ ctx0.ivMin) (hle : ctx0.ivMin ≤ ctx0.ivMax) (hmax : ctx0.ivMax ≤ 32) :
    ∃ ctx, ctx0.prepareKey build = .ok ctx ∧
      (∀ (p : Bytes) (data : Buffer) (d : Draws) (addr addr' : Nat), data.Holds p → p.length + 4 < 3800 → p.length + 37 ≤ data.size →
        (RoundTrip build ctx p data d addr addr' ↔ build.Encrypts ctx0 n addr (ctx0.cookedLength d p.length) ∧
          build.Encrypts ctx0 n addr' (ctx0.cookedLength d p.length))) ∧
      ∀ (x : Bytes) (addr : Nat), x.length ≤ 3600 → (Recognizes build ctx x addr ↔ build.Encrypts ctx0 n addr x.length) := by
  obtain ⟨ctx, hprep, h, htile, -⟩ := prepareKey_ok build ctx0 hn hkey hend hmin hle hmax
  refine ⟨ctx, hprep, ?_, ?_⟩
  · intro p data d addr addr' hp hshort hroom
    rw [roundTrip_iff h hp hshort hroom, encrypts_iff hprep htile, encrypts_iff hprep htile, cookedLength_prepared hprep]
  · intro x addr hx
    rw [recognizes_iff h hx, encrypts_iff hprep htile]

/-- A packet of 15 bytes under the key of 65: at multiples of 8 the SPE reads back what it
    cooked, at an address that is not one it does not cook it. -/
theorem cook_exact_aligned : ∃ ctx, Spe.ctxLong.prepareKey .spe = .ok ctx ∧
    RoundTrip .spe ctx (List.replicate 15 0) ⟨fun _ => 0, 52⟩ (fun _ => 0) 8 16 ∧
    ¬ RoundTrip .spe ctx (List.replicate 15 0) ⟨fun _ => 0, 52⟩ (fun _ => 0) 1 16 := by
  obtain ⟨ctx, hprep, hrt, -⟩ := cook_exact .spe Spe.ctxLong 65 (by decide) Spe.ctxLong_key.1 Spe.ctxLong_key.2 (by decide) (by decide)
    (by decide)
  have hholds : Buffer.Holds ⟨fun _ => 0, 52⟩ (List.replicate 15 0) := rfl
  refine ⟨ctx, hprep, (hrt _ _ _ _ _ hholds (by decide) (by decide)).mpr ⟨fun _ => .inr (.inl rfl), fun _ => .inr (.inl rfl)⟩, ?_⟩
  rw [hrt _ _ _ _ _ hholds (by decide) (by decide)]
  exact fun hboth => Spe.long_stops rfl (by decide) hboth.1

/-- The key of 65 again: `do_cook` does not return on 15 bytes at the address 1. -/
theorem cook_stops : ¬ ∀ (build : Build) (ctx0 : CookCtx) (n : Nat), n ≤ 999 → (∀ i < n, ctx0.key i ≠ 0) → ctx0.key n = 0 →
    1 ≤ ctx0.ivMin → ctx0.ivMin ≤ ctx0.ivMax → ctx0.ivMax ≤ 32 → ∃ ctx, ctx0.prepareKey build = .ok ctx ∧
      (∀ (p : Bytes) (data : Buffer) (d : Draws) (addr addr' : Nat), data.Holds p → p.length + 4 < 3800 → p.length + 37 ≤ data.size →
        RoundTrip build ctx p data d addr addr') ∧
      ∀ (x : Bytes) (addr : Nat), x.length ≤ 3600 → Recognizes build ctx x addr := by
  intro hall
  obtain ⟨ctx, hprep, hrt, -⟩ := hall .spe Spe.ctxLong 65 (by decide) Spe.ctxLong_key.1 Spe.ctxLong_key.2 (by decide) (by decide) (by decide)
  obtain ⟨ctx', hprep', h, htile, -⟩ := prepareKey_ok .spe Spe.ctxLong (by decide) Spe.ctxLong_key.1 Spe.ctxLong_key.2 (by decide) (by decide)
    (by decide)
  obtain rfl : ctx = ctx' := Except.ok.inj (hprep.symm.trans hprep')
  have hround := hrt (List.replicate 15 0) ⟨fun _ => 0, 52⟩ (fun _ => 0) 1 0 rfl (by decide) (by decide)
  have hcond := (encrypts_iff hprep htile 1 _).mp ((roundTrip_iff h (by rfl) (by decide) (by decide)).mp hround).1
  rw [cookedLength_prepared hprep] at hcond
  exact Spe.long_stops rfl (by decide) hcond

/-! ## Short changes -/

/-- A bit of the trailer turned over. -/
theorem exists_shortChange {n : Nat} {x : Bytes} (h : n < x.length) : ∃ y, ShortChange n x y := by
  refine ⟨x.set n (x[n] ^^^ .ofNat 1), by rw [List.length_set], ?_, .inr fun j hj => ?_⟩
  · intro heq
    have hbyte := List.getElem_of_eq heq (show n < (x.set n (x[n] ^^^ .ofNat 1)).length by rw [List.length_set]; exact h)
    rw [List.getElem_set_self] at hbyte
    have hone := congrArg (x[n] ^^^ ·) hbyte
    simp only [← Byte.xor_assoc, Byte.xor_self, Byte.zero_xor] at hone
    exact absurd hone (by decide)
  · by_contra hlt
    exact hj (by rw [List.getElem?_set_ne (by omega)])

/-- Preparing a key gives a tile of whole vectors, or none. -/
theorem prepareKey_whole (build : Build) (ctx0 : CookCtx) {n : Nat} (hn : n ≤ 999) (hkey : ∀ i < n, ctx0.key i ≠ 0) (hend : ctx0.key n = 0) :
    ∃ ctx, ctx0.prepareKey build = .ok ctx ∧ ctx.keyTileLen = cookLcm n build.width ∧
      (ctx.keyTileLen = 0 ∨ (build.width ∣ ctx.keyTileLen ∧ ctx.keyTileLen ≤ keyTileSize)) := by
  rcases Nat.eq_zero_or_pos n with hzero | hkeyed
  · unfold CookCtx.prepareKey
    rw [strlen_ok hn hkey hend, ok_bind, if_pos hzero]
    exact ⟨_, rfl, by simp [cookLcm, hzero], .inl rfl⟩
  · obtain ⟨-, hwidth, -, hsize⟩ := cookLcm_tile build hkeyed
    obtain ⟨tile, -, hprep⟩ := prepareKey_tile build ctx0 hkeyed hn hkey hend
    exact ⟨_, hprep, rfl, .inr ⟨hwidth, by simp only [keyTileSize]; omega⟩⟩

/-- `de_cook` answers -2 to a string at `addr`. -/
def Refuses (build : Build) (ctx : CookCtx) (y : Bytes) (addr : Nat) : Prop :=
  ∃ r, deCook (build.on addr) ctx (.ofBytes y) y.length = .ok r ∧ r.ret = -2

/-- Whatever key there is, with a checksum and no IV, on any build: of a cooked packet with up
    to four bytes changed together, or its trailer, `de_cook` says so, exactly when the key
    lets it return; and a packet is cooked if the key lets `do_cook`. -/
theorem short_change_refused (build : Build) (ctx0 : CookCtx) (n : Nat) (hn : n ≤ 999) (hkey : ∀ i < n, ctx0.key i ≠ 0) (hend : ctx0.key n = 0)
    (hcrc : ctx0.disableChecksum = false) (hob : ctx0.disableObscure = true) :
    ∃ ctx, ctx0.prepareKey build = .ok ctx ∧ ∀ (p : Bytes) (data : Buffer) (d : Draws) (addr : Nat), data.Holds p → p.length + 4 ≤ data.size →
      (build.Encrypts ctx0 n addr (p.length + 4) →
        ∃ x data', doCook (build.on addr) ctx data p.length d = .ok (data', x.length, d) ∧ data'.Holds x) ∧
      ∀ x data', doCook (build.on addr) ctx data p.length d = .ok (data', x.length, d) → data'.Holds x → x.length = p.length + 4 ∧
        ∀ y addr', ShortChange p.length x y → (Refuses build ctx y addr' ↔ build.Encrypts ctx0 n addr' (p.length + 4)) := by
  obtain ⟨ctx, hprep, htile, hwhole⟩ := prepareKey_whole build ctx0 hn hkey hend
  have hcrc' : ctx.disableChecksum = false := by rw [prepareKey_same hprep]; exact hcrc
  have hob' : ctx.disableObscure = true := by rw [prepareKey_same hprep]; exact hob
  have hwhole' : ∀ addr, ctx.keyTileLen = 0 ∨ ((build.on addr).build.width ∣ ctx.keyTileLen ∧ ctx.keyTileLen ≤ keyTileSize) := by
    intro addr
    rwa [build.on_build]
  refine ⟨ctx, hprep, fun p data d addr hp hroom => ⟨fun hcond => ?_, fun x data' hcook hholds => ?_⟩⟩
  · obtain ⟨data', hcook, hholds⟩ := doCook_checked (hwhole' addr) hcrc' hob' hp hroom ((encrypts_iff hprep htile addr _).mpr hcond) d
    exact ⟨_, data', hcook, hholds⟩
  · have hkeyed := doCook_checked_encrypts (hwhole' addr) hcrc' hob' hp hroom hcook
    obtain ⟨data1, hcook1, hholds1⟩ := doCook_checked (hwhole' addr) hcrc' hob' hp hroom hkeyed d
    rw [hcook] at hcook1
    simp only [Except.ok.injEq, Prod.mk.injEq] at hcook1
    obtain ⟨rfl, hlen, -⟩ := hcook1
    obtain rfl : x = keyed ctx (p ++ crcBytes p) := hholds.unique hholds1 hlen
    have hxlen : (keyed ctx (p ++ crcBytes p)).length = p.length + 4 := by
      rw [keyed_length, List.length_append, show (crcBytes p).length = 4 from slice_length _ _ _]
    refine ⟨hxlen, fun y addr' hy => ?_⟩
    rw [← hxlen, ← hy.length, ← encrypts_iff hprep htile]
    refine ⟨?_, ?_⟩
    · rintro ⟨r, hr, _⟩
      by_contra hno
      rw [deCook_asserts (hwhole' addr') (Nat.le_refl y.length) hno] at hr
      cases hr
    · intro hcond
      have hchange := hy.keyed ctx
      rw [keyed_keyed] at hchange
      obtain ⟨e, he⟩ := hchange.refused
      refine @deCook_refuses (build.on addr') ctx (.ofBytes y) (hwhole' addr') hcrc' hob' y.length (Nat.le_refl _) hcond e ?_
      rw [show slice (Buffer.ofBytes y).mem 0 y.length = y from slice_mem y]
      exact he

/-- The key of 65, with a checksum. -/
def ctxChecked : CookCtx := { Spe.ctxLong with disableChecksum := false }

/-- Eleven bytes are 15 with the trailer: a change of these is refused at a multiple of 8, and
    is not at an address that is none. -/
theorem short_change_refused_aligned : ∃ ctx x y, ctxChecked.prepareKey .spe = .ok ctx ∧ ShortChange 11 x y ∧
    Refuses .spe ctx y 8 ∧ ¬ Refuses .spe ctx y 1 := by
  obtain ⟨ctx, hprep, h⟩ := short_change_refused .spe ctxChecked 65 (by decide) Spe.ctxLong_key.1 Spe.ctxLong_key.2 rfl rfl
  obtain ⟨hcooks, hrefuses⟩ := h (List.replicate 11 0) ⟨fun _ => 0, 15⟩ (fun _ => 0) 0 rfl (by decide)
  obtain ⟨x, data', hcook, hholds⟩ := hcooks fun _ => .inr (.inl rfl)
  obtain ⟨hlen, hiff⟩ := hrefuses x data' hcook hholds
  obtain ⟨y, hy⟩ := exists_shortChange (show 11 < x.length by rw [hlen]; decide)
  refine ⟨ctx, x, y, hprep, hy, (hiff y 8 hy).mpr fun _ => .inr (.inl rfl), ?_⟩
  rw [hiff y 1 hy]
  exact Spe.long_stops rfl (by decide)

/-- So on an SPE a short change may stop `de_cook`. -/
theorem change_not_refused : ¬ ∀ (build : Build) (ctx0 : CookCtx) (n : Nat), n ≤ 999 → (∀ i < n, ctx0.key i ≠ 0) → ctx0.key n = 0 →
    ctx0.disableChecksum = false → ctx0.disableObscure = true → ∃ ctx, ctx0.prepareKey build = .ok ctx ∧
      ∀ (p : Bytes) (data : Buffer) (d : Draws) (addr : Nat) x data', data.Holds p → p.length + 4 ≤ data.size →
        doCook (build.on addr) ctx data p.length d = .ok (data', x.length, d) → data'.Holds x →
          ∀ y addr', ShortChange p.length x y → Refuses build ctx y addr' := by
  intro hall
  obtain ⟨ctx, hprep, h⟩ := hall .spe ctxChecked 65 (by decide) Spe.ctxLong_key.1 Spe.ctxLong_key.2 rfl rfl
  obtain ⟨ctx', hprep', htile, hwhole⟩ := prepareKey_whole .spe ctxChecked (by decide) Spe.ctxLong_key.1 Spe.ctxLong_key.2
  obtain rfl : ctx = ctx' := Except.ok.inj (hprep.symm.trans hprep')
  have hp : Buffer.Holds ⟨fun _ => 0, 15⟩ (List.replicate 11 0) := rfl
  obtain ⟨data', hcook, hholds⟩ := @doCook_checked (.spe 0) ctx ⟨fun _ => 0, 15⟩ hwhole (by rw [prepareKey_same hprep]; rfl)
    (by rw [prepareKey_same hprep]; rfl) _ hp (by decide) ((encrypts_iff hprep htile 0 _).mpr fun _ => .inr (.inl rfl)) fun _ => 0
  have hxlen : (keyed ctx (List.replicate 11 0 ++ crcBytes (List.replicate 11 0))).length = 15 := by
    rw [keyed_length, List.length_append, show (crcBytes _).length = 4 from slice_length _ _ _]
    rfl
  obtain ⟨y, hy⟩ := exists_shortChange (show (List.replicate 11 (0 : Byte)).length < _ by rw [hxlen]; decide)
  obtain ⟨r, hr, -⟩ := h _ _ _ 0 _ _ hp (by decide) hcook hholds y 1 hy
  have hno : ¬ (Build.spe.on 1).Encrypts ctx y.length := by
    rw [encrypts_iff hprep htile, hy.length, hxlen]
    exact Spe.long_stops rfl (Nat.le_refl _)
  rw [deCook_asserts hwhole (Nat.le_refl y.length) hno] at hr
  cases hr

end UdpSpeeder.Cook
