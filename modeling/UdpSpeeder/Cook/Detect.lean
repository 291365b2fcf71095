/-
  UdpSpeeder.Cook.Detect — what the checksum is for (`packet_cook.cpp`).

  Without the IV a packet on the wire is the packet and its CRC-32C, under the key or not.
  Up to four bytes that changed together leave another register behind them
  (`register_word_inj`), and what follows never makes two registers one
  (`register_injective`): the packet is refused, at any length and any place
  (`ShortChange.refused`).
-/

import UdpSpeeder.Cook.Crc
import UdpSpeeder.Cook.Exact

namespace UdpSpeeder.Cook

open Lib

/-! ## The register tells -/

theorem poly_high : poly.getLsbD (32 - 1) = true := by decide

theorem register_injective (p : Bytes) : Function.Injective fun crc => register crc p := by
  induction p with
  | nil => exact Function.injective_id
  | cons b p ih =>
    intro c1 c2 h
    simp only [register_cons] at h
    exact (BitVec.xor_left_inj _).mp (Crc.steps_injective poly_high 8 (ih h))

theorem leWord_inj {u v : Bytes} (hlen : u.length = v.length) (h : leWord u = leWord v) : u = v := by
  induction u generalizing v with
  | nil => exact (List.length_eq_zero_iff.mp hlen.symm).symm
  | cons a u ih =>
    cases v with
    | nil => cases hlen
    | cons b v =>
      have ha := a.toNat_lt
      have hb := b.toNat_lt
      have h : a.toNat + 256 * leWord u = b.toNat + 256 * leWord v := h
      rw [Byte.toNat_inj.mp (show a.toNat = b.toNat by omega), ih (Nat.succ.inj hlen) (by omega)]

/-- Four bytes or fewer fill the register, each string in its own way. -/
theorem register_word_inj {crc : U32} {u v : Bytes} (hlen : u.length = v.length) (h4 : u.length ≤ 4)
    (h : register crc u = register crc v) : u = v := by
  rw [register_word _ h4, register_word _ (hlen ▸ h4), ← hlen] at h
  have hword := (BitVec.xor_right_inj _).mp (Crc.steps_injective poly_high _ h)
  have hsmall : ∀ w : Bytes, w.length ≤ 4 → leWord w < 2 ^ 32 := fun w hw =>
    (leWord_lt w).trans_le (Nat.pow_le_pow_right (by decide) (by omega))
  refine leWord_inj hlen ?_
  have hnat := congrArg BitVec.toNat hword
  rwa [BitVec.toNat_ofNat, BitVec.toNat_ofNat, Nat.mod_eq_of_lt (hsmall u h4), Nat.mod_eq_of_lt (hsmall v (hlen ▸ h4))] at hnat

/-- Two strings that are the same but for four bytes together, or fewer. -/
theorem crc32c_short_change {p q : Bytes} {k : Nat} (hlen : q.length = p.length) (hwindow : ∀ j, p[j]? ≠ q[j]? → k ≤ j ∧ j < k + 4)
    (h : crc32c p = crc32c q) : p = q := by
  have hsplit : ∀ s : Bytes, s = s.take k ++ ((s.drop k).take 4 ++ s.drop (k + 4)) := by
    intro s
    rw [← List.drop_drop, List.take_append_drop, List.take_append_drop]
  have htake : p.take k = q.take k := by
    refine List.ext_getElem? fun j => ?_
    rw [List.getElem?_take, List.getElem?_take]
    split
    · by_contra hne
      have := hwindow j hne
      omega
    · rfl
  have hdrop : p.drop (k + 4) = q.drop (k + 4) := by
    refine List.ext_getElem? fun j => ?_
    rw [List.getElem?_drop, List.getElem?_drop]
    by_contra hne
    have := hwindow _ hne
    omega
  have hreg : register (~~~ 0#32) p = register (~~~ 0#32) q := by
    rw [← crc32cFold_register, ← crc32cFold_register]
    exact BitVec.not_inj.mp h
  rw [hsplit p, hsplit q, htake, hdrop] at hreg ⊢
  simp only [register_append] at hreg
  have hmid := register_word_inj (by simp [hlen]) (by simp) (register_injective _ hreg)
  rw [hmid]

/-! ## The packet is refused -/

/-- `y` is `x` with a byte or more changed: in four consecutive bytes of the first `n`, or only
    behind these. -/
structure ShortChange (n : Nat) (x y : Bytes) : Prop where
  length : y.length = x.length
  changed : y ≠ x
  window : (∃ k, ∀ j, x[j]? ≠ y[j]? → k ≤ j ∧ j < k + 4 ∧ j < n) ∨ ∀ j, x[j]? ≠ y[j]? → n ≤ j

/-- The key over a packet, unless there is none. -/
def keyed (ctx : CookCtx) (z : Bytes) : Bytes := if ctx.disableXor then z else mask ctx.pad z

theorem keyed_length (ctx : CookCtx) (z : Bytes) : (keyed ctx z).length = z.length := by
  unfold keyed
  split
  · rfl
  · exact mask_length _ _

theorem keyed_keyed (ctx : CookCtx) (z : Bytes) : keyed ctx (keyed ctx z) = z := by
  unfold keyed
  split
  · rfl
  · exact mask_mask _ _

theorem keyed_getElem? (ctx : CookCtx) {x y : Bytes} {j : Nat} (h : x[j]? = y[j]?) : (keyed ctx x)[j]? = (keyed ctx y)[j]? := by
  unfold keyed mask
  split
  · exact h
  · rw [List.getElem?_mapIdx, List.getElem?_mapIdx, h]

theorem ShortChange.keyed {n : Nat} {x y : Bytes} (h : ShortChange n x y) (ctx : CookCtx) : ShortChange n (keyed ctx x) (keyed ctx y) where
  length := by rw [keyed_length, keyed_length, h.length]
  changed heq := h.changed (by rw [← keyed_keyed ctx y, heq, keyed_keyed])
  window := h.window.imp (fun ⟨k, hk⟩ => ⟨k, fun j hj => hk j (mt (keyed_getElem? ctx) hj)⟩) fun hn j hj => hn j (mt (keyed_getElem? ctx) hj)

theorem crcBytes_inj {p q : Bytes} (h : crcBytes p = crcBytes q) : crc32c p = crc32c q := by
  rw [← readU32_writeU32 (fun _ => 0) 0 (crc32c p)]
  exact (readU32_eq_iff _ 0 _).mpr h

/-- The checksum layer does not read it. -/
theorem ShortChange.refused {p z : Bytes} (h : ShortChange p.length (p ++ crcBytes p) z) : ∃ e, crcLayer.unwrap z = .error e := by
  have hfour : ∀ s : Bytes, (crcBytes s).length = 4 := fun _ => slice_length _ _ _
  cases hz : crcLayer.unwrap z with
  | error e => exact ⟨e, rfl⟩
  | ok q =>
    obtain ⟨_, hwrap⟩ := (crcLayer.exact z q).mp hz
    have hwrap : q ++ crcBytes q = z := hwrap
    subst hwrap
    have hlen : q.length = p.length := by
      have hboth := h.length
      rw [List.length_append, List.length_append, hfour, hfour] at hboth
      omega
    have hbody : ∀ j, p[j]? ≠ q[j]? → j < p.length ∧ (p ++ crcBytes p)[j]? ≠ (q ++ crcBytes q)[j]? := by
      intro j hne
      have hj : j < p.length := by
        by_contra hj
        exact hne (by rw [List.getElem?_eq_none (by omega), List.getElem?_eq_none (by omega)])
      exact ⟨hj, by rwa [List.getElem?_append_left hj, List.getElem?_append_left (hlen ▸ hj)]⟩
    have hsame : p = q := by
      rcases h.window with ⟨k, hk⟩ | hn
      · -- the trailer is the old one, so the code is, and so what it is of
        have htrailer : crcBytes p = crcBytes q := by
          refine List.ext_getElem? fun j => ?_
          by_contra hne
          have hj := hk (p.length + j) (by
            rw [List.getElem?_append_right (by omega), List.getElem?_append_right (by omega), hlen, Nat.add_sub_cancel_left]
            exact hne)
          omega
        refine @crc32c_short_change p q k hlen (fun j hne => ?_) (crcBytes_inj htrailer)
        have hj := hk j (hbody j hne).2
        exact ⟨hj.1, hj.2.1⟩
      · refine List.ext_getElem? fun j => ?_
        by_contra hne
        have hj := hbody j hne
        have := hn j hj.2
        omega
    exact absurd (by rw [hsame]) h.changed

section Refuse

variable {site : Site} {ctx : CookCtx} {data : Buffer}

theorem deCook_refuses (htile : ctx.keyTileLen = 0 ∨ (site.build.width ∣ ctx.keyTileLen ∧ ctx.keyTileLen ≤ keyTileSize))
    (hcrc : ctx.disableChecksum = false) (hob : ctx.disableObscure = true) {len : Nat} (hlen : len ≤ data.size)
    (hkey : site.Encrypts ctx len) {e : Int} (h : crcLayer.unwrap (keyed ctx (slice data.mem 0 len)) = .error e) :
    ∃ r, deCook site ctx data len = .ok r ∧ r.ret = -2 := by
  obtain ⟨data1, hkey, hsize, hslice⟩ := keyStep_ok htile hlen hkey
  obtain ⟨⟨ret, data2, len2⟩, hrm, hreads⟩ := @rmCrc32_ok ctx data1 len (hsize ▸ hlen)
  rw [hcrc, if_neg Bool.false_ne_true, hslice] at hreads
  change Reads (crcLayer.unwrap (keyed ctx (slice data.mem 0 len))) _ _ at hreads
  rw [h] at hreads
  have hret : ret ≠ 0 := hreads
  unfold deCook deCookRest
  rw [hkey, ok_bind, hob]
  simp only [enabled, if_true, ok_bind, hrm, ne_eq, not_true_eq_false, if_false, hret, not_false_eq_true]
  exact ⟨_, rfl, rfl⟩

/-- With a checksum and no IV, up to the key. -/
theorem doCook_checked_eq (hcrc : ctx.disableChecksum = false) (hob : ctx.disableObscure = true) {p : Bytes} (hp : data.Holds p)
    (hroom : p.length + 4 ≤ data.size) (d : Draws) : ∃ data1, data1.Holds (p ++ crcBytes p) ∧ p.length + 4 ≤ data1.size ∧
      doCook site ctx data p.length d = enabled ctx.disableXor data1 (encrypt0 site ctx data1 (p.length + 4)) >>=
        fun data => .ok (data, p.length + 4, d) := by
  obtain ⟨data1, hput, hholds, hsize⟩ := @putCrc32_ok ctx data p hp hroom
  have hchecked : checked ctx p = p ++ crcBytes p := by
    unfold checked
    rw [hcrc, if_neg Bool.false_ne_true]
  rw [hchecked] at hput hholds
  rw [List.length_append, show (crcBytes p).length = 4 from slice_length _ _ _] at hput
  refine ⟨data1, hholds, by omega, ?_⟩
  unfold doCook
  rw [hput, ok_bind, hob]
  rfl

theorem doCook_checked (htile : ctx.keyTileLen = 0 ∨ (site.build.width ∣ ctx.keyTileLen ∧ ctx.keyTileLen ≤ keyTileSize))
    (hcrc : ctx.disableChecksum = false) (hob : ctx.disableObscure = true) {p : Bytes} (hp : data.Holds p)
    (hroom : p.length + 4 ≤ data.size) (hkey : site.Encrypts ctx (p.length + 4)) (d : Draws) :
    ∃ data', doCook site ctx data p.length d = .ok (data', (keyed ctx (p ++ crcBytes p)).length, d) ∧
      data'.Holds (keyed ctx (p ++ crcBytes p)) := by
  obtain ⟨data1, hholds, hsize, hrun⟩ := doCook_checked_eq hcrc hob hp hroom d
  have hlen : (p ++ crcBytes p).length = p.length + 4 := by
    rw [List.length_append, show (crcBytes p).length = 4 from slice_length _ _ _]
  rw [← hlen] at hsize hkey hrun
  obtain ⟨data2, hkey, -, hslice⟩ := keyStep_ok htile hsize hkey
  rw [show slice data1.mem 0 (p ++ crcBytes p).length = p ++ crcBytes p from hholds] at hslice
  exact ⟨data2, by rw [hrun, hkey, ok_bind, keyed_length], slice_holds hslice⟩

/-- Only what the key lets through is cooked. -/
theorem doCook_checked_encrypts (htile : ctx.keyTileLen = 0 ∨ (site.build.width ∣ ctx.keyTileLen ∧ ctx.keyTileLen ≤ keyTileSize))
    (hcrc : ctx.disableChecksum = false) (hob : ctx.disableObscure = true) {p : Bytes} (hp : data.Holds p)
    (hroom : p.length + 4 ≤ data.size) {d : Draws} {r : Buffer × Nat × Draws} (h : doCook site ctx data p.length d = .ok r) :
    site.Encrypts ctx (p.length + 4) := by
  obtain ⟨data1, -, hsize, hrun⟩ := @doCook_checked_eq site ctx data hcrc hob p hp hroom d
  by_contra hno
  rw [hrun, keyStep_asserts htile hsize hno] at h
  cases h

end Refuse

end UdpSpeeder.Cook
