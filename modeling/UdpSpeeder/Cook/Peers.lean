/-
  UdpSpeeder.Cook.Peers — two ends that were given the same key and the same options.

  Each end lays out the key for the vectors of its own processor, so the tiles differ; the pad
  they are tiles of does not. What one end cooks the other reads (`Peers.reads_cooked`), and with
  a checksum and no IV it refuses what was damaged on the way (`Peers.reads_damaged`). Neither
  end is an SPE: there cooking itself may stop (`Cook.Ports`).
-/

import UdpSpeeder.Cook.Detect

namespace UdpSpeeder.Cook

open Lib

/-- `x` is what `do_cook` makes of `p` under some IV. -/
def Cooked {simd : Simd} {ctx : CookCtx} (h : ctx.Ready simd) (p x : Bytes) : Prop := ∃ i, (cookLayer h).wrap i p = x

theorem Cooked.length_le {simd : Simd} {ctx : CookCtx} {h : ctx.Ready simd} {p x : Bytes} (hx : Cooked h p x) : p.length ≤ x.length := by
  obtain ⟨i, rfl⟩ := hx
  exact le_cookLayer_wrap h i p

theorem Cooked.length_lt {simd : Simd} {ctx : CookCtx} {h : ctx.Ready simd} {p x : Bytes} (hx : Cooked h p x) : x.length < p.length + 38 := by
  obtain ⟨i, rfl⟩ := hx
  have h1 := (checked_length ctx p).2
  have h2 : (hidden ctx i.2.1.1 (checked ctx p)).length ≤ (checked ctx p).length + 33 := by
    have hiv := i.2.1.2.2
    have hmax := h.ivMax
    unfold hidden
    split
    · omega
    · simp [obscured]
      omega
  rw [cookLayer_wrap]
  split
  · omega
  · rw [mask_length]
    omega

/-- The options both ends were started with, and what each has prepared from them. -/
structure Peers where
  options : CookCtx
  keyLen : Nat
  short : keyLen ≤ 999
  key : ∀ i < keyLen, options.key i ≠ 0
  stop : options.key keyLen = 0
  ivMin : 1 ≤ options.ivMin
  ivLe : options.ivMin ≤ options.ivMax
  ivMax : options.ivMax ≤ 32
  near : Simd
  far : Simd
  nearCtx : CookCtx
  farCtx : CookCtx
  prepared : options.prepareKey near = .ok nearCtx
  prepared' : options.prepareKey far = .ok farCtx

namespace Peers

variable (k : Peers)

theorem ready_pad {simd : Simd} {ctx : CookCtx} (h : k.options.prepareKey simd = .ok ctx) :
    ctx.Ready simd ∧ ∀ j, ctx.pad j = if k.keyLen = 0 then 0 else k.options.key (j % k.keyLen) := by
  obtain ⟨ctx', hprep, hready, -, hpad⟩ := prepareKey_ok simd k.options k.short k.key k.stop k.ivMin k.ivLe k.ivMax
  rw [h] at hprep
  cases hprep
  exact ⟨hready 0, hpad⟩

theorem ready : k.nearCtx.Ready k.near := (k.ready_pad k.prepared).1

theorem ready' : k.farCtx.Ready k.far := (k.ready_pad k.prepared').1

theorem pad_eq : k.farCtx.pad = k.nearCtx.pad :=
  funext fun j => ((k.ready_pad k.prepared').2 j).trans ((k.ready_pad k.prepared).2 j).symm

/-- Both ends peel the same layers. -/
theorem unwrap_eq (x : Bytes) : (cookLayer k.ready').unwrap x = (cookLayer k.ready).unwrap x := by
  have hnear := prepareKey_same k.prepared
  have hfar := prepareKey_same k.prepared'
  rw [cookLayer_unwrap, cookLayer_unwrap, k.pad_eq]
  unfold unobscure
  rw [show k.farCtx.disableObscure = k.nearCtx.disableObscure by rw [hnear, hfar],
    show k.farCtx.disableXor = k.nearCtx.disableXor by rw [hnear, hfar],
    show k.farCtx.disableChecksum = k.nearCtx.disableChecksum by rw [hnear, hfar],
    show k.farCtx.ivMin = k.nearCtx.ivMin by rw [hnear, hfar], show k.farCtx.ivMax = k.nearCtx.ivMax by rw [hnear, hfar]]

/-- The packet `de_cook` of the far end reads in `x`. -/
def Reads (x p : Bytes) : Prop := (cookLayer k.ready').unwrap x = .ok p

theorem reads_cooked {p x : Bytes} (h : Cooked k.ready p x) : k.Reads x p := by
  obtain ⟨i, rfl⟩ := h
  unfold Reads
  rw [k.unwrap_eq, Layer.unwrap_wrap]

/-- Some bytes of a datagram, changed on the way. The checksum is over the packet, and with an
    IV a change of that goes all over it. -/
def Damaged (x y : Bytes) : Prop :=
  k.options.disableChecksum = false ∧ k.options.disableObscure = true ∧ ShortChange (x.length - 4) x y

theorem reads_damaged {p x y : Bytes} (h : Cooked k.ready p x) (hy : k.Damaged x y) (q : Bytes) : ¬ k.Reads y q := by
  obtain ⟨i, rfl⟩ := h
  obtain ⟨hcrc, hob, hchange⟩ := hy
  have hnear := prepareKey_same k.prepared
  have hcrc' : k.nearCtx.disableChecksum = false := by rw [hnear]; exact hcrc
  have hob' : k.nearCtx.disableObscure = true := by rw [hnear]; exact hob
  have hwrap : (cookLayer k.ready).wrap i p = keyed k.nearCtx (p ++ crcBytes p) := by
    rw [cookLayer_wrap]
    unfold hidden checked keyed
    rw [hcrc', hob']
    rfl
  have hunwrap : (cookLayer k.ready).unwrap y = crcLayer.unwrap (keyed k.nearCtx y) := by
    rw [cookLayer_unwrap, hcrc', hob']
    rfl
  have hlen : (keyed k.nearCtx (p ++ crcBytes p)).length - 4 = p.length := by
    rw [keyed_length, List.length_append, show (crcBytes p).length = 4 from slice_length _ _ _, Nat.add_sub_cancel]
  rw [hwrap, hlen] at hchange
  have hback := hchange.keyed k.nearCtx
  rw [keyed_keyed] at hback
  obtain ⟨e, he⟩ := hback.refused
  unfold Reads
  rw [k.unwrap_eq, hunwrap, he]
  exact fun h => by cases h

end Peers

end UdpSpeeder.Cook
