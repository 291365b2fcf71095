/-
  UdpSpeeder.Fec.Recovery — erasure recovery end to end: `rs_encode2`, blocks lost,
  `rs_decode2`, whatever codes and scratch buffers earlier calls left in the table, and
  whichever form of `addmul1` each end has.

  The sizes are `int`s, and `fec_decode` multiplies `k * sz` without looking. Recovery works
  exactly as long as the `k` blocks of its scratch buffer fit one (`rs_round_trip`).
-/

import UdpSpeeder.Fec.Erasure

namespace UdpSpeeder.Fec

open Lib Lib.Systematic Finset

variable {P : Type} [DecidableEq P] {k n : Nat}

/-- Some of the pointers set to null. -/
def erase (lost : Nat → Bool) (data : Nat → Option P) : Nat → Option P := fun i => if lost i then none else data i

/-- Encoding, then decoding after any loss, with any table of cached codes and any form of
    `addmul1`: with `k` blocks left the data is back in order, with fewer nothing is touched. -/
def RoundTrip (k n : Nat) (codes : CodeTable) (m : Mem P) (data : Nat → Option P) (size : Nat) : Prop :=
  ∃ codes1 m1, rsEncode2 k n codes m data size = .ok (codes1, m1) ∧ ∀ (codes2 : CodeTable) (lost : Nat → Bool),
    (k ≤ (present (erase lost data) n).length →
      ∃ codes3 m2 data2, rsDecode2 k n codes2 m1 (erase lost data) size = .ok (0, codes3, m2, data2) ∧
        (∀ r < k, ∃ p q, data2 r = some p ∧ data r = some q ∧ ∀ i < size, m2 p i = m q i) ∧
        (present data2 n).length = (present (erase lost data) n).length) ∧
    ((present (erase lost data) n).length < k →
      ∃ ret codes3, ret ≠ 0 ∧ rsDecode2 k n codes2 m1 (erase lost data) size = .ok (ret, codes3, m1, erase lost data))

omit [DecidableEq P] in
theorem erase_eq_some {lost : Nat → Bool} {data : Nat → Option P} {j : Nat} {p : P} (h : erase lost data j = some p) :
    data j = some p := by
  unfold erase at h
  split at h
  · cases h
  · exact h

/-! ## Recovery -/

omit [DecidableEq P] in
theorem apart_erase {data : Nat → Option P} {buf : Nat → P} (hb : Buffers k n data buf) (lost : Nat → Bool) :
    Apart k n (erase lost data) := by
  intro i hi j hj hkj hne p hpi hpj
  have h1 := (hb.names i hi).symm.trans (erase_eq_some hpi)
  have h2 := (hb.names j hj).symm.trans (erase_eq_some hpj)
  exact hb.apart i hi j hj hkj hne (Option.some.inj (h1.trans h2.symm))

omit [DecidableEq P] in
/-- What encoding leaves is a code word, and so is what is left of it. -/
theorem rows_of_encoded {m m1 : Mem P} {data : Nat → Option P} {buf : Nat → P} {size : Nat} (hk : k ≤ 256)
    (hb : Buffers k n data buf) (hdata : ∀ i < k, m1 (buf i) = m (buf i))
    (hparity : ∀ j, k ≤ j → j < n → ∀ i < size, m1 (buf j) i = shard k (fun c => m (buf c)) j i) (lost : Nat → Bool) :
    Rows k n m1 (erase lost data) (fun c => m (buf c)) size := by
  intro j hj p hp i hi
  have hj := (mem_present.mp (List.mem_of_mem_take hj)).1
  obtain rfl : buf j = p := Option.some.inj ((hb.names j hj).symm.trans (erase_eq_some hp))
  by_cases hjk : j < k
  · rw [hdata j hjk, shard_data hk hjk]
  · exact hparity j (by omega) hj i hi

theorem roundTrip_of_fits (hk : 0 < k) (hkn : k ≤ n) (hn : n ≤ 255) (codes : CodeTable) (m : Mem P)
    {data : Nat → Option P} {buf : Nat → P} {size : Nat} (hb : Buffers k n data buf) (hfit : k * size ≤ intMax) :
    RoundTrip k n codes m data size := by
  have hn' : n < 256 := by omega
  obtain ⟨codes1, m1, henc, hm1⟩ := rsEncode2_spec codes m hk hkn hn' hb
  refine ⟨codes1, m1, henc, fun codes2 lost => ⟨fun hcount => ?_, fun hfew => ?_⟩⟩
  · obtain ⟨codes3, m2, data2, hrun, hdec⟩ := rsDecode2_spec codes2 hk hkn hn' hfit hcount
      (rows_of_encoded (by omega) hb hm1.data hm1.parity lost)
    refine ⟨codes3, m2, data2, hrun, fun r hr => ?_, hdec.count⟩
    obtain ⟨p, hp⟩ := Option.isSome_iff_exists.mp (hdec.filled r hr)
    exact ⟨p, buf r, hp, hb.names r (by omega), hdec.content (apart_erase hb lost) r hr p hp⟩
  · obtain ⟨codes3, hrun⟩ := @rsDecode2_few P _ k n codes2 m1 _ size hk hkn hn' hfew
    exact ⟨-1, codes3, by decide, hrun⟩

theorem fits_of_roundTrip (codes : CodeTable) (m : Mem P) {data : Nat → Option P} {buf : Nat → P} {size : Nat}
    (hb : Buffers k n data buf) (h : RoundTrip k n codes m data size) : k * size ≤ intMax := by
  obtain ⟨codes1, m1, henc, hdec⟩ := h
  obtain ⟨⟨code, codes'⟩, hcode, -⟩ := bind_ok.mp henc
  have hkn := code.shape.2.1
  -- with nothing lost the decoder still allocates its scratch buffer
  by_contra hover
  have hall : present (erase (fun _ => false) data) n = List.range n :=
    filter_range le_rfl fun j hj => by simp [erase, hb.names j hj, hj]
  have hcount : k ≤ (present (erase (fun _ => false) data) n).length := by rw [hall, List.length_range]; exact hkn
  obtain ⟨codes3, m2, data2, hrun, -⟩ := (hdec codes (fun _ => false)).1 hcount
  obtain ⟨⟨code2, codes2⟩, -, hrun⟩ := bind_ok.mp hrun
  obtain ⟨out, hout, -⟩ := bind_ok.mp hrun
  rw [rsDecode_overflow codes2.form code2 m1 hover hcount] at hout
  cases hout

/-- Recovery works for every shape, every content, every loss, every history of the table
    of codes and every form of `addmul1`, exactly when the blocks fit an `int` together. -/
theorem rs_round_trip (k n : Nat) (hk : 1 ≤ k) (hkn : k ≤ n) (hn : n ≤ 255) (codes : CodeTable) (m : Mem P)
    (data : Nat → Option P) (buf : Nat → P) (hb : Buffers k n data buf) (size : Nat) :
    RoundTrip k n codes m data size ↔ k * size ≤ intMax :=
  ⟨fits_of_roundTrip codes m hb, roundTrip_of_fits hk hkn hn codes m hb⟩

/-- Two blocks of data and one of parity, three bytes each. -/
theorem rs_round_trip_small : RoundTrip 2 3 ⟨.avx2, fun _ _ => none⟩ (fun p i => .ofNat (p + i)) (fun i => some i) 3 :=
  (rs_round_trip 2 3 (by decide) (by decide) (by decide) _ _ _ (fun i => i)
    ⟨fun _ _ => rfl, fun _ _ _ _ _ h => h⟩ 3).mpr (by decide)

/-- Two blocks of a gigabyte each: `2 * 1073741824` is no `int`, so not even the decode
    with nothing lost returns. -/
theorem rs_round_trip_huge :
    ¬ RoundTrip 2 2 ⟨.ssse3, fun _ _ => none⟩ (fun _ _ => 0) (fun i => some i) 1073741824 := by
  intro h
  have hb : Buffers 2 2 (fun i => some i) (fun i => i) := ⟨fun _ _ => rfl, fun _ _ _ _ _ h => h⟩
  exact absurd (fits_of_roundTrip _ _ hb h) (by decide)

end UdpSpeeder.Fec
