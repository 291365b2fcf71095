/-
  UdpSpeeder.Manager.Format — the blob format, and what `blob_decode_t::output` accepts.

  A buffer `Begins` with packets when their pack is at its start and ends within
  `current_len`. The record loop succeeds exactly on records that fit (`parse_iff`), and
  leaves a pointer to each body, where the format has it (`parse_places`). The count is
  read as an unsigned word and compared as an `int`: with its top bit set it is negative,
  passes as a small one, and no record is looked at. So the parser is exact on a buffer
  if the top bit of its count is clear, and not if it is set (`output_exact`).
-/

import UdpSpeeder.Manager.Blob

namespace UdpSpeeder.Manager

open Lib

/-! ## Words read are words written -/

theorem be16_readU16 (f : Nat → Byte) (off : Nat) : HasAt f off (be16 (readU16 f off)) := by
  have h0 := (f off).toNat_lt
  have h1 := (f (off + 1)).toNat_lt
  intro i hi
  have hi : i < 2 := hi
  apply Byte.toNat_inj.mp
  rcases i with _ | _ | i
  · simp [be16, mem, readU16]
    omega
  · simp [be16, mem, readU16]
    omega
  · omega

theorem be32_readU32 (f : Nat → Byte) : HasAt f 0 (be32 (readU32 f 0).toNat) := by
  have h0 := (f 0).toNat_lt
  have h1 := (f 1).toNat_lt
  have h2 := (f 2).toNat_lt
  have h3 := (f 3).toNat_lt
  have hw : (readU32 f 0).toNat = (f 3).toNat + ((f 2).toNat + ((f 1).toNat + (f 0).toNat * 256) * 256) * 256 := by
    simp [readU32]
    omega
  intro i hi
  have hi : i < 4 := hi
  apply Byte.toNat_inj.mp
  rw [hw]
  rcases i with _ | _ | _ | _ | i
  · simp [be32, mem]
    omega
  · simp [be32, mem]
    omega
  · simp [be32, mem]
    omega
  · simp [be32, mem]
    omega
  · omega

namespace BlobDecode

/-! ## The format -/

/-- The buffer begins with the pack of `ps`, which ends within `current_len`. -/
structure Begins (b : BlobDecode) (ps : List Bytes) : Prop where
  count : ps.length ≤ maxBlobPacketNum
  lengths : ∀ p ∈ ps, p.length ≤ 65535
  bytes : HasAt b.inputBuf 0 (pack ps)
  fits : (pack ps).length ≤ b.currentLen

/-- The `int` that the count word is read as. -/
theorem toInt_small {w : U32} (h : w.toNat < 2 ^ 31) : toInt w = w.toNat := BitVec.toInt_eq_toNat_of_lt (by omega)

theorem toInt_large {w : U32} (h : 2 ^ 31 ≤ w.toNat) : toInt w < 0 := by
  have := w.isLt
  unfold toInt
  rw [BitVec.toInt_eq_toNat_cond, if_neg (by omega)]
  omega

theorem Begins.count_word {b : BlobDecode} {ps : List Bytes} (h : b.Begins ps) : (readU32 b.inputBuf 0).toNat = ps.length := by
  have hc := h.count
  have hbytes := h.bytes
  unfold maxBlobPacketNum at hc
  rw [pack, HasAt.append] at hbytes
  rw [hasAt_be32 hbytes.1 (by omega), BitVec.toNat_ofNat]
  exact Nat.mod_eq_of_lt (by omega)

theorem Begins.four_le {b : BlobDecode} {ps : List Bytes} (h : b.Begins ps) : 4 ≤ b.currentLen := by
  have hfits := h.fits
  rw [pack_length] at hfits
  omega

/-! ## The record loop -/

/-- The loop gets through `n` records exactly when they are there and fit. -/
theorem parse_iff (b : BlobDecode) (n i pos : Nat) (hpos : pos ≤ b.currentLen) : (b.parse n i pos).1 = true ↔
    ∃ ps : List Bytes, ps.length = n ∧ (∀ p ∈ ps, p.length ≤ 65535) ∧ HasAt b.inputBuf pos (body ps) ∧
      pos + (body ps).length ≤ b.currentLen := by
  constructor
  · intro h
    induction n generalizing b i pos with
    | zero => exact ⟨[], rfl, by simp, fun i hi => absurd hi (by simp), hpos⟩
    | succ n ih =>
      unfold parse at h
      split at h
      · cases h
      · simp only at h
        split at h
        · cases h
        · rename_i hrec
          obtain ⟨ps, hn, hlen, hat, hfit⟩ := ih (b.noted i pos) (i + 1) _ (by show _ ≤ b.currentLen; omega) h
          have hl16 := readU16_lt b.inputBuf pos
          -- the record's bytes are whatever follows its length
          refine ⟨slice b.inputBuf (pos + 2) (readU16 b.inputBuf pos) :: ps, by simp [hn], ?_, ?_, ?_⟩
          · intro p hp
            rcases List.mem_cons.mp hp with rfl | hp
            · rw [slice_length]
              omega
            · exact hlen p hp
          · rw [body_cons, HasAt.append, record, HasAt.append, slice_length]
            refine ⟨⟨be16_readU16 _ _, hasAt_slice _ _ _⟩, ?_⟩
            rw [List.length_append, slice_length, show (be16 (readU16 b.inputBuf pos)).length = 2 from rfl, ← Nat.add_assoc]
            exact hat
          · have hcur : (b.noted i pos).currentLen = b.currentLen := rfl
            rw [body_cons, List.length_append, record_length, slice_length]
            omega
  · rintro ⟨ps, rfl, hlen, hat, hfit⟩
    exact (parse_body b ps i pos hlen hat hfit).1

/-- Where the loop points: at each body, behind the records before it. -/
theorem parse_places (b : BlobDecode) (ps : List Bytes) (i pos : Nat) (hlen : ∀ p ∈ ps, p.length ≤ 65535)
    (hat : HasAt b.inputBuf pos (body ps)) (hfit : pos + (body ps).length ≤ b.currentLen) :
    ∀ r < ps.length, (b.parse ps.length i pos).2.outputBuf (i + r) = pos + (body (ps.take r)).length + 2 ∧
      (b.parse ps.length i pos).2.outputLen (i + r) = (ps.getD r []).length := by
  induction ps generalizing b i pos with
  | nil => exact fun r hr => absurd hr (Nat.not_lt_zero r)
  | cons p ps ih =>
    rw [body_cons, HasAt.append, record_length, record, HasAt.append] at hat
    obtain ⟨⟨hlen16, -⟩, hrest⟩ := hat
    rw [body_cons, List.length_append, record_length] at hfit
    have hread : readU16 b.inputBuf pos = p.length := hasAt_be16 hlen16 (hlen p List.mem_cons_self)
    simp only [List.length_cons]
    unfold parse
    rw [if_neg (by omega)]
    simp only [hread]
    rw [if_neg (by omega)]
    have hmore := ih (b.noted i pos) (i + 1) (pos + 2 + p.length) (fun q hq => hlen q (List.mem_cons_of_mem _ hq))
      (by rw [Nat.add_assoc]; exact hrest) (by show pos + 2 + p.length + _ ≤ b.currentLen; omega)
    intro r hr
    cases r with
    | zero =>
      obtain ⟨-, -, hf⟩ := parse_frame (b.noted i pos) ps.length (i + 1) (pos + 2 + p.length)
      obtain ⟨h3, h4⟩ := hf i (by omega)
      refine ⟨h3.trans (upd_same _ _ _), h4.trans ?_⟩
      exact (upd_same _ _ _).trans hread
    | succ r =>
      obtain ⟨h3, h4⟩ := hmore r (by omega)
      rw [show i + (r + 1) = i + 1 + r by omega, h3, h4]
      refine ⟨?_, rfl⟩
      rw [List.take_succ_cons, body_cons, List.length_append, record_length]
      omega

/-! ## What `output` accepts -/

/-- `output` takes the buffers that begin with packets and no others, and hands out those
    packets: as many as the count says, each where its body is, one behind the other. -/
structure Exact (b : BlobDecode) : Prop where
  accepts : b.output.ret = 0 ↔ ∃ ps, b.Begins ps
  refuses : b.output.ret = 0 ∨ b.output.ret = -1
  hands : ∀ ps, b.Begins ps → b.output.n = some (ps.length : Int) ∧ b.output.selected = true ∧
    b.output.blob.inputBuf = b.inputBuf ∧ b.output.blob.packets ps.length = ps
  places : ∀ ps, b.Begins ps → ∀ r < ps.length,
    b.output.blob.outputBuf r = 4 + (body (ps.take r)).length + 2 ∧ b.output.blob.outputLen r = (ps.getD r []).length ∧
      b.output.blob.outputBuf r + b.output.blob.outputLen r ≤ b.currentLen ∧
      ∀ s, r < s → s < ps.length → b.output.blob.outputBuf r + b.output.blob.outputLen r ≤ b.output.blob.outputBuf s

/-- Behind a record's body comes the next record. -/
theorem body_take_succ (ps : List Bytes) {r : Nat} (hr : r < ps.length) :
    (body (ps.take (r + 1))).length = (body (ps.take r)).length + 2 + (ps.getD r []).length := by
  rw [List.take_succ_eq_append_getElem hr, body_append, List.length_append, body_cons, body_nil, List.append_nil, record_length,
    List.getD_eq_getElem _ _ hr]
  omega

theorem body_take_le (ps : List Bytes) {r s : Nat} (h : r ≤ s) : (body (ps.take r)).length ≤ (body (ps.take s)).length := by
  rw [← Nat.min_eq_left h, ← List.take_take]
  conv_rhs => rw [← List.take_append_drop r (ps.take s)]
  rw [body_append, List.length_append]
  omega

/-- With a count that is not negative as an `int`, `output` is the record loop. -/
theorem output_small {b : BlobDecode} (h4 : 4 ≤ b.currentLen) (hw : (readU32 b.inputBuf 0).toNat ≤ maxBlobPacketNum) :
    b.output = ⟨if (b.parse (readU32 b.inputBuf 0).toNat 0 4).1 then 0 else -1, some ((readU32 b.inputBuf 0).toNat : Int), true,
      (b.parse (readU32 b.inputBuf 0).toNat 0 4).2⟩ := by
  unfold maxBlobPacketNum at hw
  unfold output
  rw [if_neg (by omega), toInt_small (by omega)]
  simp only
  rw [if_neg (by unfold maxBlobPacketNum; omega), Int.toNat_natCast]

theorem exact_of_small {b : BlobDecode} (h4 : 4 ≤ b.currentLen) (hw : (readU32 b.inputBuf 0).toNat ≤ maxBlobPacketNum) :
    b.Exact := by
  have hout := output_small h4 hw
  have hiff := parse_iff b (readU32 b.inputBuf 0).toNat 0 4 h4
  have hrecords : ∀ ps, b.Begins ps → HasAt b.inputBuf 4 (body ps) ∧ 4 + (body ps).length ≤ b.currentLen := by
    intro ps h
    have hbytes := h.bytes
    have hfits := h.fits
    rw [pack, HasAt.append] at hbytes
    rw [pack_length] at hfits
    exact ⟨hbytes.2, hfits⟩
  have hret : b.output.ret = 0 ↔ (b.parse (readU32 b.inputBuf 0).toNat 0 4).1 = true := by
    rw [hout]
    simp only
    split
    · rename_i h; exact iff_of_true rfl h
    · rename_i h; exact iff_of_false (by decide) h
  exact {
    accepts := by
      rw [hret, hiff]
      constructor
      · rintro ⟨ps, hn, hlen, hat, hfit⟩
        refine ⟨ps, by rw [hn]; exact hw, hlen, ?_, by rw [pack_length]; exact hfit⟩
        rw [pack, HasAt.append, hn]
        exact ⟨be32_readU32 _, hat⟩
      · rintro ⟨ps, h⟩
        exact ⟨ps, h.count_word.symm, h.lengths, hrecords ps h⟩
    refuses := by
      rw [hout]
      simp only
      split
      · exact .inl rfl
      · exact .inr rfl
    hands := by
      intro ps h
      obtain ⟨-, hn, hsel, hps⟩ := output_pack b ps h.lengths h.count h.bytes h.fits
      refine ⟨hn, hsel, ?_, hps⟩
      rw [hout]
      exact (parse_frame b _ 0 4).1
    places := by
      intro ps h
      obtain ⟨hat, hfit⟩ := hrecords ps h
      have hplaces := parse_places b ps 0 4 h.lengths hat hfit
      rw [← h.count_word] at hplaces
      simp only [Nat.zero_add, h.count_word] at hplaces
      rw [hout, h.count_word]
      intro r hr
      obtain ⟨hbuf, hlen⟩ := hplaces r hr
      have hsucc := body_take_succ ps hr
      refine ⟨hbuf, hlen, ?_, ?_⟩
      · have hall := body_take_le ps (show r + 1 ≤ ps.length from hr)
        rw [List.take_length] at hall
        simp only [hbuf, hlen]
        omega
      · intro s hs hs'
        have hle := body_take_le ps (show r + 1 ≤ s from hs)
        simp only [hbuf, hlen, (hplaces s hs').1]
        omega }

theorem exact_of_refused {b : BlobDecode} (hret : b.output.ret = -1) (hnot : ¬ ∃ ps, b.Begins ps) : b.Exact where
  accepts := iff_of_false (by rw [hret]; decide) hnot
  refuses := .inr hret
  hands := fun ps h => absurd ⟨ps, h⟩ hnot
  places := fun ps h => absurd ⟨ps, h⟩ hnot

/-- The parser accepts exactly its format when the count is below 2^31. -/
theorem output_exact (b : BlobDecode) : b.Exact ↔ b.currentLen < 4 ∨ (readU32 b.inputBuf 0).toNat < 2 ^ 31 := by
  constructor
  · intro h
    by_contra hbad
    rw [not_or] at hbad
    obtain ⟨h4, hw⟩ := hbad
    have hneg := toInt_large (Nat.not_lt.mp hw)
    -- a negative count passes and leaves the loop nothing to do
    have hret : b.output.ret = 0 := by
      unfold output
      rw [if_neg h4]
      simp only
      rw [if_neg (by omega), Int.toNat_of_nonpos hneg.le]
      rfl
    obtain ⟨ps, hps⟩ := h.accepts.mp hret
    have hcount := hps.count
    rw [← hps.count_word] at hcount
    unfold maxBlobPacketNum at hcount
    omega
  · intro h
    by_cases h4 : b.currentLen < 4
    · refine exact_of_refused (by unfold output; rw [if_pos h4]) ?_
      rintro ⟨ps, hps⟩
      have := hps.four_le
      omega
    · by_cases hw : (readU32 b.inputBuf 0).toNat ≤ maxBlobPacketNum
      · exact exact_of_small (by omega) hw
      · refine exact_of_refused ?_ ?_
        · unfold output
          rw [if_neg h4, toInt_small (by omega)]
          simp only
          rw [if_pos (by omega)]
        · rintro ⟨ps, hps⟩
          have := hps.count
          rw [← hps.count_word] at this
          exact hw this

/-- A count of 0xFFFFFFFF is accepted as minus one. -/
theorem output_negative : ¬ ∀ b : BlobDecode, b.Exact := by
  intro hall
  have hexact := hall { (default : BlobDecode) with inputBuf := fun _ => .ofNat 255, currentLen := 4 }
  obtain ⟨ps, hps⟩ := hexact.accepts.mp (by decide)
  have hword := hps.count_word
  have hcount := hps.count
  rw [← hword] at hcount
  exact absurd hcount (by decide)

end BlobDecode

end UdpSpeeder.Manager
