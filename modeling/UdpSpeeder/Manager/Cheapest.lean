/-
  UdpSpeeder.Manager.Cheapest — which shape `pickShape` takes, and when it is the cheapest.

  The rows are compared by `get_shard_len(n, 0)`, which leaves room for the two bytes of a
  packet that is not there, and the products are `u32_t`. So the loop takes the row that comes
  first, by cost, for a blob two bytes longer (`pickShape_first`), and that is a cheapest row
  for the blob there is exactly when the two bytes do not cost some cheapest row its lead
  (`pick_cheapest_iff`). They cost no row its lead where they change no order of two rows
  (`leadKept_of_order`).
-/

import UdpSpeeder.Manager.Progress

namespace UdpSpeeder.Manager

open Lib Fec

/-- The blob with two more bytes in it. -/
def BlobEncode.longer (b : BlobEncode) : BlobEncode := { b with currentLen := b.currentLen + 2 }

theorem BlobEncode.getShardLenNext_zero (b : BlobEncode) (n : Nat) : b.getShardLenNext n 0 = b.longer.getShardLen n := rfl

namespace FecEncodeManager

section Cheapest

variable (o : EncodeOptions) (p : FecParameter) (b : BlobEncode)

/-! ## What a row costs -/

/-- Row `d` of the table, for `d` data shards. -/
def rowOf (d : Nat) : RsParameter := p.rsPar (d - 1)

/-- The bytes on the wire when the blob is cut into `d` slices. -/
def wireCost (d : Nat) : Nat := (b.getShardLen d + o.headerOverhead.toNat) * (d + (rowOf p d).y)

/-- A row the group may be sent with: the tail, or a shorter one within the mtu. -/
def Candidate (d : Nat) : Prop := d = p.rsCnt ∨ 1 ≤ d ∧ d < p.rsCnt ∧ b.getShardLen d ≤ p.mtu

instance (d : Nat) : Decidable (Candidate p b d) :=
  inferInstanceAs (Decidable (d = p.rsCnt ∨ 1 ≤ d ∧ d < p.rsCnt ∧ b.getShardLen d ≤ p.mtu))

/-- No candidate costs less than row `d`, itself one. -/
def Cheapest (d : Nat) : Prop := Candidate p b d ∧ ∀ r, Candidate p b r → wireCost o p b d ≤ wireCost o p b r

/-- Row `r` before row `d`: it costs less, as a `u32_t`, or the same, and is the tail or else
    the shorter one. -/
def Ahead (r d : Nat) : Prop :=
  wireCost o p b r % 2 ^ 32 < wireCost o p b d % 2 ^ 32 ∨
    wireCost o p b r % 2 ^ 32 = wireCost o p b d % 2 ^ 32 ∧ (r = p.rsCnt ∨ d ≠ p.rsCnt ∧ r < d)

/-- The cost of the tail, with the two bytes, fits the `int` it is computed in. -/
def TailFits : Prop :=
  ((b.longer.getShardLen p.rsCnt : Int) + o.headerOverhead) * ((p.rsCnt : Int) + (rowOf p p.rsCnt).y) ≤ intMax

/-- The two bytes do not cost some cheapest row its lead: it is still within the mtu, and still
    ahead of every row that costs more than it does without them. -/
def LeadKept : Prop :=
  ∃ d, Cheapest o p b d ∧ Candidate p b.longer d ∧
    ∀ r, Candidate p b.longer r → wireCost o p b d < wireCost o p b r → Ahead o p b.longer d r

/-- The shape taken is a row of the table and no candidate costs less. -/
def PicksCheapest : Prop :=
  ∃ d, pickShape o p b (p.rsPar (p.rsCnt - 1)) = .ok (rowOf p d) ∧ (rowOf p d).x = d ∧ 1 ≤ d ∧ d ≤ p.rsCnt ∧
    ∀ d', Candidate p b d' → wireCost o p b d ≤ wireCost o p b d'

/-! ## The row taken is the first -/

variable {o p b}

theorem Ahead.asymm {r d : Nat} (h : Ahead o p b r d) (hne : r ≠ d) : ¬ Ahead o p b d r := by
  unfold Ahead at *
  omega

theorem Candidate.range (hp : p.WellFormed) {d : Nat} (h : Candidate p b d) : 1 ≤ d ∧ d ≤ p.rsCnt := by
  rcases h with rfl | ⟨h1, h2, -⟩
  · exact ⟨hp.cnt, le_rfl⟩
  · exact ⟨h1, h2.le⟩

/-- Two bytes less bring no row over the mtu. -/
theorem Candidate.of_longer {d : Nat} (h : Candidate p b.longer d) : Candidate p b d := by
  rcases h with h | ⟨h1, h2, h3⟩
  · exact .inl h
  · exact .inr ⟨h1, h2, (Nat.div_le_div_right (by show b.currentLen + d - 1 ≤ b.currentLen + 2 + d - 1; omega)).trans h3⟩

theorem rowOf_x (hp : p.WellFormed) {d : Nat} (h : 1 ≤ d ∧ d ≤ p.rsCnt) : (rowOf p d).x = d := by
  have hrow := hp.numbered (d - 1) (by omega)
  rw [Nat.sub_add_cancel h.1] at hrow
  exact hrow

/-- The cost the loop computes is the one of the longer blob. -/
theorem rowCost_toNat (hp : p.WellFormed) (h0 : 0 ≤ o.headerOverhead) {d : Nat} (h : 1 ≤ d ∧ d ≤ p.rsCnt) :
    (rowCost o (b.getShardLenNext d 0) (rowOf p d)).toNat = wireCost o p b.longer d % 2 ^ 32 := by
  obtain ⟨overhead, hover⟩ := Int.eq_ofNat_of_zero_le h0
  unfold rowCost wireCost
  rw [hover, rowOf_x hp h, BitVec.ofInt_natCast, ← BitVec.ofNat_add, ← BitVec.ofNat_mul, BitVec.toNat_ofNat]
  rfl

theorem tailCost_eq (hp : p.WellFormed) (h0 : 0 ≤ o.headerOverhead) (hfits : TailFits o p b) :
    ∃ cost, tailCost o b (p.rsPar (p.rsCnt - 1)) = .ok cost ∧ cost.toNat = wireCost o p b.longer p.rsCnt % 2 ^ 32 := by
  have hx : (rowOf p p.rsCnt).x = p.rsCnt := rowOf_x hp ⟨hp.cnt, le_rfl⟩
  have hlow : 0 ≤ ((b.longer.getShardLen p.rsCnt : Int) + o.headerOverhead) * ((p.rsCnt : Int) + (rowOf p p.rsCnt).y) :=
    Int.mul_nonneg (by omega) (by omega)
  unfold TailFits at hfits
  unfold tailCost
  simp only
  rw [show p.rsPar (p.rsCnt - 1) = rowOf p p.rsCnt from rfl, hx, BlobEncode.getShardLenNext_zero, check_true (by omega), ok_bind]
  refine ⟨_, rfl, ?_⟩
  obtain ⟨overhead, hover⟩ := Int.eq_ofNat_of_zero_le h0
  unfold wireCost
  rw [hover, show ((b.longer.getShardLen p.rsCnt : Int) + (overhead : Int)) * ((p.rsCnt : Int) + ((rowOf p p.rsCnt).y : Int)) =
    (((b.longer.getShardLen p.rsCnt + overhead) * (p.rsCnt + (rowOf p p.rsCnt).y) : Nat) : Int) by push_cast; rfl, BitVec.ofInt_natCast,
    BitVec.toNat_ofNat]
  rfl

/-- The best of the tail and the first `m` rows. -/
structure FirstOf (o : EncodeOptions) (p : FecParameter) (b : BlobEncode) (m : Nat) (best : Best) : Prop where
  len : best.len.toNat = wireCost o p b.longer best.dataNum % 2 ^ 32
  among : Candidate p b.longer best.dataNum ∧ (best.dataNum = p.rsCnt ∨ best.dataNum ≤ m)
  first : ∀ d, Candidate p b.longer d → d = p.rsCnt ∨ d ≤ m → d ≠ best.dataNum → Ahead o p b.longer best.dataNum d

theorem tryRow_first (hp : p.WellFormed) (h0 : 0 ≤ o.headerOverhead) {m : Nat} {best : Best} (hm : m < p.rsCnt - 1)
    (h : FirstOf o p b m best) : ∃ best', tryRow o p b m best = .ok best' ∧ FirstOf o p b (m + 1) best' := by
  have hrow := hp.numbered m (by omega)
  have hcost : (rowCost o (b.getShardLenNext (m + 1) 0) (p.rsPar m)).toNat = wireCost o p b.longer (m + 1) % 2 ^ 32 :=
    rowCost_toNat hp h0 (d := m + 1) (by omega)
  have hstay : (Candidate p b.longer (m + 1) → Ahead o p b.longer best.dataNum (m + 1)) → FirstOf o p b (m + 1) best := by
    intro hb
    refine ⟨h.len, ⟨h.among.1, by have := h.among.2; omega⟩, fun d hd hle hne => ?_⟩
    by_cases e : d = m + 1
    · subst e
      exact hb hd
    · exact h.first d hd (by omega) hne
  unfold tryRow
  simp only
  rw [check_true hrow, ok_bind, hrow]
  split
  · rename_i hmtu
    refine ⟨best, rfl, hstay fun hd => ?_⟩
    rcases hd with hd | ⟨-, -, hd⟩
    · omega
    · exact absurd hd (Nat.not_le.mpr hmtu)
  · rename_i hmtu
    split
    · rename_i hlt
      rw [BitVec.lt_def, hcost, h.len] at hlt
      have hthis : Candidate p b.longer (m + 1) := .inr ⟨by omega, by omega, Nat.not_lt.mp hmtu⟩
      refine ⟨_, rfl, hcost, ⟨hthis, .inr le_rfl⟩, fun d hd hle hne => ?_⟩
      simp only at hne ⊢
      by_cases e : d = best.dataNum
      · rw [e]
        exact .inl hlt
      · rcases h.first d hd (by omega) e with hb | ⟨hb, -⟩
        · exact .inl (hlt.trans hb)
        · exact .inl (hb ▸ hlt)
    · rename_i hge
      rw [BitVec.lt_def, hcost, h.len, Nat.not_lt] at hge
      refine ⟨best, rfl, hstay fun _ => ?_⟩
      have hamong := h.among.2
      rcases Nat.lt_or_eq_of_le hge with hb | hb
      · exact .inl hb
      · exact .inr ⟨hb, by omega⟩

theorem pickShape_first (hp : p.WellFormed) (h0 : 0 ≤ o.headerOverhead) (hopt : o.shortPacketOptimize = true)
    (hfits : TailFits o p b) : ∃ d, pickShape o p b (p.rsPar (p.rsCnt - 1)) = .ok (rowOf p d) ∧ Candidate p b.longer d ∧
      ∀ r, Candidate p b.longer r → r ≠ d → Ahead o p b.longer d r := by
  obtain ⟨cost, htail, hcost⟩ := tailCost_eq hp h0 hfits
  obtain ⟨best, hbest, hend⟩ := @loopE_ok _ _ (FirstOf o p b) (tryRow o p b) ⟨cost, p.rsCnt⟩
    ⟨hcost, ⟨.inl rfl, .inl rfl⟩, fun d hd hle hne => absurd (show d = p.rsCnt by rcases hd with hd | hd <;> omega) hne⟩ (p.rsCnt - 1)
    fun m hm best h => tryRow_first hp h0 hm h
  have hrange := hend.among.1.range hp
  refine ⟨best.dataNum, ?_, hend.among.1, ?_⟩
  · unfold pickShape
    rw [if_pos hopt, htail, ok_bind, hp.tail_x, check_true le_rfl, ok_bind, hbest, ok_bind, check_true hrange, ok_bind]
    exact congrArg (fun x => Except.ok (RsParameter.mk x _)) (rowOf_x hp hrange).symm
  · intro r hr hne
    refine hend.first r hr ?_ hne
    rcases hr with hr | hr
    · exact .inl hr
    · omega

/-- A shape is taken only if the cost of the tail has not overflown. -/
theorem pickShape_tailFits (hp : p.WellFormed) (hopt : o.shortPacketOptimize = true) {row : RsParameter}
    (h : pickShape o p b (p.rsPar (p.rsCnt - 1)) = .ok row) : TailFits o p b := by
  unfold pickShape at h
  rw [if_pos hopt] at h
  obtain ⟨cost, hcost, -⟩ := bind_ok.mp h
  unfold tailCost at hcost
  simp only at hcost
  rw [check_bind] at hcost
  have hle := hcost.1.2
  rw [hp.tail_x] at hle
  exact hle

/-! ## When it is the cheapest -/

theorem leadKept_of_order (hsmall : ∀ d, Candidate p b.longer d → wireCost o p b.longer d < 2 ^ 32)
    (horder : ∀ d r, Candidate p b d → Candidate p b.longer r → wireCost o p b d < wireCost o p b r →
      Candidate p b.longer d ∧ wireCost o p b.longer d < wireCost o p b.longer r) : LeadKept o p b := by
  obtain ⟨d, hd, hleast⟩ := (measure (wireCost o p b)).wf.has_min {d | Candidate p b d} ⟨p.rsCnt, .inl rfl⟩
  have hlead : ∀ d', Cheapest o p b d' → Candidate p b.longer d' → LeadKept o p b := by
    intro d' hd' hlonger
    refine ⟨d', hd', hlonger, fun r hr hlt => .inl ?_⟩
    rw [Nat.mod_eq_of_lt (hsmall d' hlonger), Nat.mod_eq_of_lt (hsmall r hr)]
    exact (horder d' r hd'.1 hr hlt).2
  have hcheap : ∀ r, Candidate p b r → wireCost o p b d ≤ wireCost o p b r := fun r hr => Nat.not_lt.mp (hleast r hr)
  -- the tail is never passed over: either it is a cheapest row itself or `d` is below it
  rcases Nat.lt_or_ge (wireCost o p b d) (wireCost o p b p.rsCnt) with hlt | hge
  · exact hlead d ⟨hd, hcheap⟩ (horder d p.rsCnt hd (.inl rfl) hlt).1
  · exact hlead p.rsCnt ⟨.inl rfl, fun r hr => hge.trans (hcheap r hr)⟩ (.inl rfl)

/-- With a table in order and any blob, the shape taken costs the least on the wire if and only
    if the cost of the tail fits an `int` and the two bytes do not cost some cheapest row its
    lead. -/
theorem pick_cheapest_iff (o : EncodeOptions) (p : FecParameter) (b : BlobEncode) (hp : p.WellFormed) (h0 : 0 ≤ o.headerOverhead)
    (hopt : o.shortPacketOptimize = true) : PicksCheapest o p b ↔ TailFits o p b ∧ LeadKept o p b := by
  constructor
  · intro ⟨d, hpick, hx, _, _, hleast⟩
    have hfits := pickShape_tailFits hp hopt hpick
    obtain ⟨d', hpick', hd', hfirst⟩ := pickShape_first hp h0 hopt hfits
    have hsame : d' = d := by
      rw [hpick] at hpick'
      rw [← rowOf_x hp (hd'.range hp), ← Except.ok.inj hpick', hx]
    subst hsame
    refine ⟨hfits, d', ⟨?_, hleast⟩, hd', fun r hr hlt => hfirst r hr fun e => ?_⟩
    · exact hd'.of_longer
    · rw [e] at hlt
      exact lt_irrefl _ hlt
  · intro ⟨hfits, d', hd', hlonger, hahead⟩
    obtain ⟨d, hpick, hd, hfirst⟩ := pickShape_first hp h0 hopt hfits
    have hrange := hd.range hp
    refine ⟨d, hpick, rowOf_x hp hrange, hrange.1, hrange.2, fun r hr => ?_⟩
    by_contra hlt
    -- a row dearer than `d'` is behind it, so it is not the first
    have hdear : wireCost o p b d' < wireCost o p b d := (hd'.2 r hr).trans_lt (Nat.lt_of_not_le hlt)
    have hne : d' ≠ d := by
      rintro rfl
      exact lt_irrefl _ hdear
    exact (hfirst d' hlonger hne).asymm hne.symm (hahead d hd hdear)

end Cheapest

/-- The table `20:10`, the mtu and the overhead of the default options. -/
def defaultTable : FecParameter where
  version := 0
  mtu := 1250
  queueLen := 200
  timeout := 8000
  mode := 0
  rsCnt := 20
  rsPar := fun i => ⟨i + 1, 10⟩

def defaultOptions : EncodeOptions := ⟨defaultTable, true, 40, 1⟩

theorem defaultTable_wellFormed : defaultTable.WellFormed := by
  refine ⟨by decide, fun _ _ => rfl, fun i hi => ?_⟩
  have hi : i < 20 := hi
  show i + 1 + 10 ≤ 255
  omega

/-- A blob with one packet of `len` bytes. -/
def blobOf (len : Nat) : BlobEncode := { (default : BlobEncode) with currentLen := 4 + 2 + len, counter := 1 }

/-- A packet of 1122 bytes: the two bytes change no order, and 18 slices are the cheapest. -/
theorem pick_cheapest_iff_default : PicksCheapest defaultOptions defaultTable (blobOf 1122) := by
  refine (pick_cheapest_iff _ _ _ defaultTable_wellFormed (by decide) rfl).mpr ⟨by unfold TailFits; decide, leadKept_of_order ?_ ?_⟩
  · intro d hd
    have hall : ∀ d ≤ 20, wireCost defaultOptions defaultTable (blobOf 1122).longer d < 2 ^ 32 := by decide +kernel
    exact hall d (hd.range defaultTable_wellFormed).2
  · intro d r hd hr hlt
    have hall : ∀ d ≤ 20, ∀ r ≤ 20,
        1 ≤ d ∧ wireCost defaultOptions defaultTable (blobOf 1122) d < wireCost defaultOptions defaultTable (blobOf 1122) r →
        Candidate defaultTable (blobOf 1122).longer d ∧
          wireCost defaultOptions defaultTable (blobOf 1122).longer d < wireCost defaultOptions defaultTable (blobOf 1122).longer r := by
      decide +kernel
    have hrange := hd.range defaultTable_wellFormed
    exact hall d hrange.2 r (hr.range defaultTable_wellFormed).2 ⟨hrange.1, hlt⟩

/-- It is cut into 16 slices, for 2912 bytes, where the tail would have sent 2910. -/
theorem pick_not_cheapest : ¬ ∀ (o : EncodeOptions) (p : FecParameter) (b : BlobEncode), p.WellFormed → 0 ≤ o.headerOverhead →
    o.shortPacketOptimize = true → PicksCheapest o p b := by
  intro hall
  obtain ⟨d, hpick, hx, -, -, hleast⟩ := hall defaultOptions defaultTable (blobOf 1134) defaultTable_wellFormed (by decide) rfl
  have hrun : (pickShape defaultOptions defaultTable (blobOf 1134) (defaultTable.rsPar (defaultTable.rsCnt - 1))).toOption.map
      RsParameter.x = some 16 := by decide +kernel
  rw [hpick] at hrun
  simp only [Except.toOption, Option.map_some, Option.some.injEq, hx] at hrun
  subst hrun
  exact absurd (hleast 20 (.inl rfl)) (by decide)

end FecEncodeManager

end UdpSpeeder.Manager
