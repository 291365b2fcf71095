/-
  UdpSpeeder.Manager.Points — the table `rs_from_str` makes of a string it accepts, in terms
  of the points the string gives.

  The rows up to the first point take its `y`, a point's own row is the point, and between
  two of them 0.9999 rounds up as far as a ceiling does, no distance being above 254; the
  line between two points that fit stays below 255, so nothing is ever cut
  (`rsFromStr_interpolates`). The check of `x + y` is made on an `int`: a sum of 2^31 or more
  has become negative and passes, and what is stored of it does not fit
  (`rsFromStr_overflow`).
-/

import Mathlib.Data.Rat.Floor
import Mathlib.Tactic.Linarith
import Mathlib.Tactic.Ring
import Mathlib.Tactic.FieldSimp
import Mathlib.Tactic.Positivity
import UdpSpeeder.Manager.Param

namespace UdpSpeeder.Manager

open Lib

namespace FecParameter

/-! ## Rounding up -/

/-- The line through two points, at `i`. -/
def lineAt (pre now : Int × Int) (i : Int) : ℚ := pre.2 + (now.2 - pre.2) * (i - pre.1) / (now.1 - pre.1)

/-- 0.9999 rounds a fraction up whose denominator is no larger than 10000. -/
theorem tdiv_round_up {a d : Int} (ha : 0 ≤ a) (hd : 0 < d) (hsmall : d ≤ 10000) :
    Int.tdiv (10000 * a + 9999 * d) (10000 * d) = ⌈(a : ℚ) / d⌉ := by
  have hdq : (0 : ℚ) < d := by exact_mod_cast hd
  rw [Int.tdiv_eq_ediv_of_nonneg (by omega)]
  have hlow := Int.ediv_mul_le (10000 * a + 9999 * d) (show 10000 * d ≠ 0 by omega)
  have hhigh := Int.lt_ediv_add_one_mul_self (10000 * a + 9999 * d) (show 0 < 10000 * d by omega)
  generalize (10000 * a + 9999 * d) / (10000 * d) = q at hlow hhigh ⊢
  have h1 : (q - 1) * d < a := by linarith
  have h2 : a ≤ q * d := by
    have : 10000 * (a - q * d) < 10000 := by linarith
    omega
  symm
  rw [Int.ceil_eq_iff, lt_div_iff₀ hdq, div_le_iff₀ hdq]
  exact ⟨by exact_mod_cast h1, by exact_mod_cast h2⟩

/-- A point as it is stored. -/
def stored (q : Int × Int) : RsParameter := ⟨narrow q.1, narrow q.2⟩

/-- The rows between two points lie on their line, rounded up. -/
theorem interpolated_eq {pre now : RsParameter} {inX : Nat} (hpre : pre.x < inX) (hnow : inX < now.x) (hx : now.x ≤ maxFecPacketNum) :
    interpolated pre now inX = ⌈lineAt (pre.x, pre.y) (now.x, now.y) inX⌉ := by
  have hx' : (now.x : Int) ≤ 255 := by exact_mod_cast hx
  have hnum : (0 : Int) ≤ pre.y * (now.x - pre.x) + (now.y - pre.y) * (inX - pre.x) := by
    have e : (pre.y : Int) * (now.x - pre.x) + (now.y - pre.y) * (inX - pre.x) =
        pre.y * (now.x - inX) + now.y * (inX - pre.x) := by ring
    rw [e]
    have h1 : (0 : Int) ≤ now.x - inX := by omega
    have h2 : (0 : Int) ≤ inX - pre.x := by omega
    positivity
  have hd : (0 : Int) < now.x - pre.x := by omega
  have hdq : ((now.x : ℚ) - pre.x) ≠ 0 := by
    have : (pre.x : ℚ) < now.x := by exact_mod_cast hpre.trans hnow
    linarith
  unfold interpolated
  rw [tdiv_round_up hnum hd (by omega)]
  congr 1
  unfold lineAt
  push_cast
  rw [add_div, mul_div_assoc, div_self hdq, mul_one]

/-- Between two points that fit, a row on their line fits. -/
theorem lineAt_fits {pre now : RsParameter} {inX : Nat} (hpre : pre.x < inX) (hnow : inX < now.x)
    (hfit : pre.x + pre.y ≤ maxFecPacketNum) (hfit' : now.x + now.y ≤ maxFecPacketNum) :
    0 ≤ ⌈lineAt (pre.x, pre.y) (now.x, now.y) inX⌉ ∧ inX + ⌈lineAt (pre.x, pre.y) (now.x, now.y) inX⌉ ≤ maxFecPacketNum := by
  have h1 : (0 : ℚ) < inX - pre.x := by
    have : (pre.x : ℚ) < inX := by exact_mod_cast hpre
    linarith
  have h2 : (0 : ℚ) < now.x - inX := by
    have : (inX : ℚ) < now.x := by exact_mod_cast hnow
    linarith
  have hd : (0 : ℚ) < now.x - pre.x := by linarith
  have h3 : (pre.x : ℚ) + pre.y ≤ maxFecPacketNum := by exact_mod_cast hfit
  have h4 : (now.x : ℚ) + now.y ≤ maxFecPacketNum := by exact_mod_cast hfit'
  -- the row is a mean of the two points'
  have hline : lineAt (pre.x, pre.y) (now.x, now.y) inX = (pre.y * (now.x - inX) + now.y * (inX - pre.x)) / (now.x - pre.x) := by
    unfold lineAt
    rw [eq_div_iff hd.ne']
    push_cast
    field_simp
    ring
  constructor
  · refine Int.ceil_nonneg ?_
    rw [hline]
    positivity
  · have hle : ⌈lineAt (pre.x, pre.y) (now.x, now.y) inX⌉ ≤ (maxFecPacketNum : Int) - inX := by
      rw [Int.ceil_le, hline, div_le_iff₀ hd]
      push_cast
      have h5 := mul_le_mul_of_nonneg_right h3 h2.le
      have h6 := mul_le_mul_of_nonneg_right h4 h1.le
      linarith
    omega

/-- The row between two points that fit is the one on their line. -/
theorem rowBetween_eq {pre now : RsParameter} {inX : Nat} (hpre : pre.x < inX) (hnow : inX < now.x)
    (hfit : pre.x + pre.y ≤ maxFecPacketNum) (hfit' : now.x + now.y ≤ maxFecPacketNum) :
    ∃ y : Nat, (y : Int) = ⌈lineAt (pre.x, pre.y) (now.x, now.y) inX⌉ ∧ rowBetween pre now inX = .ok ⟨inX, y⟩ := by
  obtain ⟨h0, h255⟩ := lineAt_fits hpre hnow hfit hfit'
  have heq := interpolated_eq hpre hnow (by omega)
  refine ⟨narrow (interpolated pre now inX), ?_, ?_⟩
  · rw [heq]
    unfold narrow
    unfold maxFecPacketNum at h255
    omega
  · unfold rowBetween
    rw [heq]
    simp only
    rw [if_neg (by omega)]

/-! ## The rows of a table -/

/-- Rows below a point stay, every later point has its own row, and the rows between are
    the ones computed from the two points around them. -/
theorem fillFrom_reads {pre : RsParameter} {rest : List RsParameter} {rsPar rsPar' : Nat → RsParameter}
    (hchain : (pre :: rest).IsChain fun pre now => pre.x < now.x) (h : fillFrom pre rest rsPar = .ok rsPar') :
    (∀ i < pre.x, rsPar' i = rsPar i) ∧ (∀ now ∈ rest, rsPar' (now.x - 1) = now) ∧
      ∀ a b, [a, b] <:+: pre :: rest → ∀ i, a.x ≤ i → i < b.x - 1 → rowBetween a b (i + 1) = .ok (rsPar' i) := by
  induction rest generalizing pre rsPar with
  | nil =>
    cases h
    refine ⟨fun i _ => rfl, by simp, fun a b hab => ?_⟩
    have := hab.length_le
    simp at this
  | cons now rest ih =>
    obtain ⟨rsPar1, h1, h⟩ := bind_ok.mp h
    rw [List.isChain_cons_cons] at hchain
    obtain ⟨hlow, hrows, hown⟩ := fillTo_reads hchain.1 h1
    obtain ⟨hkeep, hlater, hmore⟩ := ih hchain.2 h
    have hlt := hchain.1
    refine ⟨?_, ?_, ?_⟩
    · intro i hi
      rw [hkeep i (by omega), hlow i hi]
    · intro r hr
      rcases List.mem_cons.mp hr with rfl | hr
      · rw [hkeep _ (by omega), hown]
      · exact hlater r hr
    · intro a b hab i hai hib
      rcases List.infix_cons_iff.mp hab with hfirst | hrest
      · obtain ⟨rfl, hsecond⟩ := List.cons_prefix_cons.mp hfirst
        obtain ⟨rfl, -⟩ := List.cons_prefix_cons.mp hsecond
        rw [hkeep i (by omega)]
        exact hrows i hai hib
      · exact hmore a b hrest i hai hib

theorem fillTo_total {pre now : RsParameter} (hx : now.x ≤ maxFecPacketNum) (rsPar : Nat → RsParameter) :
    ∃ rsPar', fillTo pre now rsPar = .ok rsPar' := by
  have hrow : ∀ j < now.x - 1 - pre.x, ∃ row, rowBetween pre now (pre.x + 1 + j) = .ok row := by
    intro j hj
    unfold rowBetween
    simp only
    split
    · rw [check_true (by omega), ok_bind]
      exact ⟨_, rfl⟩
    · exact ⟨_, rfl⟩
  unfold fillTo
  refine (loopE_ok (fun _ _ => True) trivial _ fun j hj t _ => ?_).imp fun _ h => h.1
  obtain ⟨row, h⟩ := hrow j hj
  exact ⟨upd t (pre.x + j) row, by rw [h, ok_bind], trivial⟩

theorem fillFrom_total {rest : List RsParameter} (pre : RsParameter) (hx : ∀ r ∈ rest, r.x ≤ maxFecPacketNum)
    (rsPar : Nat → RsParameter) : ∃ rsPar', fillFrom pre rest rsPar = .ok rsPar' := by
  induction rest generalizing pre rsPar with
  | nil => exact ⟨rsPar, rfl⟩
  | cons now rest ih =>
    obtain ⟨rsPar1, h1⟩ := @fillTo_total pre now (hx now List.mem_cons_self) rsPar
    obtain ⟨rsPar', h'⟩ := ih now (fun r hr => hx r (List.mem_cons_of_mem _ hr)) rsPar1
    refine ⟨rsPar', ?_⟩
    unfold fillFrom
    rw [h1, ok_bind, h']

/-! ## The points of a string -/

/-- The pairs a string gives, when each of its parts is one. -/
def givenPoints (s : List Char) : Option (List (Int × Int)) := (stringToVec s).mapM scanPair

/-- What the check of one point asks. -/
def Accepts (q : Int × Int) : Prop := 1 ≤ q.1 ∧ 0 ≤ q.2 ∧ wrapInt (q.1 + q.2) ≤ maxFecPacketNum

theorem parsePoint_iff {s : List Char} {r : RsParameter} :
    parsePoint s = some r ↔ ∃ q, scanPair s = some q ∧ Accepts q ∧ stored q = r := by
  unfold parsePoint Accepts
  simp only [Option.bind_eq_bind, Option.bind_eq_some_iff]
  refine exists_congr fun q => and_congr_right fun _ => ?_
  split
  · rename_i hbad
    constructor
    · intro h
      cases h
    · rintro ⟨⟨h1, h2, h3⟩, -⟩
      omega
  · rename_i hgood
    constructor
    · intro h
      cases h
      exact ⟨by omega, rfl⟩
    · rintro ⟨-, rfl⟩
      rfl

theorem mapM_parsePoint {l : List (List Char)} {rs : List RsParameter} (h : l.mapM parsePoint = some rs) :
    ∃ points, l.mapM scanPair = some points ∧ (∀ q ∈ points, Accepts q) ∧ points.map stored = rs := by
  induction l generalizing rs with
  | nil =>
    cases h
    exact ⟨[], rfl, by simp, rfl⟩
  | cons token l ih =>
    rw [List.mapM_cons] at h
    obtain ⟨r, hr, h⟩ := Option.bind_eq_some_iff.mp h
    obtain ⟨rs', hrs, h⟩ := Option.bind_eq_some_iff.mp h
    cases h
    obtain ⟨q, hq, hacc, rfl⟩ := parsePoint_iff.mp hr
    obtain ⟨points, hpoints, hall, rfl⟩ := ih hrs
    refine ⟨q :: points, ?_, List.forall_mem_cons.mpr ⟨hacc, hall⟩, rfl⟩
    rw [List.mapM_cons, hq, hpoints]
    rfl

/-- The sum of the point is an `int`. -/
def Fits (q : Int × Int) : Prop := q.1 + q.2 < 2 ^ 31

/-- Without overflow the check means what it says, and the point is stored as it is. -/
theorem Accepts.sum {q : Int × Int} (h : Accepts q) (hfits : Fits q) : q.1 + q.2 ≤ maxFecPacketNum := by
  obtain ⟨h1, h2, h3⟩ := h
  unfold Fits at hfits
  unfold wrapInt at h3
  rwa [Int.bmod_eq_of_le (by omega) (by omega)] at h3

theorem stored_eq {q : Int × Int} (h : Accepts q) (hfits : Fits q) : ((stored q).x : Int) = q.1 ∧ ((stored q).y : Int) = q.2 := by
  have hsum := h.sum hfits
  obtain ⟨h1, h2, -⟩ := h
  unfold maxFecPacketNum at hsum
  unfold stored narrow
  simp only
  omega

/-! ## Tables with rows between points -/

/-- The table the points describe: one row for each count up to the last point's, the first
    point's `y` up to it, every point's own row, and the rounded line between two. -/
structure Interpolates (points : List (Int × Int)) (p : FecParameter) : Prop where
  rsCnt : ∃ q, points.getLast? = some q ∧ (p.rsCnt : Int) = q.1
  numbered : ∀ i, 1 ≤ i → i ≤ p.rsCnt → (p.rsPar (i - 1)).x = i ∧ i + (p.rsPar (i - 1)).y ≤ maxFecPacketNum
  first : ∀ q, points.head? = some q → ∀ i : Nat, 1 ≤ i → (i : Int) ≤ q.1 → ((p.rsPar (i - 1)).y : Int) = q.2
  given : ∀ q ∈ points, 1 ≤ q.1 ∧ q.1 ≤ p.rsCnt ∧ ((p.rsPar (q.1.toNat - 1)).y : Int) = q.2
  between : ∀ pre now, [pre, now] <:+: points → ∀ i : Nat, pre.1 < i → (i : Int) < now.1 →
    ((p.rsPar (i - 1)).y : Int) = ⌈lineAt pre now i⌉ ∧ i + ⌈lineAt pre now i⌉ ≤ maxFecPacketNum

/-- A row that fits was given by a sum that does. -/
theorem Interpolates.fits {points : List (Int × Int)} {p : FecParameter} (h : Interpolates points p) : ∀ q ∈ points, Fits q := by
  intro q hq
  obtain ⟨h1, h2, h3⟩ := h.given q hq
  obtain ⟨-, hsum⟩ := h.numbered q.1.toNat (by omega) (by omega)
  unfold maxFecPacketNum at hsum
  unfold Fits
  omega

/-- Behind the first point, a count up to the last point's is a point's or between two. -/
theorem covered {pre : RsParameter} {rest : List RsParameter} {i : Nat} (hpre : pre.x < i) (hlast : i ≤ (rest.getLastD pre).x) :
    (∃ now ∈ rest, now.x = i) ∨ ∃ a b, [a, b] <:+: pre :: rest ∧ a.x < i ∧ i < b.x := by
  induction rest generalizing pre with
  | nil =>
    simp only [List.getLastD_nil] at hlast
    omega
  | cons now rest ih =>
    rw [List.getLastD_cons] at hlast
    rcases Nat.lt_trichotomy i now.x with hlt | heq | hgt
    · exact .inr ⟨pre, now, ⟨[], rest, rfl⟩, hpre, hlt⟩
    · exact .inl ⟨now, List.mem_cons_self, heq.symm⟩
    · rcases ih hgt hlast with ⟨r, hr, hx⟩ | ⟨a, b, hab, ha, hb⟩
      · exact .inl ⟨r, List.mem_cons_of_mem _ hr, hx⟩
      · exact .inr ⟨a, b, List.infix_cons hab, ha, hb⟩

/-- A row read between two points that fit lies on their line, rounded up, and fits too. -/
theorem row_on_line {p : FecParameter} {a b : RsParameter} {i : Nat} (hai : a.x < i) (hib : i < b.x)
    (ha : a.x + a.y ≤ maxFecPacketNum) (hb : b.x + b.y ≤ maxFecPacketNum)
    (hread : rowBetween a b (i - 1 + 1) = .ok (p.rsPar (i - 1))) : (p.rsPar (i - 1)).x = i ∧
      ((p.rsPar (i - 1)).y : Int) = ⌈lineAt (a.x, a.y) (b.x, b.y) i⌉ ∧ i + ⌈lineAt (a.x, a.y) (b.x, b.y) i⌉ ≤ maxFecPacketNum := by
  obtain ⟨y, hy, hrow⟩ := rowBetween_eq hai hib ha hb
  rw [Nat.sub_add_cancel (by omega), hrow] at hread
  obtain hread := Except.ok.inj hread
  rw [← hread]
  exact ⟨rfl, hy, (lineAt_fits hai hib ha hb).2⟩

/-- The points as they are stored are the points. -/
theorem interpolates_of_fits {points : List (Int × Int)} {first : RsParameter} {rest : List RsParameter}
    {p : FecParameter} (hacc : ∀ q ∈ points, Accepts q) (hfits : ∀ q ∈ points, Fits q) (hmap : points.map stored = first :: rest)
    (hcnt : p.rsCnt = (rest.getLastD first).x) (hlow : ∀ i < first.x, p.rsPar i = ⟨i + 1, first.y⟩)
    (hlater : ∀ now ∈ rest, p.rsPar (now.x - 1) = now)
    (hbetween : ∀ a b, [a, b] <:+: first :: rest → ∀ i, a.x ≤ i → i < b.x - 1 → rowBetween a b (i + 1) = .ok (p.rsPar i))
    (hle : ∀ r ∈ first :: rest, r.x ≤ p.rsCnt) : Interpolates points p := by
  have hexact : ∀ q ∈ points, ((stored q).x : Int) = q.1 ∧ ((stored q).y : Int) = q.2 := fun q hq =>
    stored_eq (hacc q hq) (hfits q hq)
  have hmem : ∀ q ∈ points, stored q ∈ first :: rest := fun q hq => hmap ▸ List.mem_map_of_mem hq
  have hfit : ∀ r ∈ first :: rest, 1 ≤ r.x ∧ r.x + r.y ≤ maxFecPacketNum := by
    intro r hr
    rw [← hmap] at hr
    obtain ⟨q, hq, rfl⟩ := List.mem_map.mp hr
    have h1 := (hacc q hq).1
    have h2 := (hacc q hq).sum (hfits q hq)
    have h3 := hexact q hq
    omega
  have hown : ∀ r ∈ first :: rest, p.rsPar (r.x - 1) = r := by
    intro r hr
    rcases List.mem_cons.mp hr with rfl | hr
    · have := (hfit r List.mem_cons_self).1
      rw [hlow _ (by omega), Nat.sub_add_cancel this]
    · exact hlater r hr
  have hline : ∀ a b, [a, b] <:+: first :: rest → ∀ i, a.x < i → i < b.x → (p.rsPar (i - 1)).x = i ∧
      ((p.rsPar (i - 1)).y : Int) = ⌈lineAt (a.x, a.y) (b.x, b.y) i⌉ ∧ i + ⌈lineAt (a.x, a.y) (b.x, b.y) i⌉ ≤ maxFecPacketNum :=
    fun a b hab i hai hib => row_on_line hai hib (hfit a (hab.subset (by simp))).2 (hfit b (hab.subset (by simp))).2
      (hbetween a b hab (i - 1) (by omega) (by omega))
  exact {
    rsCnt := by
      have hlast : (points.map stored).getLast? = some (rest.getLastD first) := by
        rw [hmap, List.getLast?_cons, List.getLastD_eq_getLast?]
      rw [List.getLast?_map] at hlast
      obtain ⟨q, hq, hst⟩ := Option.map_eq_some_iff.mp hlast
      refine ⟨q, hq, ?_⟩
      rw [hcnt, ← hst]
      exact (hexact q (List.mem_of_getLast? hq)).1
    numbered := by
      intro i h1 hi
      by_cases hfirst : i ≤ first.x
      · have := (hfit first List.mem_cons_self).2
        rw [hlow (i - 1) (by omega)]
        refine ⟨Nat.sub_add_cancel h1, ?_⟩
        show i + first.y ≤ maxFecPacketNum
        omega
      · rcases covered (by omega) (hcnt ▸ hi) with ⟨now, hnow, rfl⟩ | ⟨a, b, hab, ha, hb⟩
        · rw [hlater now hnow]
          exact ⟨rfl, (hfit now (List.mem_cons_of_mem _ hnow)).2⟩
        · obtain ⟨hx, hy, hmax⟩ := hline a b hab i ha hb
          exact ⟨hx, by omega⟩
    first := by
      intro q hq i h1 hi
      have hst : stored q = first := by
        have := congrArg List.head? hmap
        rw [List.head?_map, hq] at this
        exact Option.some.inj this
      have h := hexact q (List.mem_of_head? hq)
      rw [hst] at h
      rw [hlow (i - 1) (by omega)]
      exact h.2
    given := by
      intro q hq
      have h := hexact q hq
      have hx := hle _ (hmem q hq)
      have hrow := hown _ (hmem q hq)
      refine ⟨(hacc q hq).1, by omega, ?_⟩
      rw [show q.1.toNat = (stored q).x by omega, hrow]
      exact h.2
    between := by
      intro pre now hpn i h1 h2
      have hpre := hexact pre (hpn.subset (by simp))
      have hnow := hexact now (hpn.subset (by simp))
      obtain ⟨-, hy, hmax⟩ := hline (stored pre) (stored now) (by rw [← hmap]; exact hpn.map stored) i (by omega) (by omega)
      rw [show (((stored pre).x : Int), ((stored pre).y : Int)) = pre from Prod.ext hpre.1 hpre.2,
        show (((stored now).x : Int), ((stored now).y : Int)) = now from Prod.ext hnow.1 hnow.2] at hy hmax
      exact ⟨hy, hmax⟩ }

theorem le_last {pre : RsParameter} {rest : List RsParameter} (hchain : (pre :: rest).IsChain fun pre now => pre.x < now.x) :
    ∀ r ∈ pre :: rest, r.x ≤ (rest.getLastD pre).x := by
  induction rest generalizing pre with
  | nil => simp
  | cons now rest ih =>
    rw [List.isChain_cons_cons] at hchain
    rw [List.getLastD_cons]
    have hrest := ih hchain.2
    intro r hr
    rcases List.mem_cons.mp hr with rfl | hr
    · exact hchain.1.le.trans (hrest now List.mem_cons_self)
    · exact hrest r hr

/-- A string is refused and the table is what it was, or it is accepted and the table is
    the one its points describe, exactly when no point's sum runs out of the `int`. -/
theorem rsFromStr_interpolates (p : FecParameter) (s : List Char) : ∃ ret p', p.rsFromStr s = .ok (ret, p') ∧
    (ret = -1 ∧ p' = p ∨ ret = 0 ∧ ∃ points, givenPoints s = some points ∧ (Interpolates points p' ↔ ∀ q ∈ points, Fits q)) := by
  cases hpoints : (stringToVec s).mapM parsePoint with
  | none => exact ⟨-1, p, by simp only [rsFromStr, hpoints], .inl ⟨rfl, rfl⟩⟩
  | some rs =>
    cases rs with
    | nil => exact ⟨-1, p, by simp only [rsFromStr, hpoints], .inl ⟨rfl, rfl⟩⟩
    | cons first rest =>
      obtain ⟨points, hgiven, hacc, hmap⟩ := mapM_parsePoint hpoints
      by_cases hchain : (first :: rest).IsChain fun pre now => pre.x < now.x
      · have hx : ∀ r ∈ rest, r.x ≤ maxFecPacketNum := by
          intro r hr
          obtain ⟨q, -, rfl⟩ := List.mem_map.mp (hmap ▸ List.mem_cons_of_mem first hr)
          exact Nat.le_of_lt_succ (narrow_lt q.1)
        obtain ⟨rsPar, hfill⟩ := fillFrom_total first hx (loop first.x (fun i rsPar => upd rsPar i ⟨i + 1, first.y⟩) p.rsPar)
        refine ⟨0, { p with rsPar := rsPar, rsCnt := (rest.getLastD first).x }, ?_, .inr ⟨rfl, points, hgiven, Interpolates.fits, fun hfits => ?_⟩⟩
        · simp only [rsFromStr, hpoints]
          rw [if_neg (not_not.mpr hchain), hfill, ok_bind]
        · obtain ⟨hlow, hlater, hbetween⟩ := fillFrom_reads hchain hfill
          refine interpolates_of_fits hacc hfits hmap rfl (fun i hi => ?_) hlater hbetween (le_last hchain)
          refine (hlow i hi).trans ?_
          rw [loop_fill (fun i => (⟨i + 1, first.y⟩ : RsParameter)), if_pos hi]
      · refine ⟨-1, p, ?_, .inl ⟨rfl, rfl⟩⟩
        simp only [rsFromStr, hpoints]
        rw [if_pos hchain]

/-- 1 + 2147483647 is a negative `int`. -/
theorem rsFromStr_overflow : ¬ ∀ (p p' : FecParameter) (s : List Char) (points : List (Int × Int)),
    p.rsFromStr s = .ok (0, p') → givenPoints s = some points → Interpolates points p' := by
  intro hall
  have hgiven : givenPoints "1:2147483647".toList = some [(1, 2147483647)] := by decide
  have hrun : (default : FecParameter).rsFromStr "1:2147483647".toList =
      .ok (0, { (default : FecParameter) with rsPar := upd default 0 ⟨1, 255⟩, rsCnt := 1 }) := rfl
  have hrow := (hall _ _ _ _ hrun hgiven).numbered 1 (by decide) (by decide)
  exact absurd hrow.2 (by decide)

end FecParameter

end UdpSpeeder.Manager
