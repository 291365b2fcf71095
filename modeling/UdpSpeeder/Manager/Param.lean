/-
  UdpSpeeder.Manager.Param — `fec_parameter_t` (`fec_manager.h`): the settings of an encoder
  and its table of shapes, one row for each number of data shards, parsed from `x:y,x:y,...`.

  `rs_from_str` looks at `x + y` as an `int`, which may wrap, and keeps `x` and `y` as
  bytes; doubles are read as the rationals they stand for.
-/

import UdpSpeeder.Common

namespace UdpSpeeder.Manager

open Lib

/-! ## The settings -/

/-- `rs_parameter_t`; both are `unsigned char`s. -/
structure RsParameter where
  x : Nat
  y : Nat
  deriving DecidableEq, Repr, Inhabited

structure FecParameter where
  version : Int
  mtu : Nat
  queueLen : Nat
  timeout : Nat
  mode : Nat
  rsCnt : Nat
  rsPar : Nat → RsParameter
  deriving Inhabited

namespace FecParameter

def getTail (p : FecParameter) : Except Fault RsParameter := do
  check (1 ≤ p.rsCnt) (.assert "rs_cnt >= 1")
  .ok (p.rsPar (p.rsCnt - 1))

def clone (p other : FecParameter) : Except Fault FecParameter := do
  check (1 ≤ other.rsCnt) (.assert "other.rs_cnt >= 1")
  .ok { other with rsPar := copyTo p.rsPar 0 other.rsPar other.rsCnt }

theorem clone_self {p : FecParameter} (h : 1 ≤ p.rsCnt) : p.clone p = .ok p := by
  have hsame : copyTo p.rsPar 0 p.rsPar p.rsCnt = p.rsPar := by
    funext i
    simp [copyTo]
  unfold clone
  rw [check_true h, ok_bind, hsame]

/-- Row `i` is the shape for `i + 1` data shards. -/
def Numbered (p : FecParameter) : Prop := ∀ i < p.rsCnt, (p.rsPar i).x = i + 1

/-- Two settings with one table. -/
structure SameTable (p q : FecParameter) : Prop where
  rsCnt : p.rsCnt = q.rsCnt
  rsPar : ∀ i < p.rsCnt, p.rsPar i = q.rsPar i

end FecParameter

/-! ## Reading numbers -/

def isSpace (c : Char) : Bool := c = ' ' || decide (9 ≤ c.toNat ∧ c.toNat ≤ 13)

/-- The digits at the front, behind those that made `acc`. -/
def scanDigits : List Char → Nat → Nat × List Char
  | [], acc => (acc, [])
  | c :: s, acc => if c.isDigit then scanDigits s (acc * 10 + (c.toNat - 48)) else (acc, c :: s)

/-- The `int` that holds `v`, modulo 2^32. -/
def wrapInt (v : Int) : Int := v.bmod (2 ^ 32)

/-- A number read as a `long`, which it stops at the ends of, and stored in an `int`. -/
def narrowLong (v : Int) : Int := wrapInt (max (-2 ^ 63) (min v (2 ^ 63 - 1)))

/-- A sign and what it is followed by. -/
def scanSign : List Char → Int × List Char
  | '-' :: s => (-1, s)
  | '+' :: s => (1, s)
  | s => (1, s)

/-- `%d`. -/
def scanInt (s : List Char) : Option (Int × List Char) :=
  let (sign, s) := scanSign (s.dropWhile isSpace)
  if s.head?.any Char.isDigit then
    let (n, s) := scanDigits s 0
    some (narrowLong (sign * n), s)
  else none

/-- `sscanf(s, "%d:%d", &x, &y)`, when it returns 2. -/
def scanPair (s : List Char) : Option (Int × Int) := do
  let (x, s) ← scanInt s
  if s.head? = some ':' then
    let (y, _) ← scanInt s.tail
    some (x, y)
  else none

/-- `string_to_vec(s, ",")`. -/
def stringToVec (s : List Char) : List (List Char) := (s.splitOn ',').filter (· ≠ [])

/-! ## Parsing a table -/

namespace FecParameter

/-- The `unsigned char` that holds `v`. -/
def narrow (v : Int) : Nat := (v % 256).toNat

/-- One point of the table. -/
def parsePoint (s : List Char) : Option RsParameter := do
  let (x, y) ← scanPair s
  if x < 1 ∨ y < 0 ∨ maxFecPacketNum < wrapInt (x + y) then none
  else some ⟨narrow x, narrow y⟩

/-- `pre_y + (now_y - pre_y) * (in_x - pre_x) / distance + 0.9999`, cut to an `int`. -/
def interpolated (pre now : RsParameter) (inX : Nat) : Int :=
  let distance : Int := now.x - pre.x
  Int.tdiv (10000 * (pre.y * distance + (now.y - pre.y) * (inX - pre.x)) + 9999 * distance) (10000 * distance)

/-- The row of `inX`, between two points. -/
def rowBetween (pre now : RsParameter) (inX : Nat) : Except Fault RsParameter :=
  let inY := interpolated pre now inX
  if maxFecPacketNum < inX + inY then do
    let inY : Int := maxFecPacketNum - inX
    check (0 ≤ inY ∧ inY ≤ maxFecPacketNum) (.assert "in_y >= 0 && in_y <= max_fec_packet_num")
    .ok ⟨inX, narrow inY⟩
  else .ok ⟨inX, narrow inY⟩

/-- The rows behind `pre` up to `now`. -/
def fillTo (pre now : RsParameter) (rsPar : Nat → RsParameter) : Except Fault (Nat → RsParameter) :=
  loopE (now.x - 1 - pre.x) (fun j rsPar => do
    let row ← rowBetween pre now (pre.x + 1 + j)
    .ok (upd rsPar (pre.x + j) row)) (upd rsPar (now.x - 1) now)

/-- The rows behind `pre` up to the last point. -/
def fillFrom (pre : RsParameter) : List RsParameter → (Nat → RsParameter) → Except Fault (Nat → RsParameter)
  | [], rsPar => .ok rsPar
  | now :: rest, rsPar => do
    let rsPar ← fillTo pre now rsPar
    fillFrom now rest rsPar

/-- `rs_from_str`: what it returns, and the parameters after it. -/
def rsFromStr (p : FecParameter) (s : List Char) : Except Fault (Int × FecParameter) :=
  match (stringToVec s).mapM parsePoint with
  | none => .ok (-1, p)
  | some [] => .ok (-1, p)
  | some (first :: rest) =>
    if ¬ (first :: rest).IsChain (fun pre now => pre.x < now.x) then .ok (-1, p)
    else do
      -- every count up to the first point's takes its `y`
      let rsPar := loop first.x (fun i rsPar => upd rsPar i ⟨i + 1, first.y⟩) p.rsPar
      let rsPar ← fillFrom first rest rsPar
      .ok (0, { p with rsPar := rsPar, rsCnt := (rest.getLastD first).x })

/-! ## What a parsed table holds -/

theorem narrow_lt (v : Int) : narrow v < 256 := by
  have := Int.emod_lt_of_pos v (show (0 : Int) < 256 by decide)
  have := Int.emod_nonneg v (show (256 : Int) ≠ 0 by decide)
  unfold narrow
  omega

theorem parsePoint_lt {s : List Char} {r : RsParameter} (h : parsePoint s = some r) : r.x < 256 ∧ r.y < 256 := by
  unfold parsePoint at h
  obtain ⟨xy, -, h⟩ := Option.bind_eq_some_iff.mp h
  simp only at h
  split at h
  · cases h
  · cases h
    exact ⟨narrow_lt _, narrow_lt _⟩

theorem rowBetween_ok {pre now r : RsParameter} {inX : Nat} (h : rowBetween pre now inX = .ok r) : r.x = inX ∧ r.y < 256 := by
  unfold rowBetween at h
  simp only at h
  split at h
  · rw [check_bind] at h
    cases h.2
    exact ⟨rfl, narrow_lt _⟩
  · cases h
    exact ⟨rfl, narrow_lt _⟩

/-- The rows below `n`, numbered and bytes. -/
def RowsBelow (rsPar : Nat → RsParameter) (n : Nat) : Prop := ∀ i < n, (rsPar i).x = i + 1 ∧ (rsPar i).y < 256

theorem fillTo_rows {pre now : RsParameter} {rsPar rsPar' : Nat → RsParameter} (hlt : pre.x < now.x) (hy : now.y < 256)
    (hpre : RowsBelow rsPar pre.x) (h : fillTo pre now rsPar = .ok rsPar') : RowsBelow rsPar' now.x := by
  have hinv := loopE_inv (fun (m : Nat) (t : Nat → RsParameter) => RowsBelow t (pre.x + m) ∧ t (now.x - 1) = now)
    ⟨fun i hi => ?_, upd_same _ _ _⟩ _ rsPar' h ?_
  · obtain ⟨hrows, hlast⟩ := hinv
    intro i hi
    by_cases e : i = now.x - 1
    · rw [e, hlast]
      exact ⟨by omega, hy⟩
    · exact hrows i (by omega)
  · rw [upd_ne _ _ (by omega)]
    exact hpre i (by omega)
  · rintro m hm t t' ⟨hrows, hlast⟩ ht
    obtain ⟨row, hrow, ht⟩ := bind_ok.mp ht
    cases ht
    obtain ⟨hx, hy'⟩ := rowBetween_ok hrow
    refine ⟨?_, ?_⟩
    · intro i hi
      by_cases e : i = pre.x + m
      · rw [e, upd_same, hx]
        exact ⟨by omega, hy'⟩
      · rw [upd_ne _ _ e]
        exact hrows i (by omega)
    · rw [upd_ne _ _ (by omega)]
      exact hlast

theorem fillFrom_rows {pre : RsParameter} {rest : List RsParameter} {rsPar rsPar' : Nat → RsParameter}
    (hchain : (pre :: rest).IsChain fun pre now => pre.x < now.x) (hy : ∀ r ∈ rest, r.y < 256) (hpre : RowsBelow rsPar pre.x)
    (h : fillFrom pre rest rsPar = .ok rsPar') : RowsBelow rsPar' (rest.getLastD pre).x := by
  induction rest generalizing pre rsPar with
  | nil =>
    cases h
    exact hpre
  | cons now rest ih =>
    obtain ⟨rsPar1, h1, h⟩ := bind_ok.mp h
    rw [List.isChain_cons_cons] at hchain
    rw [List.getLastD_cons]
    exact ih hchain.2 (fun r hr => hy r (List.mem_cons_of_mem _ hr))
      (fillTo_rows hchain.1 (hy now List.mem_cons_self) hpre h1) h

theorem mem_of_mapM {α β : Type} {f : α → Option β} {l : List α} {r : List β} (h : l.mapM f = some r) :
    ∀ b ∈ r, ∃ a, f a = some b := by
  induction l generalizing r with
  | nil =>
    rw [List.mapM_nil] at h
    cases h
    intro b hb
    cases hb
  | cons a l ih =>
    rw [List.mapM_cons] at h
    obtain ⟨b, hb, h⟩ := Option.bind_eq_some_iff.mp h
    obtain ⟨r', hr', h⟩ := Option.bind_eq_some_iff.mp h
    cases h
    intro b' hb'
    rcases List.mem_cons.mp hb' with rfl | hb'
    · exact ⟨a, hb⟩
    · exact ih hr' b' hb'

/-- An accepted string gives one row for each count up to the last point's. -/
theorem rsFromStr_rows {p p' : FecParameter} {s : List Char} (h : p.rsFromStr s = .ok (0, p')) :
    RowsBelow p'.rsPar p'.rsCnt ∧ p'.rsCnt < 256 := by
  unfold rsFromStr at h
  split at h
  · cases h
  · cases h
  · rename_i first rest hpoints
    have hbytes : ∀ r ∈ first :: rest, r.x < 256 ∧ r.y < 256 := by
      intro r hr
      obtain ⟨token, htoken⟩ := mem_of_mapM hpoints r hr
      exact parsePoint_lt htoken
    split at h
    · cases h
    · rename_i hchain
      obtain ⟨rsPar, hfill, h⟩ := bind_ok.mp h
      cases h
      refine ⟨fillFrom_rows (not_not.mp hchain) (fun r hr => (hbytes r (List.mem_cons_of_mem _ hr)).2) (fun i hi => ?_) hfill,
        (hbytes _ List.getLastD_mem_cons).1⟩
      rw [loop_fill (fun i => (⟨i + 1, first.y⟩ : RsParameter)), if_pos hi]
      exact ⟨rfl, (hbytes first List.mem_cons_self).2⟩

/-! ## The string decides the table -/

/-- The rows between two points depend on the points only. -/
theorem fillTo_reads {pre now : RsParameter} {rsPar rsPar' : Nat → RsParameter} (hlt : pre.x < now.x)
    (h : fillTo pre now rsPar = .ok rsPar') : (∀ i < pre.x, rsPar' i = rsPar i) ∧
      (∀ i, pre.x ≤ i → i < now.x - 1 → rowBetween pre now (i + 1) = .ok (rsPar' i)) ∧ rsPar' (now.x - 1) = now := by
  have hinv := loopE_inv (fun (m : Nat) (t : Nat → RsParameter) => (∀ i < pre.x, t i = rsPar i) ∧
      (∀ i, pre.x ≤ i → i < pre.x + m → rowBetween pre now (i + 1) = .ok (t i)) ∧ t (now.x - 1) = now)
    ⟨fun i hi => upd_ne _ _ (by omega), fun i h1 h2 => by omega, upd_same _ _ _⟩ _ rsPar' h ?_
  · obtain ⟨hbelow, hrows, hlast⟩ := hinv
    exact ⟨hbelow, fun i h1 h2 => hrows i h1 (by omega), hlast⟩
  · rintro m hm t t' ⟨hbelow, hrows, hlast⟩ ht
    obtain ⟨row, hrow, ht⟩ := bind_ok.mp ht
    cases ht
    refine ⟨?_, ?_, ?_⟩
    · intro i hi
      rw [upd_ne _ _ (by omega)]
      exact hbelow i hi
    · intro i h1 h2
      by_cases e : i = pre.x + m
      · subst e
        rw [upd_same, Nat.add_right_comm]
        exact hrow
      · rw [upd_ne _ _ e]
        exact hrows i h1 (by omega)
    · rw [upd_ne _ _ (by omega)]
      exact hlast

theorem fillTo_agree {pre now : RsParameter} {a b a' b' : Nat → RsParameter} (hlt : pre.x < now.x) (hab : ∀ i < pre.x, a i = b i)
    (ha : fillTo pre now a = .ok a') (hb : fillTo pre now b = .ok b') : ∀ i < now.x, a' i = b' i := by
  obtain ⟨ha1, ha2, ha3⟩ := fillTo_reads hlt ha
  obtain ⟨hb1, hb2, hb3⟩ := fillTo_reads hlt hb
  intro i hi
  by_cases hlow : i < pre.x
  · rw [ha1 i hlow, hb1 i hlow, hab i hlow]
  · by_cases e : i = now.x - 1
    · rw [e, ha3, hb3]
    · exact Except.ok.inj ((ha2 i (by omega) (by omega)).symm.trans (hb2 i (by omega) (by omega)))

theorem fillFrom_agree {pre : RsParameter} {rest : List RsParameter} {a b a' b' : Nat → RsParameter}
    (hchain : (pre :: rest).IsChain fun pre now => pre.x < now.x) (hab : ∀ i < pre.x, a i = b i)
    (ha : fillFrom pre rest a = .ok a') (hb : fillFrom pre rest b = .ok b') : ∀ i < (rest.getLastD pre).x, a' i = b' i := by
  induction rest generalizing pre a b with
  | nil =>
    cases ha
    cases hb
    exact hab
  | cons now rest ih =>
    obtain ⟨a1, ha1, ha⟩ := bind_ok.mp ha
    obtain ⟨b1, hb1, hb⟩ := bind_ok.mp hb
    rw [List.isChain_cons_cons] at hchain
    rw [List.getLastD_cons]
    exact ih hchain.2 (fillTo_agree hchain.1 hab ha1 hb1) ha hb

/-- Accepted from any settings, a string gives the same table. -/
theorem rsFromStr_same {p q p' q' : FecParameter} {s : List Char} (hp : p.rsFromStr s = .ok (0, p')) (hq : q.rsFromStr s = .ok (0, q')) :
    SameTable p' q' := by
  unfold rsFromStr at hp hq
  split at hp
  · cases hp
  · cases hp
  · rename_i first rest hpoints
    rw [hpoints] at hq
    simp only at hq
    split at hp
    · cases hp
    · rename_i hchain
      rw [if_neg hchain] at hq
      obtain ⟨a, ha, hp⟩ := bind_ok.mp hp
      obtain ⟨b, hb, hq⟩ := bind_ok.mp hq
      cases hp
      cases hq
      refine ⟨rfl, fillFrom_agree (not_not.mp hchain) (fun i hi => ?_) ha hb⟩
      rw [loop_fill (fun i => (⟨i + 1, first.y⟩ : RsParameter)), loop_fill (fun i => (⟨i + 1, first.y⟩ : RsParameter)), if_pos hi, if_pos hi]

/-- Parsing touches the table only. -/
theorem rsFromStr_frame {p p' : FecParameter} {s : List Char} {ret : Int} (h : p.rsFromStr s = .ok (ret, p')) :
    p' = { p with rsPar := p'.rsPar, rsCnt := p'.rsCnt } := by
  unfold rsFromStr at h
  split at h
  · cases h; rfl
  · cases h; rfl
  · split at h
    · cases h; rfl
    · obtain ⟨rsPar, -, h⟩ := bind_ok.mp h
      cases h
      rfl

end FecParameter

end UdpSpeeder.Manager
