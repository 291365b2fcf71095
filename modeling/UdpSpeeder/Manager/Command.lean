/-
  UdpSpeeder.Manager.Command — `handle_command` (`misc.cpp`): the settings changed while the
  program runs, and the encoders that take them up between two groups.

  An encoder compares versions (`takeUp`), so a command reaches it only if it bumps the
  version: `fec` and `mode` do, `mtu`, `queue-len` and `timeout` do not.
  - `changes_reach_encoders`: the settings agree along a run exactly when no such command
    changes its value while an encoder carries the current version.
  - `encoder_never_stops`: no order of commands and packets fails an assertion.
-/

import UdpSpeeder.Manager.Cheapest
import UdpSpeeder.Manager.Ledger

namespace UdpSpeeder.Manager

open Lib Fec

/-! ## Reading a command -/

def rsStrLen : Nat := maxFecPacketNum * 10 + 100

/-- `%s`. -/
def scanWord (s : List Char) : Option (List Char) :=
  match (s.dropWhile isSpace).takeWhile fun c => !isSpace c with
  | [] => none
  | c :: word => some (c :: word)

/-- `%d` into a variable that holds `-1`. -/
def scanArg (s : List Char) : Int := (scanInt s).elim (-1) Prod.fst

inductive Command where
  | fec (word : Option (List Char))
  | mtu (a : Int)
  | queueLen (a : Int)
  | mode (a : Int)
  | timeout (a : Int)
  | unknown
  deriving DecidableEq, Repr

/-- A line of the fifo; the newline at its end is cut off. -/
def parseCommand (s : List Char) : Command :=
  let s := if s.getLast? = some '\n' then s.dropLast else s
  if s.take 3 = "fec".toList then .fec (scanWord (s.drop 3))
  else if s.take 3 = "mtu".toList then .mtu (scanArg (s.drop 3))
  else if s.take 9 = "queue-len".toList then .queueLen (scanArg (s.drop 9))
  else if s.take 4 = "mode".toList then .mode (scanArg (s.drop 4))
  else if s.take 7 = "timeout".toList then .timeout (scanArg (s.drop 7))
  else .unknown

/-! ## Running it -/

/-- `g_fec_par` and `rs_par_str`. -/
structure Globals where
  gFecPar : FecParameter
  rsParStr : List Char

/-- What the stack holds where `handle_command` puts `tmp_str` and `tmp_par`. -/
structure Scratch where
  tmpStr : List Char
  rsPar : Nat → RsParameter

/-- `fec_parameter_t tmp_par`. -/
def Scratch.tmpPar (tmp : Scratch) : FecParameter where
  version := 0
  mtu := 1250
  queueLen := 200
  timeout := 8 * 1000
  mode := 0
  rsCnt := 0
  rsPar := tmp.rsPar

def FecParameter.copyFec (p other : FecParameter) : Except Fault FecParameter := do
  check (1 ≤ other.rsCnt) (.assert "other.rs_cnt >= 1")
  .ok { p with rsCnt := other.rsCnt, rsPar := copyTo p.rsPar 0 other.rsPar other.rsCnt }

namespace Globals

/-- Its own settings under the next version. -/
def bumped (g : Globals) : Except Fault Globals := do
  check (g.gFecPar.version + 1 ≤ intMax) (.overflow "g_fec_par.version + 1")
  .ok { g with gFecPar := { g.gFecPar with version := g.gFecPar.version + 1 } }

/-- What each command does; `-1` for a value it refuses. -/
def run (g : Globals) (tmp : Scratch) : Command → Except Fault (Int × Globals)
  | .fec word => do
    -- `%s` leaves `tmp_str` alone when only spaces are left
    let tmpStr := word.getD tmp.tmpStr
    check (tmpStr.length < rsStrLen) (.range "tmp_str")
    let (ret, tmpPar) ← tmp.tmpPar.rsFromStr tmpStr
    if ret ≠ 0 then .ok (-1, g)
    else do
      let p ← g.gFecPar.copyFec tmpPar
      let g ← bumped ⟨p, tmpStr⟩
      .ok (0, g)
  | .mtu a =>
    if a < 100 ∨ 2000 < a then .ok (-1, g)
    else .ok (0, { g with gFecPar := { g.gFecPar with mtu := a.toNat } })
  | .queueLen a =>
    if a < 1 ∨ 10000 < a then .ok (-1, g)
    else .ok (0, { g with gFecPar := { g.gFecPar with queueLen := a.toNat } })
  | .mode a =>
    if a ≠ 0 ∧ a ≠ 1 then .ok (-1, g)
    else if (g.gFecPar.mode : Int) ≠ a then do
      let (ret, p) ← { g.gFecPar with mode := a.toNat }.rsFromStr g.rsParStr
      check (ret = 0) (.assert "g_fec_par.rs_from_str(rs_par_str) == 0")
      let g ← bumped { g with gFecPar := p }
      .ok (0, g)
    else .ok (0, g)
  | .timeout a =>
    if a < 0 ∨ 1000 < a then .ok (-1, g)
    else .ok (0, { g with gFecPar := { g.gFecPar with timeout := a.toNat * 1000 } })
  | .unknown => .ok (0, g)

/-- `print_parameter`, which prints the table. -/
def printParameter (g : Globals) : Except Fault Unit := check (1 ≤ g.gFecPar.rsCnt) (.assert "rs_cnt >= 1")

/-- `handle_command`. -/
def handleCommand (g : Globals) (tmp : Scratch) (s : List Char) : Except Fault (Int × Globals) := do
  let (ret, g) ← g.run tmp (parseCommand s)
  if ret ≠ 0 then .ok (ret, g)
  else do
    g.printParameter
    .ok (0, g)

/-! ## What a command can do -/

/-- A command that sets one value and leaves the version: the value it sets differs. -/
def Silent (g : Globals) : Command → Prop
  | .mtu a => (100 ≤ a ∧ a ≤ 2000) ∧ a ≠ g.gFecPar.mtu
  | .queueLen a => (1 ≤ a ∧ a ≤ 10000) ∧ a ≠ g.gFecPar.queueLen
  | .timeout a => (0 ≤ a ∧ a ≤ 1000) ∧ a * 1000 ≠ g.gFecPar.timeout
  | _ => False

/-- What a command that returns has done. -/
inductive Did (g : Globals) (tmp : Scratch) : Command → Globals → Prop
  | nothing (c : Command) : Did g tmp c g
  | mtu (a : Int) (h : 100 ≤ a ∧ a ≤ 2000) : Did g tmp (.mtu a) { g with gFecPar := { g.gFecPar with mtu := a.toNat } }
  | queueLen (a : Int) (h : 1 ≤ a ∧ a ≤ 10000) : Did g tmp (.queueLen a) { g with gFecPar := { g.gFecPar with queueLen := a.toNat } }
  | timeout (a : Int) (h : 0 ≤ a ∧ a ≤ 1000) : Did g tmp (.timeout a) { g with gFecPar := { g.gFecPar with timeout := a.toNat * 1000 } }
  | mode (a : Int) (h : a = 0 ∨ a = 1) (p : FecParameter) (hp : { g.gFecPar with mode := a.toNat }.rsFromStr g.rsParStr = .ok (0, p)) :
      Did g tmp (.mode a) { g with gFecPar := { p with version := p.version + 1 } }
  | fec (word : Option (List Char)) (tmpStr : List Char) (tmpPar p : FecParameter)
      (hp : tmp.tmpPar.rsFromStr tmpStr = .ok (0, tmpPar)) (hcopy : g.gFecPar.copyFec tmpPar = .ok p) :
      Did g tmp (.fec word) ⟨{ p with version := p.version + 1 }, tmpStr⟩

theorem bumped_ok {g g' : Globals} (h : g.bumped = .ok g') :
    g' = { g with gFecPar := { g.gFecPar with version := g.gFecPar.version + 1 } } := by
  unfold bumped at h
  rw [check_bind] at h
  exact (Except.ok.inj h.2).symm

theorem run_ok {g g' : Globals} {tmp : Scratch} {c : Command} {ret : Int} (h : g.run tmp c = .ok (ret, g')) : Did g tmp c g' := by
  cases c with
  | fec word =>
    simp only [run] at h
    rw [check_bind] at h
    obtain ⟨⟨ret', tmpPar⟩, hparse, h⟩ := bind_ok.mp h.2
    simp only at h
    split at h
    · cases h
      exact .nothing _
    · rename_i hret
      obtain ⟨p, hcopy, h⟩ := bind_ok.mp h
      obtain ⟨g1, hbump, h⟩ := bind_ok.mp h
      cases h
      rw [not_not.mp hret] at hparse
      rw [bumped_ok hbump]
      exact .fec word _ tmpPar p hparse hcopy
  | mtu a =>
    simp only [run] at h
    split at h
    · cases h
      exact .nothing _
    · rename_i hrange
      cases h
      exact .mtu a (by omega)
  | queueLen a =>
    simp only [run] at h
    split at h
    · cases h
      exact .nothing _
    · rename_i hrange
      cases h
      exact .queueLen a (by omega)
  | mode a =>
    simp only [run] at h
    split at h
    · cases h
      exact .nothing _
    · rename_i hrange
      split at h
      · obtain ⟨⟨ret', p⟩, hparse, h⟩ := bind_ok.mp h
        rw [check_bind] at h
        obtain ⟨hret, h⟩ := h
        obtain ⟨g1, hbump, h⟩ := bind_ok.mp h
        cases h
        subst hret
        rw [bumped_ok hbump]
        exact .mode a (by omega) p hparse
      · cases h
        exact .nothing _
  | timeout a =>
    simp only [run] at h
    split at h
    · cases h
      exact .nothing _
    · rename_i hrange
      cases h
      exact .timeout a (by omega)
  | unknown =>
    cases h
    exact .nothing _

theorem handleCommand_ok {g g' : Globals} {tmp : Scratch} {s : List Char} {ret : Int} (h : g.handleCommand tmp s = .ok (ret, g')) :
    Did g tmp (parseCommand s) g' ∧ g.run tmp (parseCommand s) = .ok (ret, g') := by
  obtain ⟨⟨ret', g1⟩, hrun, h⟩ := bind_ok.mp h
  simp only at h
  split at h
  · cases h
    exact ⟨run_ok hrun, hrun⟩
  · rename_i hret
    obtain ⟨-, -, h⟩ := bind_ok.mp h
    cases h
    rw [not_not.mp hret] at hrun
    exact ⟨run_ok hrun, hrun⟩

end Globals

/-! ## Encoders at work -/

/-- The settings, and the encoder of each connection. -/
structure Program where
  globals : Globals
  encoders : Nat → Option FecEncodeManager

inductive Move where
  | command (s : List Char) (tmp : Scratch)
  /-- A connection begins; `memory` is what its encoder is built over. -/
  | create (i : Nat) (memory : FecEncodeManager) (seq : U32)
  | destroy (i : Nat)
  | input (i : Nat) (o : EncodeOptions) (s : Option Bytes)
  | output (i : Nat)

namespace Program

/-- The options of a call, with the settings as they are now. -/
def options (st : Program) (o : EncodeOptions) : EncodeOptions := { o with gFecPar := st.globals.gFecPar }

def step (st : Program) : Move → Except Fault Program
  | .command s tmp => do
    let (_, g) ← st.globals.handleCommand tmp s
    .ok { st with globals := g }
  | .create i memory seq => do
    let e ← memory.construct st.globals.gFecPar seq
    .ok { st with encoders := upd st.encoders i (some e) }
  | .destroy i => .ok { st with encoders := upd st.encoders i none }
  | .input i o s =>
    match st.encoders i with
    | none => .ok st
    | some e => do
      let (e, _) ← e.input (st.options o) s
      .ok { st with encoders := upd st.encoders i (some e) }
  | .output i =>
    match st.encoders i with
    | none => .ok st
    | some e => .ok { st with encoders := upd st.encoders i (some e.output.1) }

end Program

structure Event where
  before : Program
  move : Move
  after : Program

/-- The moves from a state without encoders on. -/
inductive Ran (g : Globals) : List Event → Program → Prop
  | start : Ran g [] ⟨g, fun _ => none⟩
  | step {log : List Event} {st st' : Program} {m : Move} (h : Ran g log st) (hm : st.step m = .ok st') :
      Ran g (log ++ [⟨st, m, st'⟩]) st'

/-! ## Settings that agree -/

/-- Equal but for the version. -/
structure FecParameter.Agrees (p g : FecParameter) : Prop where
  mtu : p.mtu = g.mtu
  queueLen : p.queueLen = g.queueLen
  timeout : p.timeout = g.timeout
  mode : p.mode = g.mode
  table : p.SameTable g

/-- Every encoder with the current version has the current settings. -/
def Program.Consistent (st : Program) : Prop :=
  ∀ i e, st.encoders i = some e → e.fecPar.version = st.globals.gFecPar.version → e.fecPar.Agrees st.globals.gFecPar

namespace Event

/-- A call that finds no group leaves the encoder with the current settings. -/
def Refreshed (c : Event) : Prop :=
  ∀ i o s e e', c.move = .input i o s → c.before.encoders i = some e → e.counter = 0 → c.after.encoders i = some e' →
    e'.fecPar.Agrees c.before.globals.gFecPar

/-- No value is changed under a version that some encoder carries. -/
def Announced (c : Event) : Prop :=
  ∀ s tmp, c.move = .command s tmp → c.before.globals.Silent (parseCommand s) →
    ∀ i e, c.before.encoders i = some e → e.fecPar.version ≠ c.before.globals.gFecPar.version

end Event

/-- Not ahead of `g`, and the same if level with it. -/
structure FecParameter.Dated (p g : FecParameter) : Prop where
  le : p.version ≤ g.version
  agrees : p.version = g.version → p.Agrees g

def Program.Dated (st : Program) : Prop := ∀ i e, st.encoders i = some e → e.fecPar.Dated st.globals.gFecPar

theorem Program.Dated.consistent {st : Program} (h : st.Dated) : st.Consistent := fun i e he => (h i e he).agrees

theorem FecParameter.clone_agrees {p g p' : FecParameter} (h : p.clone g = .ok p') : p'.Agrees g ∧ p'.version = g.version := by
  obtain ⟨-, hp, hrow⟩ := clone_ok h
  have hcnt : p'.rsCnt = g.rsCnt := by rw [hp]
  refine ⟨⟨?_, ?_, ?_, ?_, hcnt, fun i hi => hrow i (hcnt ▸ hi)⟩, ?_⟩ <;> rw [hp]

/-- What a call works with: its own settings, or those it has just taken up. -/
theorem takeUp_settings {e e0 : FecEncodeManager} {g : FecParameter} (h : e.takeUp g = .ok e0) :
    (e0.fecPar = e.fecPar ∧ (e.counter = 0 → e.fecPar.version = g.version)) ∨ (e0.fecPar.Agrees g ∧ e0.fecPar.version = g.version) := by
  unfold FecEncodeManager.takeUp at h
  split at h
  · obtain ⟨p, hp, h⟩ := bind_ok.mp h
    cases h
    exact .inr (FecParameter.clone_agrees hp)
  · rename_i hstay
    cases h
    exact .inl ⟨rfl, fun hc => by_contra fun hne => hstay ⟨hc, hne⟩⟩

theorem input_settings {e e' : FecEncodeManager} {o : EncodeOptions} {s : Option Bytes} {ret : Int} (h : e.input o s = .ok (e', ret))
    (hd : e.fecPar.Dated o.gFecPar) : e'.fecPar.Dated o.gFecPar ∧ (e.counter = 0 → e'.fecPar.Agrees o.gFecPar) := by
  obtain ⟨e0, htake, -, htook⟩ := FecEncodeManager.input_took h
  rw [FecEncodeManager.took_fecPar htook]
  rcases takeUp_settings htake with ⟨hsame, hlevel⟩ | ⟨hagrees, hversion⟩
  · rw [hsame]
    exact ⟨hd, fun hc => hd.agrees (hlevel hc)⟩
  · exact ⟨⟨hversion.le, fun _ => hagrees⟩, fun _ => hagrees⟩

namespace Globals

/-- A command that changes the settings bumps the version, or is one of the silent ones. -/
theorem Did.version {g g' : Globals} {tmp : Scratch} {c : Command} (h : Did g tmp c g') :
    g' = g ∨ g.gFecPar.version < g'.gFecPar.version ∨ (g'.gFecPar.version = g.gFecPar.version ∧ g.Silent c) := by
  cases h with
  | nothing => exact .inl rfl
  | mtu a hrange =>
    by_cases e : a = g.gFecPar.mtu
    · rw [e]
      exact .inl rfl
    · exact .inr (.inr ⟨rfl, hrange, e⟩)
  | queueLen a hrange =>
    by_cases e : a = g.gFecPar.queueLen
    · rw [e]
      exact .inl rfl
    · exact .inr (.inr ⟨rfl, hrange, e⟩)
  | timeout a hrange =>
    by_cases e : a * 1000 = g.gFecPar.timeout
    · have : a.toNat * 1000 = g.gFecPar.timeout := by omega
      rw [this]
      exact .inl rfl
    · exact .inr (.inr ⟨rfl, hrange, e⟩)
  | mode a hrange p hp =>
    refine .inr (.inl ?_)
    have : p.version = g.gFecPar.version := by rw [FecParameter.rsFromStr_frame hp]
    simp only
    omega
  | fec word tmpStr tmpPar p hp hcopy =>
    refine .inr (.inl ?_)
    unfold FecParameter.copyFec at hcopy
    rw [check_bind] at hcopy
    cases hcopy.2
    simp only
    omega

/-- A silent command is accepted, and whatever agreed with the settings no longer does. -/
theorem Silent.changes {g g' : Globals} {tmp : Scratch} {c : Command} {ret : Int} (h : g.Silent c) (hr : g.run tmp c = .ok (ret, g')) :
    g'.gFecPar.version = g.gFecPar.version ∧ ∀ p : FecParameter, p.Agrees g.gFecPar → ¬ p.Agrees g'.gFecPar := by
  cases c with
  | mtu a =>
    obtain ⟨hrange, hne⟩ := h
    simp only [run] at hr
    rw [if_neg (by omega)] at hr
    cases hr
    refine ⟨rfl, fun p hp hp' => hne ?_⟩
    have := hp.mtu.symm.trans hp'.mtu
    simp only at this
    omega
  | queueLen a =>
    obtain ⟨hrange, hne⟩ := h
    simp only [run] at hr
    rw [if_neg (by omega)] at hr
    cases hr
    refine ⟨rfl, fun p hp hp' => hne ?_⟩
    have := hp.queueLen.symm.trans hp'.queueLen
    simp only at this
    omega
  | timeout a =>
    obtain ⟨hrange, hne⟩ := h
    simp only [run] at hr
    rw [if_neg (by omega)] at hr
    cases hr
    refine ⟨rfl, fun p hp hp' => hne ?_⟩
    have := hp.timeout.symm.trans hp'.timeout
    simp only at this
    omega
  | fec word => exact h.elim
  | mode a => exact h.elim
  | unknown => exact h.elim

end Globals

/-! ## Along a run -/

namespace Program

theorem Dated.upd {st : Program} (h : st.Dated) {i : Nat} {e : Option FecEncodeManager}
    (he : ∀ e', e = some e' → e'.fecPar.Dated st.globals.gFecPar) : Program.Dated { st with encoders := Lib.upd st.encoders i e } := by
  intro j e' hj
  simp only [upd_apply] at hj
  split at hj
  · exact he e' hj
  · exact h j e' hj

theorem step_dated {st st' : Program} {m : Move} (h : st.Dated) (hm : st.step m = .ok st') (hc : Event.Announced ⟨st, m, st'⟩) :
    st'.Dated ∧ Event.Refreshed ⟨st, m, st'⟩ := by
  cases m with
  | command s tmp =>
    refine ⟨?_, fun i o s' e e' hmove => by cases hmove⟩
    obtain ⟨⟨ret, g⟩, hrun, hm⟩ := bind_ok.mp hm
    cases hm
    intro i e he
    have hd := h i e he
    rcases (Globals.handleCommand_ok hrun).1.version with rfl | hlt | ⟨hsame, hsilent⟩
    · exact hd
    · exact ⟨hd.le.trans hlt.le, fun heq => absurd (heq ▸ hd.le) (not_le.mpr hlt)⟩
    · exact ⟨hsame ▸ hd.le, fun heq => absurd (heq.trans hsame) (hc s tmp rfl hsilent i e he)⟩
  | create i memory seq =>
    refine ⟨?_, fun i o s' e e' hmove => by cases hmove⟩
    obtain ⟨e, hnew, hm⟩ := bind_ok.mp hm
    cases hm
    obtain ⟨p, hp, hnew⟩ := bind_ok.mp hnew
    cases hnew
    obtain ⟨hagrees, hversion⟩ := FecParameter.clone_agrees hp
    exact h.upd fun e' he' => by cases he'; exact ⟨hversion.le, fun _ => hagrees⟩
  | destroy i =>
    refine ⟨?_, fun i o s' e e' hmove => by cases hmove⟩
    cases hm
    exact h.upd fun e' he' => by cases he'
  | input i o s =>
    simp only [step] at hm
    split at hm
    · rename_i hnone
      cases hm
      refine ⟨h, fun i' o' s' e e' hmove he => ?_⟩
      cases hmove
      exact absurd (hnone.symm.trans he) (by simp)
    · rename_i e hsome
      obtain ⟨⟨e1, ret⟩, hin, hm⟩ := bind_ok.mp hm
      cases hm
      obtain ⟨hd, hagrees⟩ := input_settings hin (h i e hsome)
      refine ⟨h.upd fun e' he' => by cases he'; exact hd, fun i' o' s' e2 e' hmove he hcount hafter => ?_⟩
      cases hmove
      cases Option.some.inj (hsome.symm.trans he)
      simp only [upd_same] at hafter
      cases hafter
      exact hagrees hcount
  | output i =>
    refine ⟨?_, fun i o s' e e' hmove => by cases hmove⟩
    simp only [step] at hm
    split at hm
    · cases hm
      exact h
    · rename_i e hsome
      cases hm
      refine h.upd fun e' he' => ?_
      cases he'
      rw [FecEncodeManager.output_frame]
      exact h i e hsome

end Program

section Ran

variable {g : Globals} {log : List Event} {st : Program}

theorem Ran.dated (h : Ran g log st) (hc : ∀ c ∈ log, c.Announced) : st.Dated ∧ ∀ c ∈ log, c.after.Consistent ∧ c.Refreshed := by
  induction h with
  | start => exact ⟨fun i e he => (by cases he), fun c hc => (by cases hc)⟩
  | step h hm ih =>
    obtain ⟨hd, hall⟩ := ih fun c hmem => hc c (List.mem_append_left _ hmem)
    obtain ⟨hd', hrefreshed⟩ := Program.step_dated hd hm (hc _ (List.mem_append_right _ (List.mem_singleton.mpr rfl)))
    refine ⟨hd', fun c hmem => ?_⟩
    rcases List.mem_append.mp hmem with hmem | hmem
    · exact hall c hmem
    · rw [List.mem_singleton.mp hmem]
      exact ⟨hd'.consistent, hrefreshed⟩

/-- A silent command that finds an encoder with the current version breaks the agreement at once. -/
theorem announced_of_consistent {st st' : Program} {m : Move} (h : st.Consistent) (hm : st.step m = .ok st') (h' : st'.Consistent) :
    Event.Announced ⟨st, m, st'⟩ := by
  intro s tmp hmove hsilent i e he hversion
  simp only at hmove
  subst hmove
  obtain ⟨⟨ret, g⟩, hrun, hm⟩ := bind_ok.mp hm
  cases hm
  obtain ⟨hsame, hbreaks⟩ := hsilent.changes (Globals.handleCommand_ok hrun).2
  exact hbreaks _ (h i e he hversion) (h' i e he (hversion.trans hsame.symm))

theorem Ran.announced (h : Ran g log st) (hall : ∀ c ∈ log, c.after.Consistent) : st.Consistent ∧ ∀ c ∈ log, c.Announced := by
  induction h with
  | start => exact ⟨fun i e he => (by cases he), fun c hc => (by cases hc)⟩
  | step h hm ih =>
    obtain ⟨hcons, hann⟩ := ih fun c hmem => hall c (List.mem_append_left _ hmem)
    have hlast := hall _ (List.mem_append_right _ (List.mem_singleton.mpr rfl))
    refine ⟨hlast, fun c hmem => ?_⟩
    rcases List.mem_append.mp hmem with hmem | hmem
    · exact hann c hmem
    · rw [List.mem_singleton.mp hmem]
      exact announced_of_consistent hcons hm hlast

end Ran

/-- Commands, packets and connections in any order: the settings of the encoders agree with the
    program's all along if and only if no value is changed under a version in use. -/
theorem changes_reach_encoders (g : Globals) (log : List Event) (st : Program) (h : Ran g log st) :
    (∀ c ∈ log, c.after.Consistent ∧ c.Refreshed) ↔ ∀ c ∈ log, c.Announced :=
  ⟨fun hall => (h.announced fun c hc => (hall c hc).1).2, fun hall => (h.dated hall).2⟩

/-- The defaults, and the string they come from. -/
def defaultGlobals : Globals := ⟨FecEncodeManager.defaultTable, "20:10".toList⟩

def noScratch : Scratch := ⟨[], fun _ => ⟨0, 0⟩⟩

def encoderMemory : FecEncodeManager := { (default : FecEncodeManager) with fecPar := FecEncodeManager.defaultTable }

/-- One connection under the defaults. -/
def oneEncoder : Program := ⟨defaultGlobals, upd (fun _ => none) 0 (some (encoderMemory.clearData 0))⟩

theorem oneEncoder_step : Program.step ⟨defaultGlobals, fun _ => none⟩ (.create 0 encoderMemory 0) = .ok oneEncoder := by
  have hnew : encoderMemory.construct FecEncodeManager.defaultTable 0 = .ok (encoderMemory.clearData 0) :=
    FecEncodeManager.construct_self (by decide) 0
  simp only [Program.step]
  rw [show (defaultGlobals.gFecPar) = FecEncodeManager.defaultTable from rfl, hnew]
  rfl

/-- The same with another mtu. -/
def mtu1000 : Globals := { defaultGlobals with gFecPar := { FecEncodeManager.defaultTable with mtu := 1000 } }

/-- `mtu 1000` and the timer, under the version the encoder has: it keeps 1250. -/
theorem mtu_not_taken_up : (¬ ∀ g log st, Ran g log st → ∀ c ∈ log, c.after.Consistent) ∧
    ¬ ∀ g log st, Ran g log st → ∀ c ∈ log, c.Refreshed := by
  have hcommand : oneEncoder.step (.command "mtu 1000".toList noScratch) = .ok ⟨mtu1000, oneEncoder.encoders⟩ := rfl
  have htimer : Program.step ⟨mtu1000, oneEncoder.encoders⟩ (.input 0 default none) =
      .ok ⟨mtu1000, upd oneEncoder.encoders 0 (some (encoderMemory.clearData 0))⟩ := rfl
  have hran := ((Ran.start.step oneEncoder_step).step hcommand).step htimer
  have hdiffer : ¬ FecParameter.Agrees (encoderMemory.clearData 0).fecPar mtu1000.gFecPar := fun h => absurd h.mtu (by decide)
  refine ⟨fun hall => hdiffer ?_, fun hall => hdiffer ?_⟩
  · exact hall _ _ _ hran _ (List.mem_append_right _ (List.mem_singleton.mpr rfl)) 0 _ rfl rfl
  · exact hall _ _ _ hran _ (List.mem_append_right _ (List.mem_singleton.mpr rfl)) 0 default none _ _ rfl rfl rfl rfl

/-- A command that bumps the version while that encoder is there. -/
theorem changes_reach_encoders_fec : ∃ log st, log.length = 2 ∧ Ran defaultGlobals log st ∧
    ((∀ c ∈ log, c.after.Consistent ∧ c.Refreshed) ↔ ∀ c ∈ log, c.Announced) := by
  obtain ⟨st, hst⟩ : ∃ st, oneEncoder.step (.command "fec 3:2".toList noScratch) = .ok st := ⟨_, rfl⟩
  have hran := (Ran.start.step oneEncoder_step).step hst
  exact ⟨_, _, rfl, hran, changes_reach_encoders _ _ _ hran⟩

/-! ## No assertion fails -/

/-- Settings the options let through, and the string of a table in order. -/
structure Globals.InRange (g : Globals) : Prop where
  par : g.gFecPar.InRange
  string : ∀ p p' : FecParameter, p.rsFromStr g.rsParStr = .ok (0, p') → p'.WellFormed

/-- An encoder between two calls. -/
def FecEncodeManager.Idle (e : FecEncodeManager) : Prop := e.Held ∧ e.Open e.lastRow

structure Program.Sound (st : Program) : Prop where
  globals : st.globals.InRange
  encoders : ∀ i e, st.encoders i = some e → e.Idle

/-- A `fec` command leaves a table in order; an encoder is drained before it is given the next
    packet, and no packet is longer than a datagram. -/
def Event.Allowed (c : Event) : Prop :=
  match c.move with
  | .command s _ => ∀ word, parseCommand s = .fec word → c.after.globals.gFecPar.WellFormed
  | .input i _ s => (∀ e, c.before.encoders i = some e → e.readyForOutput = false) ∧ ∀ p, s = some p → p.length ≤ maxDataLen + 4
  | _ => True

theorem FecParameter.SameTable.wellFormed {p q : FecParameter} (h : p.SameTable q) (hq : q.WellFormed) : p.WellFormed :=
  hq.congr h.rsCnt fun i hi => h.rsPar i (h.rsCnt ▸ hi)

theorem FecParameter.copyFec_same {p q p' : FecParameter} (h : p.copyFec q = .ok p') :
    q.SameTable p' ∧ p' = { p with rsCnt := p'.rsCnt, rsPar := p'.rsPar } := by
  unfold copyFec at h
  rw [check_bind] at h
  cases h.2
  refine ⟨⟨rfl, fun i hi => ?_⟩, rfl⟩
  simp only
  rw [← Nat.zero_add i, copyTo_in _ _ hi, Nat.zero_add]

theorem Globals.Did.inRange {g g' : Globals} {tmp : Scratch} {c : Command} (h : Did g tmp c g') (hg : g.InRange)
    (hfec : ∀ word, c = .fec word → g'.gFecPar.WellFormed) : g'.InRange := by
  obtain ⟨⟨htable, hmtu, hqueue, hmode⟩, hstring⟩ := hg
  cases h with
  | nothing => exact ⟨⟨htable, hmtu, hqueue, hmode⟩, hstring⟩
  | mtu a hrange => exact ⟨⟨htable.congr rfl fun _ _ => rfl, by simp only; omega, hqueue, hmode⟩, hstring⟩
  | queueLen a hrange => exact ⟨⟨htable.congr rfl fun _ _ => rfl, hmtu, by simp only; omega, hmode⟩, hstring⟩
  | timeout a hrange => exact ⟨⟨htable.congr rfl fun _ _ => rfl, hmtu, hqueue, hmode⟩, hstring⟩
  | mode a hrange p hp =>
    have hframe := FecParameter.rsFromStr_frame hp
    refine ⟨⟨(hstring _ _ hp).congr rfl fun _ _ => rfl, ?_, ?_, ?_⟩, hstring⟩
    · rw [hframe]
      exact hmtu
    · rw [hframe]
      exact hqueue
    · rw [hframe]
      simp only
      omega
  | fec word tmpStr tmpPar p hp hcopy =>
    have hafter := hfec word rfl
    obtain ⟨hsame, hframe⟩ := FecParameter.copyFec_same hcopy
    refine ⟨⟨hafter, ?_, ?_, ?_⟩, ?_⟩
    · rw [hframe]
      exact hmtu
    · rw [hframe]
      exact hqueue
    · rw [hframe]
      exact hmode
    · intro q q' hq
      have hsame' : tmpPar.WellFormed := hafter.congr hsame.rsCnt fun i hi => hsame.rsPar i (hsame.rsCnt ▸ hi)
      exact (FecParameter.rsFromStr_same hq hp).wellFormed hsame'

namespace Program

variable {st st' : Program}

theorem Sound.upd (h : st.Sound) {i : Nat} {e : Option FecEncodeManager} (he : ∀ e', e = some e' → e'.Idle) :
    Program.Sound { st with encoders := Lib.upd st.encoders i e } := by
  refine ⟨h.globals, fun j e' hj => ?_⟩
  simp only [upd_apply] at hj
  split at hj
  · exact he e' hj
  · exact h.encoders j e' hj

/-- A call from a drained encoder stops at nothing but an `int` that overflows. -/
theorem Sound.input_returns (h : st.Sound) {i : Nat} {e : FecEncodeManager} (he : st.encoders i = some e)
    (hready : e.readyForOutput = false) (o : EncodeOptions) {s : Option Bytes} (hs : ∀ p, s = some p → p.length ≤ maxDataLen + 4) :
    Returns o.Heavy (e.input (st.options o) s) fun r => r.1.Idle := by
  obtain ⟨hheld, hopen⟩ := h.encoders i e he
  exact @FecEncodeManager.input_returns e (st.options o) s ⟨hheld, hopen, hready⟩ h.globals.par hs

theorem step_sound {m : Move} (h : st.Sound) (hm : st.step m = .ok st') (hc : Event.Allowed ⟨st, m, st'⟩) : st'.Sound := by
  cases m with
  | command s tmp =>
    obtain ⟨⟨ret, g⟩, hrun, hm⟩ := bind_ok.mp hm
    cases hm
    exact ⟨(Globals.handleCommand_ok hrun).1.inRange h.globals hc, h.encoders⟩
  | create i memory seq =>
    obtain ⟨e, hnew, hm⟩ := bind_ok.mp hm
    cases hm
    have hsteady := FecEncodeManager.construct_steady h.globals.par hnew
    exact h.upd fun e' he' => by cases he'; exact ⟨hsteady.held, hsteady.room⟩
  | destroy i =>
    cases hm
    exact h.upd fun e' he' => by cases he'
  | input i o s =>
    simp only [step] at hm
    split at hm
    · cases hm
      exact h
    · rename_i e hsome
      obtain ⟨⟨e1, ret⟩, hin, hm⟩ := bind_ok.mp hm
      cases hm
      have hidle := (h.input_returns hsome (hc.1 e hsome) o hc.2).ok hin
      exact h.upd fun e' he' => by cases he'; exact hidle
  | output i =>
    simp only [step] at hm
    split at hm
    · cases hm
      exact h
    · rename_i e hsome
      cases hm
      refine h.upd fun e' he' => ?_
      cases he'
      rw [FecEncodeManager.output_frame]
      obtain ⟨hheld, hopen⟩ := h.encoders i e hsome
      exact ⟨⟨hheld.par, hheld.queue, hheld.group, hheld.fresh, hheld.size, hheld.rows⟩, hopen.last, hopen.queue, hopen.group⟩

end Program

theorem Ran.sound {g : Globals} {log : List Event} {st : Program} (h : Ran g log st) (hg : g.InRange) (hlog : ∀ c ∈ log, c.Allowed) :
    st.Sound := by
  induction h with
  | start => exact ⟨hg, fun i e he => (by cases he)⟩
  | step h hm ih =>
    have hsound := ih fun c hc => hlog c (List.mem_append_left _ hc)
    exact Program.step_sound hsound hm (hlog _ (List.mem_append_right _ (List.mem_singleton.mpr rfl)))

/-- Wherever commands and packets have taken an encoder, the next call fails no assertion and
    leaves no array: it returns, or an `int` overflows under an overhead out of all bounds. -/
theorem encoder_never_stops (g : Globals) (log : List Event) (st : Program) (h : Ran g log st) (hg : g.InRange)
    (hlog : ∀ c ∈ log, c.Allowed) (i : Nat) (e : FecEncodeManager) (he : st.encoders i = some e) (hready : e.readyForOutput = false)
    (o : EncodeOptions) (s : Option Bytes) (hs : ∀ p, s = some p → p.length ≤ maxDataLen + 4) :
    Returns o.Heavy (e.input (st.options o) s) fun _ => True := by
  have hreturns := (h.sound hg hlog).input_returns he hready o hs
  cases hin : e.input (st.options o) s with
  | ok r => trivial
  | error f => exact hreturns.error hin

theorem defaultGlobals_inRange : defaultGlobals.InRange := by
  refine ⟨⟨FecEncodeManager.defaultTable_wellFormed, by decide, by decide, .inl rfl⟩, fun p p' hp => ?_⟩
  obtain ⟨q, hq, hcnt, hrows⟩ : ∃ q, noScratch.tmpPar.rsFromStr "20:10".toList = .ok (0, q) ∧ q.rsCnt = 20 ∧
      ∀ i < 20, q.rsPar i = ⟨i + 1, 10⟩ := ⟨_, rfl, rfl, by decide⟩
  refine (FecParameter.rsFromStr_same hp hq).wellFormed ?_
  exact FecEncodeManager.defaultTable_wellFormed.congr hcnt hrows

/-- The first packet of a connection. -/
theorem encoder_never_stops_first :
    Returns False ((encoderMemory.clearData 0).input (oneEncoder.options default) (some [1, 2])) fun _ => True := by
  have hreturns := encoder_never_stops _ _ _ (Ran.start.step oneEncoder_step) defaultGlobals_inRange
    (fun c hc => by rw [List.nil_append, List.mem_singleton] at hc; rw [hc]; trivial) 0 _ rfl rfl default (some [1, 2])
    (fun p hp => by cases hp; decide)
  have hlight : ¬ (default : EncodeOptions).Heavy := by
    unfold EncodeOptions.Heavy
    decide
  obtain ⟨r, hr, -⟩ := hreturns.run hlight
  exact .of_ok hr trivial

end UdpSpeeder.Manager
