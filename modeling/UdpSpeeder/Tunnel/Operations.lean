/-
  UdpSpeeder.Tunnel.Operations — the conv manager over whole runs, used as its callers use
  it (`tunnel_client.cpp`, `tunnel_server.cpp`): a conv and its data are inserted only when
  neither is there, and only what is there is looked up, touched or erased (`Op.Allowed`).

  Beside the manager a run notes when each conv was inserted or touched last. `Consistent`
  is what holds after any number of operations (`conv_tables_bijective`): the two maps are each
  other's inverse, the list has one node for each conv, reached through the map to its
  places, newest first, each with the noted time. No operation stops at an assertion; one
  that stops, stops in `additional_clear_function`.
-/

import UdpSpeeder.Tunnel.Expiry

namespace UdpSpeeder.Tunnel

open Lib Net

namespace ConvManager

variable {T σ : Type} [DecidableEq T] [Inhabited T]

/-! ## Operations -/

inductive Op (T : Type) where
  | insertConv (conv : U32) (data : T)
  | updateActiveTime (conv : U32)
  | findConvByData (data : T)
  | findDataByConv (conv : U32)
  | eraseConv (conv : U32)
  | clearInactive
  | clear

/-- A manager in use: what its clear function works on, the clock, and when each conv was
    inserted or touched last. -/
structure InUse (T σ : Type) where
  m : ConvManager T
  s : σ
  clock : Clock
  stamp : U32 → Nat

namespace Op

omit [Inhabited T] in
/-- What the callers see to before. -/
def Allowed (m : ConvManager T) : Op T → Prop
  | insertConv conv data => ¬ m.isConvUsed conv ∧ ¬ m.isDataUsed data
  | findConvByData data => m.isDataUsed data
  | updateActiveTime conv | findDataByConv conv | eraseConv conv => m.isConvUsed conv
  | clearInactive | clear => True

omit [Inhabited T] in
instance (m : ConvManager T) : (o : Op T) → Decidable (o.Allowed m)
  | insertConv conv data => inferInstanceAs (Decidable (¬ m.isConvUsed conv ∧ ¬ m.isDataUsed data))
  | findConvByData data => inferInstanceAs (Decidable (m.isDataUsed data))
  | updateActiveTime conv | findDataByConv conv | eraseConv conv => inferInstanceAs (Decidable (m.isConvUsed conv))
  | clearInactive | clear => isTrue trivial

/-- The operation on the manager. -/
def run (f : ClearFunction T σ) (u : InUse T σ) : Op T → Except Fault (InUse T σ)
  | insertConv conv data => do
    let (m, c) ← u.m.insertConv conv data u.clock
    .ok { u with m := m, clock := c, stamp := fun k => if k = conv then u.clock.now else u.stamp k }
  | updateActiveTime conv => do
    let (m, c) ← u.m.updateActiveTime conv u.clock
    .ok { u with m := m, clock := c, stamp := fun k => if k = conv then u.clock.now else u.stamp k }
  | findConvByData data => .ok { u with m := (u.m.findConvByData data).1 }
  | findDataByConv conv => .ok { u with m := (u.m.findDataByConv conv).1 }
  | eraseConv conv => do
    let (m, s) ← u.m.eraseConv f conv u.s
    .ok { u with m := m, s := s }
  | clearInactive => do
    let (m, s, c) ← u.m.clearInactive f u.s u.clock
    .ok { u with m := m, s := s, clock := c }
  | clear => do
    let (m, s) ← u.m.clear f u.s
    .ok { u with m := m, s := s }

end Op

/-- From an empty manager, any operations; in between the clock goes on, and what the clear
    function works on may change. -/
inductive Reached (f : ClearFunction T σ) : InUse T σ → Prop
  | start (lastClearTime : Nat) (s : σ) {c : Clock} (hc : Monotone c) : Reached f ⟨init lastClearTime, s, c, fun _ => 0⟩
  | other {u : InUse T σ} (h : Reached f u) (s : σ) (n : Nat) : Reached f { u with s := s, clock := fun i => u.clock (i + n) }
  | op {u u' : InUse T σ} (h : Reached f u) {o : Op T} (ho : o.Allowed u.m) (hr : o.run f u = .ok u') : Reached f u'

/-- What holds of the tables between two operations. -/
structure Consistent (u : InUse T σ) : Prop where
  inverse : ∀ conv data, u.m.convToData.lookup conv = some data ↔ u.m.dataToConv.lookup data = some conv
  keys : ∀ conv, conv ∈ u.m.lru.mp ↔ conv ∈ u.m.convToData
  reached : ∀ conv it, u.m.lru.mp.lookup conv = some it ↔ ∃ ts, ⟨it, conv, ts⟩ ∈ u.m.lru.q
  once : (u.m.lru.q.map LruNode.key).Nodup
  sorted : u.m.lru.q.Pairwise fun a b => b.ts ≤ a.ts
  stamped : ∀ n ∈ u.m.lru.q, n.ts = u.stamp n.key

/-! ## One operation -/

/-- With what the next operation needs of the clock. -/
structure Running (u : InUse T σ) : Prop where
  wf : u.m.Wf u.clock.now
  mono : Monotone u.clock
  stamped : ∀ n ∈ u.m.lru.q, n.ts = u.stamp n.key

omit [Inhabited T] in
theorem Running.consistent {u : InUse T σ} (h : Running u) : Consistent u :=
  ⟨h.wf.inverse, h.wf.keys, h.wf.lru.place, h.wf.lru.keys_nodup, h.wf.lru.sorted, h.stamped⟩

variable {conv : U32} {f : ClearFunction T σ}

omit [DecidableEq T] [Inhabited T] in
/-- The node in front has the time of the operation, the others have theirs. -/
theorem stamped_cons {q q' : List (LruNode U32)} {it now : Nat} {stamp : U32 → Nat} (hnodup : ((⟨it, conv, now⟩ :: q).map LruNode.key).Nodup)
    (hsub : q.Sublist q') (hold : ∀ n ∈ q', n.ts = stamp n.key) :
    ∀ n ∈ ⟨it, conv, now⟩ :: q, n.ts = if n.key = conv then now else stamp n.key := by
  rw [List.map_cons, List.nodup_cons] at hnodup
  intro n hn
  rcases List.mem_cons.mp hn with rfl | hn
  · exact (if_pos rfl).symm
  · have hne : n.key ≠ conv := fun e => hnodup.1 (List.mem_map.mpr ⟨n, hn, e⟩)
    rw [if_neg hne]
    exact hold n (hsub.subset hn)

omit [DecidableEq T] [Inhabited T] in
/-- Calls of a clear function one after the other all return, or one of them stops. -/
theorem clears_or_stops {α : Type} (f : ClearFunction T σ) (g : α → T) (l : List α) (s : σ) :
    (∃ s', l.foldlM (fun s a => f (g a) s) s = .ok s') ∨
      ∃ data s0 e, f data s0 = .error e ∧ l.foldlM (fun s a => f (g a) s) s = .error e := by
  induction l generalizing s with
  | nil => exact .inl ⟨s, rfl⟩
  | cons a l ih =>
    rw [List.foldlM_cons]
    cases hf : f (g a) s with
    | error e => exact .inr ⟨g a, s, e, hf, rfl⟩
    | ok s' => exact ih s'

/-- An operation that is allowed goes through and the state is one again from which others
    may go on, or the clear function stops it. -/
theorem Running.run {u : InUse T σ} (h : Running u) (f : ClearFunction T σ) {o : Op T} (ho : o.Allowed u.m) :
    (∃ u', o.run f u = .ok u' ∧ Running u') ∨ ∃ data s e, f data s = .error e ∧ o.run f u = .error e := by
  cases o with
  | insertConv conv data =>
    obtain ⟨m', hrun, hwf, -⟩ := insertConv_ok h.wf h.mono ho.1 ho.2
    have hnodup := hwf.lru.keys_nodup
    simp only [Op.run, hrun, ok_bind]
    refine .inl ⟨_, rfl, hwf, Clock.tail_mono h.mono, ?_⟩
    obtain ⟨-, rfl⟩ := insertConv_inv hrun
    exact stamped_cons hnodup (List.Sublist.refl _) h.stamped
  | updateActiveTime conv =>
    obtain ⟨lru, hrun, hwf⟩ := updateActiveTime_ok h.wf h.mono ho
    have hnodup := hwf.lru.keys_nodup
    simp only [Op.run, hrun, ok_bind]
    refine .inl ⟨_, rfl, hwf, Clock.tail_mono h.mono, ?_⟩
    obtain ⟨-, q, hsub, hq⟩ := updateActiveTime_inv hrun
    cases hq
    exact stamped_cons hnodup hsub h.stamped
  | findConvByData data =>
    obtain ⟨conv, hlook⟩ := exists_lookup ho
    exact .inl ⟨u, by simp only [Op.run, findConvByData_ok hlook], h⟩
  | findDataByConv conv =>
    obtain ⟨data, hlook⟩ := exists_lookup ho
    exact .inl ⟨u, by simp only [Op.run, findDataByConv_ok hlook], h⟩
  | eraseConv conv =>
    obtain ⟨data, hlook⟩ := exists_lookup ho
    unfold Op.run
    simp only [eraseConv_eq h.wf hlook]
    cases hf : f data u.s with
    | error e => exact .inr ⟨data, u.s, e, hf, rfl⟩
    | ok s' => exact .inl ⟨_, rfl, without_wf h.wf hlook, h.mono, fun n hn => h.stamped n (List.mem_of_mem_filter hn)⟩
  | clearInactive =>
    unfold Op.run ConvManager.clearInactive
    simp only
    split
    · have hlater := ((Clock.now_le h.mono).trans (Clock.now_le (Clock.tail_mono h.mono)))
      have hwf : ({ u.m with lastClearTime := u.clock.tail.now } : ConvManager T).Wf u.clock.tail.tail.now :=
        ⟨h.wf.inverse, h.wf.lru.later hlater, h.wf.keys⟩
      obtain ⟨m', gone, datas, hexp, hwf', -, hrun⟩ := clearLoop_takes hwf f
        (min (u.m.lru.size / convClearRatio + convClearMin) u.m.lru.size)
      have hmono := Clock.tail_mono (Clock.tail_mono h.mono)
      unfold clearInactive0
      simp only [hrun]
      rcases clears_or_stops f id datas u.s with ⟨s', hs⟩ | ⟨data, s0, e, hf, hs⟩
      · simp only [id_eq] at hs
        simp only [hs, ok_bind]
        refine .inl ⟨_, rfl, hwf'.later (Clock.now_le hmono), Clock.tail_mono hmono, fun n hn => h.stamped n ?_⟩
        have hq : u.m.lru.q = m'.lru.q ++ gone.reverse := hexp.q
        rw [hq]
        exact List.mem_append_left _ hn
      · simp only [id_eq] at hs
        refine .inr ⟨data, s0, e, hf, ?_⟩
        rw [hs]
        rfl
    · exact .inl ⟨_, rfl, h.wf.later (Clock.now_le h.mono), Clock.tail_mono h.mono, h.stamped⟩
  | clear =>
    unfold Op.run ConvManager.clear
    rcases clears_or_stops f Sigma.snd u.m.convToData.entries u.s with ⟨s', hs⟩ | ⟨data, s0, e, hf, hs⟩
    · simp only [hs, ok_bind]
      refine .inl ⟨_, rfl, ⟨inverse_empty, ⟨?_, .nil, ?_, .nil, ?_⟩, ?_⟩, h.mono, ?_⟩ <;> simp
    · refine .inr ⟨data, s0, e, hf, ?_⟩
      simp only [hs]
      rfl

/-! ## Runs -/

theorem Reached.running {u : InUse T σ} (h : Reached f u) : Running u := by
  induction h with
  | start lastClearTime s hc => exact ⟨init_wf _ _, hc, fun n hn => absurd hn List.not_mem_nil⟩
  | @other u _ s n ih =>
    refine ⟨ih.wf.later ?_, fun a b hab => ih.mono (Nat.add_le_add_right hab n), ih.stamped⟩
    exact Nat.div_le_div_right (ih.mono (Nat.zero_le _))
  | op _ ho hr ih =>
    rcases ih.run f ho with ⟨u', hr', h'⟩ | ⟨_, _, _, _, hr'⟩
    · rw [hr] at hr'
      cases hr'
      exact h'
    · rw [hr] at hr'
      cases hr'

/-- Whatever the callers do, the tables agree, and the next operation does not stop at an
    assertion: at most `additional_clear_function` stops it. -/
theorem conv_tables_bijective (f : ClearFunction T σ) (u : InUse T σ) (h : Reached f u) :
    Consistent u ∧ ∀ o : Op T, o.Allowed u.m →
      (∃ u', o.run f u = .ok u') ∨ ∃ data s e, f data s = .error e ∧ o.run f u = .error e :=
  ⟨h.running.consistent, fun _ ho => (h.running.run f ho).imp_left fun ⟨u', hr, _⟩ => ⟨u', hr⟩⟩

/-- Two convs come at 1 and 2 ms. After 200 s one of them sends again, and the other expires. -/
theorem conv_tables_bijective_two : ∃ u : InUse Fd64 Unit, u.m.lru.q = [⟨2, 2, 200003⟩] ∧ u.m.convToData.lookup 1 = none ∧ Consistent u ∧
    ∀ o : Op Fd64, o.Allowed u.m → ∃ u', o.run (fun _ s => .ok s) u = .ok u' := by
  have h0 : Reached (fun (_ : Fd64) (s : Unit) => .ok s) ⟨init 0, (), fun i => 1000 * (i + 1), fun _ => 0⟩ :=
    .start 0 () fun a b hab => Nat.mul_le_mul_left _ (Nat.succ_le_succ hab)
  have h1 := h0.op (o := .insertConv 1 4294967297) (by decide) rfl
  have h2 := h1.op (o := .insertConv 2 4294967298) (by decide) rfl
  have h3 := (h2.other () 200000).op (o := .updateActiveTime 2) (by decide) rfl
  have h4 := h3.op (o := .clearInactive) trivial rfl
  obtain ⟨hconsistent, hnext⟩ := conv_tables_bijective _ _ h4
  refine ⟨_, rfl, rfl, hconsistent, fun o ho => ?_⟩
  rcases hnext o ho with hrun | ⟨data, s, e, hstop, -⟩
  · exact hrun
  · cases hstop

end ConvManager

end UdpSpeeder.Tunnel
