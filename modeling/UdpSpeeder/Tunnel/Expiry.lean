/-
  UdpSpeeder.Tunnel.Expiry — what `clear_inactive0` takes away (`connection.h`).

  The list is by time, the newest in front, so the convs that are idle are its back, and the
  loop takes them from there: the one quiet longest first, until it has its share, or the
  next one is not idle, or none is left. `Expired` compares the manager before and after;
  `clearInactive0_takes` says how many go and that the rest is as it was. A conv that goes
  is gone from both maps and from the list (`without`), and `additional_clear_function` is
  called on its data, once.
-/

import UdpSpeeder.Tunnel.ConvManager

namespace UdpSpeeder.Tunnel

open Lib Net

/-- A later time less an earlier one. -/
theorem sub64_eq {a b : Nat} (h : b ≤ a) (ha : a < 2 ^ 64) : sub64 a b = a - b := by
  unfold sub64
  omega

namespace LruCollector

variable {κ : Type} [DecidableEq κ] {l : LruCollector κ} {key : κ}

theorem erase_eq {now : Nat} (h : l.Wf now) (hkey : key ∈ l.mp) :
    l.erase key = .ok { l with q := l.q.filter (·.key ≠ key), mp := l.mp.erase key } := by
  obtain ⟨it, hit⟩ := exists_lookup hkey
  obtain ⟨hunlink, hkeys⟩ := h.unlink hit
  have hfilter : l.q.filter (·.it ≠ it) = l.q.filter (·.key ≠ key) :=
    List.filter_congr fun n hn => decide_eq_decide.mpr (hkeys n hn)
  unfold erase
  rw [hit]
  simp only [hunlink, ok_bind, hfilter]

/-- One node for each key. -/
theorem Wf.keys_nodup {now : Nat} (h : l.Wf now) : (l.q.map LruNode.key).Nodup := by
  refine List.Nodup.of_map (fun k => l.mp.lookup k) ?_
  have heq : (l.q.map LruNode.key).map (fun k => l.mp.lookup k) = (l.q.map LruNode.it).map some := by
    rw [List.map_map, List.map_map]
    exact List.map_congr_left fun n hn => (h.place n.key n.it).mpr ⟨n.ts, hn⟩
  rw [heq]
  exact h.distinct.map (Option.some_injective _)

/-- Taking the last node's key out takes the last node off. -/
theorem Wf.filter_last {now : Nat} (h : l.Wf now) {q : List (LruNode κ)} {b : LruNode κ} (hq : l.q = q ++ [b]) :
    l.q.filter (·.key ≠ b.key) = q := by
  have hnodup := h.keys_nodup
  rw [hq, List.map_append] at hnodup
  rw [hq, List.filter_append, List.filter_eq_self.mpr, List.filter_eq_nil_iff.mpr, List.append_nil]
  · intro n hn
    rw [List.mem_singleton.mp hn]
    simp
  · intro n hn
    refine decide_eq_true fun he => ?_
    exact (List.nodup_append.mp hnodup).2.2 n.key (List.mem_map_of_mem hn) b.key (List.mem_singleton_self _) he

end LruCollector

namespace ConvManager

variable {T σ : Type} [DecidableEq T] {m : ConvManager T} {conv : U32} {data : T} {now : Nat}

/-- Without `conv`, whose data is `data`. -/
def without (m : ConvManager T) (conv : U32) (data : T) : ConvManager T :=
  { m with
    dataToConv := m.dataToConv.erase data
    convToData := m.convToData.erase conv
    lru := { m.lru with mp := m.lru.mp.erase conv, q := m.lru.q.filter (·.key ≠ conv) } }

section Erase

variable [Inhabited T]

/-- `erase_conv` calls the clear function and then takes the conv out, wherever it is. -/
theorem eraseConv_eq (h : m.Wf now) (hlook : m.convToData.lookup conv = some data) (f : ClearFunction T σ) (s : σ) :
    m.eraseConv f conv s = f data s >>= fun s' => .ok (m.without conv data, s') := by
  unfold eraseConv
  rw [findDataByConv_ok hlook]
  simp only [LruCollector.erase_eq h.lru ((h.keys conv).mpr (mem_of_lookup hlook)), ok_bind]
  rfl

theorem without_wf (h : m.Wf now) (hlook : m.convToData.lookup conv = some data) : (m.without conv data).Wf now := by
  obtain ⟨m', herase, hwf, -⟩ := eraseConv_ok (f := fun _ (u : Unit) => .ok u) (s := ()) h hlook rfl
  rw [eraseConv_eq h hlook] at herase
  cases herase
  exact hwf

end Erase

/-! ## What has gone -/

/-- `m'` is `m` without the nodes at the back of the list, the last one first, whose data
    are `datas`. -/
structure Expired (m m' : ConvManager T) (gone : List (LruNode U32)) (datas : List T) : Prop where
  q : m.lru.q = m'.lru.q ++ gone.reverse
  data : gone.Forall₂ (fun n d => m.convToData.lookup n.key = some d) datas
  convToData : ∀ conv, m'.convToData.lookup conv = if conv ∈ gone.map LruNode.key then none else m.convToData.lookup conv
  dataToConv : ∀ d, m'.dataToConv.lookup d = if d ∈ datas then none else m.dataToConv.lookup d
  mp : ∀ conv, m'.lru.mp.lookup conv = if conv ∈ gone.map LruNode.key then none else m.lru.mp.lookup conv
  lastClearTime : m'.lastClearTime = m.lastClearTime

theorem Expired.nothing (m : ConvManager T) : Expired m m [] [] :=
  ⟨(List.append_nil _).symm, .nil, fun _ => rfl, fun _ => rfl, fun _ => rfl, rfl⟩

theorem Expired.next (h : m.Wf now) {q : List (LruNode U32)} {b : LruNode U32} (hq : m.lru.q = q ++ [b])
    (hlook : m.convToData.lookup b.key = some data) {m' : ConvManager T} {gone : List (LruNode U32)} {datas : List T}
    (he : Expired (m.without b.key data) m' gone datas) : Expired m m' (b :: gone) (data :: datas) where
  q := by
    have hlast : (m.without b.key data).lru.q = q := h.lru.filter_last hq
    rw [hq, List.reverse_cons, ← List.append_assoc, ← he.q, hlast]
  data := by
    refine .cons hlook (he.data.imp fun n d hn => ?_)
    have hn : (m.convToData.erase b.key).lookup n.key = some d := hn
    rw [lookup_erase_eq] at hn
    split at hn
    · cases hn
    · exact hn
  convToData := by
    intro conv
    rw [he.convToData, List.map_cons]
    show (if _ then none else (m.convToData.erase b.key).lookup conv) = _
    rw [lookup_erase_eq]
    by_cases h1 : conv = b.key
    · simp [h1]
    · simp [h1]
  dataToConv := by
    intro d
    rw [he.dataToConv]
    show (if _ then none else (m.dataToConv.erase data).lookup d) = _
    rw [lookup_erase_eq]
    by_cases h1 : d = data
    · simp [h1]
    · simp [h1]
  mp := by
    intro conv
    rw [he.mp, List.map_cons]
    show (if _ then none else (m.lru.mp.erase b.key).lookup conv) = _
    rw [lookup_erase_eq]
    by_cases h1 : conv = b.key
    · simp [h1]
    · simp [h1]
  lastClearTime := he.lastClearTime

/-- No data is cleared twice. -/
theorem Expired.datas_nodup (h : m.Wf now) {m' : ConvManager T} {gone : List (LruNode U32)} {datas : List T}
    (he : Expired m m' gone datas) : datas.Nodup := by
  have hconv : datas.map (fun d => m.dataToConv.lookup d) = (gone.map LruNode.key).map some := by
    have hdata := he.data
    clear he
    induction hdata with
    | nil => rfl
    | cons hlook _ ih => simp only [List.map_cons, (h.inverse _ _).mp hlook, ih]
  have hkeys := h.lru.keys_nodup
  rw [he.q, List.map_append, List.map_reverse] at hkeys
  have hgone := List.nodup_reverse.mp (List.nodup_append.mp hkeys).2.1
  refine List.Nodup.of_map (fun d => m.dataToConv.lookup d) ?_
  rw [hconv]
  exact hgone.map (Option.some_injective _)

/-! ## The loop -/

/-- Quiet for `conv_timeout` or longer. -/
def idle (now : Nat) (n : LruNode U32) : Bool := decide (convTimeout ≤ now - n.ts)

section Loop

variable [Inhabited T]

/-- The loop takes from the back; as many as it may of those that are idle, the time being a
    `my_time_t`. -/
theorem clearLoop_takes (h : m.Wf now) (f : ClearFunction T σ) (n : Nat) :
    ∃ m' gone datas, Expired m m' gone datas ∧ m'.Wf now ∧
      (now < 2 ^ 64 → gone.length = min n (m.lru.q.countP (idle now)) ∧ ∀ x ∈ gone, idle now x = true) ∧
      ∀ s, clearLoop f now n m s = datas.foldlM (fun s d => f d s) s >>= fun s' => .ok (m', s') := by
  induction n generalizing m with
  | zero => exact ⟨m, [], [], .nothing m, h, fun _ => by simp, fun s => rfl⟩
  | succ n ih =>
    unfold clearLoop
    rcases List.eq_nil_or_concat' m.lru.q with hq | ⟨q, b, hq⟩
    · refine ⟨m, [], [], .nothing m, h, fun _ => by simp [hq], fun s => ?_⟩
      rw [hq]
      rfl
    · have hb : b ∈ m.lru.q := by rw [hq]; simp
      have hts := h.lru.past b hb
      have hempty : m.lru.q.isEmpty = false := by simp [hq]
      have hpeek : m.lru.peekBack = .ok (b.key, b.ts) := by
        unfold LruCollector.peekBack
        rw [hq, List.getLast?_concat]
      simp only [hempty, Bool.false_eq_true, if_false, hpeek, ok_bind]
      by_cases hidle : sub64 now b.ts < convTimeout
      · refine ⟨m, [], [], .nothing m, h, fun hnow => ⟨?_, by simp⟩, fun s => by rw [if_pos hidle]; rfl⟩
        -- the others are no older
        rw [sub64_eq hts hnow] at hidle
        have hsorted := h.lru.sorted
        rw [hq] at hsorted
        have hnone : m.lru.q.countP (idle now) = 0 := List.countP_eq_zero.mpr fun x hx => by
          have hx' : b.ts ≤ x.ts := by
            rw [hq] at hx
            rcases List.mem_append.mp hx with hx | hx
            · exact (List.pairwise_append.mp hsorted).2.2 x hx b (List.mem_singleton_self b)
            · exact (congrArg LruNode.ts (List.mem_singleton.mp hx)).ge
          simp only [idle, decide_eq_true_eq]
          omega
        rw [hnone]
        simp
      · have hlast : ∀ data, (m.without b.key data).lru.q = q := fun _ => h.lru.filter_last hq
        obtain ⟨data, hlook⟩ := exists_lookup ((h.keys b.key).mp (LruCollector.mem_of_node h.lru hb))
        obtain ⟨m', gone, datas, hexp, hwf, hcount, hrun⟩ := ih (without_wf h hlook)
        refine ⟨m', b :: gone, data :: datas, hexp.next h hq hlook, hwf, ?_, ?_⟩
        · intro hnow
          obtain ⟨hlen, hall⟩ := hcount hnow
          rw [sub64_eq hts hnow] at hidle
          have hb' : idle now b = true := decide_eq_true (Nat.not_lt.mp hidle)
          refine ⟨?_, List.forall_mem_cons.mpr ⟨hb', hall⟩⟩
          rw [List.length_cons, hlen, hlast, hq, List.countP_append, List.countP_singleton, if_pos hb']
          omega
        · intro s
          rw [if_neg hidle, eraseConv_eq h hlook, List.foldlM_cons]
          cases hf : f data s with
          | error e => rfl
          | ok s' => exact hrun s'

/-- `clear_inactive0` takes the least of its share, of all and of the idle ones; these are
    the ones quiet longest, each has its data cleared once, and the others stay. -/
theorem clearInactive0_takes {c : Clock} (h : m.Wf c.now) (hnow : c.now < 2 ^ 64) (f : ClearFunction T σ) :
    ∃ m' gone datas, Expired m m' gone datas ∧ m'.Wf c.now ∧
      gone.length = min m.lru.q.length (min (m.lru.q.length / convClearRatio + convClearMin) (m.lru.q.countP (idle c.now))) ∧
      (∀ x ∈ gone, idle c.now x = true) ∧ (∀ x ∈ gone, ∀ y ∈ m'.lru.q, x.ts ≤ y.ts) ∧ datas.Nodup ∧
      ∀ s, m.clearInactive0 f s c = datas.foldlM (fun s d => f d s) s >>= fun s' => .ok (m', s', c.tail) := by
  obtain ⟨m', gone, datas, hexp, hwf, hcount, hrun⟩ := clearLoop_takes h f
    (min (m.lru.size / convClearRatio + convClearMin) m.lru.size)
  obtain ⟨hlen, hall⟩ := hcount hnow
  refine ⟨m', gone, datas, hexp, hwf, ?_, hall, ?_, hexp.datas_nodup h, ?_⟩
  · rw [hlen]
    unfold LruCollector.size
    omega
  · intro x hx y hy
    have hsorted := h.lru.sorted
    rw [hexp.q] at hsorted
    exact (List.pairwise_append.mp hsorted).2.2 y hy x (List.mem_reverse.mpr hx)
  · intro s
    unfold clearInactive0
    simp only
    rw [hrun]
    cases datas.foldlM (fun s d => f d s) s <;> rfl

end Loop

/-- One conv, active at 0. -/
def oneConv : ConvManager Fd64 where
  dataToConv := (∅ : Table Fd64 U32).insert 4294967297 1
  convToData := (∅ : Table U32 Fd64).insert 1 4294967297
  lru := ⟨(∅ : Table U32 Nat).insert 1 0, [⟨0, 1, 0⟩], 1⟩
  lastClearTime := 0

theorem oneConv_wf (now : Nat) : oneConv.Wf now := by
  have hins : (init 0 : ConvManager Fd64).insertConv 1 4294967297 (fun _ => 0) = .ok (oneConv, fun _ => 0) := rfl
  obtain ⟨m', hrun, hwf, -⟩ := insertConv_ok (m := (init 0 : ConvManager Fd64)) (c := fun _ => 0) (init_wf 0 0) (fun _ _ _ => le_refl 0)
    (AList.notMem_empty (1 : U32)) (AList.notMem_empty (4294967297 : Fd64))
  rw [hins] at hrun
  cases hrun
  exact hwf.later (Nat.zero_le now)

/-- Three minutes later it goes. -/
theorem clearInactive0_takes_one : ∃ m' gone datas, Expired oneConv m' gone datas ∧ gone.length = 1 ∧
    ∀ s : List Fd64, oneConv.clearInactive0 (fun d s => .ok (d :: s)) s (fun _ => 180000000) =
      datas.foldlM (fun s d => .ok (d :: s)) s >>= fun s' => .ok (m', s', fun _ => 180000000) := by
  obtain ⟨m', gone, datas, hexp, -, hlen, -, -, -, hrun⟩ :=
    clearInactive0_takes (m := oneConv) (c := fun _ => 180000000) (oneConv_wf _) (by decide) (fun d (s : List Fd64) => .ok (d :: s))
  exact ⟨m', gone, datas, hexp, hlen.trans (by decide), hrun⟩

end ConvManager

end UdpSpeeder.Tunnel
