/-
  UdpSpeeder.Tunnel.ConvManager — the convs of a connection (`conv_manager_t`) and the list
  that tells which of them was quiet longest (`lru_collector_t`).

  A place in the list is a number that no other node has. Two maps hold the same pairs, read
  from either side, and the list holds the same convs (`Wf`); every operation, used as its
  callers use it, keeps this and stops nowhere (`insertConv_ok`, `updateActiveTime_ok`,
  `eraseConv_ok`, `clearInactive_ok`).
-/

import UdpSpeeder.Net.Send

namespace UdpSpeeder.Tunnel

open Lib Net

/-! ## `lru_collector_t` -/

/-- A node of the list, at the place `it`. -/
structure LruNode (κ : Type) where
  it : Nat
  key : κ
  ts : Nat
  deriving DecidableEq

structure LruCollector (κ : Type) where
  mp : Table κ Nat
  q : List (LruNode κ)
  /-- The place of the next node. -/
  nodes : Nat

namespace LruCollector

variable {κ : Type} [DecidableEq κ]

def empty : LruCollector κ := ⟨∅, [], 0⟩

/-- `q.erase(it)`. -/
def unlink (q : List (LruNode κ)) (it : Nat) : Except Fault (List (LruNode κ)) := do
  check (∃ n ∈ q, n.it = it) (.range "q")
  .ok (q.filter (·.it ≠ it))

/-- What `update` and `new_key` end with. -/
def pushFront (l : LruCollector κ) (key : κ) (c : Clock) : Except Fault (LruCollector κ × Clock) := do
  let value := c.now
  check (∀ front ∈ l.q.head?, front.ts ≤ value) (.assert "value >= q.front().ts")
  .ok (⟨l.mp.insert key l.nodes, ⟨l.nodes, key, value⟩ :: l.q, l.nodes + 1⟩, c.tail)

def update (l : LruCollector κ) (key : κ) (c : Clock) : Except Fault (LruCollector κ × Clock) :=
  match l.mp.lookup key with
  | none => .error (.assert "mp.find(key) != mp.end()")
  | some it => do
    let q ← unlink l.q it
    pushFront { l with q := q } key c

def newKey (l : LruCollector κ) (key : κ) (c : Clock) : Except Fault (LruCollector κ × Clock) := do
  check (key ∉ l.mp) (.assert "mp.find(key) == mp.end()")
  l.pushFront key c

def size (l : LruCollector κ) : Nat := l.q.length

/-- `peek_back`: the key, and since when. -/
def peekBack (l : LruCollector κ) : Except Fault (κ × Nat) :=
  match l.q.getLast? with
  | none => .error (.assert "!q.empty()")
  | some n => .ok (n.key, n.ts)

def erase (l : LruCollector κ) (key : κ) : Except Fault (LruCollector κ) :=
  match l.mp.lookup key with
  | none => .error (.assert "mp.find(key) != mp.end()")
  | some it => do
    let q ← unlink l.q it
    .ok { l with q := q, mp := l.mp.erase key }

/-- Every key has its node, the newest first, and none is of the future. -/
structure Wf (l : LruCollector κ) (now : Nat) : Prop where
  place : ∀ key it, l.mp.lookup key = some it ↔ ∃ ts, ⟨it, key, ts⟩ ∈ l.q
  distinct : (l.q.map LruNode.it).Nodup
  below : ∀ n ∈ l.q, n.it < l.nodes
  sorted : l.q.Pairwise fun a b => b.ts ≤ a.ts
  past : ∀ n ∈ l.q, n.ts ≤ now

variable {l : LruCollector κ} {key : κ} {c : Clock}

theorem Wf.later {now now' : Nat} (h : l.Wf now) (hle : now ≤ now') : l.Wf now' :=
  { h with past := fun n hn => (h.past n hn).trans hle }

theorem empty_wf (now : Nat) : (empty : LruCollector κ).Wf now :=
  ⟨by simp [empty], by simp [empty], by simp [empty], .nil, by simp [empty]⟩

theorem mem_of_node {now : Nat} (h : l.Wf now) {n : LruNode κ} (hn : n ∈ l.q) : n.key ∈ l.mp :=
  mem_of_lookup ((h.place n.key n.it).mpr ⟨n.ts, hn⟩)

/-- Without the node of `key` the list is that of the other keys. -/
theorem Wf.unlink {now : Nat} (h : l.Wf now) {it : Nat} (hit : l.mp.lookup key = some it) :
    LruCollector.unlink l.q it = .ok (l.q.filter (·.it ≠ it)) ∧
      ∀ n ∈ l.q, n.it ≠ it ↔ n.key ≠ key := by
  obtain ⟨ts, hmem⟩ := (h.place key it).mp hit
  refine ⟨?_, ?_⟩
  · unfold LruCollector.unlink
    rw [check_true ⟨_, hmem, rfl⟩]
    rfl
  · intro n hn
    have hn' := (h.place n.key n.it).mpr ⟨n.ts, hn⟩
    constructor
    · rintro hne rfl
      exact hne (Option.some.inj (hn'.symm.trans hit))
    · rintro hne rfl
      exact hne (congrArg LruNode.key (List.inj_on_of_nodup_map h.distinct hn hmem rfl))

/-- A new node in front of a list that has none for its key. -/
theorem pushFront_ok (hc : Monotone c) (hplace : ∀ k it, k ≠ key → (l.mp.lookup k = some it ↔ ∃ ts, ⟨it, k, ts⟩ ∈ l.q))
    (hnone : ∀ n ∈ l.q, n.key ≠ key) (hdistinct : (l.q.map LruNode.it).Nodup) (hbelow : ∀ n ∈ l.q, n.it < l.nodes)
    (hsorted : l.q.Pairwise fun a b => b.ts ≤ a.ts) (hpast : ∀ n ∈ l.q, n.ts ≤ c.now) :
    ∃ l', l.pushFront key c = .ok (l', c.tail) ∧ l'.Wf c.tail.now ∧ l'.mp = l.mp.insert key l.nodes := by
  unfold pushFront
  simp only
  rw [check_true fun front hfront => hpast front (List.mem_of_mem_head? hfront), ok_bind]
  refine ⟨_, rfl, ⟨fun k it => ?_, ?_, ?_, ?_, ?_⟩, rfl⟩
  · by_cases hk : k = key
    · subst hk
      rw [AList.lookup_insert]
      constructor
      · intro heq
        cases heq
        exact ⟨_, List.mem_cons_self⟩
      · rintro ⟨ts, hmem⟩
        rcases List.mem_cons.mp hmem with heq | hmem
        · cases heq
          rfl
        · exact absurd rfl (hnone _ hmem)
    · rw [AList.lookup_insert_ne hk, hplace k it hk]
      refine exists_congr fun ts => ?_
      rw [List.mem_cons, or_iff_right fun heq => hk (congrArg LruNode.key heq)]
  · refine List.nodup_cons.mpr ⟨fun hmem => ?_, hdistinct⟩
    obtain ⟨n, hn, heq⟩ := List.mem_map.mp hmem
    exact (hbelow n hn).ne heq
  · intro n hn
    rcases List.mem_cons.mp hn with rfl | hn
    · exact Nat.lt_succ_self _
    · exact (hbelow n hn).trans (Nat.lt_succ_self _)
  · exact List.pairwise_cons.mpr ⟨hpast, hsorted⟩
  · intro n hn
    rcases List.mem_cons.mp hn with rfl | hn
    · exact Clock.now_le hc
    · exact (hpast n hn).trans (Clock.now_le hc)

theorem newKey_ok (h : l.Wf c.now) (hc : Monotone c) (hkey : key ∉ l.mp) :
    ∃ l', l.newKey key c = .ok (l', c.tail) ∧ l'.Wf c.tail.now ∧ ∀ k, k ∈ l'.mp ↔ k = key ∨ k ∈ l.mp := by
  obtain ⟨l', hpush, hwf, hmp⟩ := @pushFront_ok κ _ l key c hc (fun k it _ => h.place k it)
    (fun n hn heq => hkey (heq ▸ mem_of_node h hn)) h.distinct h.below h.sorted h.past
  unfold newKey
  rw [check_true hkey, ok_bind]
  exact ⟨l', hpush, hwf, fun k => by rw [hmp, AList.mem_insert]⟩

theorem update_ok (h : l.Wf c.now) (hc : Monotone c) (hkey : key ∈ l.mp) :
    ∃ l', l.update key c = .ok (l', c.tail) ∧ l'.Wf c.tail.now ∧ ∀ k, k ∈ l'.mp ↔ k ∈ l.mp := by
  obtain ⟨it, hit⟩ := exists_lookup hkey
  obtain ⟨hunlink, hkeys⟩ := h.unlink hit
  have hsub : (l.q.filter (·.it ≠ it)).Sublist l.q := List.filter_sublist
  obtain ⟨l', hpush, hwf, hmp⟩ := @pushFront_ok κ _ { l with q := l.q.filter (·.it ≠ it) } key c hc
    (fun k it' hk => by
      rw [h.place k it']
      refine exists_congr fun ts => ⟨fun hn => List.mem_filter.mpr ⟨hn, decide_eq_true ((hkeys _ hn).mpr hk)⟩, fun hn => hsub.subset hn⟩)
    (fun n hn => (hkeys n (hsub.subset hn)).mp (of_decide_eq_true (List.mem_filter.mp hn).2))
    ((hsub.map _).nodup h.distinct) (fun n hn => h.below n (hsub.subset hn)) (h.sorted.sublist hsub) (fun n hn => h.past n (hsub.subset hn))
  unfold update
  rw [hit]
  simp only [hunlink, ok_bind]
  refine ⟨l', hpush, hwf, fun k => ?_⟩
  rw [hmp, AList.mem_insert]
  exact ⟨fun hk => hk.elim (fun heq => heq ▸ hkey) id, .inr⟩

theorem erase_ok {now : Nat} (h : l.Wf now) (hkey : key ∈ l.mp) :
    ∃ l', l.erase key = .ok l' ∧ l'.Wf now ∧ ∀ k, k ∈ l'.mp ↔ k ≠ key ∧ k ∈ l.mp := by
  obtain ⟨it, hit⟩ := exists_lookup hkey
  obtain ⟨hunlink, hkeys⟩ := h.unlink hit
  have hsub : (l.q.filter (·.it ≠ it)).Sublist l.q := List.filter_sublist
  unfold erase
  rw [hit]
  simp only [hunlink, ok_bind]
  refine ⟨_, rfl, ⟨fun k it' => ?_, (hsub.map _).nodup h.distinct, fun n hn => h.below n (hsub.subset hn), h.sorted.sublist hsub,
    fun n hn => h.past n (hsub.subset hn)⟩, fun k => AList.mem_erase⟩
  by_cases hk : k = key
  · subst hk
    rw [AList.lookup_erase]
    refine ⟨fun heq => (by cases heq), ?_⟩
    rintro ⟨ts, hn⟩
    exact absurd rfl ((hkeys _ (hsub.subset hn)).mp (of_decide_eq_true (List.mem_filter.mp hn).2))
  · rw [AList.lookup_erase_ne hk, h.place k it']
    exact exists_congr fun ts => ⟨fun hn => List.mem_filter.mpr ⟨hn, decide_eq_true ((hkeys _ hn).mpr hk)⟩, fun hn => hsub.subset hn⟩

theorem peekBack_ok {now : Nat} (h : l.Wf now) (hne : l.q ≠ []) : ∃ k ts, l.peekBack = .ok (k, ts) ∧ k ∈ l.mp := by
  unfold peekBack
  rw [List.getLast?_eq_getLast_of_ne_nil hne]
  exact ⟨_, _, rfl, mem_of_node h (List.getLast_mem hne)⟩

/-! ### What a call that returned did -/

variable {l' : LruCollector κ} {c' : Clock}

theorem pushFront_inv (h : l.pushFront key c = .ok (l', c')) :
    c' = c.tail ∧ l' = ⟨l.mp.insert key l.nodes, ⟨l.nodes, key, c.now⟩ :: l.q, l.nodes + 1⟩ := by
  unfold pushFront at h
  simp only at h
  rw [check_bind] at h
  cases h.2
  exact ⟨rfl, rfl⟩

theorem newKey_inv (h : l.newKey key c = .ok (l', c')) :
    c' = c.tail ∧ l' = ⟨l.mp.insert key l.nodes, ⟨l.nodes, key, c.now⟩ :: l.q, l.nodes + 1⟩ := by
  unfold newKey at h
  rw [check_bind] at h
  exact pushFront_inv h.2

theorem update_inv (h : l.update key c = .ok (l', c')) :
    c' = c.tail ∧ ∃ q, q.Sublist l.q ∧ l' = ⟨l.mp.insert key l.nodes, ⟨l.nodes, key, c.now⟩ :: q, l.nodes + 1⟩ := by
  unfold update at h
  cases hit : l.mp.lookup key with
  | none => rw [hit] at h; cases h
  | some it =>
    rw [hit] at h
    obtain ⟨q, hq, h⟩ := bind_ok.mp h
    unfold LruCollector.unlink at hq
    rw [check_bind] at hq
    cases hq.2
    obtain ⟨hclock, hl⟩ := pushFront_inv h
    exact ⟨hclock, _, List.filter_sublist, hl⟩

end LruCollector

/-! ## `conv_manager_t` -/

structure ConvManager (T : Type) where
  dataToConv : Table T U32
  convToData : Table U32 T
  lru : LruCollector U32
  lastClearTime : Nat

/-- `conv_timeout`, in milliseconds. -/
def convTimeout : Nat := 180000

def convClearRatio : Nat := 30

def convClearMin : Nat := 1

def convClearInterval : Nat := 1000

/-- A difference of two `u64_t`. -/
def sub64 (a b : Nat) : Nat := (a + (2 ^ 64 - b % 2 ^ 64)) % 2 ^ 64

namespace ConvManager

variable {T σ : Type}

section Operations

/-- `conv_manager_t`; its `last_clear_time` is not set, the constructor sets a variable of its own. -/
def init (lastClearTime : Nat) : ConvManager T := ⟨∅, ∅, .empty, lastClearTime⟩

def getSize (m : ConvManager T) : Nat := m.convToData.entries.length

def isConvUsed (m : ConvManager T) (conv : U32) : Prop := conv ∈ m.convToData

def isDataUsed (m : ConvManager T) (data : T) : Prop := data ∈ m.dataToConv

instance (m : ConvManager T) (conv : U32) : Decidable (m.isConvUsed conv) := inferInstanceAs (Decidable (conv ∈ m.convToData))

instance [DecidableEq T] (m : ConvManager T) (data : T) : Decidable (m.isDataUsed data) := inferInstanceAs (Decidable (data ∈ m.dataToConv))

/-- `data_to_conv[data]`: one that is not there is made. -/
def findConvByData [DecidableEq T] (m : ConvManager T) (data : T) : ConvManager T × U32 :=
  match m.dataToConv.lookup data with
  | some conv => (m, conv)
  | none => ({ m with dataToConv := m.dataToConv.insert data 0 }, 0)

/-- `conv_to_data[conv]`, likewise. -/
def findDataByConv [Inhabited T] (m : ConvManager T) (conv : U32) : ConvManager T × T :=
  match m.convToData.lookup conv with
  | some data => (m, data)
  | none => ({ m with convToData := m.convToData.insert conv default }, default)

def updateActiveTime (m : ConvManager T) (conv : U32) (c : Clock) : Except Fault (ConvManager T × Clock) := do
  let (lru, c) ← m.lru.update conv c
  .ok ({ m with lru := lru }, c)

def insertConv [DecidableEq T] (m : ConvManager T) (conv : U32) (data : T) (c : Clock) : Except Fault (ConvManager T × Clock) := do
  let (lru, c) ← m.lru.newKey conv c
  .ok ({ m with dataToConv := m.dataToConv.insert data conv, convToData := m.convToData.insert conv data, lru := lru }, c)

/-- `additional_clear_function`, on the state that it works on; nothing where there is none. -/
abbrev ClearFunction (T σ : Type) := T → σ → Except Fault σ

variable (additionalClearFunction : ClearFunction T σ)

/-- `clear`. -/
def clear (m : ConvManager T) (s : σ) : Except Fault (ConvManager T × σ) := do
  let s ← m.convToData.entries.foldlM (fun s e => additionalClearFunction e.2 s) s
  .ok ({ m with dataToConv := ∅, convToData := ∅, lru := { m.lru with mp := ∅, q := [] } }, s)

variable [DecidableEq T] [Inhabited T]

def eraseConv (m : ConvManager T) (conv : U32) (s : σ) : Except Fault (ConvManager T × σ) := do
  let (m, data) := m.findDataByConv conv
  let s ← additionalClearFunction data s
  let lru ← m.lru.erase conv
  .ok ({ m with convToData := m.convToData.erase conv, dataToConv := m.dataToConv.erase data, lru := lru }, s)

/-- The loop of `clear_inactive0`, at most so many times. -/
def clearLoop (currentTime : Nat) : Nat → ConvManager T → σ → Except Fault (ConvManager T × σ)
  | 0, m, s => .ok (m, s)
  | n + 1, m, s =>
    if m.lru.q.isEmpty then .ok (m, s)
    else do
      let (conv, ts) ← m.lru.peekBack
      if sub64 currentTime ts < convTimeout then .ok (m, s)
      else do
        let (m, s) ← m.eraseConv additionalClearFunction conv s
        clearLoop currentTime n m s

def clearInactive0 (m : ConvManager T) (s : σ) (c : Clock) : Except Fault (ConvManager T × σ × Clock) := do
  let size := m.lru.size
  let numToClean := min (size / convClearRatio + convClearMin) size
  let (m, s) ← clearLoop additionalClearFunction c.now numToClean m s
  .ok (m, s, c.tail)

def clearInactive (m : ConvManager T) (s : σ) (c : Clock) : Except Fault (ConvManager T × σ × Clock) :=
  if convClearInterval < sub64 c.now m.lastClearTime then clearInactive0 additionalClearFunction { m with lastClearTime := c.tail.now } s c.tail.tail
  else .ok (m, s, c.tail)

end Operations

/-! ### What the operations keep -/

/-- The two maps hold the same pairs, and the list the same convs. -/
structure Wf [DecidableEq T] (m : ConvManager T) (now : Nat) : Prop where
  inverse : Inverse m.convToData m.dataToConv
  lru : m.lru.Wf now
  keys : ∀ conv, conv ∈ m.lru.mp ↔ conv ∈ m.convToData

variable {m : ConvManager T} {conv : U32} {data : T} {c : Clock}

theorem Wf.later [DecidableEq T] {now now' : Nat} (h : m.Wf now) (hle : now ≤ now') : m.Wf now' := { h with lru := h.lru.later hle }

theorem init_wf [DecidableEq T] (lastClearTime now : Nat) : (init lastClearTime : ConvManager T).Wf now :=
  ⟨inverse_empty, LruCollector.empty_wf now, by simp [init, LruCollector.empty]⟩

section Maps

variable [DecidableEq T]

theorem updateActiveTime_ok (h : m.Wf c.now) (hc : Monotone c) (hconv : conv ∈ m.convToData) :
    ∃ lru, m.updateActiveTime conv c = .ok ({ m with lru := lru }, c.tail) ∧ ({ m with lru := lru } : ConvManager T).Wf c.tail.now := by
  obtain ⟨lru, hlru, hwf, hkeys⟩ := LruCollector.update_ok h.lru hc ((h.keys conv).mpr hconv)
  unfold updateActiveTime
  rw [hlru]
  exact ⟨lru, rfl, h.inverse, hwf, fun k => (hkeys k).trans (h.keys k)⟩

theorem findConvByData_ok (h : m.dataToConv.lookup data = some conv) : m.findConvByData data = (m, conv) := by
  unfold findConvByData
  rw [h]

theorem insertConv_ok (h : m.Wf c.now) (hc : Monotone c) (hconv : conv ∉ m.convToData) (hdata : data ∉ m.dataToConv) :
    ∃ m', m.insertConv conv data c = .ok (m', c.tail) ∧ m'.Wf c.tail.now ∧ m'.convToData = m.convToData.insert conv data ∧
      m'.dataToConv = m.dataToConv.insert data conv := by
  obtain ⟨lru, hlru, hwf, hkeys⟩ := LruCollector.newKey_ok h.lru hc (fun hmem => hconv ((h.keys conv).mp hmem))
  unfold insertConv
  rw [hlru]
  refine ⟨_, rfl, ⟨h.inverse.insert hconv hdata, hwf, fun k => ?_⟩, rfl, rfl⟩
  rw [hkeys, h.keys, AList.mem_insert]

end Maps

theorem findDataByConv_ok [Inhabited T] (h : m.convToData.lookup conv = some data) : m.findDataByConv conv = (m, data) := by
  unfold findDataByConv
  rw [h]

/-- Without convs there is nothing to clear. -/
theorem clear_empty {f : ClearFunction T σ} (h : m.convToData = ∅) (s : σ) :
    m.clear f s = .ok ({ m with dataToConv := ∅, convToData := ∅, lru := { m.lru with mp := ∅, q := [] } }, s) := by
  unfold clear
  rw [h]
  rfl

section Clear

variable [DecidableEq T] [Inhabited T] {f : ClearFunction T σ} {s s' : σ} {now : Nat}

theorem eraseConv_ok (h : m.Wf now) (hlook : m.convToData.lookup conv = some data) (hf : f data s = .ok s') :
    ∃ m', m.eraseConv f conv s = .ok (m', s') ∧ m'.Wf now ∧ m'.convToData = m.convToData.erase conv := by
  obtain ⟨lru, hlru, hwf, hkeys⟩ := LruCollector.erase_ok h.lru ((h.keys conv).mpr (mem_of_lookup hlook))
  unfold eraseConv
  rw [findDataByConv_ok hlook]
  simp only [hf, hlru, ok_bind]
  refine ⟨_, rfl, ⟨h.inverse.erase hlook, hwf, fun k => ?_⟩, rfl⟩
  rw [hkeys, h.keys, AList.mem_erase]

/-- What `additional_clear_function` keeps while convs go. -/
def Clears (f : ClearFunction T σ) (J : Table U32 T → σ → Prop) : Prop :=
  ∀ table s conv data, J table s → table.lookup conv = some data → ∃ s', f data s = .ok s' ∧ J (table.erase conv) s'

variable {J : Table U32 T → σ → Prop}

theorem clearLoop_ok (hf : Clears f J) (currentTime : Nat) (n : Nat) (h : m.Wf now) (hJ : J m.convToData s) :
    ∃ m' s', clearLoop f currentTime n m s = .ok (m', s') ∧ m'.Wf now ∧ J m'.convToData s' := by
  induction n generalizing m s with
  | zero => exact ⟨m, s, rfl, h, hJ⟩
  | succ n ih =>
    unfold clearLoop
    split
    · exact ⟨m, s, rfl, h, hJ⟩
    · rename_i hq
      obtain ⟨conv, ts, hpeek, hmem⟩ := LruCollector.peekBack_ok h.lru (by simpa using hq)
      rw [hpeek]
      simp only [ok_bind]
      split
      · exact ⟨m, s, rfl, h, hJ⟩
      · obtain ⟨data, hlook⟩ := exists_lookup ((h.keys conv).mp hmem)
        obtain ⟨s', hclear, hJ'⟩ := hf _ _ _ _ hJ hlook
        obtain ⟨m', herase, hwf, hmaps⟩ := eraseConv_ok h hlook hclear
        rw [herase]
        exact ih hwf (hmaps ▸ hJ')

theorem clearInactive_ok (hf : Clears f J) (h : m.Wf c.now) (hc : Monotone c) (hJ : J m.convToData s) :
    ∃ m' s' c', m.clearInactive f s c = .ok (m', s', c') ∧ (∃ n, c' = fun i => c (i + n)) ∧ m'.Wf c'.now ∧ J m'.convToData s' := by
  unfold clearInactive
  split
  · have h2 := (Clock.now_le hc).trans (Clock.now_le (Clock.tail_mono hc))
    have h3 := h2.trans (Clock.now_le (Clock.tail_mono (Clock.tail_mono hc)))
    have hwf : ({ m with lastClearTime := c.tail.now } : ConvManager T).Wf c.tail.tail.tail.now := ⟨h.inverse, h.lru.later h3, h.keys⟩
    obtain ⟨m', s', hloop, hwf', hJ'⟩ := clearLoop_ok hf c.tail.tail.now (min (m.lru.size / convClearRatio + convClearMin) m.lru.size) hwf hJ
    unfold clearInactive0
    simp only
    rw [hloop]
    exact ⟨m', s', _, rfl, ⟨3, rfl⟩, hwf', hJ'⟩
  · exact ⟨m, s, _, rfl, ⟨1, rfl⟩, h.later (Clock.now_le hc), hJ⟩

end Clear

/-! ### What an operation that returned did -/

variable {m' : ConvManager T} {c' : Clock}

theorem findConvByData_inv [DecidableEq T] (m : ConvManager T) (data : T) : ∃ table, (m.findConvByData data).1 = { m with dataToConv := table } := by
  unfold findConvByData
  split
  · exact ⟨_, rfl⟩
  · exact ⟨_, rfl⟩

theorem findDataByConv_inv [Inhabited T] (m : ConvManager T) (conv : U32) : ∃ table, (m.findDataByConv conv).1 = { m with convToData := table } := by
  unfold findDataByConv
  split
  · exact ⟨_, rfl⟩
  · exact ⟨_, rfl⟩

theorem updateActiveTime_inv (h : m.updateActiveTime conv c = .ok (m', c')) : c' = c.tail ∧ ∃ q, q.Sublist m.lru.q ∧
    m' = { m with lru := ⟨m.lru.mp.insert conv m.lru.nodes, ⟨m.lru.nodes, conv, c.now⟩ :: q, m.lru.nodes + 1⟩ } := by
  unfold updateActiveTime at h
  obtain ⟨⟨lru, c1⟩, hup, h⟩ := bind_ok.mp h
  cases h
  obtain ⟨hclock, q, hsub, rfl⟩ := LruCollector.update_inv hup
  exact ⟨hclock, q, hsub, rfl⟩

theorem insertConv_inv [DecidableEq T] (h : m.insertConv conv data c = .ok (m', c')) : c' = c.tail ∧ m' = { m with
    dataToConv := m.dataToConv.insert data conv
    convToData := m.convToData.insert conv data
    lru := ⟨m.lru.mp.insert conv m.lru.nodes, ⟨m.lru.nodes, conv, c.now⟩ :: m.lru.q, m.lru.nodes + 1⟩ } := by
  unfold insertConv at h
  obtain ⟨⟨lru, c1⟩, hnew, h⟩ := bind_ok.mp h
  cases h
  obtain ⟨hclock, rfl⟩ := LruCollector.newKey_inv hnew
  exact ⟨hclock, rfl⟩

section Clear

variable [DecidableEq T] [Inhabited T] {f : ClearFunction T σ} {s s' : σ}

theorem eraseConv_inv (h : m.eraseConv f conv s = .ok (m', s')) : ∃ lru, m' = { (m.findDataByConv conv).1 with
    convToData := (m.findDataByConv conv).1.convToData.erase conv
    dataToConv := (m.findDataByConv conv).1.dataToConv.erase (m.findDataByConv conv).2
    lru := lru } := by
  unfold eraseConv at h
  obtain ⟨s1, -, h⟩ := bind_ok.mp h
  obtain ⟨lru, -, h⟩ := bind_ok.mp h
  cases h
  exact ⟨lru, rfl⟩

/-- What erasing keeps, the loop keeps. -/
theorem clearLoop_inv {P : ConvManager T → Prop} (herase : ∀ m m' conv s s', P m → eraseConv f m conv s = .ok (m', s') → P m')
    {currentTime n : Nat} (hm : P m) (h : clearLoop f currentTime n m s = .ok (m', s')) : P m' := by
  induction n generalizing m s with
  | zero =>
    cases h
    exact hm
  | succ n ih =>
    unfold clearLoop at h
    split at h
    · cases h
      exact hm
    · obtain ⟨⟨conv, ts⟩, -, h⟩ := bind_ok.mp h
      simp only at h
      split at h
      · cases h
        exact hm
      · obtain ⟨⟨m1, s1⟩, hrun, h⟩ := bind_ok.mp h
        exact ih (herase _ _ _ _ _ hm hrun) h

theorem clearInactive_inv (h : m.clearInactive f s c = .ok (m', s', c')) : (c' = c.tail ∧ m' = m) ∨
    (c' = c.tail.tail.tail ∧ ∃ n, clearLoop f c.tail.tail.now n { m with lastClearTime := c.tail.now } s = .ok (m', s')) := by
  unfold clearInactive at h
  split at h
  · unfold clearInactive0 at h
    obtain ⟨⟨m1, s1⟩, hloop, h⟩ := bind_ok.mp h
    cases h
    exact .inr ⟨rfl, _, hloop⟩
  · cases h
    exact .inl ⟨rfl, rfl⟩

end Clear

end ConvManager

end UdpSpeeder.Tunnel
