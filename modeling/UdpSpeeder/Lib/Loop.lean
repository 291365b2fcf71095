/-
  UdpSpeeder.Lib.Loop — counted loops over an explicit state, memory as functions of
  the index, and the two ways the programs compact an array in place.

  `loop n body s` is `for (i = 0; i < n; i++) s = body i s`; `loopE` is the same with a
  body that may stop. Every fact about a loop goes through `loop_inv` / `loopE_inv`:
  name what holds after `i` rounds, show it at 0 and over one round.
-/

import Mathlib.Logic.Function.Basic
import Mathlib.Data.List.Range
import Mathlib.Data.List.GetD
import Mathlib.Order.Monotone.Basic

namespace UdpSpeeder.Lib

variable {σ α ε : Type}

/-! ## Memory -/

/-- Write `v` at index `i`. -/
def upd (f : Nat → α) (i : Nat) (v : α) : Nat → α := fun j => if j = i then v else f j

@[simp] theorem upd_same (f : Nat → α) (i : Nat) (v : α) : upd f i v i = v := by simp [upd]

@[simp] theorem upd_ne (f : Nat → α) {i j : Nat} (v : α) (h : j ≠ i) : upd f i v j = f j := by simp [upd, h]

theorem upd_apply (f : Nat → α) (i j : Nat) (v : α) : upd f i v j = if j = i then v else f j := rfl

theorem upd_self (f : Nat → α) (i : Nat) : upd f i (f i) = f := by
  funext j
  rw [upd_apply]
  split
  · rename_i e; rw [e]
  · rfl

theorem upd_upd (f : Nat → α) (i : Nat) (v w : α) : upd (upd f i v) i w = upd f i w := by
  funext j
  simp only [upd_apply]
  split <;> rfl

/-- Copy `len` cells of `src` to `dst + off`. -/
def copyTo (dst : Nat → α) (off : Nat) (src : Nat → α) (len : Nat) : Nat → α :=
  fun i => if off ≤ i ∧ i < off + len then src (i - off) else dst i

theorem copyTo_in (dst : Nat → α) (src : Nat → α) {off len i : Nat} (h : i < len) :
    copyTo dst off src len (off + i) = src i := by
  simp [copyTo, h]

theorem copyTo_out (dst : Nat → α) (src : Nat → α) {off len i : Nat} (h : i < off ∨ off + len ≤ i) :
    copyTo dst off src len i = dst i := by
  simp only [copyTo]
  rw [if_neg (by omega)]

theorem copyTo_congr (dst : Nat → α) {src src' : Nat → α} {off len : Nat} (h : ∀ i < len, src i = src' i) :
    copyTo dst off src len = copyTo dst off src' len := by
  funext j
  unfold copyTo
  split
  · exact h _ (by omega)
  · rfl

/-- What is copied in two pieces. -/
theorem copyTo_add (dst src : Nat → α) (off a b : Nat) :
    copyTo (copyTo dst off src a) (off + a) (fun i => src (a + i)) b = copyTo dst off src (a + b) := by
  funext j
  unfold copyTo
  by_cases h1 : j < off + a
  · rw [if_neg (by omega)]
    by_cases h2 : off ≤ j
    · rw [if_pos (by omega), if_pos (by omega)]
    · rw [if_neg (by omega), if_neg (by omega)]
  · by_cases h2 : j < off + a + b
    · rw [if_pos (by omega), if_pos (by omega)]
      exact congrArg src (by omega)
    · rw [if_neg (by omega), if_neg (by omega), if_neg (by omega)]

/-- The `len` cells of `f` from `off` on, as a list. -/
def slice (f : Nat → α) (off len : Nat) : List α := (List.range len).map fun i => f (off + i)

@[simp] theorem slice_length (f : Nat → α) (off len : Nat) : (slice f off len).length = len := by simp [slice]

@[simp] theorem slice_zero (f : Nat → α) (off : Nat) : slice f off 0 = [] := rfl

theorem slice_getElem (f : Nat → α) (off len i : Nat) (h : i < (slice f off len).length) :
    (slice f off len)[i] = f (off + i) := by simp [slice]

theorem slice_congr {f g : Nat → α} {off off' len : Nat} (h : ∀ i < len, f (off + i) = g (off' + i)) :
    slice f off len = slice g off' len := by
  unfold slice
  exact List.map_congr_left fun i hi => h i (List.mem_range.mp hi)

theorem slice_add (f : Nat → α) (off a b : Nat) : slice f off (a + b) = slice f off a ++ slice f (off + a) b := by
  simp [slice, List.range_add, Function.comp_def, Nat.add_assoc]

theorem slice_take (f : Nat → α) (off : Nat) {k len : Nat} (h : k ≤ len) : (slice f off len).take k = slice f off k := by
  obtain ⟨n, rfl⟩ := Nat.exists_eq_add_of_le h
  rw [slice_add, List.take_left' (slice_length _ _ _)]

theorem slice_drop (f : Nat → α) (off : Nat) {k len : Nat} (h : k ≤ len) : (slice f off len).drop k = slice f (off + k) (len - k) := by
  obtain ⟨n, rfl⟩ := Nat.exists_eq_add_of_le h
  rw [slice_add, List.drop_left' (slice_length _ _ _), Nat.add_sub_cancel_left]

/-! ## Loops -/

def loop : Nat → (Nat → σ → σ) → σ → σ
  | 0, _, s => s
  | n + 1, body, s => body n (loop n body s)

@[simp] theorem loop_zero (body : Nat → σ → σ) (s : σ) : loop 0 body s = s := rfl

theorem loop_succ (n : Nat) (body : Nat → σ → σ) (s : σ) : loop (n + 1) body s = body n (loop n body s) := rfl

/-- What holds before the first round and over each round holds after the last. -/
theorem loop_inv (I : Nat → σ → Prop) {body : Nat → σ → σ} {s : σ} (h0 : I 0 s) :
    ∀ n, (∀ i < n, ∀ t, I i t → I (i + 1) (body i t)) → I n (loop n body s) := by
  intro n
  induction n with
  | zero => intro _; exact h0
  | succ n ih => intro hs; exact hs n (by omega) _ (ih fun i hi t ht => hs i (by omega) t ht)

def loopE : Nat → (Nat → σ → Except ε σ) → σ → Except ε σ
  | 0, _, s => .ok s
  | n + 1, body, s => (loopE n body s).bind (body n)

/-- A loop that ran to its end kept its invariant. -/
theorem loopE_inv (I : Nat → σ → Prop) {body : Nat → σ → Except ε σ} {s : σ} (h0 : I 0 s) :
    ∀ n t, loopE n body s = .ok t → (∀ i < n, ∀ a b, I i a → body i a = .ok b → I (i + 1) b) → I n t := by
  intro n
  induction n with
  | zero => intro t h _; cases h; exact h0
  | succ n ih =>
    intro t h hs
    simp only [loopE] at h
    cases hp : loopE n body s with
    | error e => rw [hp] at h; cases h
    | ok a =>
      rw [hp] at h
      exact hs n (by omega) a t (ih a hp fun i hi a b ha hb => hs i (by omega) a b ha hb) h

/-- A loop every round of which succeeds under the invariant runs to its end. -/
theorem loopE_ok (I : Nat → σ → Prop) {body : Nat → σ → Except ε σ} {s : σ} (h0 : I 0 s) :
    ∀ n, (∀ i < n, ∀ a, I i a → ∃ b, body i a = .ok b ∧ I (i + 1) b) → ∃ t, loopE n body s = .ok t ∧ I n t := by
  intro n
  induction n with
  | zero => intro _; exact ⟨s, rfl, h0⟩
  | succ n ih =>
    intro hs
    obtain ⟨a, ha, hia⟩ := ih fun i hi a h => hs i (by omega) a h
    obtain ⟨b, hb, hib⟩ := hs n (by omega) a hia
    exact ⟨b, by simp [loopE, ha, Except.bind, hb], hib⟩

theorem loopE_congr {body body' : Nat → σ → Except ε σ} {n : Nat} (s : σ) (h : ∀ i < n, ∀ t, body i t = body' i t) :
    loopE n body s = loopE n body' s := by
  induction n with
  | zero => rfl
  | succ n ih =>
    rw [loopE, loopE, ih fun i hi t => h i (by omega) t, show body n = body' n from funext (h n (by omega))]

/-- Left at the first round with a result. -/
def seek {β : Type} : Nat → (Nat → Except ε (Option β)) → Except ε (Option β)
  | 0, _ => .ok none
  | n + 1, body => (seek n body).bind fun r => match r with
    | some b => .ok (some b)
    | none => body n

theorem seek_found {β : Type} {body : Nat → Except ε (Option β)} {b : β} :
    ∀ n, seek n body = .ok (some b) → ∃ i < n, body i = .ok (some b) := by
  intro n
  induction n with
  | zero => intro h; cases h
  | succ n ih =>
    intro h
    simp only [seek] at h
    cases hp : seek n body with
    | error e => rw [hp] at h; cases h
    | ok r =>
      rw [hp] at h
      cases r with
      | none => exact ⟨n, by omega, h⟩
      | some b' =>
        cases h
        obtain ⟨i, hi, e⟩ := ih hp
        exact ⟨i, by omega, e⟩

theorem seek_none {β : Type} {body : Nat → Except ε (Option β)} :
    ∀ n, seek n body = .ok none → ∀ i < n, body i = .ok none := by
  intro n
  induction n with
  | zero => intro _ i hi; omega
  | succ n ih =>
    intro h i hi
    simp only [seek] at h
    cases hp : seek n body with
    | error e => rw [hp] at h; cases h
    | ok r =>
      rw [hp] at h
      cases r with
      | some b' => cases h
      | none =>
        by_cases e : i = n
        · subst e; exact h
        · exact ih hp i (by omega)

/-- A search none of whose rounds fails comes to an end. -/
theorem seek_ok {β : Type} {body : Nat → Except ε (Option β)} :
    ∀ n, (∀ i < n, ∃ r, body i = .ok r) → ∃ r, seek n body = .ok r := by
  intro n
  induction n with
  | zero => intro _; exact ⟨none, rfl⟩
  | succ n ih =>
    intro h
    obtain ⟨r, hr⟩ := ih fun i hi => h i (by omega)
    simp only [seek, hr, Except.bind]
    cases r with
    | some b => exact ⟨_, rfl⟩
    | none => exact h n (by omega)

/-! ## Arrays written cell by cell -/

theorem loop_fill (f : Nat → α) (n : Nat) (a : Nat → α) (j : Nat) :
    loop n (fun i a => upd a i (f i)) a j = if j < n then f j else a j := by
  refine loop_inv (fun (m : Nat) (t : Nat → α) => t j = if j < m then f j else a j) ?_ n ?_
  · simp
  · intro i _ t ht
    rw [upd_apply, ht]
    by_cases e : j = i
    · subst e; simp
    · simp only [e, if_false, show j < i + 1 ↔ j < i by omega]

/-- `m[r][c] = v`. -/
def setEntry (m : Nat → Nat → α) (r c : Nat) (v : α) : Nat → Nat → α := upd m r (upd (m r) c v)

theorem setEntry_apply (m : Nat → Nat → α) (r c i j : Nat) (v : α) :
    setEntry m r c v i j = if i = r ∧ j = c then v else m i j := by
  simp only [setEntry, upd_apply]
  by_cases hi : i = r
  · subst hi; simp [upd_apply]
  · simp [hi]

theorem loop_fillRow (f : Nat → α) (r n : Nat) (m : Nat → Nat → α) (i j : Nat) :
    loop n (fun c m => setEntry m r c (f c)) m i j = if i = r ∧ j < n then f j else m i j := by
  refine loop_inv (fun (c : Nat) (t : Nat → Nat → α) => t i j = if i = r ∧ j < c then f j else m i j) ?_ n ?_
  · simp
  · intro c _ t ht
    rw [setEntry_apply, ht]
    by_cases e : j = c
    · subst e; by_cases hi : i = r <;> simp [hi]
    · simp only [e, and_false, if_false, show j < c + 1 ↔ j < c by omega]

theorem loop_fillAll (f : Nat → Nat → α) (n k : Nat) (m : Nat → Nat → α) (i j : Nat) :
    loop n (fun r m => loop k (fun c m => setEntry m r c (f r c)) m) m i j =
      if i < n ∧ j < k then f i j else m i j := by
  refine loop_inv (fun (r : Nat) (t : Nat → Nat → α) => t i j = if i < r ∧ j < k then f i j else m i j) ?_ n ?_
  · simp
  · intro r _ t ht
    rw [loop_fillRow, ht]
    by_cases e : i = r
    · subst e; by_cases hj : j < k <;> simp [hj]
    · simp only [e, false_and, if_false, show i < r + 1 ↔ i < r by omega]

/-! ## Compaction in place -/

/-- `for (i = 0; i < n; i++) f[i] = f[idx[i]]`. -/
def compact (n : Nat) (idx : Nat → Nat) (f : Nat → α) : Nat → α := loop n (fun i f => upd f i (f (idx i))) f

/-- When each source lies at or past its destination, no round reads a cell an earlier
    round wrote. -/
theorem compact_apply (n : Nat) (idx : Nat → Nat) (f : Nat → α) (h : ∀ i < n, i ≤ idx i) (j : Nat) :
    compact n idx f j = if j < n then f (idx j) else f j := by
  suffices ∀ j, compact n idx f j = if j < n then f (idx j) else f j from this j
  refine loop_inv (fun (m : Nat) (g : Nat → α) => ∀ j, g j = if j < m then f (idx j) else f j) ?_ n ?_
  · intro j; simp
  · intro i hi t ht j
    rw [upd_apply]
    by_cases e : j = i
    · subst e
      rw [if_pos rfl, if_pos (by omega), ht, if_neg (by have := h j hi; omega)]
    · rw [if_neg e, ht]
      by_cases hj : j < i
      · rw [if_pos hj, if_pos (by omega)]
      · rw [if_neg hj, if_neg (by omega)]

/-- A strictly increasing list of indices never falls behind its position. -/
theorem le_of_sorted {l : List Nat} (h : l.Pairwise (· < ·)) : ∀ i (hi : i < l.length), i ≤ l[i] := by
  intro i
  induction i with
  | zero => intro _; omega
  | succ i ih =>
    intro hi
    have h1 := ih (by omega)
    have h2 : l[i] < l[i + 1] := List.pairwise_iff_getElem.mp h i (i + 1) (by omega) hi (by omega)
    omega

/-- A strictly increasing list of indices, as a list to compact by. -/
theorem compact_sorted {l : List Nat} (h : l.Pairwise (· < ·)) (f : Nat → α) {j : Nat} (hj : j < l.length) :
    compact l.length (fun i => l.getD i 0) f j = f l[j] := by
  rw [compact_apply l.length _ f (fun i hi => by rw [List.getD_eq_getElem _ _ hi]; exact le_of_sorted h i hi), if_pos hj,
    List.getD_eq_getElem _ _ hj]

/-! ## Logs, the last entry behind -/

/-- An entry of a log one longer is the new one, or was there before. -/
theorem concat_split {log past later : List α} {last e : α} (h : log ++ [last] = past ++ e :: later) :
    (later = [] ∧ log = past ∧ last = e) ∨ ∃ later', later = later' ++ [last] ∧ log = past ++ e :: later' := by
  rcases List.eq_nil_or_concat later with rfl | ⟨later', last', rfl⟩
  · obtain ⟨h1, h2⟩ := List.append_inj' h rfl
    exact .inl ⟨rfl, h1, (List.cons.inj h2).1⟩
  · rw [List.concat_eq_append, ← List.cons_append, ← List.append_assoc] at h
    obtain ⟨h1, h2⟩ := List.append_inj' h rfl
    exact .inr ⟨later', by rw [List.concat_eq_append, (List.cons.inj h2).1], h1⟩

end UdpSpeeder.Lib
