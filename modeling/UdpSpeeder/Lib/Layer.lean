/-
  UdpSpeeder.Lib.Layer — codings with a free choice in them, one around another.

  A layer reads back exactly what it can make, under whatever choice, and refuses the rest.
  Layers compose, each with a reason of its own to refuse, and may be left out.
-/

import Mathlib.Data.List.Basic

namespace UdpSpeeder.Lib

variable {ε ι κ α β : Type}

structure Layer (ε ι α : Type) where
  wrap : ι → α → α
  unwrap : α → Except ε α
  exact : ∀ x y, unwrap x = .ok y ↔ ∃ i, wrap i y = x

namespace Layer

theorem unwrap_wrap (l : Layer ε ι α) (i : ι) (y : α) : l.unwrap (l.wrap i y) = .ok y := (l.exact _ y).mpr ⟨i, rfl⟩

/-- No coding at all. -/
def plain [Nonempty ι] : Layer ε ι α where
  wrap _ y := y
  unwrap x := .ok x
  exact x y := by simp [eq_comm]

/-- `l`, unless it is turned off. -/
def disabled [Nonempty ι] (off : Bool) (l : Layer ε ι α) : Layer ε ι α := if off then plain else l

@[simp] theorem disabled_wrap [Nonempty ι] (off : Bool) (l : Layer ε ι α) (i : ι) (y : α) :
    (disabled off l).wrap i y = if off then y else l.wrap i y := by cases off <;> rfl

@[simp] theorem disabled_unwrap [Nonempty ι] (off : Bool) (l : Layer ε ι α) (x : α) :
    (disabled off l).unwrap x = if off then .ok x else l.unwrap x := by cases off <;> rfl

/-- A change that undoes itself. -/
def involution (f : α → α) (hf : ∀ x, f (f x) = x) : Layer ε Unit α where
  wrap _ := f
  unwrap x := .ok (f x)
  exact x y := by
    constructor
    · intro h
      exact ⟨(), by rw [← Except.ok.inj h, hf]⟩
    · rintro ⟨-, rfl⟩
      rw [hf]

/-- `outer` around `inner`. -/
def comp (outer : Layer ε ι α) (inner : Layer ε κ α) : Layer ε (ι × κ) α where
  wrap i y := outer.wrap i.1 (inner.wrap i.2 y)
  unwrap x := (outer.unwrap x).bind inner.unwrap
  exact x y := by
    constructor
    · intro h
      cases hx : outer.unwrap x with
      | error e => rw [hx] at h; cases h
      | ok z =>
        rw [hx] at h
        obtain ⟨i, hi⟩ := (outer.exact x z).mp hx
        obtain ⟨k, hk⟩ := (inner.exact z y).mp h
        exact ⟨(i, k), by rw [hk, hi]⟩
    · rintro ⟨⟨i, k⟩, rfl⟩
      show (outer.unwrap (outer.wrap i (inner.wrap k y))).bind inner.unwrap = .ok y
      rw [outer.unwrap_wrap]
      exact inner.unwrap_wrap k y

/-- A trailer of `n` entries that the body decides. -/
def trailer [DecidableEq β] (tag : List β → List β) (n : Nat) (htag : ∀ x, (tag x).length = n) (e : ε) : Layer ε Unit (List β) where
  wrap _ y := y ++ tag y
  unwrap x :=
    if x.length < n then .error e
    else if x.drop (x.length - n) ≠ tag (x.take (x.length - n)) then .error e
    else .ok (x.take (x.length - n))
  exact x y := by
    constructor
    · intro h
      split at h
      · cases h
      · split at h
        · cases h
        · rename_i hsame
          cases h
          exact ⟨(), by rw [← not_not.mp hsame, List.take_append_drop]⟩
    · rintro ⟨-, rfl⟩
      have hlen := htag y
      have hsub : (y ++ tag y).length - n = y.length := by rw [List.length_append]; omega
      rw [if_neg (by rw [List.length_append]; omega), hsub, List.take_left, List.drop_left, if_neg (not_not.mpr rfl)]

end Layer

end UdpSpeeder.Lib
