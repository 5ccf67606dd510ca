/-
  Finite maps kept in slots.

  A table of `n` slots, each empty or holding a key and a value, is searched from slot 0 on
  (`find`), filled at the first empty slot or at its end (`vacancy`), and emptied slot by slot.
  While no key is held twice (`Distinct`) the search finds the slot of a key, filling a slot
  changes the search for its key only, and so does emptying one.
-/
import Mathlib.Data.List.Range

namespace Zv6.Lib.SlotMap

open Function

variable {κ α : Type*}

/-- The key in slot `i`. -/
def key (t : Nat → Option (κ × α)) (i : Nat) : Option κ := (t i).map Prod.fst

/-- The first slot with key `k`. -/
def find [DecidableEq κ] (n : Nat) (t : Nat → Option (κ × α)) (k : κ) : Option Nat :=
  (List.range n).find? fun i => decide (key t i = some k)

/-- The first empty slot, or the end of the table. -/
def vacancy (n : Nat) (t : Nat → Option (κ × α)) : Nat :=
  ((List.range n).find? fun i => (t i).isNone).getD n

/-- No key is held twice. -/
def Distinct (n : Nat) (t : Nat → Option (κ × α)) : Prop :=
  ∀ i < n, ∀ j < n, ∀ k, key t i = some k → key t j = some k → i = j

variable {n i : Nat} {t : Nat → Option (κ × α)} {k k' : κ} {a : α}

theorem vacancy_spec : vacancy n t ≤ n ∧ (vacancy n t < n → t (vacancy n t) = none) ∧
    ∀ j < vacancy n t, t j ≠ none := by
  unfold vacancy
  cases h : (List.range n).find? fun i => (t i).isNone with
  | none =>
    refine ⟨Nat.le_refl _, fun hlt => absurd hlt (Nat.lt_irrefl _), fun j hj hne => ?_⟩
    have := List.find?_eq_none.mp h j (List.mem_range.mpr hj)
    simp [hne] at this
  | some j =>
    obtain ⟨hp, hj, hbefore⟩ := List.find?_range_eq_some.mp h
    have hj := List.mem_range.mp hj
    refine ⟨hj.le, fun _ => by simpa using hp, fun x hx hne => ?_⟩
    have := hbefore x hx
    simp [hne] at this

section Find

variable [DecidableEq κ]

theorem find_eq_none : find n t k = none ↔ ∀ i < n, key t i ≠ some k := by
  unfold find
  rw [List.find?_eq_none]
  simp only [List.mem_range, decide_eq_true_eq]

theorem find_some (h : find n t k = some i) : i < n ∧ key t i = some k := by
  obtain ⟨hp, hi, -⟩ := List.find?_range_eq_some.mp h
  exact ⟨List.mem_range.mp hi, of_decide_eq_true hp⟩

theorem Distinct.find_eq_some (h : Distinct n t) :
    find n t k = some i ↔ i < n ∧ key t i = some k := by
  constructor
  · exact find_some
  · rintro ⟨hi, hk⟩
    cases hf : find n t k with
    | none => exact absurd hk (find_eq_none.mp hf i hi)
    | some j =>
      obtain ⟨hj, hk'⟩ := find_some hf
      rw [h j hj i hi k hk' hk]

/-- Two tables that hold a key in the same slots. -/
theorem find_congr {n' : Nat} {t' : Nat → Option (κ × α)} (h : Distinct n t) (h' : Distinct n' t')
    (hk : ∀ j, (j < n' ∧ key t' j = some k) ↔ (j < n ∧ key t j = some k)) :
    find n' t' k = find n t k := by
  apply Option.ext
  intro j
  rw [h'.find_eq_some, h.find_eq_some]
  exact hk j

end Find

/-! ## Filling a slot -/

section Put

/-- The key in a slot after slot `i` was filled. -/
theorem key_put (j : Nat) :
    key (update t i (some (k, a))) j = if j = i then some k else key t j := by
  unfold key
  by_cases e : j = i
  · rw [if_pos e, e, update_self]
    rfl
  · rw [if_neg e, update_of_ne e]

theorem Distinct.put (h : Distinct n t) (hi : i ≤ n) (hno : ∀ j < n, key t j ≠ some k) :
    Distinct (max n (i + 1)) (update t i (some (k, a))) := by
  intro x hx y hy k' hxk hyk
  rw [key_put] at hxk hyk
  by_cases ex : x = i
  · by_cases ey : y = i
    · rw [ex, ey]
    · rw [if_pos ex] at hxk
      rw [if_neg ey, ← hxk] at hyk
      exact absurd hyk (hno y (by omega))
  · rw [if_neg ex] at hxk
    by_cases ey : y = i
    · rw [if_pos ey] at hyk
      rw [← hyk] at hxk
      exact absurd hxk (hno x (by omega))
    · rw [if_neg ey] at hyk
      exact h x (by omega) y (by omega) k' hxk hyk

variable [DecidableEq κ]

theorem Distinct.find_put_self (h : Distinct n t) (hi : i ≤ n)
    (hno : ∀ j < n, key t j ≠ some k) :
    find (max n (i + 1)) (update t i (some (k, a))) k = some i := by
  rw [(h.put hi hno).find_eq_some, key_put, if_pos rfl]
  exact ⟨by omega, rfl⟩

theorem Distinct.find_put_ne (h : Distinct n t) (hi : i ≤ n) (hfree : i < n → t i = none)
    (hno : ∀ j < n, key t j ≠ some k) (hne : k' ≠ k) :
    find (max n (i + 1)) (update t i (some (k, a))) k' = find n t k' := by
  refine find_congr h (h.put hi hno) fun j => ?_
  rw [key_put]
  by_cases e : j = i
  · rw [if_pos e]
    constructor
    · rintro ⟨-, hk⟩
      exact absurd (Option.some.inj hk).symm hne
    · rintro ⟨hj, hk⟩
      unfold key at hk
      rw [e, hfree (e ▸ hj)] at hk
      cases hk
  · rw [if_neg e]
    constructor
    · rintro ⟨hj, hk⟩
      exact ⟨by omega, hk⟩
    · rintro ⟨hj, hk⟩
      exact ⟨by omega, hk⟩

end Put

/-! ## Emptying a slot -/

section Clear

theorem key_clear (j : Nat) :
    key (update t i none) j = if j = i then none else key t j := by
  unfold key
  by_cases e : j = i
  · rw [if_pos e, e, update_self]
    rfl
  · rw [if_neg e, update_of_ne e]

theorem Distinct.clear (h : Distinct n t) : Distinct n (update t i none) := by
  intro x hx y hy k' hxk hyk
  rw [key_clear] at hxk hyk
  split at hxk
  · cases hxk
  · split at hyk
    · cases hyk
    · exact h x hx y hy k' hxk hyk

variable [DecidableEq κ]

theorem Distinct.find_clear_self (h : Distinct n t) (hf : find n t k = some i) :
    find n (update t i none) k = none := by
  obtain ⟨hi, hk⟩ := find_some hf
  rw [find_eq_none]
  intro j hj hjk
  rw [key_clear] at hjk
  split at hjk
  · cases hjk
  · next e => exact e (h j hj i hi k hjk hk)

theorem Distinct.find_clear_ne (h : Distinct n t) (hf : find n t k = some i) (hne : k' ≠ k) :
    find n (update t i none) k' = find n t k' := by
  refine find_congr h h.clear fun j => ?_
  rw [key_clear]
  by_cases e : j = i
  · rw [if_pos e]
    constructor
    · rintro ⟨-, hk⟩
      cases hk
    · rintro ⟨-, hk⟩
      rw [e, (find_some hf).2] at hk
      exact absurd (Option.some.inj hk).symm hne
  · rw [if_neg e]

end Clear

end Zv6.Lib.SlotMap
