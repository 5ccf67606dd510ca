/-
  Exclusive ownership of numbered units.

  Places `p : P` hold unit numbers, 0 for none; `used` marks the units in use. `Owner lo hi own
  used L` says that every unit of the range `[lo, hi)` is marked exactly if it is held at one
  place, or belongs to `L`: the units in use that no place holds.

  A unit comes into use and is held in two steps, `leak` and `adopt`.
-/
import Mathlib.Data.Set.Insert

namespace Zv6.Lib

structure Owner {P : Type} (lo hi : Nat) (own : P → Nat) (used : Nat → Bool) (L : Set Nat) :
    Prop where
  range : ∀ p, own p ≠ 0 → lo ≤ own p ∧ own p < hi
  inj : ∀ p q, own p ≠ 0 → own p = own q → p = q
  marked : ∀ b, lo ≤ b → b < hi → (used b = true ↔ b ∈ L ∨ ∃ p, own p = b)
  apart : ∀ p, own p ≠ 0 → own p ∉ L

namespace Owner

variable {P : Type} {lo hi b : Nat} {own own' : P → Nat} {used used' : Nat → Bool} {L : Set Nat}
  {p : P}

/-- A held unit is in use. -/
theorem in_use (h : Owner lo hi own used L) (hp : own p ≠ 0) : used (own p) = true := by
  obtain ⟨h1, h2⟩ := h.range p hp
  exact (h.marked _ h1 h2).mpr (Or.inr ⟨p, rfl⟩)

/-- A unit that is not in use is not held. -/
theorem not_held (h : Owner lo hi own used L) (hb : used b = false) (p : P) (hp : own p ≠ 0) :
    own p ≠ b := by
  rintro rfl
  simp [h.in_use hp] at hb

theorem congr (h : Owner lo hi own used L) (hat : ∀ p, own' p = own p)
    (hused : ∀ b, lo ≤ b → b < hi → used' b = used b) : Owner lo hi own' used' L := by
  obtain rfl : own' = own := funext hat
  refine ⟨h.range, h.inj, ?_, h.apart⟩
  intro b h1 h2
  rw [hused b h1 h2]
  exact h.marked b h1 h2

/-- A free unit comes into use. -/
theorem leak (h : Owner lo hi own used L) (hb : used b = false)
    (hused : ∀ a, lo ≤ a → a < hi → used' a = if a = b then true else used a) :
    Owner lo hi own used' (insert b L) := by
  refine ⟨h.range, h.inj, ?_, ?_⟩
  · intro a h1 h2
    rw [hused a h1 h2, Set.mem_insert_iff]
    by_cases hab : a = b
    · simp [hab]
    · rw [if_neg hab, h.marked a h1 h2]
      simp [hab]
  · intro p hp
    rw [Set.mem_insert_iff, not_or]
    exact ⟨h.not_held hb p hp, h.apart p hp⟩

/-- An empty place takes a unit that is in use and not held. -/
theorem adopt (h : Owner lo hi own used (insert b L)) (hb : lo ≤ b ∧ b < hi) (hL : b ∉ L)
    (hlo : 0 < lo) (hp : own p = 0) (hself : own' p = b) (hother : ∀ q, q ≠ p → own' q = own q) :
    Owner lo hi own' used L := by
  have hne : ∀ q, q ≠ p → own' q ≠ 0 → own' q ≠ b := by
    intro q hq h0 he
    rw [hother q hq] at h0 he
    exact h.apart q h0 (he ▸ Set.mem_insert b L)
  refine ⟨?_, ?_, ?_, ?_⟩
  · intro q hq
    by_cases e : q = p
    · rw [e, hself]
      exact hb
    · rw [hother q e] at hq ⊢
      exact h.range q hq
  · intro q r hq he
    by_cases e : q = p <;> by_cases e' : r = p
    · rw [e, e']
    · rw [e, hself] at he
      exact absurd he.symm (hne r e' (by rw [← he]; omega))
    · rw [e', hself] at he
      exact absurd he (hne q e hq)
    · rw [hother q e] at hq he
      rw [hother r e'] at he
      exact h.inj q r hq he
  · intro a h1 h2
    rw [h.marked a h1 h2, Set.mem_insert_iff]
    constructor
    · rintro ((rfl | hL) | ⟨q, rfl⟩)
      · exact Or.inr ⟨p, hself⟩
      · exact Or.inl hL
      · have e : q ≠ p := by
          rintro rfl
          omega
        exact Or.inr ⟨q, hother q e⟩
    · rintro (hL | ⟨q, rfl⟩)
      · exact Or.inl (Or.inr hL)
      · by_cases e : q = p
        · exact Or.inl (Or.inl (by rw [e, hself]))
        · exact Or.inr ⟨q, (hother q e).symm⟩
  · intro q hq
    by_cases e : q = p
    · rw [e, hself]
      exact hL
    · rw [hother q e] at hq ⊢
      exact fun hm => h.apart q hq (Set.mem_insert_of_mem b hm)

end Owner

end Zv6.Lib
