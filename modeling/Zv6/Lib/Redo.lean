/-
  Write lists over an addressable store, the arithmetic of a redo log.

  `applyW ws d` makes the writes `ws` one after the other on the store `d : α → β`.
  `absorb P k v` is the pending list after one more write: an address that is already
  pending keeps its place and takes the new value. Absorbed pending lists have distinct
  addresses (`nodup_absorb`) and make the same store as the writes themselves
  (`applyW_absorb`).

  `Along Q step d t`: `Q` holds of the store after every beginning of the steps `t`, the
  empty one and the whole of `t` included. It is what "wherever the machine stops" says.
-/
import Mathlib.Data.List.Nodup

namespace Zv6.Lib

open Function

variable {α β : Type} [DecidableEq α]

/-! ## Write lists -/

/-- The store after the writes `ws`. -/
def applyW : List (α × β) → (α → β) → α → β
  | [], d => d
  | w :: ws, d => applyW ws (update d w.1 w.2)

@[simp] theorem applyW_nil (d : α → β) : applyW [] d = d := rfl

theorem applyW_cons (w : α × β) (ws : List (α × β)) (d : α → β) :
    applyW (w :: ws) d = applyW ws (update d w.1 w.2) := rfl

theorem applyW_append (ws vs : List (α × β)) (d : α → β) :
    applyW (ws ++ vs) d = applyW vs (applyW ws d) := by
  induction ws generalizing d with
  | nil => rfl
  | cons w ws ih => exact ih _

/-- An address that is not written keeps its value. -/
theorem applyW_of_not_mem (ws : List (α × β)) (d : α → β) (k : α)
    (h : k ∉ ws.map Prod.fst) : applyW ws d k = d k := by
  induction ws generalizing d with
  | nil => rfl
  | cons w ws ih =>
    rw [List.map_cons, List.mem_cons, not_or] at h
    rw [applyW_cons, ih _ h.2, update_of_ne h.1]

/-- A written address holds a value that does not depend on the store below. -/
theorem applyW_of_mem (ws : List (α × β)) (d e : α → β) (k : α)
    (h : k ∈ ws.map Prod.fst) : applyW ws d k = applyW ws e k := by
  induction ws generalizing d e with
  | nil => simp at h
  | cons w ws ih =>
    rw [applyW_cons, applyW_cons]
    by_cases hk : k ∈ ws.map Prod.fst
    · exact ih _ _ hk
    · have hw : k = w.1 := by
        rw [List.map_cons, List.mem_cons] at h
        exact h.resolve_right hk
      rw [applyW_of_not_mem _ _ _ hk, applyW_of_not_mem _ _ _ hk, hw,
        update_self, update_self]

theorem applyW_congr (ws : List (α × β)) {d e : α → β} {k : α} (h : d k = e k) :
    applyW ws d k = applyW ws e k := by
  by_cases hk : k ∈ ws.map Prod.fst
  · exact applyW_of_mem ws d e k hk
  · rw [applyW_of_not_mem ws d k hk, applyW_of_not_mem ws e k hk, h]

/-- With distinct addresses, each one holds its own value. -/
theorem applyW_of_nodup (ws : List (α × β)) (d : α → β) (hn : (ws.map Prod.fst).Nodup)
    (p : α × β) (hp : p ∈ ws) : applyW ws d p.1 = p.2 := by
  induction ws generalizing d with
  | nil => simp at hp
  | cons w ws ih =>
    rw [List.map_cons, List.nodup_cons] at hn
    rw [applyW_cons]
    rcases List.mem_cons.mp hp with rfl | hp
    · rw [applyW_of_not_mem _ _ _ hn.1, update_self]
    · exact ih _ hn.2 hp

/-- Writes that agree with `T` bring every address they write to `T`. -/
theorem applyW_target (ws : List (α × β)) (T d : α → β) (hT : ∀ p ∈ ws, T p.1 = p.2) (k : α)
    (hk : k ∈ ws.map Prod.fst) : applyW ws d k = T k := by
  induction ws generalizing d with
  | nil => simp at hk
  | cons w ws ih =>
    rw [applyW_cons]
    by_cases hws : k ∈ ws.map Prod.fst
    · exact ih _ (fun p hp => hT p (List.mem_cons_of_mem _ hp)) hws
    · have hw : k = w.1 := by
        rw [List.map_cons, List.mem_cons] at hk
        exact hk.resolve_right hws
      rw [applyW_of_not_mem _ _ _ hws, hw, update_self]
      exact (hT w List.mem_cons_self).symm

/-! ## Absorption -/

/-- The pending writes after one more write of `v` to `k`. -/
def absorb : List (α × β) → α → β → List (α × β)
  | [], k, v => [(k, v)]
  | p :: P, k, v => if p.1 = k then (k, v) :: P else p :: absorb P k v

theorem mem_keys_absorb (P : List (α × β)) (k : α) (v : β) (x : α) :
    x ∈ (absorb P k v).map Prod.fst ↔ x = k ∨ x ∈ P.map Prod.fst := by
  induction P with
  | nil => simp [absorb]
  | cons p P ih =>
    unfold absorb
    split
    · next h => simp [h]
    · simp only [List.map_cons, List.mem_cons, ih]
      tauto

theorem nodup_absorb (P : List (α × β)) (k : α) (v : β) (h : (P.map Prod.fst).Nodup) :
    ((absorb P k v).map Prod.fst).Nodup := by
  induction P with
  | nil => simp [absorb]
  | cons p P ih =>
    rw [List.map_cons, List.nodup_cons] at h
    unfold absorb
    split
    · next hk =>
      rw [List.map_cons, List.nodup_cons]
      exact ⟨by rw [← hk]; exact h.1, h.2⟩
    · next hk =>
      rw [List.map_cons, List.nodup_cons]
      refine ⟨?_, ih h.2⟩
      rw [mem_keys_absorb, not_or]
      exact ⟨hk, h.1⟩

theorem mem_absorb {P : List (α × β)} {k : α} {v : β} {p : α × β}
    (h : p ∈ absorb P k v) : p = (k, v) ∨ p ∈ P := by
  induction P with
  | nil => exact Or.inl (by simpa [absorb] using h)
  | cons q P ih =>
    unfold absorb at h
    split at h
    · rcases List.mem_cons.mp h with h | h
      · exact Or.inl h
      · exact Or.inr (List.mem_cons_of_mem _ h)
    · rcases List.mem_cons.mp h with h | h
      · exact Or.inr (h ▸ List.mem_cons_self)
      · rcases ih h with h | h
        · exact Or.inl h
        · exact Or.inr (List.mem_cons_of_mem _ h)

/-- Absorbing a write makes the store the write itself makes. -/
theorem applyW_absorb (P : List (α × β)) (k : α) (v : β) (d : α → β)
    (h : (P.map Prod.fst).Nodup) :
    applyW (absorb P k v) d = update (applyW P d) k v := by
  induction P generalizing d with
  | nil => rfl
  | cons p P ih =>
    rw [List.map_cons, List.nodup_cons] at h
    unfold absorb
    split
    · next hk =>
      funext x
      rw [applyW_cons, applyW_cons]
      by_cases hx : x ∈ P.map Prod.fst
      · have hne : x ≠ k := by
          intro e
          exact h.1 (by rw [hk, ← e]; exact hx)
        rw [update_of_ne hne]
        exact applyW_of_mem _ _ _ _ hx
      · rw [applyW_of_not_mem _ _ _ hx]
        by_cases hxk : x = k
        · rw [hxk, update_self, update_self]
        · rw [update_of_ne hxk, update_of_ne hxk,
            applyW_of_not_mem _ _ _ hx, update_of_ne (by rw [hk]; exact hxk)]
    · rw [applyW_cons, applyW_cons, ih _ h.2]

/-- The place `absorb` gives to `k`: where `k` is pending, or behind the end. -/
def slotOf (P : List (α × β)) (k : α) : Nat := P.findIdx fun p => decide (p.1 = k)

theorem slotOf_le (P : List (α × β)) (k : α) : slotOf P k ≤ P.length := List.findIdx_le_length

theorem slotOf_nil (k : α) : slotOf ([] : List (α × β)) k = 0 := rfl

theorem slotOf_cons (p : α × β) (P : List (α × β)) (k : α) :
    slotOf (p :: P) k = if p.1 = k then 0 else slotOf P k + 1 := by
  unfold slotOf
  rw [List.findIdx_cons]
  by_cases h : p.1 = k <;> simp [h]

theorem length_absorb (P : List (α × β)) (k : α) (v : β) :
    (absorb P k v).length = if slotOf P k = P.length then P.length + 1 else P.length := by
  induction P with
  | nil => rfl
  | cons p P ih =>
    rw [slotOf_cons]
    unfold absorb
    by_cases h : p.1 = k
    · simp [h]
    · rw [if_neg h, if_neg h, List.length_cons, ih, List.length_cons]
      by_cases hs : slotOf P k = P.length
      · simp [hs]
      · rw [if_neg hs, if_neg (by omega)]

/-- Entry `i` of the pending list after an absorbed write. -/
theorem getElem?_absorb (P : List (α × β)) (k : α) (v : β) (i : Nat) :
    (absorb P k v)[i]? = if i = slotOf P k then some (k, v) else P[i]? := by
  induction P generalizing i with
  | nil =>
    cases i with
    | zero => rfl
    | succ i => simp [absorb, slotOf_nil]
  | cons p P ih =>
    rw [slotOf_cons]
    unfold absorb
    by_cases h : p.1 = k
    · rw [if_pos h, if_pos h]
      cases i with
      | zero => rfl
      | succ i => simp
    · rw [if_neg h, if_neg h]
      cases i with
      | zero => simp
      | succ i => simp [ih]

theorem slotOf_eq_length_iff (P : List (α × β)) (k : α) :
    slotOf P k = P.length ↔ k ∉ P.map Prod.fst := by
  induction P with
  | nil => simp [slotOf_nil]
  | cons p P ih =>
    rw [slotOf_cons, List.map_cons, List.mem_cons, not_or, List.length_cons]
    by_cases h : p.1 = k
    · simp [h]
    · rw [if_neg h, Nat.add_right_cancel_iff, ih]
      constructor
      · exact fun hk => ⟨fun e => h e.symm, hk⟩
      · exact fun hk => hk.2

/-! ## Beginnings of a sequence of steps -/

/-- `Q` holds after every beginning of the steps `t` from `d`. -/
def Along {δ ω : Type} (step : δ → ω → δ) (Q : δ → Prop) (d : δ) (t : List ω) : Prop :=
  ∀ j, Q ((t.take j).foldl step d)

section Along

variable {δ ω : Type} {step : δ → ω → δ} {Q R : δ → Prop} {d : δ}

theorem along_nil : Along step Q d [] ↔ Q d := by
  constructor
  · intro h
    exact h 0
  · intro h j
    rw [List.take_nil]
    exact h

theorem along_cons {w : ω} {t : List ω} :
    Along step Q d (w :: t) ↔ Q d ∧ Along step Q (step d w) t := by
  constructor
  · intro h
    exact ⟨h 0, fun j => h (j + 1)⟩
  · rintro ⟨h0, h⟩ j
    cases j with
    | zero => exact h0
    | succ j => exact h j

theorem along_append {t u : List ω} :
    Along step Q d (t ++ u) ↔ Along step Q d t ∧ Along step Q (t.foldl step d) u := by
  induction t generalizing d with
  | nil =>
    rw [List.nil_append, along_nil]
    exact ⟨fun h => ⟨h 0, h⟩, fun h => h.2⟩
  | cons w t ih =>
    rw [List.cons_append, along_cons, along_cons, ih, and_assoc]
    rfl

theorem Along.last {t : List ω} (h : Along step Q d t) : Q (t.foldl step d) := by
  have := h t.length
  rwa [List.take_length] at this

theorem Along.mono {t : List ω} (h : Along step Q d t) (hQR : ∀ x, Q x → R x) :
    Along step R d t :=
  fun j => hQR _ (h j)

end Along

end Zv6.Lib
