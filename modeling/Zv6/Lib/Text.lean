/-
  Text: strings that end at a NUL, and the lines of a text.

  A pointer to a string is what the memory holds from there on; `deref` is the byte it points
  to, NUL behind the memory's end, and `cstr` the string. A text is cut at a separator into the
  lines that one ends (`lines`) and what is left behind the last one (`rest`).
-/
import Mathlib.Data.List.TakeWhile

namespace Zv6.Lib.Text

abbrev Bytes := List UInt8

/-! ## Strings -/

/-- The byte a pointer points to. -/
def deref (s : Bytes) : UInt8 := s.headD 0

/-- The string at a pointer. -/
def cstr (s : Bytes) : Bytes := s.takeWhile (· ≠ 0)

section Strings

variable {s t : Bytes}

theorem eq_cons (h : deref s ≠ 0) : s = deref s :: s.tail := by
  cases s with
  | nil => exact absurd rfl h
  | cons c s => rfl

theorem cstr_of_nul (h : deref s = 0) : cstr s = [] := by
  cases s with
  | nil => rfl
  | cons c s =>
    obtain rfl : c = 0 := h
    rfl

theorem cstr_of_ne (h : deref s ≠ 0) : cstr s = deref s :: cstr s.tail := by
  cases s with
  | nil => exact absurd rfl h
  | cons c s => exact List.takeWhile_cons_of_pos (decide_eq_true h)

/-- The string goes on behind each of its bytes. -/
theorem exists_of_cstr {c : UInt8} {v : Bytes} (h : cstr s = t ++ c :: v) :
    ∃ y, s = t ++ c :: y ∧ cstr y = v ∧ 0 ∉ t ∧ c ≠ 0 := by
  induction t generalizing s with
  | nil =>
    by_cases hs : deref s = 0
    · rw [cstr_of_nul hs] at h
      cases h
    · rw [cstr_of_ne hs] at h
      obtain ⟨rfl, rfl⟩ := List.cons.inj h
      exact ⟨s.tail, eq_cons hs, rfl, List.not_mem_nil, hs⟩
  | cons d t ih =>
    by_cases hs : deref s = 0
    · rw [cstr_of_nul hs] at h
      cases h
    · rw [cstr_of_ne hs] at h
      obtain ⟨rfl, ht⟩ := List.cons.inj h
      obtain ⟨y, hy, hv, h0, hc⟩ := ih ht
      refine ⟨y, (eq_cons hs).trans (congrArg (deref s :: ·) hy), hv, ?_, hc⟩
      rw [List.mem_cons, not_or]
      exact ⟨Ne.symm hs, h0⟩

theorem cstr_eq_nil : cstr s = [] ↔ deref s = 0 := by
  refine ⟨fun h => ?_, cstr_of_nul⟩
  by_contra hs
  rw [cstr_of_ne hs] at h
  cases h

theorem deref_cstr : deref (cstr s) = deref s := by
  by_cases h : deref s = 0
  · rw [cstr_of_nul h, h]
    rfl
  · rw [cstr_of_ne h]
    rfl

theorem length_tail_lt (h : deref s ≠ 0) : s.tail.length < s.length := by
  rw [eq_cons h]
  exact Nat.lt_succ_self _

theorem cstr_eq_self (h : 0 ∉ s) : cstr s = s :=
  List.takeWhile_eq_self_iff.mpr fun _ hc => decide_eq_true fun e => h (e ▸ hc)

theorem cstr_append (h : 0 ∉ s) : cstr (s ++ t) = s ++ cstr t :=
  List.takeWhile_append_of_pos fun _ hc => decide_eq_true fun e => h (e ▸ hc)

theorem cstr_append_of_mem (h : 0 ∈ s) : cstr (s ++ t) = cstr s := by
  induction s with
  | nil => cases h
  | cons c s ih =>
    by_cases hc : c = 0
    · subst hc
      rfl
    · have hd : deref (c :: s) ≠ 0 := hc
      have hs : 0 ∈ s := (List.mem_cons.mp h).resolve_left (Ne.symm hc)
      rw [cstr_of_ne hd, List.cons_append, cstr_of_ne (s := c :: (s ++ t)) hc]
      exact congrArg (c :: ·) (ih hs)

end Strings

/-! ## Lines -/

section Lines

variable {α : Type} [DecidableEq α] (sep : α)

/-- The lines of a text behind the beginning `t` of its first one, and what is left. -/
def cut : List α → List α → List (List α) × List α
  | t, [] => ([], t)
  | t, c :: u =>
    if c = sep then (t :: (cut [] u).1, (cut [] u).2) else cut (t ++ [c]) u

/-- The lines that the separator ends. -/
def lines (u : List α) : List (List α) := (cut sep [] u).1

/-- What stands behind the last separator. -/
def rest (u : List α) : List α := (cut sep [] u).2

/-- Lines with their ends. -/
def joined (ls : List (List α)) : List α := ls.flatMap (· ++ [sep])

variable {sep} {t u v : List α}

theorem cut_append : cut sep t (u ++ v) =
    ((cut sep t u).1 ++ (cut sep (cut sep t u).2 v).1, (cut sep (cut sep t u).2 v).2) := by
  induction u generalizing t with
  | nil => rfl
  | cons c u ih =>
    rw [List.cons_append, cut, cut]
    split
    · rw [ih]
      rfl
    · exact ih

theorem cut_of_not_mem (h : sep ∉ u) : cut sep t u = ([], t ++ u) := by
  induction u generalizing t with
  | nil => rw [cut, List.append_nil]
  | cons c u ih =>
    rw [List.mem_cons, not_or] at h
    rw [cut, if_neg (Ne.symm h.1), ih h.2, List.append_assoc]
    rfl

omit [DecidableEq α] in
theorem joined_append (ls ls' : List (List α)) :
    joined sep (ls ++ ls') = joined sep ls ++ joined sep ls' := List.flatMap_append

theorem joined_cut : joined sep (cut sep t u).1 ++ (cut sep t u).2 = t ++ u := by
  induction u generalizing t with
  | nil => exact (List.append_nil t).symm
  | cons c u ih =>
    rw [cut]
    split
    · next h =>
      subst h
      show (t ++ [c] ++ joined c _) ++ _ = _
      rw [List.append_assoc, ih, List.append_assoc]
      rfl
    · rw [ih, List.append_assoc]
      rfl

theorem joined_lines (u : List α) : joined sep (lines sep u) ++ rest sep u = u := joined_cut

/-- The beginning of the first line may as well stand in the text. -/
theorem cut_eq (h : sep ∉ t) : cut sep t u = cut sep [] (t ++ u) := by
  rw [cut_append, cut_of_not_mem h]
  rfl

theorem rest_not_mem (h : sep ∉ t) : sep ∉ (cut sep t u).2 := by
  induction u generalizing t with
  | nil => exact h
  | cons c u ih =>
    rw [cut]
    split
    · exact ih List.not_mem_nil
    · next hc =>
      apply ih
      rw [List.mem_append, List.mem_singleton, not_or]
      exact ⟨h, Ne.symm hc⟩

theorem sep_not_mem_rest (u : List α) : sep ∉ rest sep u := rest_not_mem List.not_mem_nil

theorem lines_append : lines sep (u ++ v) = lines sep u ++ lines sep (rest sep u ++ v) := by
  have h : cut sep (rest sep u) v = cut sep [] (rest sep u ++ v) := cut_eq (sep_not_mem_rest u)
  unfold lines
  rw [cut_append, ← h]
  rfl

theorem rest_append : rest sep (u ++ v) = rest sep (rest sep u ++ v) := by
  have h : cut sep (rest sep u) v = cut sep [] (rest sep u ++ v) := cut_eq (sep_not_mem_rest u)
  show (cut sep [] (u ++ v)).2 = (cut sep [] (rest sep u ++ v)).2
  rw [cut_append, ← h]
  rfl

theorem lines_of_not_mem (h : sep ∉ u) : lines sep u = [] := by
  unfold lines
  rw [cut_of_not_mem h]

theorem rest_of_not_mem (h : sep ∉ u) : rest sep u = u := by
  unfold rest
  rw [cut_of_not_mem h]
  rfl

theorem lines_cons {l : List α} (h : sep ∉ l) (v : List α) :
    lines sep (l ++ sep :: v) = l :: lines sep v := by
  show (cut sep [] (l ++ sep :: v)).1 = _
  rw [← cut_eq h, cut, if_pos rfl]
  rfl

theorem lines_eq_nil : lines sep u = [] ↔ sep ∉ u := by
  refine ⟨fun h hm => ?_, lines_of_not_mem⟩
  obtain ⟨l, v, rfl, hl⟩ := List.eq_append_cons_of_mem hm
  rw [lines_cons hl] at h
  cases h

/-- Only a separator makes another line. -/
theorem lines_append_eq_left : lines sep (u ++ v) = lines sep u ↔ sep ∉ v := by
  rw [lines_append, List.append_right_eq_self, lines_eq_nil, List.mem_append, not_or]
  exact and_iff_right (sep_not_mem_rest u)

theorem cut_lines_not_mem (h : sep ∉ t) : ∀ l ∈ (cut sep t u).1, sep ∉ l := by
  induction u generalizing t with
  | nil => exact fun l hl => absurd hl List.not_mem_nil
  | cons c u ih =>
    rw [cut]
    split
    · exact List.forall_mem_cons.mpr ⟨h, ih List.not_mem_nil⟩
    · next hc =>
      apply ih
      rw [List.mem_append, List.mem_singleton, not_or]
      exact ⟨h, Ne.symm hc⟩

theorem lines_joined {ls : List (List α)} (h : ∀ l ∈ ls, sep ∉ l) :
    lines sep (joined sep ls) = ls := by
  induction ls with
  | nil => rfl
  | cons l ls ih =>
    rw [List.forall_mem_cons] at h
    have hj : joined sep (l :: ls) = l ++ sep :: joined sep ls := List.append_assoc l [sep] _
    rw [hj, lines_cons h.1, ih h.2]

/-- Lines can be told from their bytes. -/
theorem joined_lines_inj (h : joined sep (lines sep u) = joined sep (lines sep v)) :
    lines sep u = lines sep v := by
  have key : ∀ w : List α, lines sep (joined sep (lines sep w)) = lines sep w := fun _ =>
    lines_joined (cut_lines_not_mem List.not_mem_nil)
  rw [← key u, h, key v]

end Lines

end Zv6.Lib.Text
