/-
  What `grep`'s patterns mean.

  A pattern is read from left to right as a list of items (`items`). An item fits a piece of the
  text, depending on what follows the piece (`Fits`), and a list of items matches a piece that
  falls into pieces its items fit (`Matches`). `Here is x`: the items match at the beginning of
  `x`. One equation per kind of item (`here_…`) turns that into what `matchhere` and `matchstar`
  test, and the induction is the one of the two functions.
-/
import Zv6.Grep.Code

namespace Zv6.Grep

open Lib Lib.Text

/-- What a pattern is made of. -/
inductive Item where
  /-- `c*` -/
  | star (c : UInt8)
  /-- `$` at the end -/
  | eol
  /-- `.` -/
  | any
  | char (c : UInt8)
  deriving DecidableEq, Repr

/-- A character that no `*` follows. -/
def single (c : UInt8) : Item := if c = 46 then .any else .char c

/-- The items of a pattern. -/
def items : Bytes → List Item
  | [] => []
  | [c] => [if c = 36 then .eol else single c]
  | c :: d :: re => if d = 42 then .star c :: items re else single c :: items (d :: re)

-- `$**$`: any number of `$`s, a `*`, the end
example : items [36, 42, 42, 36] = [.star 36, .char 42, .eol] := by decide

/-- An item fits the piece `s` of a text in front of `b`. -/
inductive Fits : Item → (s b : Bytes) → Prop where
  | star {c s b} (h : ∀ d ∈ s, d = c ∨ c = 46) : Fits (.star c) s b
  | eol : Fits .eol [] []
  | any {d b} : Fits .any [d] b
  | char {c b} : Fits (.char c) [c] b

/-- The items match the piece `s` of a text in front of `b`. -/
inductive Matches : List Item → (s b : Bytes) → Prop where
  | nil {b} : Matches [] [] b
  | cons {i is s t b} (h : Fits i s (t ++ b)) (ht : Matches is t b) : Matches (i :: is) (s ++ t) b

/-- The items match at the beginning of a text. -/
def Here (is : List Item) (x : Bytes) : Prop := ∃ s b, x = s ++ b ∧ Matches is s b

section Items

variable {is : List Item} {c : UInt8} {x : Bytes}

theorem here_nil : Here [] x := ⟨[], x, rfl, .nil⟩

theorem here_cons {i : Item} : Here (i :: is) x ↔ ∃ s y, x = s ++ y ∧ Fits i s y ∧ Here is y := by
  constructor
  · rintro ⟨_, b, rfl, h⟩
    cases h with
    | cons h ht => exact ⟨_, _, List.append_assoc _ _ _, h, _, _, rfl, ht⟩
  · rintro ⟨s, _, rfl, h, t, b, rfl, ht⟩
    exact ⟨s ++ t, b, (List.append_assoc s t b).symm, .cons h ht⟩

theorem here_eol : Here [.eol] x ↔ x = [] := by
  rw [here_cons]
  constructor
  · rintro ⟨_, _, rfl, h, -⟩
    cases h
    rfl
  · rintro rfl
    exact ⟨[], [], rfl, .eol, here_nil⟩

theorem here_single : Here (single c :: is) x ↔
    ∃ d y, x = d :: y ∧ (c = 46 ∨ c = d) ∧ Here is y := by
  have hfits : ∀ s b, Fits (single c) s b ↔ ∃ d, s = [d] ∧ (c = 46 ∨ c = d) := by
    intro s b
    unfold single
    split
    · next hc =>
      constructor
      · intro h
        cases h
        exact ⟨_, rfl, .inl hc⟩
      · rintro ⟨d, rfl, -⟩
        exact .any
    · next hc =>
      constructor
      · intro h
        cases h
        exact ⟨_, rfl, .inr rfl⟩
      · rintro ⟨d, rfl, h⟩
        obtain rfl := h.resolve_left hc
        exact .char
  rw [here_cons]
  constructor
  · rintro ⟨s, y, rfl, h, hy⟩
    obtain ⟨d, rfl, hd⟩ := (hfits s y).mp h
    exact ⟨d, y, rfl, hd, hy⟩
  · rintro ⟨d, y, rfl, hd, hy⟩
    exact ⟨[d], y, rfl, (hfits _ _).mpr ⟨d, rfl, hd⟩, hy⟩

/-- A `*` matches nothing, or one character and then again. -/
theorem here_star : Here (.star c :: is) x ↔ Here is x ∨
    ∃ d y, x = d :: y ∧ (d = c ∨ c = 46) ∧ Here (.star c :: is) y := by
  constructor
  · intro h
    obtain ⟨s, y, rfl, hs, hy⟩ := here_cons.mp h
    cases hs with
    | star hs =>
      cases s with
      | nil => exact .inl hy
      | cons d s =>
        rw [List.forall_mem_cons] at hs
        exact .inr ⟨d, s ++ y, rfl, hs.1, here_cons.mpr ⟨s, y, rfl, .star hs.2, hy⟩⟩
  · rintro (h | ⟨d, y, rfl, hd, h⟩)
    · exact here_cons.mpr ⟨[], x, rfl, .star fun d hd => absurd hd List.not_mem_nil, h⟩
    · obtain ⟨s, z, rfl, hs, hz⟩ := here_cons.mp h
      cases hs with
      | star hs =>
        exact here_cons.mpr ⟨d :: s, z, rfl, .star (List.forall_mem_cons.mpr ⟨hd, hs⟩), hz⟩

end Items

section Code

variable {re text : Bytes}

/-- The first character of a string that is not empty, and the rest of the string. -/
theorem exists_head {P : UInt8 → Bytes → Prop} : (∃ d y, cstr text = d :: y ∧ P d y) ↔
    deref text ≠ 0 ∧ P (deref text) (cstr text.tail) := by
  by_cases h : deref text = 0
  · rw [cstr_of_nul h]
    refine iff_of_false ?_ fun hp => hp.1 h
    rintro ⟨d, y, hd, -⟩
    cases hd
  · rw [cstr_of_ne h]
    constructor
    · rintro ⟨d, y, hd, hp⟩
      cases hd
      exact ⟨h, hp⟩
    · intro hp
      exact ⟨_, _, rfl, hp.2⟩

/-! ### The items by the tests of `matchhere` -/

theorem items_star (h0 : deref re ≠ 0) (h1 : deref re.tail = 42) :
    items (cstr re) = .star (deref re) :: items (cstr re.tail.tail) := by
  rw [cstr_of_ne h0, cstr_of_ne (s := re.tail) (by rw [h1]; decide), items, if_pos h1]

theorem items_eol (h0 : deref re = 36) (h1 : deref re.tail = 0) : items (cstr re) = [.eol] := by
  rw [cstr_of_ne (by rw [h0]; decide), cstr_of_nul h1, items, if_pos h0]

theorem items_single (h0 : deref re ≠ 0) (h1 : deref re.tail ≠ 42)
    (h2 : ¬ (deref re = 36 ∧ deref re.tail = 0)) :
    items (cstr re) = single (deref re) :: items (cstr re.tail) := by
  rw [cstr_of_ne h0]
  by_cases h : deref re.tail = 0
  · have h36 : deref re ≠ 36 := fun h36 => h2 ⟨h36, h⟩
    rw [cstr_of_nul h]
    show [if deref re = 36 then .eol else single (deref re)] = _
    rw [if_neg h36]
    rfl
  · rw [cstr_of_ne h, items, if_neg h1]

/-- What the two functions find at the beginning of a text, by their own recursion. -/
theorem matchhere_iff (re text : Bytes) :
    matchhere re text = true ↔ Here (items (cstr re)) (cstr text) := by
  refine matchhere.induct
    (fun re text => matchhere re text = true ↔ Here (items (cstr re)) (cstr text))
    (fun c re text => matchstar c re text = true ↔ Here (.star c :: items (cstr re)) (cstr text))
    ?_ ?_ ?_ ?_ ?_ ?_ ?_ ?_ re text
  · intro re text h0
    rw [matchhere, if_pos h0, cstr_of_nul h0]
    exact iff_of_true rfl here_nil
  · intro re text h0 h1 ih
    rw [matchhere, if_neg h0, if_pos h1, ih, items_star h0 h1]
  · intro re text h0 h1 h2
    rw [matchhere, if_neg h0, if_neg h1, if_pos h2, items_eol h2.1 h2.2, here_eol, cstr_eq_nil,
      decide_eq_true_iff]
  · intro re text h0 h1 h2 h3 ih
    rw [matchhere, if_neg h0, if_neg h1, if_neg h2, if_pos h3, ih, items_single h0 h1 h2,
      here_single, exists_head]
    exact ⟨fun h => ⟨h3.1, h3.2, h⟩, fun h => h.2.2⟩
  · intro re text h0 h1 h2 h3
    rw [matchhere, if_neg h0, if_neg h1, if_neg h2, if_neg h3, items_single h0 h1 h2,
      here_single, exists_head]
    exact iff_of_false Bool.false_ne_true fun h => h3 ⟨h.1, h.2.1⟩
  · intro c re text h ih
    rw [matchstar, if_pos h, here_star]
    exact iff_of_true rfl (.inl (ih.mp h))
  · intro c re text h h' ih ih'
    rw [matchstar, if_neg h, if_pos h', ih', here_star (x := cstr text), ← ih, exists_head]
    exact ⟨fun hs => .inr ⟨h'.1, h'.2, hs⟩, fun hs => (hs.resolve_left h).2.2⟩
  · intro c re text h h' ih
    rw [matchstar, if_neg h, if_neg h', here_star, ← ih, exists_head]
    exact iff_of_false Bool.false_ne_true fun hs =>
      h' ⟨(hs.resolve_left h).1, (hs.resolve_left h).2.1⟩

/-- The items match somewhere in a text. -/
def Somewhere (is : List Item) (x : Bytes) : Prop := ∃ a s b, x = a ++ s ++ b ∧ Matches is s b

theorem somewhere_iff {is : List Item} {x : Bytes} : Somewhere is x ↔
    Here is x ∨ ∃ d y, x = d :: y ∧ Somewhere is y := by
  constructor
  · rintro ⟨a, s, b, rfl, h⟩
    cases a with
    | nil => exact .inl ⟨s, b, rfl, h⟩
    | cons d a => exact .inr ⟨d, a ++ s ++ b, rfl, a, s, b, rfl, h⟩
  · rintro (⟨s, b, rfl, h⟩ | ⟨d, y, rfl, a, s, b, rfl, h⟩)
    · exact ⟨[], s, b, rfl, h⟩
    · exact ⟨d :: a, s, b, rfl, h⟩

theorem matchLoop_iff (re text : Bytes) :
    matchLoop re text = true ↔ Somewhere (items (cstr re)) (cstr text) := by
  induction text using matchLoop.induct re with
  | case1 text h =>
    rw [matchLoop, if_pos h, somewhere_iff]
    exact iff_of_true rfl (.inl ((matchhere_iff re text).mp h))
  | case2 text h h' ih =>
    rw [matchLoop, if_neg h, if_pos h', ih, somewhere_iff (x := cstr text), ← matchhere_iff,
      exists_head]
    exact ⟨fun hs => .inr ⟨h', hs⟩, fun hs => (hs.resolve_left h).2⟩
  | case3 text h h' =>
    rw [matchLoop, if_neg h, if_neg h', somewhere_iff, ← matchhere_iff, exists_head]
    exact iff_of_false Bool.false_ne_true fun hs => h' (hs.resolve_left h).1

/-- A pattern matches a text when its items match a piece of it, the first one if the pattern
    begins with `^`. -/
def Meets (re x : Bytes) : Prop :=
  ∃ a s b, x = a ++ s ++ b ∧ (re.head? = some 94 → a = []) ∧
    Matches (items (if re.head? = some 94 then re.tail else re)) s b

/-- `match` returns 1 just when the pattern matches the text. -/
theorem matchText_iff (re text : Bytes) :
    matchText re text = true ↔ Meets (cstr re) (cstr text) := by
  unfold matchText Meets
  by_cases h : deref re = 94
  · have hre : cstr re = deref re :: cstr re.tail := cstr_of_ne (by rw [h]; decide)
    have hh : (cstr re).head? = some 94 := by rw [hre, h]; rfl
    rw [if_pos h, matchhere_iff, if_pos hh, hre]
    constructor
    · rintro ⟨s, b, hx, hm⟩
      exact ⟨[], s, b, hx, fun _ => rfl, hm⟩
    · rintro ⟨a, s, b, hx, ha, hm⟩
      rw [h] at ha
      obtain rfl := ha rfl
      exact ⟨s, b, hx, hm⟩
  · have hh : (cstr re).head? ≠ some 94 := by
      intro he
      have hd : deref (cstr re) = 94 := by
        unfold deref
        rw [List.headD_eq_head?_getD, he]
        rfl
      exact h (deref_cstr ▸ hd)
    rw [if_neg h, matchLoop_iff, if_neg hh]
    constructor
    · rintro ⟨a, s, b, hx, hm⟩
      exact ⟨a, s, b, hx, fun he => absurd he hh, hm⟩
    · rintro ⟨a, s, b, hx, -, hm⟩
      exact ⟨a, s, b, hx, hm⟩

end Code

end Zv6.Grep
