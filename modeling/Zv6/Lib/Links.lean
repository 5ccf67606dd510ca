/-
  Doubly linked rings through a head.

  `Ring l h xs`: from the head `h` on, `next` leads through the nodes `xs` and back to `h`, and
  `prev` the other way round. `unlink` and `pushFront` are the usual assignments, in the usual
  order, since later ones read what earlier ones wrote; they take a node out of the list and put
  one in front of it.
  `scan` is a loop that follows one of the pointers until it is back at the head; on a ring it
  ends after a round and has found the first node with a property, seen from its end.
-/
import Mathlib.Data.List.Nodup

namespace Zv6.Lib

open Function

structure Links (α : Type) where
  next : α → α
  prev : α → α

/-- Follow `f` from `x` until a node with `p` or the head is found; `none` if `fuel` steps did not
    do. -/
def scan {α : Type} [DecidableEq α] (f : α → α) (h : α) (p : α → Bool) :
    (fuel : Nat) → α → Option (Option α)
  | 0, _ => none
  | fuel + 1, x =>
    if x = h then some none
    else if p x then some (some x)
    else scan f h p fuel (f x)

namespace Links

variable {α : Type}

/-- From `a` on `next` leads through `xs`, and `prev` back. -/
def Seg (l : Links α) : α → List α → Prop
  | _, [] => True
  | a, x :: xs => l.next a = x ∧ l.prev x = a ∧ l.Seg x xs

structure Ring (l : Links α) (h : α) (xs : List α) : Prop where
  nodup : (h :: xs).Nodup
  seg : l.Seg h (xs ++ [h])

/-- The pointers exchanged. -/
def flip (l : Links α) : Links α := ⟨l.prev, l.next⟩

section Assign

variable [DecidableEq α]

/-- `x->next = y` -/
def setNext (l : Links α) (x y : α) : Links α := { l with next := update l.next x y }

/-- `x->prev = y` -/
def setPrev (l : Links α) (x y : α) : Links α := { l with prev := update l.prev x y }

/-- `b->next->prev = b->prev; b->prev->next = b->next;` -/
def unlink (l : Links α) (b : α) : Links α :=
  let l := l.setPrev (l.next b) (l.prev b)
  l.setNext (l.prev b) (l.next b)

/-- `b->next = h->next; b->prev = h; h->next->prev = b; h->next = b;` -/
def pushFront (l : Links α) (h b : α) : Links α :=
  let l := l.setNext b (l.next h)
  let l := l.setPrev b h
  let l := l.setPrev (l.next h) b
  l.setNext h b

end Assign

/-! ## Segments -/

variable {l : Links α} {a h b u v : α} {xs ys : List α}

theorem seg_append : l.Seg a (xs ++ ys) ↔ l.Seg a xs ∧ l.Seg (xs.getLastD a) ys := by
  induction xs generalizing a with
  | nil => simp [Seg]
  | cons x xs ih =>
    rw [List.cons_append, List.getLastD_cons]
    show l.next a = x ∧ l.prev x = a ∧ l.Seg x (xs ++ ys) ↔ _
    rw [ih]
    simp only [Seg, and_assoc]

/-- Backwards, a segment is one for the pointers exchanged. -/
theorem Seg.flip (hs : l.Seg a (xs ++ [b])) : l.flip.Seg b (xs.reverse ++ [a]) := by
  induction xs generalizing a with
  | nil => exact ⟨hs.2.1, hs.1, trivial⟩
  | cons x xs ih =>
    obtain ⟨h1, h2, h3⟩ := hs
    rw [List.reverse_cons, seg_append]
    refine ⟨ih h3, ?_⟩
    rw [List.getLastD_concat]
    exact ⟨h2, h1, trivial⟩

theorem getLastD_mem : xs.getLastD a ∈ a :: xs := by
  induction xs generalizing a with
  | nil => exact List.mem_cons_self
  | cons x xs ih =>
    rw [List.getLastD_cons]
    exact List.mem_cons_of_mem a ih

/-- The last node of a segment without repetitions is none of those before it. -/
theorem getLastD_notMem (hn : (a :: xs).Nodup) : xs.getLastD a ∉ (a :: xs).dropLast := by
  induction xs generalizing a with
  | nil => exact List.not_mem_nil
  | cons x xs ih =>
    obtain ⟨ha, hn⟩ := List.nodup_cons.mp hn
    rw [List.getLastD_cons, List.dropLast_cons_cons, List.mem_cons, not_or]
    refine ⟨?_, ih hn⟩
    rintro rfl
    exact ha getLastD_mem

variable [DecidableEq α]

theorem Seg.setNext (hs : l.Seg a xs) (hu : u ∉ (a :: xs).dropLast) :
    (l.setNext u v).Seg a xs := by
  induction xs generalizing a with
  | nil => trivial
  | cons x xs ih =>
    rw [List.dropLast_cons_cons, List.mem_cons, not_or] at hu
    exact ⟨(update_of_ne (Ne.symm hu.1) ..).trans hs.1, hs.2.1, ih hs.2.2 hu.2⟩

theorem Seg.setPrev (hs : l.Seg a xs) (hu : u ∉ xs) : (l.setPrev u v).Seg a xs := by
  induction xs generalizing a with
  | nil => trivial
  | cons x xs ih =>
    rw [List.mem_cons, not_or] at hu
    exact ⟨hs.1, (update_of_ne (Ne.symm hu.1) ..).trans hs.2.1, ih hs.2.2 hu.2⟩

/-! ## Rings -/

omit [DecidableEq α] in
theorem Ring.flip (hr : l.Ring h xs) : l.flip.Ring h xs.reverse := by
  refine ⟨?_, hr.seg.flip⟩
  have hn := List.nodup_cons.mp hr.nodup
  exact List.nodup_cons.mpr ⟨by simpa using hn.1, List.nodup_reverse.mpr hn.2⟩

omit [DecidableEq α] in
/-- The nodes after the head. -/
theorem Ring.first (hr : l.Ring h xs) : ∃ v rest, xs ++ [h] = v :: rest ∧ l.next h = v ∧
    l.prev v = h ∧ l.Seg v rest ∧ v ∉ rest := by
  have hnd : (xs ++ [h]).Nodup := List.nodup_append_comm.mp hr.nodup
  have hs := hr.seg
  cases hxs : xs ++ [h] with
  | nil => simp at hxs
  | cons v rest =>
    rw [hxs] at hs hnd
    exact ⟨v, rest, rfl, hs.1, hs.2.1, hs.2.2, (List.nodup_cons.mp hnd).1⟩

theorem Ring.empty (l : Links α) (h : α) : ((l.setPrev h h).setNext h h).Ring h [] :=
  ⟨List.nodup_singleton h, update_self .., update_self .., trivial⟩

theorem Ring.pushFront (hr : l.Ring h xs) (hb : b ∉ h :: xs) :
    (l.pushFront h b).Ring h (b :: xs) := by
  obtain ⟨v, rest, hxs, hnext, hprev, hseg, hv⟩ := hr.first
  rw [List.mem_cons, not_or] at hb
  obtain ⟨hbh, hbx⟩ := hb
  have hh := (List.nodup_cons.mp hr.nodup).1
  have hlast : (v :: rest).dropLast = xs := by rw [← hxs, List.dropLast_concat]
  have hbv : b ∉ v :: rest := by
    rw [← hxs]
    simp [hbx, hbh]
  rw [List.mem_cons, not_or] at hbv
  have hl : l.pushFront h b =
      (((l.setNext b v).setPrev b h).setPrev v b).setNext h b := by
    unfold Links.pushFront
    rw [hnext]
    show Links.setNext (Links.setPrev _ (update l.next b v h) b) h b = _
    rw [update_of_ne (Ne.symm hbh), hnext]
  constructor
  · have hn := List.nodup_cons.mp hr.nodup
    refine List.nodup_cons.mpr ⟨?_, List.nodup_cons.mpr ⟨hbx, hn.2⟩⟩
    rw [List.mem_cons, not_or]
    exact ⟨Ne.symm hbh, hh⟩
  · rw [List.cons_append, hxs, hl]
    refine ⟨update_self .., ?_, ?_, ?_, ?_⟩
    · show update (update l.prev b h) v b b = h
      rw [update_of_ne hbv.1, update_self]
    · show update (update l.next b v) h b b = v
      rw [update_of_ne hbh, update_self]
    · exact update_self ..
    · refine Seg.setNext (Seg.setPrev (Seg.setPrev (Seg.setNext hseg ?_) hbv.2) hv) ?_
      · rw [hlast]
        exact hbx
      · rw [hlast]
        exact hh

theorem Ring.unlink {as cs : List α} (hr : l.Ring h (as ++ b :: cs)) :
    (l.unlink b).Ring h (as ++ cs) := by
  have hn := hr.nodup
  rw [List.nodup_cons, List.nodup_append', List.nodup_cons] at hn
  obtain ⟨hh, hnas, ⟨-, hncs⟩, hdisj⟩ := hn
  rw [List.mem_append, List.mem_cons, not_or, not_or] at hh
  obtain ⟨hhas, -, hhcs⟩ := hh
  have hdisj : ∀ x ∈ as, x ∉ cs := fun x hx hc => hdisj hx (List.mem_cons_of_mem b hc)
  -- the nodes before and after `b`
  have hu : as.getLastD h ∈ h :: as := getLastD_mem
  have hucs : as.getLastD h ∉ cs := by
    rcases List.mem_cons.mp hu with e | hm
    · rw [e]
      exact hhcs
    · exact hdisj _ hm
  obtain ⟨v, rest, hv⟩ : ∃ v rest, cs ++ [h] = v :: rest := by
    cases cs with
    | nil => exact ⟨h, [], rfl⟩
    | cons c cs => exact ⟨c, cs ++ [h], rfl⟩
  have hvmem : v ∈ cs ++ [h] := hv ▸ List.mem_cons_self
  have hvas : v ∉ as := by
    rcases List.mem_append.mp hvmem with hm | hm
    · exact fun hx => hdisj v hx hm
    · rw [List.mem_singleton.mp hm]
      exact hhas
  have hvrest : v ∉ rest := by
    have hnd : (cs ++ [h]).Nodup := List.nodup_append_comm.mp (List.nodup_cons.mpr ⟨hhcs, hncs⟩)
    rw [hv] at hnd
    exact (List.nodup_cons.mp hnd).1
  have hlast : (v :: rest).dropLast = cs := by rw [← hv, List.dropLast_concat]
  have hseg := hr.seg
  rw [List.append_assoc, List.cons_append, hv, seg_append] at hseg
  obtain ⟨hsegas, -, hbu, hbv, -, hsegrest⟩ := hseg
  have hl : l.unlink b = (l.setPrev v (as.getLastD h)).setNext (as.getLastD h) v := by
    unfold Links.unlink
    rw [hbv, hbu]
    show Links.setNext _ (update l.prev v (as.getLastD h) b) (l.next b) = _
    rw [hbv]
    by_cases e : b = v
    · rw [e, update_self]
    · rw [update_of_ne e, hbu]
  constructor
  · rw [List.nodup_cons, List.nodup_append', List.mem_append, not_or]
    exact ⟨⟨hhas, hhcs⟩, hnas, hncs, fun x hx hc => hdisj x hx hc⟩
  · rw [List.append_assoc, hv, seg_append, hl]
    refine ⟨Seg.setNext (Seg.setPrev hsegas hvas) ?_, update_self ..,
      update_self .., Seg.setNext (Seg.setPrev hsegrest hvrest) ?_⟩
    · exact getLastD_notMem (List.nodup_cons.mpr ⟨hhas, hnas⟩)
    · rw [hlast]
      exact hucs

/-! ## Loops -/

/-- A loop over `next` finds the first node with `p`. -/
theorem Seg.scan (hs : l.Seg a (xs ++ [h])) (hh : h ∉ xs) (p : α → Bool) {fuel : Nat}
    (hf : xs.length < fuel) : Lib.scan l.next h p fuel (l.next a) = some (xs.find? p) := by
  induction xs generalizing a fuel with
  | nil =>
    cases fuel with
    | zero => exact absurd hf (Nat.not_lt_zero _)
    | succ fuel =>
      rw [hs.1]
      exact if_pos rfl
  | cons x xs ih =>
    cases fuel with
    | zero => exact absurd hf (Nat.not_lt_zero _)
    | succ fuel =>
      rw [List.mem_cons, not_or] at hh
      rw [hs.1]
      show (if x = h then _ else if p x then _ else Lib.scan l.next h p fuel (l.next x)) = _
      rw [if_neg (Ne.symm hh.1), ih hs.2.2 hh.2 (Nat.lt_of_succ_lt_succ hf), List.find?_cons]
      cases p x <;> rfl

theorem Ring.scan_next (hr : l.Ring h xs) (p : α → Bool) {fuel : Nat} (hf : xs.length < fuel) :
    scan l.next h p fuel (l.next h) = some (xs.find? p) :=
  hr.seg.scan (List.nodup_cons.mp hr.nodup).1 p hf

theorem Ring.scan_prev (hr : l.Ring h xs) (p : α → Bool) {fuel : Nat} (hf : xs.length < fuel) :
    scan l.prev h p fuel (l.prev h) = some (xs.reverse.find? p) :=
  hr.flip.scan_next p (by simpa using hf)

end Links

end Zv6.Lib
