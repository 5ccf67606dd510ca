/-
  The kernel's `memmove` (`string.c`) on a flat memory of bytes.

  `Moved m m' dst src n`: `m'` is `m` with the `n` bytes at `src` also at `dst`, and nothing else
  changed. Each loop moves one byte and goes on with the rest; what it has not read yet is still
  as it was, forwards if the destination does not begin inside the source, backwards if the
  destination begins behind the source.
-/
import Mathlib.Algebra.Ring.Nat
import Mathlib.Logic.Function.Basic

namespace Zv6.Str

open Function

abbrev Memory := UInt32 → UInt8

/-- `while(n-- > 0) *d++ = *s++` -/
def forward : (n : Nat) → (d s : UInt32) → Memory → Memory
  | 0, _, _, m => m
  | n + 1, d, s, m => forward n (d + 1) (s + 1) (update m d (m s))

/-- `while(n-- > 0) *--d = *--s` -/
def backward : (n : Nat) → (d s : UInt32) → Memory → Memory
  | 0, _, _, m => m
  | n + 1, d, s, m => backward n (d - 1) (s - 1) (update m (d - 1) (m (s - 1)))

def memmove (dst src n : UInt32) (m : Memory) : UInt32 × Memory :=
  if src < dst ∧ src + n > dst then (dst, backward n.toNat (dst + n) (src + n) m)
  else (dst, forward n.toNat dst src m)

/-- The bytes `src`, …, `src + n - 1` are also at `dst`, and nothing else changed. -/
structure Moved (m m' : Memory) (dst src n : Nat) : Prop where
  copied : ∀ i, i < n → m' (.ofNat (dst + i)) = m (.ofNat (src + i))
  frame : ∀ a : UInt32, a.toNat < dst ∨ dst + n ≤ a.toNat → m' a = m a

section Loops

variable {m : Memory} {dst src n : Nat}

theorem Moved.nothing (m : Memory) (dst src : Nat) : Moved m m dst src 0 :=
  ⟨fun _ hi => absurd hi (Nat.not_lt_zero _), fun _ _ => rfl⟩

theorem store_of_ne {a : UInt32} (hd : dst < 2 ^ 32) (ha : a.toNat ≠ dst) (v : UInt8) :
    update m (.ofNat dst) v a = m a := by
  refine update_of_ne (fun he => ha ?_) v m
  rw [he, UInt32.toNat_ofNat_of_lt' hd]

/-- The first byte is moved before the others, which it does not overwrite. -/
theorem Moved.first {m' : Memory} (hs : src + (n + 1) ≤ 2 ^ 32) (hd : dst + (n + 1) ≤ 2 ^ 32)
    (h : dst ≤ src ∨ src + (n + 1) ≤ dst)
    (hm : Moved (update m (.ofNat dst) (m (.ofNat src))) m' (dst + 1) (src + 1) n) :
    Moved m m' dst src (n + 1) := by
  have htoNat : ∀ k, k < 2 ^ 32 → (UInt32.ofNat k).toNat = k := fun _ => UInt32.toNat_ofNat_of_lt'
  constructor
  · intro i hi
    cases i with
    | zero =>
      have hlt : (UInt32.ofNat dst).toNat < dst + 1 := by
        rw [htoNat dst (by omega)]
        omega
      rw [Nat.add_zero, Nat.add_zero, hm.frame _ (.inl hlt), update_self]
    | succ i =>
      have hi' := hm.copied i (by omega)
      have hne : (UInt32.ofNat (src + 1 + i)).toNat ≠ dst := by
        rw [htoNat _ (by omega)]
        omega
      rw [store_of_ne (by omega) hne] at hi'
      rw [← Nat.add_assoc, ← Nat.add_assoc, Nat.add_right_comm dst, Nat.add_right_comm src]
      exact hi'
  · intro a ha
    rw [hm.frame a (by omega), store_of_ne (by omega) (by omega)]

/-- The last byte is moved before the others, which it does not overwrite. -/
theorem Moved.last {m' : Memory} (hs : src + (n + 1) ≤ 2 ^ 32) (hd : dst + (n + 1) ≤ 2 ^ 32)
    (h : src < dst)
    (hm : Moved (update m (.ofNat (dst + n)) (m (.ofNat (src + n)))) m' dst src n) :
    Moved m m' dst src (n + 1) := by
  have htoNat : ∀ k, k < 2 ^ 32 → (UInt32.ofNat k).toNat = k := fun _ => UInt32.toNat_ofNat_of_lt'
  constructor
  · intro i hi
    rcases Nat.lt_or_ge i n with hlt | hge
    · have hne : (UInt32.ofNat (src + i)).toNat ≠ dst + n := by
        rw [htoNat _ (by omega)]
        omega
      rw [hm.copied i hlt, store_of_ne (by omega) hne]
    · obtain rfl : i = n := by omega
      have hout : dst + i ≤ (UInt32.ofNat (dst + i)).toNat :=
        Nat.le_of_eq (htoNat _ (by omega)).symm
      rw [hm.frame _ (.inr hout), update_self]
  · intro a ha
    rw [hm.frame a (by omega), store_of_ne (by omega) (by omega)]

theorem forward_moved (hs : src + n ≤ 2 ^ 32) (hd : dst + n ≤ 2 ^ 32)
    (h : dst ≤ src ∨ src + n ≤ dst) :
    Moved m (forward n (.ofNat dst) (.ofNat src) m) dst src n := by
  induction n generalizing m dst src with
  | zero => exact Moved.nothing m dst src
  | succ n ih =>
    have hstep : Moved _ (forward n (.ofNat (dst + 1)) (.ofNat (src + 1))
        (update m (.ofNat dst) (m (.ofNat src)))) (dst + 1) (src + 1) n :=
      ih (by omega) (by omega) (by omega)
    rw [UInt32.ofNat_add, UInt32.ofNat_add] at hstep
    exact hstep.first hs hd h

theorem backward_moved (hs : src + n ≤ 2 ^ 32) (hd : dst + n ≤ 2 ^ 32) (h : src < dst) :
    Moved m (backward n (.ofNat (dst + n)) (.ofNat (src + n)) m) dst src n := by
  induction n generalizing m with
  | zero => exact Moved.nothing m dst src
  | succ n ih =>
    have hpred : ∀ k : Nat, UInt32.ofNat (k + (n + 1)) - 1 = UInt32.ofNat (k + n) := by
      intro k
      rw [← Nat.add_assoc, UInt32.ofNat_add (k + n) 1]
      exact UInt32.add_sub_cancel _ _
    have hstep := ih (m := update m (.ofNat (dst + n)) (m (.ofNat (src + n)))) (by omega)
      (by omega)
    rw [backward, hpred, hpred]
    exact hstep.last hs hd h

end Loops

/-- However the two ranges overlap, the destination holds what the source held, and every other
    byte is as it was. -/
theorem memmove_moves (m : Memory) (dst src n : UInt32) (hs : src.toNat + n.toNat ≤ 2 ^ 32)
    (hd : dst.toNat + n.toNat ≤ 2 ^ 32) :
    (memmove dst src n m).1 = dst ∧
      (∀ i, i < n → (memmove dst src n m).2 (dst + i) = m (src + i)) ∧
      ∀ a, (∀ i, i < n → a ≠ dst + i) → (memmove dst src n m).2 a = m a := by
  have hmoved : Moved m (memmove dst src n m).2 dst.toNat src.toNat n.toNat := by
    unfold memmove
    by_cases h : src < dst ∧ src + n > dst
    · rw [if_pos h]
      have hlt : src.toNat < dst.toNat := UInt32.lt_iff_toNat_lt.mp h.1
      have hb := backward_moved (m := m) hs hd hlt
      rw [UInt32.ofNat_add, UInt32.ofNat_add, UInt32.ofNat_toNat, UInt32.ofNat_toNat,
        UInt32.ofNat_toNat] at hb
      exact hb
    · rw [if_neg h]
      -- the end of the source does not wrap when the source begins in front of the destination
      have hapart : dst.toNat ≤ src.toNat ∨ src.toNat + n.toNat ≤ dst.toNat := by
        by_contra hno
        rw [not_or, Nat.not_le, Nat.not_le] at hno
        refine h ⟨UInt32.lt_iff_toNat_lt.mpr hno.1, UInt32.lt_iff_toNat_lt.mpr ?_⟩
        rw [UInt32.toNat_add, Nat.mod_eq_of_lt (by omega)]
        exact hno.2
      have hf := forward_moved (m := m) hs hd hapart
      rw [UInt32.ofNat_toNat, UInt32.ofNat_toNat] at hf
      exact hf
  refine ⟨?_, fun i hi => ?_, fun a ha => hmoved.frame a ?_⟩
  · unfold memmove
    split <;> rfl
  · have hc := hmoved.copied i.toNat (UInt32.lt_iff_toNat_lt.mp hi)
    rw [UInt32.ofNat_add, UInt32.ofNat_add, UInt32.ofNat_toNat, UInt32.ofNat_toNat,
      UInt32.ofNat_toNat] at hc
    exact hc
  · by_contra hin
    rw [not_or, Nat.not_lt, Nat.not_le] at hin
    have hle : dst ≤ a := UInt32.le_iff_toNat_le.mpr hin.1
    refine ha (a - dst) (UInt32.lt_iff_toNat_lt.mpr ?_) ?_
    · rw [UInt32.toNat_sub_of_le _ _ hle]
      omega
    · rw [UInt32.add_comm]
      exact (UInt32.sub_add_cancel a dst).symm

/-- Three bytes moved one byte up, onto two of themselves. -/
theorem memmove_moves_overlap :
    (memmove 0x1001 0x1000 3 UInt32.toUInt8).2 (0x1001 + 2) = UInt32.toUInt8 (0x1000 + 2) :=
  (memmove_moves UInt32.toUInt8 0x1001 0x1000 3 (by decide) (by decide)).2.1 2 (by decide)

end Zv6.Str
