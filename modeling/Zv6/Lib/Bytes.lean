/-
  Little-endian bytes of machine words, and words read back from a byte array.

  `le16`/`le32` are the bytes of a word, low byte first; `getU16 f o`/`getU32 f o` is the
  word stored at offset `o` of the bytes `f`. Reading back what was stored is exact
  (`getU16_le16`, `getU32_le32`).

  `overwrite l off src` is a list with `src` put over its elements from `off` on.
-/
import Mathlib.Tactic.Common
import Mathlib.Algebra.Ring.Nat

namespace Zv6.Lib

/-- Byte `k` of `n`, low byte first. -/
def byteOf (n k : Nat) : UInt8 := UInt8.ofNat (n / 256 ^ k)

def le16 (w : UInt16) : List UInt8 := [byteOf w.toNat 0, byteOf w.toNat 1]

def le32 (w : UInt32) : List UInt8 :=
  [byteOf w.toNat 0, byteOf w.toNat 1, byteOf w.toNat 2, byteOf w.toNat 3]

def getU16 (f : Nat → UInt8) (o : Nat) : UInt16 :=
  UInt16.ofNat ((f o).toNat + 256 * (f (o + 1)).toNat)

def getU32 (f : Nat → UInt8) (o : Nat) : UInt32 :=
  UInt32.ofNat ((f o).toNat + 256 * (f (o + 1)).toNat + 65536 * (f (o + 2)).toNat +
    16777216 * (f (o + 3)).toNat)

@[simp] theorem length_le16 (w : UInt16) : (le16 w).length = 2 := rfl

@[simp] theorem length_le32 (w : UInt32) : (le32 w).length = 4 := rfl

theorem byteOf_toNat (n k : Nat) : (byteOf n k).toNat = n / 256 ^ k % 256 := by
  simp [byteOf, UInt8.toNat_ofNat']

/-- A stored half word reads back. -/
theorem getU16_le16 (w : UInt16) (f : Nat → UInt8) (o : Nat)
    (h : ∀ k, k < 2 → f (o + k) = byteOf w.toNat k) : getU16 f o = w := by
  have h0 := h 0 (by omega)
  have h1 := h 1 (by omega)
  have hw := w.toNat_lt
  apply UInt16.toNat_inj.mp
  unfold getU16
  rw [Nat.add_zero] at h0
  rw [h0, h1, byteOf_toNat, byteOf_toNat, UInt16.toNat_ofNat']
  omega

/-- A stored word reads back. -/
theorem getU32_le32 (w : UInt32) (f : Nat → UInt8) (o : Nat)
    (h : ∀ k, k < 4 → f (o + k) = byteOf w.toNat k) : getU32 f o = w := by
  have h0 := h 0 (by omega)
  have h1 := h 1 (by omega)
  have h2 := h 2 (by omega)
  have h3 := h 3 (by omega)
  have hw := w.toNat_lt
  apply UInt32.toNat_inj.mp
  unfold getU32
  rw [Nat.add_zero] at h0
  rw [h0, h1, h2, h3, byteOf_toNat, byteOf_toNat, byteOf_toNat, byteOf_toNat,
    UInt32.toNat_ofNat']
  omega

/-- Storing a word that was read writes the same bytes. -/
theorem byteOf_getU32 (f : Nat → UInt8) (o k : Nat) (hk : k < 4) :
    byteOf (getU32 f o).toNat k = f (o + k) := by
  have h0 := (f o).toNat_lt
  have h1 := (f (o + 1)).toNat_lt
  have h2 := (f (o + 2)).toNat_lt
  have h3 := (f (o + 3)).toNat_lt
  apply UInt8.toNat_inj.mp
  rw [byteOf_toNat]
  unfold getU32
  rw [UInt32.toNat_ofNat']
  match k, hk with
  | 0, _ => simp only [Nat.add_zero]; omega
  | 1, _ => omega
  | 2, _ => omega
  | 3, _ => omega

theorem getU32_congr {f g : Nat → UInt8} {o o' : Nat}
    (h : ∀ k, k < 4 → f (o + k) = g (o' + k)) : getU32 f o = getU32 g o' := by
  have h0 := h 0 (by omega)
  have h1 := h 1 (by omega)
  have h2 := h 2 (by omega)
  have h3 := h 3 (by omega)
  rw [Nat.add_zero, Nat.add_zero] at h0
  unfold getU32
  rw [h0, h1, h2, h3]

theorem getU16_congr {f g : Nat → UInt8} {o o' : Nat}
    (h : ∀ k, k < 2 → f (o + k) = g (o' + k)) : getU16 f o = getU16 g o' := by
  have h0 := h 0 (by omega)
  have h1 := h 1 (by omega)
  rw [Nat.add_zero, Nat.add_zero] at h0
  unfold getU16
  rw [h0, h1]

/-! ## Overwriting part of a list -/

section Overwrite

variable {α : Type} {l src : List α} {off : Nat}

def overwrite (l : List α) (off : Nat) (src : List α) : List α :=
  l.take off ++ src ++ l.drop (off + src.length)

theorem length_overwrite (h : off ≤ l.length) :
    (overwrite l off src).length = max l.length (off + src.length) := by
  simp only [overwrite, List.length_append, List.length_take, List.length_drop]
  omega

theorem getElem?_overwrite (h : off ≤ l.length) (k : Nat) : (overwrite l off src)[k]? =
    if off ≤ k ∧ k < off + src.length then src[k - off]? else l[k]? := by
  have hlen : (l.take off).length = off := by rw [List.length_take]; omega
  have hlen' : (l.take off ++ src).length = off + src.length := by simp [hlen]
  unfold overwrite
  by_cases h1 : k < off
  · rw [if_neg (by omega), List.getElem?_append_left (by omega),
      List.getElem?_append_left (by omega), List.getElem?_take_of_lt h1]
  · by_cases h2 : k < off + src.length
    · rw [if_pos ⟨by omega, h2⟩, List.getElem?_append_left (by omega),
        List.getElem?_append_right (by omega), hlen]
    · rw [if_neg (by omega), List.getElem?_append_right (by omega), hlen', List.getElem?_drop]
      congr 1
      omega

@[simp] theorem overwrite_nil (l : List α) (off : Nat) : overwrite l off [] = l := by
  simp [overwrite]

/-- Two pieces, one after the other. -/
theorem overwrite_append (h : off ≤ l.length) (src' : List α) :
    overwrite (overwrite l off src) (off + src.length) src' = overwrite l off (src ++ src') := by
  have hlen := @length_overwrite _ l src off h
  apply List.ext_getElem?
  intro k
  rw [getElem?_overwrite (by omega), getElem?_overwrite h, getElem?_overwrite h, List.length_append]
  by_cases h1 : off ≤ k ∧ k < off + src.length
  · rw [if_neg (by omega), if_pos h1, if_pos (by omega), List.getElem?_append_left (by omega)]
  · by_cases h2 : off + src.length ≤ k ∧ k < off + src.length + src'.length
    · rw [if_pos h2, if_pos (by omega), List.getElem?_append_right (by omega)]
      congr 1
      omega
    · rw [if_neg h2, if_neg h1, if_neg (by omega)]

end Overwrite

end Zv6.Lib
