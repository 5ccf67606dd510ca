/-
  `readi` and `ichecksum` of mkfs read the same bytes as those of the kernel.

  `Readable s d`: every sector that the blocks of `d` lead to is in the image. A block without an
  address is read as sector 0.
-/
import Zv6.Mkfs.Code
import Zv6.Fs.Content

namespace Zv6.Host

open Lib

structure Readable (s : Image) (d : Dinode) : Prop where
  file : d.type ≠ T_DEV
  size_le : d.size.toNat ≤ 70656
  block : ∀ bn, bn * 512 < d.size.toNat → (blockAddr s.sect d bn).toNat < s.len
  ind : ∀ bn, 10 ≤ bn → bn * 512 < d.size.toNat → (d.addrs 10).toNat < s.len ∧
    (d.addrs 10 = 0 → (s.sect 0).word (bn - 10) = 0)

variable {s : Image} {d : Dinode}

theorem rsect_ok {sec : Nat} (h : sec < s.len) : rsect sec s = .ok (s.sect sec) s := if_pos h

theorem Readable.rblock (h : Readable s d) {bn : Nat} (hbn : bn * 512 < d.size.toNat)
    (data : Block) : rblock d bn data s = .ok (s.sect (blockAddr s.sect d bn).toNat) s := by
  have hsize := h.size_le
  have hin := h.block bn hbn
  unfold Host.rblock
  unfold blockAddr at hin ⊢
  by_cases h10 : bn < 10
  · rw [dif_pos h10] at hin ⊢
    rw [dif_pos h10]
    exact rsect_ok hin
  · obtain ⟨hind, h0⟩ := h.ind bn (by omega) hbn
    rw [dif_neg h10, if_pos (by omega)] at hin ⊢
    rw [dif_neg h10, if_pos (by omega), Exec.bind_ok (rsect_ok hind)]
    by_cases hz : d.addrs 10 = 0
    · rw [if_pos hz] at hin ⊢
      rw [hz, UInt32.toNat_zero, h0 hz]
      exact rsect_ok hin
    · rw [if_neg hz] at hin ⊢
      exact rsect_ok hin

theorem Readable.readiLoop (h : Readable s d) (fuel : Nat) : ∀ (off n : Nat) (data : Block),
    n ≤ fuel → off + n ≤ d.size.toNat →
    readiLoop d fuel off n data s = .ok (slice s.sect d off n) s := by
  induction fuel with
  | zero =>
    intro off n data hn _
    obtain rfl : n = 0 := by omega
    rfl
  | succ fuel ih =>
    intro off n data hn hsize
    unfold Host.readiLoop
    by_cases h0 : n = 0
    · rw [if_pos h0, h0]
      rfl
    · have hm : min n (512 - off % 512) + (n - min n (512 - off % 512)) = n := by omega
      have hrest := ih (off + min n (512 - off % 512)) (n - min n (512 - off % 512))
        (s.sect (blockAddr s.sect d (off / 512)).toNat) (by omega) (by omega)
      have hlt : off / 512 * 512 < d.size.toNat := by omega
      rw [if_neg h0, Exec.bind_ok (h.rblock hlt data), Exec.bind_ok hrest,
        Exec.pure_apply, ← slice_block _ _ _ _ (Nat.min_le_right _ _), ← slice_add, hm]

theorem Readable.readi (h : Readable s d) (off n : Nat) :
    readi d off n s = .ok (readResult s.sect d off n) s := by
  unfold Host.readi readResult
  rw [if_neg h.file]
  by_cases hoff : d.size.toNat < off ∨ (off + n) % 4294967296 < off
  · rw [if_pos hoff, if_pos hoff]
    rfl
  · rw [if_neg hoff, if_neg hoff]
    rw [not_or] at hoff
    have hn : (if d.size.toNat < off + n then d.size.toNat - off else n) =
        min n (d.size.toNat - off) := by
      split <;> omega
    simp only [hn]
    rw [Exec.bind_ok (h.readiLoop _ off _ _ (Nat.le_refl _) (by omega))]
    rfl

/-- A read inside the file. -/
theorem Readable.readi_le (h : Readable s d) {off n : Nat} (hoff : off ≤ d.size.toNat)
    (hn : n ≤ 2048) : Host.readi d off n s = .ok (((min n (d.size.toNat - off) : Nat) : Int),
      slice s.sect d off (min n (d.size.toNat - off))) s := by
  have hsize := h.size_le
  rw [h.readi, readResult_le off n hoff (by omega)]

/-- `ichecksum` is the checksum of the contents. -/
theorem Readable.ichecksum (h : Readable s d) :
    ichecksum d s = .ok (checksumOf (contents s.sect d)) s := by
  have hloop := sumLoop_slice (ichecksumLoop d) h.size_le (fun off _ => h.readi off 2048)
    fun _ _ _ => rfl
  unfold Host.ichecksum
  rw [hloop _ 0 0 (by omega) (by omega), Nat.sub_zero]
  unfold checksumOf
  rw [length_contents]
  rfl

end Zv6.Host
