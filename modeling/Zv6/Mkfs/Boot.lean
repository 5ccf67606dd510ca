/-
  The image that `main` makes, as the kernel finds it.

  The bitmap marks the blocks that were taken and no other, so the kernel's first `balloc` returns
  a block that no file uses (`main_exact`).
-/
import Zv6.Fs.Allocator
import Zv6.Mkfs.Areas

namespace Zv6.Host

open Lib

/-- The superblock of the image. -/
def sb : Superblock := ⟨2048, 1999, 200, 20⟩

/-- The kernel has booted from an image. -/
structure Booted (s : Image) (k : State) : Prop where
  idle : Idle k
  placed : Placed sb k
  disk : ∀ b, b < 2048 → k.disk 1 b = s.sect b

variable {fs : List HostFile} {s : Image} {k : State}

theorem superblock_superblock : superblock.superblock = sb := by decide

theorem Made.mkfs (h : Made s fs) (hk : Booted (s.store 28 (bitmap s.freeblock)) k) :
    Mkfs sb s.freeblock k := by
  refine { idle := hk.idle, placed := hk.placed, word := by decide, super := ?_,
           layout := by decide, range := ?_, bitmap := ?_, rest := ?_ }
  · rw [hk.disk 1 (by omega), Image.store_ne (by omega), h.super, superblock_superblock]
  · have hlow := h.held.laid.low
    have hfits := h.held.fits
    exact ⟨hlow, by omega⟩
  · rw [show sb.ninodes / 8 + 3 = 28 from rfl, hk.disk 28 (by omega), Image.store_self]
    rfl
  · intro c hc hne
    obtain ⟨b, hb, rfl⟩ := Finset.mem_image.mp hc
    have hb : b < 2048 := Finset.mem_range.mp hb
    have hn : sb.ninodes = 200 := rfl
    rw [hn] at hne
    unfold BBLOCK at hne
    omega

/-- With a block left, the first `balloc` returns one that was not taken. -/
theorem Made.balloc (h : Made s fs) (hk : Booted (s.store 28 (bitmap s.freeblock)) k)
    (hroom : s.freeblock ≤ 2028) : ∃ k1 b k2, begin_trans k = .ok () k1 ∧
      Zv6.balloc 1 k1 = .ok b k2 ∧ s.freeblock ≤ b := by
  have hmkfs := h.mkfs hk
  have hbegin := begin_trans_apply hk.idle.busy
  have hall := hmkfs.allocating.begin hbegin
  have hview : k.begun.view 1 = k.disk 1 := hk.idle.view
  have hn : k.begun.log.n = 0 := hk.idle.n
  have hbit : ∀ b, b < 2048 → usedBit sb (k.begun.view 1) b = decide (b < s.freeblock) := by
    intro b hb
    rw [hview]
    exact hmkfs.usedBit hb
  obtain ⟨b, k2, hrun⟩ := hall.returns rfl (by rw [hn]; decide)
    (show s.freeblock < 2048 by omega) hroom
    (by rw [hbit _ (by omega), decide_eq_false (Nat.lt_irrefl _)])
  obtain ⟨⟨hlt, hclear, -⟩, -⟩ := hall.found hrun
  rw [hbit b hlt, decide_eq_false_iff_not] at hclear
  exact ⟨_, b, k2, hbegin, hrun, by omega⟩

/-- Files that fit: `main` ends on those it accepts. In the end every address lies behind the
    bitmap and below `freeblock`, none occurs twice, the counters are equal, the bitmap marks the
    blocks below them and no other, and the kernel's first `balloc` returns a block that is no
    address. -/
theorem main_exact (fs : List HostFile) (hi : fs.length + 3 < 200) (hb : total fs ≤ 2028) :
    (Accepts fs → ∃ s, main fs blank = .ok () s) ∧
    ∀ s, main fs blank = .ok () s →
      (∀ i < 200, ∀ p, ref s.sect (table s.sect i) p ≠ 0 →
        blank.usedblocks ≤ (ref s.sect (table s.sect i) p).toNat ∧
          (ref s.sect (table s.sect i) p).toNat < s.freeblock) ∧
      (∀ i < 200, ∀ j < 200, ∀ p q, ref s.sect (table s.sect i) p ≠ 0 →
        ref s.sect (table s.sect i) p = ref s.sect (table s.sect j) q → i = j ∧ p = q) ∧
      s.usedblocks = s.freeblock ∧
      (∀ b, (s.sect 28).bit b = decide (b < s.freeblock)) ∧
      ∀ k, Booted s k → ∃ k1 b k2, begin_trans k = .ok () k1 ∧ Zv6.balloc 1 k1 = .ok b k2 ∧
        ∀ i < 200, ∀ p, (ref s.sect (table s.sect i) p).toNat ≠ b := by
  refine ⟨fun ha => ?_, fun s hm => ?_⟩
  · obtain ⟨s, -, hm⟩ := main_ends fs (by omega) ha
    exact ⟨_, hm⟩
  · obtain ⟨s0, hmade, rfl⟩ := (main_wp (by omega)).ok hm
    have hlaid := hmade.held.laid
    have hlow := hlaid.low
    have hcount := hmade.count
    have href : ∀ i < 200, ∀ p, ref (s0.store 28 (bitmap s0.freeblock)).sect
        (table (s0.store 28 (bitmap s0.freeblock)).sect i) p = ref s0.sect (table s0.sect i) p := by
      intro i hi p
      rw [Made.table_bitmap i (by omega)]
      cases p with
      | none => rfl
      | some bn => exact hmade.blockAddr_bitmap i bn
    refine ⟨fun i hi p h0 => ?_, fun i hi j hj p q h0 heq => ?_, hmade.held.used, fun b => ?_,
      fun k hk => ?_⟩
    · rw [href i hi] at h0 ⊢
      exact hlaid.range i p h0
    · rw [href i hi] at h0 heq
      rw [href j hj] at heq
      exact hlaid.inj i j p q h0 heq
    · rw [Image.store_self]
      exact bit_mkfsBitmap (by omega) b
    · obtain ⟨k1, b, k2, hbegin, hrun, hge⟩ := hmade.balloc hk (by omega)
      refine ⟨k1, b, k2, hbegin, hrun, fun i hi p he => ?_⟩
      rw [href i hi] at he
      have hlt := (hlaid.range i p fun h0 => by
        rw [h0, UInt32.toNat_zero] at he
        omega).2
      omega

/-- Two files, the second with an indirect block: the kernel boots from the image, and its first
    `balloc` leaves them and the root alone. -/
theorem main_exact_two : ∃ s k k1 b k2, main ([1, 11].map sectors) blank = .ok () s ∧
    (table s.sect 3).addrs 10 ≠ 0 ∧ Booted s k ∧ begin_trans k = .ok () k1 ∧
    Zv6.balloc 1 k1 = .ok b k2 ∧
    ∀ i < 200, ∀ p, (ref s.sect (table s.sect i) p).toNat ≠ b := by
  have htotal : total ([1, 11].map sectors) ≤ 2028 := by
    rw [total_sectors]
    decide
  obtain ⟨s, hmade, hm⟩ := main_ends ([1, 11].map sectors) (by decide)
    (accepts_sectors (by decide) (by omega))
  have hexact := (main_exact _ (by decide) htotal).2 _ hm
  have hboot : Booted (s.store 28 (bitmap s.freeblock))
      { State.blank { start := 2028, size := 20, busy := false, dev := 1, n := 0,
                      sector := fun _ => 0 } with
        disk := fun _ => (s.store 28 (bitmap s.freeblock)).sect } := by
    refine ⟨⟨rfl, rfl, rfl, fun _ => rfl, ?_⟩, ⟨rfl, rfl⟩, fun _ _ => rfl⟩
    show ((s.store 28 (bitmap s.freeblock)).sect 2028).word 0 = 0
    rw [Image.store_ne (by omega), hmade.held.laid.fresh 2028 (by rw [hmade.count]; exact htotal)]
    exact Block.word_zero 0
  obtain ⟨k1, b, k2, hbegin, hrun, hne⟩ := hexact.2.2.2.2 _ hboot
  refine ⟨_, _, k1, b, k2, hm, ?_, hboot, hbegin, hrun, hne⟩
  have hlen : (imageOf ([1, 11].map sectors) 3).length = 11 * 512 := length_sectors 11
  rw [Made.table_bitmap 3 (by omega)]
  exact (hmade.held.backed 3).ind.mpr (by omega)

end Zv6.Host
