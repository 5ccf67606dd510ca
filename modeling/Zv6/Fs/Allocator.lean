/-
  The allocator on a volume made by mkfs.

  mkfs marks the blocks in front of the data area and the ones it filled, and nothing else: the
  log at the end of the device is unmarked (`mkfsBitmap`). `balloc` scans the whole device, so a
  run of `balloc` and `bfree` stays inside the data area as long as every `balloc` finds a free
  block there (`balloc_data_area`), and with none left the log is handed out
  (`balloc_log_block`).
-/
import Zv6.Fs.Blocks
import Zv6.Fs.Image

namespace Zv6

open Lib

/-- The bitmap sector of mkfs (its `balloc`). -/
def mkfsBitmap (used : Nat) : Block := (List.range used).foldl Block.setBit Block.zero

/-- A volume mkfs made: the bitmap has its first `used` bits set. -/
structure Mkfs (sb : Superblock) (used : Nat) (s : State) : Prop where
  idle : Idle s
  placed : Placed sb s
  word : sb.size < 4294967296
  super : (s.disk 1 1).superblock = sb
  layout : sb.nblocks + dstart sb + sb.nlog = sb.size
  range : dstart sb ≤ used ∧ used < 4096
  bitmap : s.disk 1 (sb.ninodes / 8 + 3) = mkfsBitmap used
  rest : ∀ c ∈ bitmapSecs sb, c ≠ sb.ninodes / 8 + 3 → s.disk 1 c = Block.zero

/-- A run of transactions that call `balloc`, each time with a block of the data area free, and
    `bfree` of blocks `balloc` returned; these are collected. -/
inductive AllocRun (sb : Superblock) (s0 : State) : State → List Nat → Prop where
  | start : AllocRun sb s0 s0 []
  | begin {s s' : State} {R : List Nat} : AllocRun sb s0 s R → begin_trans s = .ok () s' →
      AllocRun sb s0 s' R
  | commit {s s' : State} {R : List Nat} : AllocRun sb s0 s R → commit_trans s = .ok () s' →
      AllocRun sb s0 s' R
  | balloc {s s' : State} {R : List Nat} {b : Nat} : AllocRun sb s0 s R →
      (freeBlocks sb (s.view 1)).Nonempty → Zv6.balloc 1 s = .ok b s' → AllocRun sb s0 s' (b :: R)
  | bfree {s s' : State} {R : List Nat} {b : Nat} : AllocRun sb s0 s R → b ∈ R →
      Zv6.bfree 1 b s = .ok () s' → AllocRun sb s0 s' R

/-- What holds along such a run. -/
structure Allocating (sb : Superblock) (s : State) (R : List Nat) : Prop where
  jrn : Jrn sb s
  super : (s.view 1 1).superblock = sb
  area : dstart sb ≤ lstart sb
  reserved : ∀ b, b < dstart sb → usedBit sb (s.view 1) b = true
  data : ∀ b ∈ R, dstart sb ≤ b ∧ b < lstart sb

section Mkfs

variable {sb : Superblock} {used : Nat} {s s0 s' : State} {R : List Nat}

theorem bit_mkfsBitmap (h : used ≤ 4096) (i : Nat) :
    (mkfsBitmap used).bit i = decide (i < used) := by
  unfold mkfsBitmap
  induction used with
  | zero =>
    have hz : Block.zero.bit i = false := by
      unfold Block.bit
      rw [Block.byte_zero]
      exact Nat.zero_testBit _
    simpa using hz
  | succ n ih =>
    rw [List.range_succ, List.foldl_append]
    show (Block.setBit _ n).bit i = _
    rw [Block.bit_setBit _ _ _ (by omega), ih (by omega)]
    by_cases hi : i = n
    · rw [if_pos hi, hi, decide_eq_true (Nat.lt_succ_self n)]
    · rw [if_neg hi]
      exact decide_eq_decide.mpr (by omega)

theorem Mkfs.usedBit (h : Mkfs sb used s) {b : Nat} (hb : b < sb.size) :
    usedBit sb (s.disk 1) b = decide (b < used) := by
  have hused := h.range.2
  unfold Zv6.usedBit
  by_cases h0 : b < 4096
  · have hs : BBLOCK b sb.ninodes = sb.ninodes / 8 + 3 := by
      unfold BBLOCK
      omega
    rw [hs, h.bitmap, bit_mkfsBitmap (by omega), Nat.mod_eq_of_lt h0]
  · have hs : BBLOCK b sb.ninodes ≠ sb.ninodes / 8 + 3 := by
      unfold BBLOCK
      omega
    rw [h.rest _ (mem_bitmapSecs hb) hs]
    unfold Block.bit
    rw [Block.byte_zero, decide_eq_false (by omega)]
    exact Nat.zero_testBit _

theorem Mkfs.allocating (h : Mkfs sb used s) : Allocating sb s [] := by
  have hview := h.idle.view
  have hlayout := h.layout
  have hused := h.range.1
  have harea : dstart sb ≤ lstart sb := by
    unfold lstart
    omega
  refine ⟨h.idle.jrn h.placed h.word, by rw [hview]; exact h.super, harea, ?_, by simp⟩
  intro b hb
  rw [hview, h.usedBit (by have := lstart_le sb; omega), decide_eq_true_eq]
  omega

/-- A transaction begins or ends. -/
theorem Allocating.same (h : Allocating sb s R) (hj : Jrn sb s')
    (hv : ∀ c, c < lstart sb → s'.view 1 c = s.view 1 c) : Allocating sb s' R := by
  have harea := h.area
  have h1 := one_lt_dstart sb
  refine ⟨hj, by rw [hv 1 (by omega)]; exact h.super, harea, ?_, h.data⟩
  intro b hb
  have hlt := BBLOCK_lt (Nat.lt_of_lt_of_le hb (harea.trans (lstart_le sb)))
  have hset := h.reserved b hb
  unfold Zv6.usedBit at hset ⊢
  rw [hv _ (by omega)]
  exact hset

theorem Allocating.begin (h : Allocating sb s R) (hrun : begin_trans s = .ok () s') :
    Allocating sb s' R := by
  unfold begin_trans at hrun
  split at hrun
  · cases hrun
  · cases hrun
    exact h.same h.jrn.begun fun _ _ => rfl

theorem Allocating.commit (h : Allocating sb s R) (hrun : commit_trans s = .ok () s') :
    Allocating sb s' R := by
  obtain ⟨s1, hrun1, hj, -, -, hv⟩ := h.jrn.commit
  rw [hrun] at hrun1
  cases hrun1
  exact h.same hj hv

/-- The block `balloc` returns, and what it does below the log. -/
theorem Allocating.found (h : Allocating sb s R) {b : Nat}
    (hrun : Zv6.balloc 1 s = .ok b s') : Found sb (s.view 1) b ∧
      (b < lstart sb → Alloced sb b s s') := by
  have hwp := balloc_wp (E := fun _ _ => True) (B := bitmapSecs sb) h.jrn h.super h.area
    (fun _ => trivial) h.reserved (fun b hb => mem_bitmapSecs hb.1) (Or.inl fun _ => trivial)
    (fun _ _ => Or.inr fun _ => trivial) fun _ => trivial
  exact hwp.ok hrun

theorem Found.ge (h : Allocating sb s R) {b : Nat} (hf : Found sb (s.view 1) b) :
    dstart sb ≤ b := by
  by_contra hlt
  have := h.reserved b (by omega)
  rw [hf.2.1] at this
  cases this

/-- With a block of the data area free, the first free block is one of them. -/
theorem Found.lt {V : Nat → Block} {b : Nat} (hf : Found sb V b)
    (hfree : (freeBlocks sb V).Nonempty) : b < lstart sb := by
  obtain ⟨a, ha⟩ := hfree
  obtain ⟨hlt, hclear⟩ := Finset.mem_filter.mp ha
  by_contra hge
  have := hf.2.2 a (by have := Finset.mem_range.mp hlt; omega)
  rw [hclear] at this
  cases this

theorem Allocating.balloc (h : Allocating sb s R) {b : Nat}
    (hfree : (freeBlocks sb (s.view 1)).Nonempty) (hrun : Zv6.balloc 1 s = .ok b s') :
    Allocating sb s' (b :: R) := by
  obtain ⟨hfound, halloc⟩ := h.found hrun
  have hge := hfound.ge h
  have hlt := hfound.lt hfree
  have ha := halloc hlt
  have h1 := one_lt_dstart sb
  have harea := h.area
  have h1s : s'.view 1 1 = s.view 1 1 :=
    ha.same 1 (by omega) (by omega) fun hm => (bitmapSecs_lt hm).2 rfl
  refine ⟨ha.jrn, by rw [h1s]; exact h.super, harea, ?_, ?_⟩
  · intro a hlt'
    have := lstart_le sb
    rw [ha.bits a (by omega), h.reserved a hlt', ite_self]
  · intro a hmem
    rcases List.mem_cons.mp hmem with rfl | hmem
    · exact ⟨hge, hlt⟩
    · exact h.data a hmem

theorem Allocating.bfree (h : Allocating sb s R) {b : Nat} (hb : b ∈ R)
    (hrun : Zv6.bfree 1 b s = .ok () s') : Allocating sb s' R := by
  obtain ⟨hge, hlt⟩ := h.data b hb
  have hsize := lstart_le sb
  have hwp := bfree_wp (E := fun _ _ => True) (B := bitmapSecs sb) h.jrn h.super h.area
    (fun _ => trivial) (Or.inl fun _ => trivial) (show b < sb.size by omega) fun _ => trivial
  obtain ⟨-, hf⟩ := hwp.ok hrun
  have h1 := one_lt_dstart sb
  have harea := h.area
  have h1s : s'.view 1 1 = s.view 1 1 := hf.same 1 (by omega) fun hm => (bitmapSecs_lt hm).2 rfl
  refine ⟨hf.jrn, by rw [h1s]; exact h.super, harea, ?_, h.data⟩
  intro a ha
  rw [hf.bits a (by omega), if_neg (by omega)]
  exact h.reserved a ha

/-- Along a run from a volume of mkfs. -/
theorem AllocRun.allocating (h0 : Mkfs sb used s0) (hrun : AllocRun sb s0 s R) :
    Allocating sb s R := by
  induction hrun with
  | start => exact h0.allocating
  | begin _ hb ih => exact ih.begin hb
  | commit _ hc ih => exact ih.commit hc
  | balloc _ hfree hb ih => exact ih.balloc hfree hb
  | bfree _ hmem hf ih => exact ih.bfree hmem hf

/-- With room in the log and a block up to the log's header free, `balloc` returns. -/
theorem Allocating.returns (h : Allocating sb s R) (hbusy : s.log.busy = true)
    (hlog : s.log.n + 2 < 20 ∧ s.log.n + 2 < sb.nlog - 1) {a : Nat} (ha : a < sb.size)
    (hle : a ≤ lstart sb) (hclear : Zv6.usedBit sb (s.view 1) a = false) :
    ∃ b s', Zv6.balloc 1 s = .ok b s' := by
  rcases found_or_full sb (s.view 1) with ⟨b, hb⟩ | hall
  swap
  · rw [hall a ha] at hclear
    cases hclear
  -- the first free block decides which bitmap sector is logged
  have hfirst : ∀ b', Found sb (s.view 1) b' → b' = b := fun b' hb' => hb'.unique hb
  have hcard := h.jrn.card_secs
  have hins := Finset.card_insert_le (BBLOCK b sb.ninodes) (secs s)
  have hroomy : Fits (fun _ _ => False) sb (insert (BBLOCK b sb.ninodes) (secs s))
      s := Or.inr ⟨Finset.subset_insert _ _, by omega, by omega⟩
  have hfree : b ≤ a := by
    by_contra hlt
    rw [hb.2.2 a (by omega)] at hclear
    cases hclear
  have hwp := balloc_wp (E := fun _ _ => False) h.jrn h.super h.area (.of_busy hbusy)
    h.reserved (fun b' hb' => by rw [hfirst b' hb']; exact Finset.mem_insert_self _ _) hroomy
    (fun b' hb' => Or.inl (by rw [hfirst b' hb']; omega))
    (fun hall => by rw [hall a ha] at hclear; cases hclear)
  obtain ⟨b, s', hrun, -⟩ := hwp.returns
  exact ⟨b, s', hrun⟩

/-- The blocks a run was given lie in the data area. -/
theorem balloc_data_area (sb : Superblock) (used : Nat) (s0 s : State) (R : List Nat)
    (h0 : Mkfs sb used s0) (hrun : AllocRun sb s0 s R) :
    ∀ b ∈ R, dstart sb ≤ b ∧ b < lstart sb :=
  (hrun.allocating h0).data

/-- A small volume of mkfs with its first `used` blocks marked. -/
def mkfsDisk (used : Nat) : State :=
  { State.blank imageLog with
    disk := fun _ c => if c = 1 then superBlock else if c = 5 then mkfsBitmap used else Block.zero }

theorem mkfsDisk_mkfs (h : 6 ≤ used ∧ used < 4096) : Mkfs imageSb used (mkfsDisk used) := by
  refine { idle := ⟨rfl, rfl, rfl, fun _ => rfl, Block.word_zero 0⟩, placed := ⟨rfl, rfl⟩,
           word := by decide, super := superblock_superBlock, layout := by decide, range := h,
           bitmap := rfl, rest := ?_ }
  intro c hc hne
  obtain ⟨b, hb, rfl⟩ := Finset.mem_image.mp hc
  have hb : b < 180 := Finset.mem_range.mp hb
  have hn : imageSb.ninodes = 16 := rfl
  rw [hn] at hne
  unfold BBLOCK at hne
  omega

/-- The first block of an empty data area. -/
theorem balloc_data_area_first : ∃ s, AllocRun imageSb (mkfsDisk 6) s [6] ∧
    ∀ b ∈ [6], dstart imageSb ≤ b ∧ b < lstart imageSb := by
  have hrun : (balloc 1 (mkfsDisk 6).begun).check (fun b _ => b == 6) = true := by decide +kernel
  obtain ⟨b, s, hb, he⟩ := Res.of_check hrun
  obtain rfl : b = 6 := by simpa using he
  have hfree : 6 ∈ freeBlocks imageSb ((mkfsDisk 6).begun.view 1) :=
    Finset.mem_filter.mpr ⟨by decide, by decide +kernel⟩
  have h : AllocRun imageSb (mkfsDisk 6) s [6] :=
    .balloc (.begin .start (begin_trans_apply rfl)) ⟨6, hfree⟩ hb
  exact ⟨s, h, balloc_data_area imageSb 6 _ s [6] (mkfsDisk_mkfs (by decide)) h⟩

/-- With the data area full, the first block of the log is handed out. -/
theorem balloc_log_block : Mkfs imageSb 160 (mkfsDisk 160) ∧ lstart imageSb = 160 ∧
    ∃ s s', begin_trans (mkfsDisk 160) = .ok () s ∧ balloc 1 s = .ok 160 s' := by
  have hrun : (balloc 1 (mkfsDisk 160).begun).check (fun b _ => b == 160) = true := by
    decide +kernel
  obtain ⟨b, s', hb, he⟩ := Res.of_check hrun
  obtain rfl : b = 160 := by simpa using he
  exact ⟨mkfsDisk_mkfs (by decide), by decide, _, s', begin_trans_apply rfl, hb⟩

end Mkfs

end Zv6
