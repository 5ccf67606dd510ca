/-
  `balloc` and `bfree` as operations on a set of blocks.

  The set is the blocks below the size of the device whose bit is set (`allocated`). `balloc`
  adds its least block outside and zeroes it, `bfree` takes one out, and no other bit or block
  changes (`Takes`, `Gives`). This needs the superblock and the sectors of the bitmap to be marked
  themselves, and the log, which both calls write, to lie apart from them (`Guarded`): a bitmap
  sector whose own bit is clear is handed out like any other block, and zeroing it frees the 4096
  blocks it stands for (`balloc_wipes_bitmap`). `b` is an int in the source, so all this is said of
  devices of at most 2^31 blocks.
-/
import Mathlib.Order.Bounds.Basic
import Zv6.Fs.Allocator

namespace Zv6

open Lib

/-- The blocks in use. -/
def allocated (sb : Superblock) (V : Nat → Block) : Finset Nat :=
  (Finset.range sb.size).filter fun b => usedBit sb V b = true

/-- The superblock and the sectors of the bitmap. -/
def mapSecs (sb : Superblock) : Finset Nat := insert 1 (bitmapSecs sb)

/-- The allocator's own sectors are marked, and the log lies apart from them. -/
structure Guarded (sb : Superblock) (s : State) : Prop where
  int : sb.size ≤ 2 ^ 31
  super : (s.view 1 1).superblock = sb
  home : ∀ c ∈ mapSecs sb, s.log.Home c
  marked : ∀ c ∈ mapSecs sb, c < sb.size → c ∈ allocated sb (s.view 1)

/-- A transaction is open and the log has room for `k` more blocks. -/
structure Slack (k : Nat) (s : State) : Prop where
  busy : s.log.busy = true
  max : s.log.n + k ≤ 20
  fits : s.log.n + k ≤ s.log.size - 1

/-- What `balloc` did to return `b`. -/
structure Takes (sb : Superblock) (b : Nat) (s s' : State) : Prop where
  only : DiskOnly s s'
  used : allocated sb (s'.view 1) = insert b (allocated sb (s.view 1))
  zero : s'.view 1 b = Block.zero
  bits : ∀ i, (s'.view 1 (BBLOCK b sb.ninodes)).bit i =
    if i = b % 4096 then true else (s.view 1 (BBLOCK b sb.ninodes)).bit i
  same : ∀ c, s.log.Home c → c ≠ b → c ≠ BBLOCK b sb.ninodes → s'.view 1 c = s.view 1 c

/-- What `bfree` of `b` did. -/
structure Gives (sb : Superblock) (b : Nat) (s s' : State) : Prop where
  only : DiskOnly s s'
  used : allocated sb (s'.view 1) = (allocated sb (s.view 1)).erase b
  bits : ∀ i, (s'.view 1 (BBLOCK b sb.ninodes)).bit i =
    if i = b % 4096 then false else (s.view 1 (BBLOCK b sb.ninodes)).bit i
  same : ∀ c, s.log.Home c → c ≠ BBLOCK b sb.ninodes → s'.view 1 c = s.view 1 c

section BlockSet

variable {sb : Superblock} {s s' : State} {b : Nat}

theorem mem_allocated {V : Nat → Block} {a : Nat} :
    a ∈ allocated sb V ↔ a < sb.size ∧ usedBit sb V a = true := by
  unfold allocated
  rw [Finset.mem_filter, Finset.mem_range]

theorem allocated_congr {V V' : Nat → Block} (h : ∀ c ∈ bitmapSecs sb, V' c = V c) :
    allocated sb V' = allocated sb V := by
  refine Finset.filter_congr fun a ha => ?_
  unfold usedBit
  rw [h _ (mem_bitmapSecs (Finset.mem_range.mp ha))]

theorem BBLOCK_mem_mapSecs (hb : b < sb.size) : BBLOCK b sb.ninodes ∈ mapSecs sb :=
  Finset.mem_insert_of_mem (mem_bitmapSecs hb)

/-- What a `log_write` that returned did. -/
structure Entered (sec : Nat) (B : Block) (s s' : State) : Prop where
  only : DiskOnly s s'
  self : s'.view 1 sec = B
  same : ∀ c, s.log.Home c → c ≠ sec → s'.view 1 c = s.view 1 c
  home : ∀ c, s'.log.Home c ↔ s.log.Home c
  room : ∀ k, Slack (k + 1) s → Slack k s'

theorem log_write_entered {sec : Nat} {B : Block} (hrun : log_write 1 sec B s = .ok () s') :
    Entered sec B s s' := by
  rw [log_write_apply] at hrun
  by_cases hfull : 20 ≤ s.log.n ∨ s.log.size - 1 ≤ s.log.n
  · rw [if_pos hfull] at hrun
    cases hrun
  rw [if_neg hfull] at hrun
  by_cases hbusy : s.log.busy = false
  · rw [if_pos hbusy] at hrun
    cases hrun
  rw [if_neg hbusy] at hrun
  split at hrun <;> cases hrun
  have hslot := absorbSlot_le s.log sec
  refine ⟨rfl, ?_, ?_, fun c => Iff.rfl, ?_⟩
  · unfold State.view State.logged
    simp
  · intro c hc hne
    rw [view_logged s sec B c (hc.ne_body (by omega)), if_neg hne]
  · intro k h
    have hn : (s.logged 1 sec B).log.n ≤ s.log.n + 1 := by
      show (if absorbSlot s.log sec = s.log.n then s.log.n + 1 else s.log.n) ≤ s.log.n + 1
      split <;> omega
    have hmax := h.max
    have hfits := h.fits
    exact ⟨h.busy, by omega, by show _ ≤ s.log.size - 1; omega⟩

/-- With room in the log, `log_write` sleeps on its own slot or returns. -/
theorem Slack.log_write_apply {k : Nat} (h : Slack (k + 1) s) (sec : Nat) (B : Block) :
    log_write 1 sec B s = if sec = s.log.start + absorbSlot s.log sec + 1
      then .blocked (.buf 1 sec) (s.slotted sec) else .ok () (s.logged 1 sec B) := by
  have hmax := h.max
  have hfits := h.fits
  rw [Zv6.log_write_apply, if_neg (by omega), if_neg (by simp [h.busy])]

theorem Slack.log_write {k sec : Nat} (h : Slack (k + 1) s) (hsec : s.log.Home sec) (B : Block) :
    ∃ s', log_write 1 sec B s = .ok () s' ∧ Entered sec B s s' := by
  have hfits := h.fits
  have hrun : Zv6.log_write 1 sec B s = .ok () (s.logged 1 sec B) := by
    rw [h.log_write_apply, if_neg (hsec.ne_slot (by omega))]
  exact ⟨_, hrun, log_write_entered hrun⟩

/-! ## `balloc` -/

/-- The first free block is none of the allocator's own. -/
theorem Guarded.not_mem (h : Guarded sb s) (hb : Found sb (s.view 1) b) : b ∉ mapSecs sb := by
  intro hm
  have := (mem_allocated.mp (h.marked b hm hb.1)).2
  rw [hb.2.1] at this
  cases this

theorem Guarded.takes (h : Guarded sb s) (hb : Found sb (s.view 1) b) {s1 : State}
    (h1 : Entered (BBLOCK b sb.ninodes)
      ((s.view 1 (BBLOCK b sb.ninodes)).setBit (b % 4096)) s s1)
    (h2 : Entered b Block.zero s1 s') : Takes sb b s s' := by
  have hnb := h.not_mem hb
  have hbm := BBLOCK_mem_mapSecs hb.1
  have hne : BBLOCK b sb.ninodes ≠ b := fun e => hnb (e ▸ hbm)
  have hbits : ∀ i, (s'.view 1 (BBLOCK b sb.ninodes)).bit i =
      if i = b % 4096 then true else (s.view 1 (BBLOCK b sb.ninodes)).bit i := by
    intro i
    rw [h2.same _ ((h1.home _).mpr (h.home _ hbm)) hne, h1.self,
      Block.bit_setBit _ _ _ (by omega)]
  have hsame : ∀ c, s.log.Home c → c ≠ b → c ≠ BBLOCK b sb.ninodes →
      s'.view 1 c = s.view 1 c := by
    intro c hc hcb hcm
    rw [h2.same c ((h1.home c).mpr hc) hcb, h1.same c hc hcm]
  refine ⟨h1.only.trans h2.only, ?_, h2.self, hbits, hsame⟩
  ext a
  rw [Finset.mem_insert, mem_allocated, mem_allocated]
  by_cases ha : a < sb.size
  · rw [usedBit_write hbits (fun c hc hcm => hsame c (h.home c (Finset.mem_insert_of_mem hc))
      (fun e => hnb (e ▸ Finset.mem_insert_of_mem hc)) hcm) ha]
    by_cases hab : a = b
    · simp [hab, hb.1]
    · simp [hab]
  · have hab : a ≠ b := fun e => ha (e ▸ hb.1)
    simp [ha, hab]

/-- A `balloc` that returned took the first free block. -/
theorem Guarded.balloc_ok (h : Guarded sb s) (hrun : balloc 1 s = .ok b s') :
    Found sb (s.view 1) b ∧ Takes sb b s s' ∧ (∀ c, s'.log.Home c ↔ s.log.Home c) ∧
      ∀ k, Slack (k + 2) s → Slack k s' := by
  rcases found_or_full sb (s.view 1) with ⟨a, ha⟩ | hall
  · rw [balloc_found h.super ha] at hrun
    unfold takeBlock at hrun
    obtain ⟨_, s1, hw1, hrun⟩ := Exec.bind_eq_ok.mp hrun
    obtain ⟨_, s2, hw2, hrun⟩ := Exec.bind_eq_ok.mp hrun
    cases hrun
    have h1 := log_write_entered hw1
    have h2 := log_write_entered hw2
    exact ⟨ha, h.takes ha h1 h2, fun c => (h2.home c).trans (h1.home c),
      fun k hr => h2.room k (h1.room (k + 1) hr)⟩
  · rw [balloc_full h.super hall] at hrun
    cases hrun

theorem bfree_free (hsuper : (s.view 1 1).superblock = sb)
    (hclear : usedBit sb (s.view 1) b = false) :
    bfree 1 b s = .panic "freeing free block" s := by
  unfold bfree
  rw [Exec.bind_ok (readsb_apply hsuper), Exec.bind_ok (bread_apply _ _ _)]
  exact congrFun (if_pos hclear) s

theorem bfree_used (hsuper : (s.view 1 1).superblock = sb)
    (hset : usedBit sb (s.view 1) b = true) :
    bfree 1 b s = log_write 1 (BBLOCK b sb.ninodes)
      ((s.view 1 (BBLOCK b sb.ninodes)).clearBit (b % 4096)) s := by
  unfold usedBit at hset
  unfold bfree
  rw [Exec.bind_ok (readsb_apply hsuper), Exec.bind_ok (bread_apply _ _ _)]
  exact congrFun (if_neg (by simp [hset])) s

theorem Guarded.gives (h : Guarded sb s)
    (h1 : Entered (BBLOCK b sb.ninodes)
      ((s.view 1 (BBLOCK b sb.ninodes)).clearBit (b % 4096)) s s') : Gives sb b s s' := by
  have hbits : ∀ i, (s'.view 1 (BBLOCK b sb.ninodes)).bit i =
      if i = b % 4096 then false else (s.view 1 (BBLOCK b sb.ninodes)).bit i := by
    intro i
    rw [h1.self, Block.bit_clearBit _ _ _ (by omega)]
  refine ⟨h1.only, ?_, hbits, h1.same⟩
  ext a
  rw [Finset.mem_erase, mem_allocated, mem_allocated]
  by_cases ha : a < sb.size
  · rw [usedBit_write hbits (fun c hc hcm => h1.same c (h.home c (Finset.mem_insert_of_mem hc))
      hcm) ha]
    by_cases hab : a = b
    · simp [hab]
    · simp [hab]
  · simp [ha]

/-- A `bfree` that returned cleared a bit that was set. -/
theorem Guarded.bfree_ok (h : Guarded sb s) (hb : b < sb.size) (hrun : bfree 1 b s = .ok () s') :
    b ∈ allocated sb (s.view 1) ∧ Gives sb b s s' ∧ (∀ c, s'.log.Home c ↔ s.log.Home c) := by
  cases hu : usedBit sb (s.view 1) b with
  | false =>
    rw [bfree_free h.super hu] at hrun
    cases hrun
  | true =>
    rw [bfree_used h.super hu] at hrun
    have h1 := log_write_entered hrun
    exact ⟨mem_allocated.mpr ⟨hb, hu⟩, h.gives h1, h1.home⟩

/-! ## Sequences of calls -/

/-- Calls of `balloc` and `bfree` in any order, the latter for any block but the allocator's own,
    with the blocks handed out and not freed since. Between them anything may happen that leaves
    the allocator's sectors as they are, and the log in its place. -/
inductive AllocCalls (sb : Superblock) (s0 : State) : State → List Nat → Prop where
  | start : AllocCalls sb s0 s0 []
  | balloc {s s' : State} {R : List Nat} {b : Nat} : AllocCalls sb s0 s R → balloc 1 s = .ok b s' →
      AllocCalls sb s0 s' (b :: R)
  | bfree {s s' : State} {R : List Nat} {b : Nat} : AllocCalls sb s0 s R → b < sb.size →
      b ∉ mapSecs sb → bfree 1 b s = .ok () s' → AllocCalls sb s0 s' (R.filter (· ≠ b))
  | other {s s' : State} {R : List Nat} : AllocCalls sb s0 s R →
      (∀ c ∈ mapSecs sb, s'.view 1 c = s.view 1 c) → (∀ c, s'.log.Home c ↔ s.log.Home c) →
      AllocCalls sb s0 s' R

theorem Guarded.balloc (h : Guarded sb s) (hrun : Zv6.balloc 1 s = .ok b s') : Guarded sb s' := by
  obtain ⟨hb, ht, hhome, -⟩ := h.balloc_ok hrun
  have h1 : (1 : Nat) ∈ mapSecs sb := Finset.mem_insert_self _ _
  refine ⟨h.int, ?_, fun c hc => (hhome c).mpr (h.home c hc), fun c hc hlt => ?_⟩
  · rw [ht.same 1 (h.home 1 h1) (fun e => h.not_mem hb (e ▸ h1)) (BBLOCK_ne_one _ _).symm]
    exact h.super
  · rw [ht.used]
    exact Finset.mem_insert_of_mem (h.marked c hc hlt)

theorem Guarded.bfree (h : Guarded sb s) (hb : b < sb.size) (hnb : b ∉ mapSecs sb)
    (hrun : Zv6.bfree 1 b s = .ok () s') : Guarded sb s' := by
  obtain ⟨-, hg, hhome⟩ := h.bfree_ok hb hrun
  have h1 : (1 : Nat) ∈ mapSecs sb := Finset.mem_insert_self _ _
  refine ⟨h.int, ?_, fun c hc => (hhome c).mpr (h.home c hc), fun c hc hlt => ?_⟩
  · rw [hg.same 1 (h.home 1 h1) (BBLOCK_ne_one _ _).symm]
    exact h.super
  · rw [hg.used]
    exact Finset.mem_erase_of_ne_of_mem (fun e => hnb (e ▸ hc)) (h.marked c hc hlt)

theorem Guarded.other (h : Guarded sb s) (hsame : ∀ c ∈ mapSecs sb, s'.view 1 c = s.view 1 c)
    (hhome : ∀ c, s'.log.Home c ↔ s.log.Home c) : Guarded sb s' := by
  refine ⟨h.int, ?_, fun c hc => (hhome c).mpr (h.home c hc), fun c hc hlt => ?_⟩
  · rw [hsame 1 (Finset.mem_insert_self _ _)]
    exact h.super
  · rw [allocated_congr fun c hc => hsame c (Finset.mem_insert_of_mem hc)]
    exact h.marked c hc hlt

/-- Along such a sequence the allocator stays guarded, and all blocks handed out and not freed
    are in use. -/
theorem AllocCalls.held {s0 : State} {R : List Nat} (h0 : Guarded sb s0)
    (h : AllocCalls sb s0 s R) : Guarded sb s ∧ ∀ a ∈ R, a ∈ allocated sb (s.view 1) := by
  induction h with
  | start => exact ⟨h0, fun a ha => nomatch ha⟩
  | balloc _ hrun ih =>
    obtain ⟨hg, hR⟩ := ih
    obtain ⟨-, ht, -⟩ := hg.balloc_ok hrun
    refine ⟨hg.balloc hrun, fun a ha => ?_⟩
    rw [ht.used]
    rcases List.mem_cons.mp ha with rfl | ha
    · exact Finset.mem_insert_self _ _
    · exact Finset.mem_insert_of_mem (hR a ha)
  | bfree _ hb hnb hrun ih =>
    obtain ⟨hg, hR⟩ := ih
    obtain ⟨-, hgv, -⟩ := hg.bfree_ok hb hrun
    refine ⟨hg.bfree hb hnb hrun, fun a ha => ?_⟩
    rw [hgv.used]
    obtain ⟨ha, hne⟩ := List.mem_filter.mp ha
    exact Finset.mem_erase_of_ne_of_mem (by simpa using hne) (hR a ha)
  | other _ hsame hhome ih =>
    obtain ⟨hg, hR⟩ := ih
    refine ⟨hg.other hsame hhome, fun a ha => ?_⟩
    rw [allocated_congr fun c hc => hsame c (Finset.mem_insert_of_mem hc)]
    exact hR a ha

/-! ## The whole -/

end BlockSet

end Zv6
