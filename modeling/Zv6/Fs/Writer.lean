/-
  Writing bytes into a file (the copy loop of `writei_ext`).

  `writeiLoop_wp`: the bytes from `off` on become `src`, all other bytes of blocks that were
  there stay, and the file took the blocks it lacked for the write (`span`). Sizes and checksums
  are not touched here.
-/
import Mathlib.Data.List.GetD
import Zv6.Fs.Bmap

namespace Zv6

open Lib

/-- The blocks that `len` bytes from `off` on lie in. -/
def span (off len : Nat) : Finset Nat := (Finset.range len).image fun i => (off + i) / 512

theorem mem_span {off len o : Nat} (h1 : off ≤ o) (h2 : o < off + len) :
    o / 512 ∈ span off len := by
  refine Finset.mem_image.mpr ⟨o - off, Finset.mem_range.mpr (by omega), ?_⟩
  rw [Nat.add_sub_cancel' h1]

theorem span_subset {off len off' len' : Nat} (h1 : off' ≤ off) (h2 : off + len ≤ off' + len') :
    span off len ⊆ span off' len' := by
  intro bn hbn
  obtain ⟨i, hi, rfl⟩ := Finset.mem_image.mp hbn
  exact mem_span (by omega) (by have := Finset.mem_range.mp hi; omega)

/-- The bytes in two parts. -/
theorem span_add (off a b : Nat) : span off (a + b) = span off a ∪ span (off + a) b := by
  ext bn
  simp only [span, Finset.mem_union, Finset.mem_image, Finset.mem_range]
  constructor
  · rintro ⟨i, hi, rfl⟩
    by_cases h : i < a
    · exact Or.inl ⟨i, h, rfl⟩
    · exact Or.inr ⟨i - a, by omega, by congr 1; omega⟩
  · rintro (⟨i, hi, rfl⟩ | ⟨i, hi, rfl⟩)
    · exact ⟨i, by omega, rfl⟩
    · exact ⟨a + i, by omega, by congr 1; omega⟩

/-- A part of one block. -/
theorem span_part {off len : Nat} (h0 : 0 < len) (h : len ≤ 512 - off % 512) :
    span off len = {off / 512} := by
  ext bn
  simp only [span, Finset.mem_singleton, Finset.mem_image, Finset.mem_range]
  constructor
  · rintro ⟨i, hi, rfl⟩
    omega
  · rintro rfl
    exact ⟨0, h0, rfl⟩

/-- The sectors that a write to the blocks `bns` of a file logs. -/
def logs (sb : Superblock) (V : Nat → Block) (d : Dinode) (bns : Finset Nat) : Finset Nat :=
  held V d bns ∪ fresh sb ((freeList sb V).take (lack V d bns))

/-- What the copy loop did. -/
structure LoopPost (sb : Superblock) (L : Set Nat) (D : Nat → Dinode) (n : Nat) (ip : Fin 100)
    (off : Nat) (src : List UInt8) (s : State) (a : Fin 11 → UInt32) (s' : State) : Prop where
  wrote : Wrote sb L D n ip a s s'
  took : Took sb (span off src.length) (s.view 1) (D n) (s'.view 1) (withAddrs D n a n)
  logged : secs s ∪ logs sb (s.view 1) (D n) (span off src.length) ⊆ secs s'
  inside : ∀ o, off ≤ o → o < off + src.length →
    byteAt (s'.view 1) (withAddrs D n a n) o = src.getD (o - off) 0
  outside : ∀ o, o < off ∨ off + src.length ≤ o → blockAddr (s.view 1) (D n) (o / 512) ≠ 0 →
    byteAt (s'.view 1) (withAddrs D n a n) o = byteAt (s.view 1) (D n) o

section Loop

variable {E : Stop Chan → State → Prop} {sb : Superblock} {L : Set Nat} {D : Nat → Dinode}
  {B : Finset Nat} {n : Nat} {ip : Fin 100} {s s' : State} {f bn : Nat}

/-- Logging a data block of the inode. -/
theorem Wrote.write_block {a : Fin 11 → UInt32} {b : Block} (h : Wrote sb L D n ip a s s')
    (hn : Live sb D n) {s2 : State}
    (h0 : blockAddr (s'.view 1) (withAddrs D n a n) bn ≠ 0)
    (hl : Logs sb (blockAddr (s'.view 1) (withAddrs D n a n) bn).toNat b s' s2) :
    Wrote sb L D n ip a s s2 ∧
      (∀ bn', blockAddr (s2.view 1) (withAddrs D n a n) bn' =
        blockAddr (s'.view 1) (withAddrs D n a n) bn') ∧
      ∀ bn', bn' ≠ bn → blockAddr (s'.view 1) (withAddrs D n a n) bn' ≠ 0 →
        s2.view 1 (blockAddr (s'.view 1) (withAddrs D n a n) bn').toNat =
          s'.view 1 (blockAddr (s'.view 1) (withAddrs D n a n) bn').toNat := by
  have hn' := (live_withAddrs sb D n a n).mpr hn
  obtain ⟨hown, htouch, haddr, hdata⟩ := h.own.write_block hn' h0 hl.same
  have hp := adr_data (V := s'.view 1) hn' bn
  have hr := h.own.range (p := .data n bn) (by
    rw [hp]
    exact fun e => h0 (UInt32.toNat_inj.mp e))
  rw [hp] at hr
  refine ⟨⟨h.only.trans hl.only, hl.jrn, hl.busy, hown, h.touch.trans htouch, fun k hk => ?_⟩,
    haddr, hdata⟩
  have := IBLOCK_lt hk
  rw [hl.same _ (by omega) (by omega), h.inodes k hk]

/-- One round of the loop: the part `part` of one block. -/
theorem writeBlock_wp {off : Nat} {part : List UInt8} (hj : Jrn sb s)
    (hown : Own sb L (s.view 1) D) (hh : Holding sb D n ip s)
    (ht : Txn E sb B (f + lack (s.view 1) (D n) {off / 512}) s)
    (hB : held (s.view 1) (D n) {off / 512} ⊆ B) (hbn : off / 512 < 138)
    (hpos : 0 < part.length) (hfit : part.length ≤ 512 - off % 512) {α : Type}
    {k : K α} {Q : α → State → Prop}
    (hk : ∀ a s', LoopPost sb L D n ip off part s a s' → Txn E sb B f s' → wp k Q E s') :
    wp (do
      let sec ← bmap ip (off / 512)
      let bp ← bread 1 sec
      log_write 1 sec (bp.write (off % 512) part)
      k) Q E s := by
  refine (bmap_wp hj hown hh ht hB hbn).bind ?_
  rintro sec s1 ⟨a, h1, ht1⟩
  have h0 := h1.took.there _ (Finset.mem_singleton_self (off / 512))
  obtain rfl := h1.result
  refine wp_ok_bind (bread_apply _ _ s1) ?_
  have hn' := (live_withAddrs sb D n a n).mpr hh.live
  have hp := adr_data (V := s1.view 1) hn' (off / 512)
  have hrange := h1.wrote.own.range (p := .data n (off / 512)) (by
    rw [hp]
    exact fun e => h0 (UInt32.toNat_inj.mp e))
  rw [hp] at hrange
  have hmem : (blockAddr (s1.view 1) (withAddrs D n a n) (off / 512)).toNat ∈
      held (s1.view 1) (withAddrs D n a n) {off / 512} :=
    mem_held.mpr (Or.inl ⟨_, Finset.mem_singleton_self _, h0, rfl⟩)
  have hsec : (blockAddr (s1.view 1) (withAddrs D n a n) (off / 512)).toNat ∈ B := by
    exact Finset.union_subset hB (ht.mono (Nat.le_add_left _ _)).fresh (h1.took.held _ hmem)
  refine (log_write_wp h1.wrote.jrn hrange.2 (.of_busy h1.wrote.busy) ht1.fits).bind
    fun _ s2 h2 => ?_
  obtain ⟨hw, haddr, hdata⟩ := h1.wrote.write_block hh.live h0 h2
  have hbm := not_bitmap hrange.1
  have hbyte : ∀ o, o / 512 = off / 512 → byteAt (s2.view 1) (withAddrs D n a n) o =
      ((s1.view 1 (blockAddr (s1.view 1) (withAddrs D n a n) (off / 512)).toNat).write (off % 512)
        part).byte (o % 512) := by
    intro o ho
    unfold byteAt
    rw [ho, haddr, h2.self]
  have htook : Took sb (span off part.length) (s.view 1) (D n) (s2.view 1) (withAddrs D n a n) := by
    have hsame : Took sb ∅ (s1.view 1) (withAddrs D n a n) (s2.view 1) (withAddrs D n a n) :=
      Took.same (freeList_same hown.area h2.same hbm) haddr rfl (by simp)
    have := h1.took.trans hsame
    rwa [Finset.union_empty, ← span_part hpos hfit] at this
  refine hk a s2 ⟨hw, htook, ?_, ?_, ?_⟩ (ht1.logs hown.area h2 hsec hbm)
  · obtain ⟨hs, hf⟩ := Finset.union_subset_iff.mp h1.logged
    have h12 : secs s1 ⊆ secs s2 := h2.secs ▸ Finset.subset_insert _ _
    rw [span_part hpos hfit]
    refine Finset.union_subset (hs.trans h12) (Finset.union_subset (fun x hx => ?_) (hf.trans h12))
    -- the block was there and is logged now, or an address was put into the indirect block
    rcases mem_held.mp hx with ⟨bn, hbn, hne, rfl⟩ | ⟨⟨hne, hspill⟩, rfl⟩
    · rw [h2.secs, Finset.mem_singleton.mp hbn,
        ← h1.took.kept _ (Finset.mem_singleton.mp hbn ▸ hne)]
      exact Finset.mem_insert_self _ _
    · exact h12 (h1.table hne hspill)
  · intro o h1o h2o
    rw [hbyte o (by omega), Block.byte_write _ _ _ _ (by omega), if_pos (by omega)]
    congr 1
    omega
  · intro o hout ho0
    have hk1 := h1.took.kept _ ho0
    by_cases ho : o / 512 = off / 512
    · rw [hbyte o ho, Block.byte_write _ _ _ _ (by omega), if_neg (by omega)]
      rw [ho] at ho0 hk1
      unfold byteAt
      rw [ho, hk1, h1.data _ ho0]
    · unfold byteAt
      rw [haddr, hdata _ ho (by rw [hk1]; exact ho0), hk1, h1.data _ ho0]

/-- The rest of the loop after its first round. -/
theorem LoopPost.append {s1 s2 : State} {off : Nat} {part rest : List UInt8}
    {a a' : Fin 11 → UInt32} (h1 : LoopPost sb L D n ip off part s a s1)
    (h2 : LoopPost sb L (withAddrs D n a) n ip (off + part.length) rest s1 a' s2) :
    LoopPost sb L D n ip off (part ++ rest) s a' s2 := by
  have hdd := withAddrs_withAddrs D n a a'
  have htook := h2.took
  have hlogged := h2.logged
  rw [hdd] at htook
  refine ⟨h1.wrote.trans h2.wrote, ?_, ?_, ?_, ?_⟩
  · rw [List.length_append, span_add]
    exact h1.took.trans htook
  · obtain ⟨hs2, hl2⟩ := Finset.union_subset_iff.mp hlogged
    obtain ⟨hs1, hl1⟩ := Finset.union_subset_iff.mp h1.logged
    unfold logs at hl1 hl2 ⊢
    obtain ⟨hh1, hf1⟩ := Finset.union_subset_iff.mp hl1
    obtain ⟨hh2, hf2⟩ := Finset.union_subset_iff.mp hl2
    rw [List.length_append, span_add, ← h1.took.toGets.lack, List.take_add, fresh_append,
      ← h1.took.free]
    exact Finset.union_subset (hs1.trans hs2) (Finset.union_subset
      (h1.took.toGets.held_union.trans (Finset.union_subset (hh1.trans hs2) hh2))
      (Finset.union_subset (hf1.trans hs2) hf2))
  · intro o ho1 ho2
    rw [List.length_append] at ho2
    rw [← hdd]
    by_cases ho : o < off + part.length
    · rw [h2.outside o (Or.inl ho) (h1.took.there _ (mem_span ho1 ho)), h1.inside o ho1 ho,
        List.getD_append _ _ _ _ (by omega)]
    · rw [h2.inside o (by omega) (by omega), List.getD_append_right _ _ _ _ (by omega)]
      congr 1
      omega
  · intro o hout h0
    rw [List.length_append] at hout
    have h1o := h1.outside o (by omega) h0
    rw [← hdd, h2.outside o (by omega) (by rw [h1.took.kept _ h0]; exact h0), h1o]

/-- Nothing is written. -/
theorem LoopPost.nil (hj : Jrn sb s) (hown : Own sb L (s.view 1) D) (hb : s.log.busy = true)
    (hh : Holding sb D n ip s) (off : Nat) : LoopPost sb L D n ip off [] s (D n).addrs s := by
  have hnone : ∀ bn ∈ span off ([] : List UInt8).length, blockAddr (s.view 1) (D n) bn ≠ 0 :=
    fun bn hbn => absurd hbn (Finset.notMem_empty bn)
  refine ⟨Wrote.refl hj hown hb hh, ?_, ?_, ?_, ?_⟩
  · rw [withAddrs_same]
    exact Took.same rfl (fun _ => rfl) rfl hnone
  · refine Finset.union_subset (Finset.Subset.refl _) (Finset.union_subset (fun x hx => ?_) ?_)
    · rcases mem_held.mp hx with ⟨bn, hbn, -⟩ | ⟨⟨-, bn, hbn, -⟩, -⟩
      · exact absurd hbn (Finset.notMem_empty bn)
      · exact absurd hbn (Finset.notMem_empty bn)
    · rw [lack_eq_zero hnone]
      exact Finset.empty_subset _
  · intro o h1 h2
    simp at h2
    omega
  · intro o _ _
    rw [withAddrs_same]

theorem writeiLoop_wp (fuel : Nat) :
    ∀ (off : Nat) (src : List UInt8) (D : Nat → Dinode) (s : State), src.length ≤ fuel →
    Jrn sb s → Own sb L (s.view 1) D → Holding sb D n ip s → off + src.length ≤ 70656 →
    Txn E sb B (f + lack (s.view 1) (D n) (span off src.length)) s →
    held (s.view 1) (D n) (span off src.length) ⊆ B →
    wp (writeiLoop ip fuel off src)
      (fun _ s' => ∃ a, LoopPost sb L D n ip off src s a s' ∧ Txn E sb B f s') E s := by
  induction fuel with
  | zero =>
    intro off src D s hlen hj hown hh _ ht _
    obtain rfl : src = [] := List.eq_nil_of_length_eq_zero (by omega)
    exact ⟨_, LoopPost.nil hj hown ht.busy hh off, ht.mono (Nat.le_add_right _ _)⟩
  | succ fuel ih =>
    intro off src D s hlen hj hown hh hmax ht hB
    unfold writeiLoop
    refine wp_ite (fun hnil => ?_) fun hnil => ?_
    · subst hnil
      exact ⟨_, LoopPost.nil hj hown ht.busy hh off, ht.mono (Nat.le_add_right _ _)⟩
    have hpos : src.length ≠ 0 := fun e => hnil (List.eq_nil_of_length_eq_zero e)
    have htake : (src.take (min src.length (512 - off % 512))).length =
        min src.length (512 - off % 512) := by
      rw [List.length_take]
      omega
    have hdrop : (src.drop (min src.length (512 - off % 512))).length =
        src.length - min src.length (512 - off % 512) := List.length_drop
    generalize hc : min src.length (512 - off % 512) = c at htake hdrop ⊢
    have hspan : span off src.length = {off / 512} ∪ span (off + c) (src.length - c) := by
      have hpart : span off c = {off / 512} := span_part (by omega) (by omega)
      rw [← hpart, ← span_add]
      congr 1
      omega
    refine wp_ok_bind (inode_apply ip s) ?_
    rw [hh.dev]
    -- what the rest lacks after this round
    obtain ⟨r, hr⟩ := Nat.exists_eq_add_of_le
      (show lack (s.view 1) (D n) {off / 512} ≤ lack (s.view 1) (D n) (span off src.length) by
        rw [hspan]
        exact lack_mono Finset.subset_union_left)
    rw [hr, Nat.add_comm (lack _ _ _), ← Nat.add_assoc] at ht
    refine writeBlock_wp hj hown hh ht ((held_mono (by
      rw [hspan]
      exact Finset.subset_union_left)).trans hB) (by omega) (by omega) (by omega) ?_
    intro a s1 h1 ht1
    have hlack := h1.took.toGets.lack (span (off + c) (src.length - c))
    rw [htake, span_part (by omega) (by omega), ← hspan, hr, Nat.add_left_cancel_iff] at hlack
    refine (ih (off + c) _ _ s1 (by omega) h1.wrote.jrn h1.wrote.own (h1.wrote.holding hh)
      (by omega) (by rw [hdrop, hlack]; exact ht1) ?_).post ?_
    · rw [hdrop]
      refine (h1.took.held _).trans (Finset.union_subset ((held_mono ?_).trans hB) ?_)
      · rw [hspan]
        exact Finset.subset_union_right
      · rw [htake, span_part (by omega) (by omega)]
        exact (ht.mono (Nat.le_add_left _ _)).fresh
    rintro _ s2 ⟨a', h2, ht2⟩
    rw [← htake] at h2
    have := h1.append h2
    rw [htake, List.take_append_drop] at this
    exact ⟨a', this, ht2⟩

end Loop

end Zv6
