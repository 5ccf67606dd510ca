/-
  What a write to some blocks of a file needs.

  `bns` are the blocks written to. The file may lack some of them, and the indirect block that
  keeps their addresses: `lack` counts what `balloc` has to supply, the first blocks of
  `freeList`. `held` are the sectors of the file that are logged besides, those of the blocks that
  are there and the indirect block if it gets an address. `Txn` is an open transaction with blocks
  to allocate, and `Took` says that a file got the blocks it lacked and nothing else: what is
  needed for other blocks afterwards is then known (`Gets.lack`, `Took.held`).
-/
import Zv6.Fs.Own

namespace Zv6

open Lib

/-! ## Free blocks -/

/-- The free blocks of the data area, in the order in which `balloc` takes them. -/
def freeList (sb : Superblock) (V : Nat → Block) : List Nat :=
  (List.range (lstart sb)).filter fun b => usedBit sb V b = false

/-- What `balloc` logs to hand out the blocks `l`: they are zeroed, and marked in the bitmap. -/
def fresh (sb : Superblock) (l : List Nat) : Finset Nat :=
  l.toFinset ∪ l.toFinset.image fun b => BBLOCK b sb.ninodes

section Free

variable {sb : Superblock} {V V' : Nat → Block} {b : Nat} {l l' : List Nat}

theorem length_freeList (sb : Superblock) (V : Nat → Block) :
    (freeList sb V).length = (freeBlocks sb V).card := rfl

theorem mem_freeList : b ∈ freeList sb V ↔ b < lstart sb ∧ usedBit sb V b = false := by
  simp [freeList]

theorem mem_freeBlocks : b ∈ freeBlocks sb V ↔ b < lstart sb ∧ usedBit sb V b = false := by
  simp [freeBlocks]

theorem freeList_congr (h : ∀ b, b < lstart sb → usedBit sb V' b = usedBit sb V b) :
    freeList sb V' = freeList sb V :=
  List.filter_congr fun b hb => by rw [h b (List.mem_range.mp hb)]

/-- A sector outside the bitmap changes. -/
theorem freeList_same {x : Nat} (harea : dstart sb ≤ lstart sb) (hV : Same sb x V V')
    (hx : x ∉ bitmapSecs sb) : freeList sb V' = freeList sb V :=
  freeList_congr fun _ hb => usedBit_congr harea hV hx (Nat.lt_of_lt_of_le hb (lstart_le sb))

/-- The data area holds no part of the bitmap. -/
theorem not_bitmap {x : Nat} (hx : dstart sb ≤ x) : x ∉ bitmapSecs sb := fun hm => by
  have := (bitmapSecs_lt hm).1
  omega

/-- The inode sectors hold no part of the bitmap. -/
theorem IBLOCK_not_bitmap {k : Nat} (hk : k < sb.ninodes) : IBLOCK k ∉ bitmapSecs sb :=
  fun hm => by
    obtain ⟨b, _, he⟩ := Finset.mem_image.mp hm
    exact IBLOCK_ne_BBLOCK hk he

/-- The first free block, if it lies below the log, is the head of the list. -/
theorem Found.head (hf : Found sb V b) (hb : b < lstart sb) : ∃ l, freeList sb V = b :: l := by
  have h : (freeList sb V).head? = some b := by
    unfold freeList
    rw [List.head?_filter, List.find?_range_eq_some]
    refine ⟨by simpa using hf.2.1, List.mem_range.mpr hb, fun a ha => ?_⟩
    simp [hf.2.2 a ha]
  exact List.head?_eq_some_iff.mp h

theorem Alloced.list_tail {s s' : State} (h : Alloced sb b s s')
    (hl : freeList sb (s.view 1) = b :: l) : freeList sb (s'.view 1) = l := by
  have hnd : (b :: l).Nodup := hl ▸ List.nodup_range.filter _
  have hle := lstart_le sb
  have hf : freeList sb (s'.view 1) =
      (freeList sb (s.view 1)).filter fun a => decide (a ≠ b) := by
    unfold freeList
    rw [List.filter_filter]
    refine List.filter_congr fun a ha => ?_
    rw [h.bits a (by have := List.mem_range.mp ha; omega)]
    by_cases hab : a = b <;> simp [hab]
  rw [hf, hl, List.filter_cons_of_neg (by simp), List.filter_eq_self]
  intro a ha
  exact decide_eq_true fun e => (List.nodup_cons.mp hnd).1 (e ▸ ha)

theorem mem_fresh {x : Nat} :
    x ∈ fresh sb l ↔ x ∈ l ∨ ∃ b ∈ l, BBLOCK b sb.ninodes = x := by
  simp [fresh]

theorem fresh_append : fresh sb (l ++ l') = fresh sb l ∪ fresh sb l' := by
  ext x
  simp only [Finset.mem_union, mem_fresh, List.mem_append]
  constructor
  · rintro ((h | h) | ⟨b, h | h, e⟩)
    · exact Or.inl (Or.inl h)
    · exact Or.inr (Or.inl h)
    · exact Or.inl (Or.inr ⟨b, h, e⟩)
    · exact Or.inr (Or.inr ⟨b, h, e⟩)
  · rintro ((h | ⟨b, h, e⟩) | (h | ⟨b, h, e⟩))
    · exact Or.inl (Or.inl h)
    · exact Or.inr ⟨b, Or.inl h, e⟩
    · exact Or.inl (Or.inr h)
    · exact Or.inr ⟨b, Or.inr h, e⟩

end Free

/-! ## Transactions -/

/-- An open transaction that stays within the sectors `B`, with `f` blocks to allocate. -/
structure Txn (E : Stop Chan → State → Prop) (sb : Superblock) (B : Finset Nat) (f : Nat)
    (s : State) : Prop where
  busy : s.log.busy = true
  fits : Fits E sb B s
  free : f ≤ (freeList sb (s.view 1)).length
  fresh : fresh sb ((freeList sb (s.view 1)).take f) ⊆ B

/-- `k` blocks were allocated. -/
structure Spent (sb : Superblock) (k : Nat) (s s' : State) : Prop where
  free : freeList sb (s'.view 1) = (freeList sb (s.view 1)).drop k
  logged : secs s ∪ fresh sb ((freeList sb (s.view 1)).take k) ⊆ secs s'

section Txn

variable {E : Stop Chan → State → Prop} {sb : Superblock} {B : Finset Nat} {f k k' : Nat}
  {s s' s'' : State}

theorem Txn.rest (h : Txn E sb B (k + f) s) (hs : Spent sb k s s') (hb : s'.log.busy = true)
    (hf : Fits E sb B s') : Txn E sb B f s' := by
  have hfree := h.free
  have hfresh := h.fresh
  rw [List.take_add, fresh_append] at hfresh
  refine ⟨hb, hf, ?_, ?_⟩
  · rw [hs.free, List.length_drop]
    omega
  · rw [hs.free]
    exact (Finset.union_subset_iff.mp hfresh).2

theorem Txn.mono (h : Txn E sb B f s) (hk : k ≤ f) : Txn E sb B k s := by
  have hfresh := h.fresh
  rw [← Nat.add_sub_cancel' hk, List.take_add, fresh_append] at hfresh
  exact ⟨h.busy, h.fits, hk.trans h.free, (Finset.union_subset_iff.mp hfresh).1⟩

theorem Txn.setInode (h : Txn E sb B f s) (j : Fin 100) (i : Inode) :
    Txn E sb B f (s.setInode j i) := ⟨h.busy, h.fits, h.free, h.fresh⟩

theorem Txn.logs {sec : Nat} {x : Block} (h : Txn E sb B f s) (harea : dstart sb ≤ lstart sb)
    (hl : Logs sb sec x s s') (hsec : sec ∈ B) (hbm : sec ∉ bitmapSecs sb) :
    Txn E sb B f s' := by
  have hfree := freeList_same harea hl.same hbm
  exact ⟨hl.busy, h.fits.logs hl hsec, by rw [hfree]; exact h.free, by rw [hfree]; exact h.fresh⟩

theorem Spent.trans (h : Spent sb k s s') (h' : Spent sb k' s' s'') :
    Spent sb (k + k') s s'' := by
  have hl' := h'.logged
  rw [h.free] at hl'
  refine ⟨by rw [h'.free, h.free, List.drop_drop], ?_⟩
  rw [List.take_add, fresh_append, ← Finset.union_assoc]
  exact (Finset.union_subset_union_left h.logged).trans hl'

/-- Nothing is allocated. -/
theorem Spent.none (hf : freeList sb (s'.view 1) = freeList sb (s.view 1))
    (hs : secs s ⊆ secs s') : Spent sb 0 s s' := by
  refine ⟨hf, ?_⟩
  rw [List.take_zero]
  exact Finset.union_subset hs (Finset.empty_subset _)

theorem Logs.spent {sec : Nat} {x : Block} (hl : Logs sb sec x s s')
    (harea : dstart sb ≤ lstart sb) (hbm : sec ∉ bitmapSecs sb) : Spent sb 0 s s' :=
  Spent.none (freeList_same harea hl.same hbm) (hl.secs ▸ Finset.subset_insert _ _)

end Txn

/-! ## The blocks of a file -/

/-- One of the blocks `bns` is missing and belongs into the indirect block. -/
def Spills (V : Nat → Block) (d : Dinode) (bns : Finset Nat) : Prop :=
  ∃ bn ∈ bns, 10 ≤ bn ∧ blockAddr V d bn = 0

instance (V : Nat → Block) (d : Dinode) (bns : Finset Nat) : Decidable (Spills V d bns) :=
  inferInstanceAs (Decidable (∃ bn ∈ bns, 10 ≤ bn ∧ blockAddr V d bn = 0))

/-- How many blocks a write to the blocks `bns` of a file allocates: those that are missing, and
    the indirect block if that is missing and needed. -/
def lack (V : Nat → Block) (d : Dinode) (bns : Finset Nat) : Nat :=
  (bns.filter fun bn => blockAddr V d bn = 0).card +
    if d.addrs 10 = 0 ∧ Spills V d bns then 1 else 0

/-- The sectors of the file that such a write logs. -/
def held (V : Nat → Block) (d : Dinode) (bns : Finset Nat) : Finset Nat :=
  ((bns.filter fun bn => blockAddr V d bn ≠ 0).image fun bn => (blockAddr V d bn).toNat) ∪
    if d.addrs 10 ≠ 0 ∧ Spills V d bns then {(d.addrs 10).toNat} else ∅

/-- As many blocks of the data area are free as the file lacks, and `f` more. -/
def Stock (sb : Superblock) (f : Nat) (V : Nat → Block) (d : Dinode) (bns : Finset Nat) : Prop :=
  f + lack V d bns ≤ (freeBlocks sb V).card

/-- A file got those of the blocks `bns` that were missing, and no others. -/
structure Gets (bns : Finset Nat) (V : Nat → Block) (d : Dinode) (V' : Nat → Block)
    (d' : Dinode) : Prop where
  kept : ∀ bn, blockAddr V d bn ≠ 0 → blockAddr V' d' bn = blockAddr V d bn
  there : ∀ bn ∈ bns, blockAddr V' d' bn ≠ 0
  other : ∀ bn, bn ∉ bns → blockAddr V' d' bn = blockAddr V d bn
  ind : d.addrs 10 ≠ 0 ∨ ¬ Spills V d bns → d'.addrs 10 = d.addrs 10

/-- It got them from the head of the list of free blocks. -/
structure Took (sb : Superblock) (bns : Finset Nat) (V : Nat → Block) (d : Dinode)
    (V' : Nat → Block) (d' : Dinode) : Prop extends Gets bns V d V' d' where
  free : freeList sb V' = (freeList sb V).drop (lack V d bns)
  data : ∀ bn, blockAddr V' d' bn ≠ blockAddr V d bn →
    (blockAddr V' d' bn).toNat ∈ (freeList sb V).take (lack V d bns)
  table : d'.addrs 10 ≠ d.addrs 10 →
    (d'.addrs 10).toNat ∈ (freeList sb V).take (lack V d bns)

section Need

variable {sb : Superblock} {V V' V'' : Nat → Block} {d d' d'' : Dinode} {bns bns' : Finset Nat}

/-- Without an indirect block there are no blocks behind the direct ones. -/
theorem blockAddr_no_ind {bn : Nat} (hbn : 10 ≤ bn) (h0 : d.addrs 10 = 0) :
    blockAddr V d bn = 0 := by
  unfold blockAddr
  rw [dif_neg (by omega), if_pos h0, ite_self]

theorem Spills.mono (h : Spills V d bns) (hs : bns ⊆ bns') : Spills V d bns' :=
  h.imp fun _ hb => ⟨hs hb.1, hb.2⟩

theorem lack_le (V : Nat → Block) (d : Dinode) (bns : Finset Nat) :
    lack V d bns ≤ bns.card + 1 := by
  unfold lack
  have := Finset.card_filter_le bns fun bn => blockAddr V d bn = 0
  split <;> omega

theorem lack_mono (h : bns ⊆ bns') : lack V d bns ≤ lack V d bns' := by
  have := Finset.card_le_card (Finset.filter_subset_filter (fun bn => blockAddr V d bn = 0) h)
  unfold lack
  by_cases hs : d.addrs 10 = 0 ∧ Spills V d bns
  · rw [if_pos hs, if_pos ⟨hs.1, hs.2.mono h⟩]
    omega
  · rw [if_neg hs]
    omega

theorem spills_congr (ha : ∀ bn, blockAddr V' d' bn = blockAddr V d bn) :
    Spills V' d' bns ↔ Spills V d bns := by
  unfold Spills
  simp only [ha]

theorem lack_congr (ha : ∀ bn, blockAddr V' d' bn = blockAddr V d bn)
    (hi : d'.addrs 10 = d.addrs 10) : lack V' d' bns = lack V d bns := by
  unfold lack
  simp only [ha, hi, spills_congr ha]

theorem held_congr (ha : ∀ bn, blockAddr V' d' bn = blockAddr V d bn)
    (hi : d'.addrs 10 = d.addrs 10) : held V' d' bns = held V d bns := by
  unfold held
  simp only [ha, hi, spills_congr ha]

theorem mem_held {x : Nat} : x ∈ held V d bns ↔
    (∃ bn ∈ bns, blockAddr V d bn ≠ 0 ∧ (blockAddr V d bn).toNat = x) ∨
      (d.addrs 10 ≠ 0 ∧ Spills V d bns) ∧ (d.addrs 10).toNat = x := by
  unfold held
  rw [Finset.mem_union, Finset.mem_image]
  refine or_congr ?_ ?_
  · simp only [Finset.mem_filter, and_assoc]
  · split
    · next h => simp [h, eq_comm]
    · next h => simp [h]

theorem held_mono (h : bns ⊆ bns') : held V d bns ⊆ held V d bns' := by
  intro x hx
  refine mem_held.mpr ((mem_held.mp hx).imp ?_ ?_)
  · exact fun ⟨bn, hbn, hb⟩ => ⟨bn, h hbn, hb⟩
  · exact fun ⟨⟨h0, hs⟩, hb⟩ => ⟨⟨h0, hs.mono h⟩, hb⟩

theorem Gets.spills (h : Gets bns V d V' d') {S : Finset Nat} (hs : Spills V' d' S) :
    Spills V d S := by
  obtain ⟨bn, hbn, h10, h0⟩ := hs
  exact ⟨bn, hbn, h10, by_contra fun hne => hne ((h.kept bn hne).symm.trans h0)⟩

/-- What is missing afterwards was missing before and is none of `bns`. -/
theorem Gets.missing (h : Gets bns V d V' d') (bn : Nat) :
    blockAddr V' d' bn = 0 ↔ blockAddr V d bn = 0 ∧ bn ∉ bns := by
  constructor
  · intro h0
    have hbn : bn ∉ bns := fun hm => h.there bn hm h0
    exact ⟨(h.other bn hbn).symm.trans h0, hbn⟩
  · rintro ⟨h0, hbn⟩
    exact (h.other bn hbn).trans h0

theorem Gets.ind_zero (h : Gets bns V d V' d') :
    d'.addrs 10 = 0 ↔ d.addrs 10 = 0 ∧ ¬ Spills V d bns := by
  constructor
  · intro h0
    have hs : ¬ Spills V d bns := fun ⟨bn, hbn, h10, _⟩ =>
      h.there bn hbn (blockAddr_no_ind h10 h0)
    exact ⟨(h.ind (Or.inr hs)).symm.trans h0, hs⟩
  · rintro ⟨h0, hs⟩
    exact (h.ind (Or.inr hs)).trans h0

/-- What a file lacks for `bns'` after it got `bns`. -/
theorem Gets.lack (h : Gets bns V d V' d') (bns' : Finset Nat) :
    Zv6.lack V d bns + Zv6.lack V' d' bns' = Zv6.lack V d (bns ∪ bns') := by
  have hdata : (bns.filter fun bn => blockAddr V d bn = 0).card +
      (bns'.filter fun bn => blockAddr V' d' bn = 0).card =
      ((bns ∪ bns').filter fun bn => blockAddr V d bn = 0).card := by
    rw [← Finset.card_union_of_disjoint]
    · congr 1
      ext bn
      simp only [Finset.mem_filter, Finset.mem_union, h.missing]
      tauto
    · rw [Finset.disjoint_left]
      intro bn h1 h2
      exact ((h.missing bn).mp (Finset.mem_filter.mp h2).2).2 (Finset.mem_filter.mp h1).1
  -- the indirect block is allocated for `bns`, else for `bns'`, or not at all
  have hind : ((if d.addrs 10 = 0 ∧ Spills V d bns then 1 else 0) +
      if d'.addrs 10 = 0 ∧ Spills V' d' bns' then 1 else 0) =
      if d.addrs 10 = 0 ∧ Spills V d (bns ∪ bns') then 1 else 0 := by
    by_cases h0 : d.addrs 10 = 0
    · by_cases hs : Spills V d bns
      · rw [if_pos ⟨h0, hs⟩, if_neg fun e => (h.ind_zero.mp e.1).2 hs,
          if_pos ⟨h0, hs.mono Finset.subset_union_left⟩]
      · have h0' := h.ind_zero.mpr ⟨h0, hs⟩
        have hiff : Spills V' d' bns' ↔ Spills V d (bns ∪ bns') := by
          refine ⟨fun hs' => (h.spills hs').mono Finset.subset_union_right, ?_⟩
          rintro ⟨bn, hbn, h10, hz⟩
          rcases Finset.mem_union.mp hbn with hm | hm
          · exact absurd ⟨bn, hm, h10, hz⟩ hs
          · exact ⟨bn, hm, h10, blockAddr_no_ind h10 h0'⟩
        rw [if_neg fun e => hs e.2, Nat.zero_add]
        simp only [h0, h0', hiff]
    · have h0' : d'.addrs 10 ≠ 0 := fun e => h0 (h.ind_zero.mp e).1
      simp [h0, h0']
  unfold Zv6.lack
  omega

theorem Gets.trans (h : Gets bns V d V' d') (h' : Gets bns' V' d' V'' d'') :
    Gets (bns ∪ bns') V d V'' d'' := by
  refine ⟨fun bn h0 => ?_, fun bn hbn => ?_, fun bn hbn => ?_, fun hi => ?_⟩
  · have h1 := h.kept bn h0
    rw [h'.kept bn (by rw [h1]; exact h0), h1]
  · rcases Finset.mem_union.mp hbn with hm | hm
    · have h1 := h.there bn hm
      rw [h'.kept bn h1]
      exact h1
    · exact h'.there bn hm
  · rw [Finset.mem_union, not_or] at hbn
    rw [h'.other bn hbn.2, h.other bn hbn.1]
  · have h1 := h.ind (hi.imp_right fun hs e => hs (e.mono Finset.subset_union_left))
    rw [h'.ind (hi.imp (fun h0 => by rw [h1]; exact h0)
      fun hs e => hs ((h.spills e).mono Finset.subset_union_right)), h1]

theorem Took.trans (h : Took sb bns V d V' d') (h' : Took sb bns' V' d' V'' d'') :
    Took sb (bns ∪ bns') V d V'' d'' := by
  have htake := h.toGets.lack bns' ▸
    List.take_add (l := freeList sb V) (i := lack V d bns) (j := lack V' d' bns')
  refine { toGets := h.toGets.trans h'.toGets, free := ?_, data := fun bn hne => ?_,
           table := fun hne => ?_ }
  · rw [h'.free, h.free, List.drop_drop, h.toGets.lack]
  · rw [htake, List.mem_append]
    by_cases h1 : blockAddr V' d' bn = blockAddr V d bn
    · right
      have := h'.data bn (by rw [h1]; exact hne)
      rwa [h.free] at this
    · left
      have h0 : blockAddr V' d' bn ≠ 0 := fun e => h1 (e.trans ((h.missing bn).mp e).1.symm)
      rw [h'.kept bn h0]
      exact h.data bn h1
  · rw [htake, List.mem_append]
    by_cases h1 : d'.addrs 10 = d.addrs 10
    · right
      have := h'.table (by rw [h1]; exact hne)
      rwa [h.free] at this
    · left
      have h0 : d'.addrs 10 ≠ 0 := fun e => h1 (e.trans (h.ind_zero.mp e).1.symm)
      rw [h'.ind (Or.inl h0)]
      exact h.table h1

/-- The sectors a write to other blocks logs afterwards. -/
theorem Took.held (h : Took sb bns V d V' d') (S : Finset Nat) :
    Zv6.held V' d' S ⊆ Zv6.held V d S ∪ fresh sb ((freeList sb V).take (lack V d bns)) := by
  intro x hx
  rw [Finset.mem_union]
  rcases mem_held.mp hx with ⟨bn, hbn, h0, rfl⟩ | ⟨⟨h0, hs⟩, rfl⟩
  · by_cases h1 : blockAddr V' d' bn = blockAddr V d bn
    · rw [h1] at h0 ⊢
      exact Or.inl (mem_held.mpr (Or.inl ⟨bn, hbn, h0, rfl⟩))
    · exact Or.inr (mem_fresh.mpr (Or.inl (h.data bn h1)))
  · by_cases h1 : d'.addrs 10 = d.addrs 10
    · rw [h1] at h0 ⊢
      exact Or.inl (mem_held.mpr (Or.inr ⟨⟨h0, h.spills hs⟩, rfl⟩))
    · exact Or.inr (mem_fresh.mpr (Or.inl (h.table h1)))

/-- The sectors of a write in two parts. -/
theorem Gets.held_union (h : Gets bns V d V' d') :
    held V d (bns ∪ bns') ⊆ held V d bns ∪ held V' d' bns' := by
  intro x hx
  rw [Finset.mem_union]
  rcases mem_held.mp hx with ⟨bn, hbn, h0, rfl⟩ | ⟨⟨h0, bn, hbn, h10, hz⟩, rfl⟩
  · rcases Finset.mem_union.mp hbn with hm | hm
    · exact Or.inl (mem_held.mpr (Or.inl ⟨bn, hm, h0, rfl⟩))
    · have h1 := h.kept bn h0
      exact Or.inr (mem_held.mpr (Or.inl ⟨bn, hm, by rw [h1]; exact h0, by rw [h1]⟩))
  · by_cases hm : bn ∈ bns
    · exact Or.inl (mem_held.mpr (Or.inr ⟨⟨h0, bn, hm, h10, hz⟩, rfl⟩))
    · have h1 := h.ind (Or.inl h0)
      refine Or.inr (mem_held.mpr (Or.inr ⟨⟨by rw [h1]; exact h0, bn, ?_, h10, ?_⟩, by rw [h1]⟩))
      · exact (Finset.mem_union.mp hbn).resolve_left hm
      · rw [h.other bn hm, hz]

theorem lack_eq_zero (hb : ∀ bn ∈ bns, blockAddr V d bn ≠ 0) : lack V d bns = 0 := by
  have hs : ¬ Spills V d bns := fun ⟨bn, hbn, _, hz⟩ => hb bn hbn hz
  unfold lack
  rw [if_neg fun e => hs e.2, Finset.filter_false_of_mem hb, Finset.card_empty]

theorem lack_empty (V : Nat → Block) (d : Dinode) : lack V d ∅ = 0 := lack_eq_zero (by simp)

/-- The blocks are where they were. -/
theorem Gets.same (ha : ∀ bn, blockAddr V' d' bn = blockAddr V d bn)
    (hi : d'.addrs 10 = d.addrs 10) (hb : ∀ bn ∈ bns, blockAddr V d bn ≠ 0) :
    Gets bns V d V' d' :=
  ⟨fun bn _ => ha bn, fun bn hbn => by rw [ha]; exact hb bn hbn, fun bn _ => ha bn, fun _ => hi⟩

/-- The addresses of the file are the same before, or stay the same. -/
theorem Gets.before (h : Gets bns V' d' V'' d'')
    (ha : ∀ bn, blockAddr V' d' bn = blockAddr V d bn) (hi : d'.addrs 10 = d.addrs 10) :
    Gets bns V d V'' d'' := by
  have hs : Gets ∅ V d V' d' := Gets.same ha hi (by simp)
  have ht := hs.trans h
  rwa [Finset.empty_union] at ht

theorem Gets.after (h : Gets bns V d V' d')
    (ha : ∀ bn, blockAddr V'' d'' bn = blockAddr V' d' bn) (hi : d''.addrs 10 = d'.addrs 10) :
    Gets bns V d V'' d'' := by
  have hs : Gets ∅ V' d' V'' d'' := Gets.same ha hi (by simp)
  have ht := h.trans hs
  rwa [Finset.union_empty] at ht

theorem Took.same (hf : freeList sb V' = freeList sb V)
    (ha : ∀ bn, blockAddr V' d' bn = blockAddr V d bn) (hi : d'.addrs 10 = d.addrs 10)
    (hb : ∀ bn ∈ bns, blockAddr V d bn ≠ 0) : Took sb bns V d V' d' :=
  { toGets := Gets.same ha hi hb, free := by rw [lack_eq_zero hb, hf, List.drop_zero],
    data := fun bn hne => absurd (ha bn) hne, table := fun hne => absurd hi hne }

end Need

end Zv6
