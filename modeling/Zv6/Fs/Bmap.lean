/-
  Giving a file its blocks (`bmap`).

  `bmap_wp`: in a transaction with the blocks for it, `bmap` returns block `bn` of the file,
  allocating it and the indirect block if need be. `Wrote` is what that does to the volume and to
  the inode's slot; a new block is zero, all others keep their contents, and the file took what it
  lacked for `bn` (`Took`).
-/
import Zv6.Fs.Need
import Zv6.Fs.Slots

namespace Zv6

open Lib Function

/-- The table in which inode `n` has the addresses `a`. -/
def withAddrs (D : Nat → Dinode) (n : Nat) (a : Fin 11 → UInt32) : Nat → Dinode :=
  update D n { D n with addrs := a }

@[simp] theorem withAddrs_self (D : Nat → Dinode) (n : Nat) (a : Fin 11 → UInt32) :
    withAddrs D n a n = { D n with addrs := a } := update_self ..

@[simp] theorem withAddrs_of_ne (D : Nat → Dinode) {n k : Nat} (a : Fin 11 → UInt32)
    (h : k ≠ n) : withAddrs D n a k = D k := update_of_ne h ..

@[simp] theorem withAddrs_withAddrs (D : Nat → Dinode) (n : Nat) (a a' : Fin 11 → UInt32) :
    withAddrs (withAddrs D n a) n a' = withAddrs D n a' := by
  unfold withAddrs
  rw [update_idem, update_self]

theorem withAddrs_same (D : Nat → Dinode) (n : Nat) : withAddrs D n (D n).addrs = D :=
  update_eq_self n D

theorem live_withAddrs (sb : Superblock) (D : Nat → Dinode) (n : Nat) (a : Fin 11 → UInt32)
    (k : Nat) : Live sb (withAddrs D n a) k ↔ Live sb D k := by
  unfold Live
  by_cases hk : k = n
  · subst hk
    rw [withAddrs_self]
  · rw [withAddrs_of_ne D a hk]

/-- The addresses `a` with entry `j` set to `b`. -/
def setAddr (a : Fin 11 → UInt32) (j : Fin 11) (b : UInt32) : Fin 11 → UInt32 :=
  fun i => if i = j then b else a i

/-! ## Allocating -/

section Alloc

variable {E : Stop Chan → State → Prop} {sb : Superblock} {L : Set Nat} {D : Nat → Dinode}
  {B : Finset Nat} {s s' : State} {b f : Nat}

/-- What `balloc` did with a free block in the data area. -/
structure Fresh1 (sb : Superblock) (L : Set Nat) (D : Nat → Dinode) (b : Nat) (s s' : State) :
    Prop where
  alloced : Alloced sb b s s'
  range : dstart sb ≤ b ∧ b < lstart sb
  word : b < 4294967296
  new : b ∉ L
  own : Own sb (insert b L) (s'.view 1) D
  held : KeepsHeld sb (s.view 1) D (s'.view 1)
  list : freeList sb (s.view 1) = b :: freeList sb (s'.view 1)

theorem Txn.head (ht : Txn E sb B (f + 1) s) {l : List Nat}
    (hl : freeList sb (s.view 1) = b :: l) : b ∈ B ∧ BBLOCK b sb.ninodes ∈ B := by
  have hfresh := ht.fresh
  rw [hl, List.take_succ_cons] at hfresh
  exact ⟨hfresh (mem_fresh.mpr (Or.inl List.mem_cons_self)),
    hfresh (mem_fresh.mpr (Or.inr ⟨b, List.mem_cons_self, rfl⟩))⟩

/-- What `balloc` logs. -/
theorem Alloced.spent (h : Alloced sb b s s')
    (hl : freeList sb (s.view 1) = b :: freeList sb (s'.view 1)) : Spent sb 1 s s' := by
  refine ⟨by rw [hl]; rfl, Finset.union_subset ?_ fun x hx => ?_⟩
  · rw [h.secs]
    exact (Finset.subset_insert _ _).trans (Finset.subset_insert _ _)
  · rw [hl, List.take_succ_cons, List.take_zero, mem_fresh] at hx
    rw [h.secs, Finset.mem_insert, Finset.mem_insert]
    rcases hx with hx | ⟨c, hc, rfl⟩
    · exact Or.inl (List.mem_singleton.mp hx)
    · exact Or.inr (Or.inl (by rw [List.mem_singleton.mp hc]))

theorem balloc_own (hj : Jrn sb s) (hown : Own sb L (s.view 1) D)
    (ht : Txn E sb B (f + 1) s) :
    wp (balloc 1) (fun b s' => Fresh1 sb L D b s s' ∧ Txn E sb B f s') E s := by
  have hle := lstart_le sb
  have hfree := ht.free
  obtain ⟨c, hc⟩ := List.length_pos_iff_exists_mem.mp
    (show 0 < (freeList sb (s.view 1)).length by omega)
  obtain ⟨hc, hclear⟩ := mem_freeList.mp hc
  have hlt : ∀ b, Found sb (s.view 1) b → b < lstart sb := by
    intro b hb
    by_contra hge
    rw [hb.2.2 c (by omega)] at hclear
    cases hclear
  have hhead : ∀ b, Found sb (s.view 1) b → b ∈ B ∧ BBLOCK b sb.ninodes ∈ B := by
    intro b hb
    obtain ⟨l, hl⟩ := hb.head (hlt b hb)
    exact ht.head hl
  refine (balloc_wp hj hown.super hown.area (.of_busy ht.busy) hown.reserved
    (fun b hb => (hhead b hb).2) ht.fits (fun b hb => Or.inl (hlt b hb).le) fun hall => ?_).post ?_
  · rw [hall c (by omega)] at hclear
    cases hclear
  rintro b s' ⟨hfound, hal⟩
  have ha := hal (hlt b hfound)
  have hge : dstart sb ≤ b := by
    by_contra hlt
    have := hown.reserved b (by omega)
    rw [hfound.2.1] at this
    cases this
  obtain ⟨l, hl⟩ := hfound.head (hlt b hfound)
  have hl' := ha.list_tail hl
  rw [← hl'] at hl
  obtain ⟨hown', hheld⟩ := hown.alloced hfound.2.1 ha.bits ha.same
  have hlt := hlt b hfound
  have hw := hj.word
  refine ⟨⟨ha, ⟨hge, hlt⟩, by omega, fun hL => ?_, hown', hheld, hl⟩, ?_⟩
  · have := (hown.owner.marked b hge hlt).mpr (Or.inl hL)
    rw [hfound.2.1] at this
    cases this
  · rw [Nat.add_comm] at ht
    refine ht.rest (ha.spent hl) ha.busy (ht.fits.step (fun hs => ?_) fun h1 h2 => ⟨h1, h2⟩)
    rw [ha.secs]
    exact Finset.insert_subset (hhead b hfound).1 (Finset.insert_subset (hhead b hfound).2 hs)

end Alloc

/-! ## Holding a new block -/

section Adopt

variable {sb : Superblock} {L : Set Nat} {V V' : Nat → Block} {D D' : Nat → Dinode} {n b : Nat}

theorem Own.adopt (h : Own sb (insert b L) V D) (hb : dstart sb ≤ b ∧ b < lstart sb) (hL : b ∉ L)
    {p : Pos} (hp : adr sb V D p = 0) (h1 : V' 1 = V 1)
    (hbits : ∀ a, a < lstart sb → usedBit sb V' a = usedBit sb V a)
    (hself : adr sb V' D' p = b) (hother : ∀ q, q ≠ p → adr sb V' D' q = adr sb V D q) :
    Own sb L V' D' where
  super := by rw [h1]; exact h.super
  area := h.area
  ninodes := h.ninodes
  reserved := by
    intro a ha
    have := h.area
    rw [hbits a (by omega)]
    exact h.reserved a ha
  owner := (h.owner.adopt hb hL (Own.dstart_pos sb) hp hself hother).congr (fun _ => rfl)
    fun a _ ha => hbits a ha

/-- A direct address is set. -/
theorem blockAddr_setAddr {d : Dinode} {j : Fin 11} (hj : j.val < 10) (b : UInt32) (bn : Nat) :
    blockAddr V { d with addrs := setAddr d.addrs j b } bn =
      if bn = j.val then b else blockAddr V d bn := by
  have h10 : (10 : Fin 11) ≠ j := by
    rintro rfl
    exact absurd hj (by decide)
  unfold blockAddr setAddr
  by_cases hbn : bn < 10
  · simp only [dif_pos hbn, Fin.ext_iff]
  · rw [dif_neg hbn, dif_neg hbn, if_neg (show bn ≠ j.val by omega)]
    simp only [if_neg h10]

/-- The indirect block is set to a zeroed block. -/
theorem blockAddr_setAddr_ind {d : Dinode} (hd : d.addrs 10 = 0) {b : UInt32}
    (hV : V b.toNat = Block.zero) (bn : Nat) :
    blockAddr V { d with addrs := setAddr d.addrs 10 b } bn = blockAddr V d bn := by
  unfold blockAddr setAddr
  by_cases hbn : bn < 10
  · have hne : (⟨bn, by omega⟩ : Fin 11) ≠ 10 := by
      intro e
      have := congrArg Fin.val e
      simp at this
      omega
    simp only [dif_pos hbn, if_neg hne]
  · simp only [dif_neg hbn, hd, if_true]
    by_cases hb : b = 0
    · simp [hb]
    · rw [if_neg hb, hV, Block.word_zero, ite_self]

/-- The place of address `j` of inode `n`. -/
def slotPos (n : Nat) (j : Fin 11) : Pos := if j.val < 10 then .data n j.val else .ind n

/-- A new zeroed block at an empty address of inode `n`. -/
theorem Own.adopt_slot (h : Own sb (insert b L) V D) (hn : Live sb D n)
    (hb : dstart sb ≤ b ∧ b < lstart sb) (hw : b < 4294967296) (hL : b ∉ L)
    (hV : V b = Block.zero) {j : Fin 11} (hz : (D n).addrs j = 0) :
    Own sb L V (withAddrs D n (setAddr (D n).addrs j (UInt32.ofNat b))) ∧
      Touch sb {n} V D V (withAddrs D n (setAddr (D n).addrs j (UInt32.ofNat b))) ∧
      ∀ bn, blockAddr V (withAddrs D n (setAddr (D n).addrs j (UInt32.ofNat b)) n) bn =
        if bn = j.val ∧ j.val < 10 then UInt32.ofNat b else blockAddr V (D n) bn := by
  have hbn : (UInt32.ofNat b).toNat = b := by
    rw [UInt32.toNat_ofNat']
    exact Nat.mod_eq_of_lt hw
  have hlive := live_withAddrs sb D n (setAddr (D n).addrs j (UInt32.ofNat b))
  have haddr : ∀ bn, blockAddr V (withAddrs D n (setAddr (D n).addrs j (UInt32.ofNat b)) n) bn =
      if bn = j.val ∧ j.val < 10 then UInt32.ofNat b else blockAddr V (D n) bn := by
    intro bn
    rw [withAddrs_self]
    by_cases hj : j.val < 10
    · rw [blockAddr_setAddr hj]
      simp [hj]
    · obtain rfl : j = 10 := Fin.ext (by have := j.isLt; simp; omega)
      rw [blockAddr_setAddr_ind hz (by rw [hbn]; exact hV), if_neg (by simp)]
  have hother : ∀ q : Pos, q.ino ≠ n →
      adr sb V (withAddrs D n (setAddr (D n).addrs j (UInt32.ofNat b))) q = adr sb V D q :=
    fun q hq => adr_table (withAddrs_of_ne D _ hq)
  have hn' := (hlive n).mpr hn
  have hind : (setAddr (D n).addrs j (UInt32.ofNat b) 10).toNat =
      if j.val < 10 then ((D n).addrs 10).toNat else b := by
    unfold setAddr
    by_cases hj : j.val < 10
    · rw [if_neg (fun e => by rw [← e] at hj; exact absurd hj (by decide)), if_pos hj]
    · obtain rfl : j = 10 := Fin.ext (by have := j.isLt; simp; omega)
      rw [if_pos rfl, if_neg hj, hbn]
  refine ⟨h.adopt (p := slotPos n j) hb hL ?_ rfl (fun _ _ => rfl) ?_ ?_, ?_, haddr⟩
  · unfold slotPos
    split
    · next hj =>
      rw [adr_data hn]
      unfold blockAddr
      rw [dif_pos hj]
      exact congrArg UInt32.toNat hz
    · next hj =>
      obtain rfl : j = 10 := Fin.ext (by have := j.isLt; simp; omega)
      rw [adr_ind hn, hz]
      rfl
  · unfold slotPos
    split
    · next hj => rw [adr_data hn', haddr, if_pos ⟨rfl, hj⟩, hbn]
    · next hj => rw [adr_ind hn', withAddrs_self, hind, if_neg hj]
  · intro q hq
    by_cases hk : q.ino = n
    · cases q with
      | data k bn =>
        obtain rfl : k = n := hk
        rw [adr_data hn', adr_data hn, haddr, if_neg]
        rintro ⟨rfl, hj⟩
        exact hq (by rw [slotPos, if_pos hj])
      | ind k =>
        obtain rfl : k = n := hk
        rw [adr_ind hn', adr_ind hn, withAddrs_self, hind]
        split
        · rfl
        · next hj => exact absurd (by rw [slotPos, if_neg hj]) hq
    · exact hother q hk
  · exact ⟨fun k hk => withAddrs_of_ne D _ hk, fun p hp => hother p hp, fun _ _ _ => rfl⟩

/-- A new block in an empty entry of the indirect block of inode `n`. -/
theorem Own.adopt_entry (h : Own sb (insert b L) V D) (hn : Live sb D n)
    (hb : dstart sb ≤ b ∧ b < lstart sb) (hw : b < 4294967296) (hL : b ∉ L)
    {bn : Nat} (hbn : 10 ≤ bn ∧ bn < 138) (hind : (D n).addrs 10 ≠ 0)
    (hz : blockAddr V (D n) bn = 0) (hV : Same sb ((D n).addrs 10).toNat V V')
    (hself : V' ((D n).addrs 10).toNat =
      (V ((D n).addrs 10).toNat).setWord (bn - 10) (UInt32.ofNat b)) :
    Own sb L V' D ∧ Touch sb {n} V D V' D ∧ V' b = V b ∧
      (∀ bn', blockAddr V' (D n) bn' =
        if bn' = bn then UInt32.ofNat b else blockAddr V (D n) bn') ∧
      ∀ bn', blockAddr V (D n) bn' ≠ 0 →
        V' (blockAddr V (D n) bn').toNat = V (blockAddr V (D n) bn').toNat := by
  have hbn32 : (UInt32.ofNat b).toNat = b := by
    rw [UInt32.toNat_ofNat']
    exact Nat.mod_eq_of_lt hw
  have hp := adr_ind (V := V) hn
  have hp0 : adr sb V D (.ind n) ≠ 0 := by
    rw [hp]
    exact fun e => hind (UInt32.toNat_inj.mp e)
  rw [← hp] at hV hself
  have hr := h.range hp0
  have hib : b ≠ adr sb V D (.ind n) := fun e =>
    h.owner.apart (.ind n) hp0 (e ▸ Set.mem_insert b L)
  have hother : ∀ q, q ≠ .ind n → adr sb V D q ≠ 0 → V' (adr sb V D q) = V (adr sb V D q) :=
    fun q hq hq0 => hV _ (h.range hq0).2 fun e => hq (h.owner.inj q _ hq0 e)
  have haddr : ∀ bn', blockAddr V' (D n) bn' =
      if bn' = bn then UInt32.ofNat b else blockAddr V (D n) bn' := by
    intro bn'
    unfold blockAddr
    by_cases h10 : bn' < 10
    · rw [dif_pos h10, dif_pos h10, if_neg (by omega)]
    · rw [dif_neg h10, dif_neg h10, if_neg hind, if_neg hind, ← hp, hself]
      by_cases he : bn' = bn
      · rw [if_pos he, he, if_pos hbn.2, Block.word_setWord _ _ _ (by omega)]
      · rw [if_neg he, Block.word_setWord_ne _ _ _ _ (by omega)]
  have hk : ∀ q : Pos, q.ino ≠ n → adr sb V' D q = adr sb V D q := by
    intro q hq
    by_cases hl : Live sb D q.ino
    · cases q with
      | data k bn' =>
        have hl : Live sb D k := hl
        rw [adr_data hl, adr_data hl, blockAddr_congr fun h0 => ?_]
        have hq' := adr_ind (V := V) hl
        have := hother (.ind k) (fun e => hq (by cases e; rfl)) (by
          rw [hq']
          exact fun e => h0 (UInt32.toNat_inj.mp e))
        rwa [hq'] at this
      | ind k =>
        have hl : Live sb D k := hl
        rw [adr_ind hl, adr_ind hl]
    · rw [adr_dead hl, adr_dead hl]
  have h1 := one_lt_dstart sb
  have hbm : adr sb V D (.ind n) ∉ bitmapSecs sb := fun hm => by
    have := (bitmapSecs_lt hm).1
    omega
  refine ⟨h.adopt (p := .data n bn) hb hL ?_ (hV 1 (by omega) (by omega))
    (fun a ha => usedBit_congr h.area hV hbm (Nat.lt_of_lt_of_le ha (lstart_le sb))) ?_ ?_,
    ⟨fun _ _ => rfl, fun p hp => hk p hp, fun p hp => hother p fun e => hp (by rw [e]; rfl)⟩,
    hV b hb.2 hib, haddr, ?_⟩
  · rw [adr_data hn, hz]
    rfl
  · rw [adr_data hn, haddr, if_pos rfl, hbn32]
  · intro q hq
    by_cases hqn : q.ino = n
    · cases q with
      | data k bn' =>
        obtain rfl : k = n := hqn
        rw [adr_data hn, adr_data hn, haddr, if_neg (fun e => hq (by rw [e]))]
      | ind k =>
        obtain rfl : k = n := hqn
        rw [adr_ind hn, adr_ind hn]
    · exact hk q hqn
  · intro bn' h0
    have hq := adr_data (V := V) hn bn'
    have := hother (.data n bn') (by simp) (by
      rw [hq]
      exact fun e => h0 (UInt32.toNat_inj.mp e))
    rwa [hq] at this

end Adopt

/-! ## The state after a step of a writer -/

/-- Inode `n`, held in slot `ip`, now has the addresses `a`; its other fields, the other inodes
    and the inode sectors are as they were. -/
structure Wrote (sb : Superblock) (L : Set Nat) (D : Nat → Dinode) (n : Nat) (ip : Fin 100)
    (a : Fin 11 → UInt32) (s s' : State) : Prop where
  only : DiskOnly (s.setInode ip { s.icache ip with d := { (s.icache ip).d with addrs := a } }) s'
  jrn : Jrn sb s'
  busy : s'.log.busy = true
  own : Own sb L (s'.view 1) (withAddrs D n a)
  touch : Touch sb {n} (s.view 1) D (s'.view 1) (withAddrs D n a)
  inodes : ∀ k, k < sb.ninodes → s'.view 1 (IBLOCK k) = s.view 1 (IBLOCK k)

/-- The slot of inode `n` as a writer needs it. -/
structure Holding (sb : Superblock) (D : Nat → Dinode) (n : Nat) (ip : Fin 100) (s : State) :
    Prop where
  dev : (s.icache ip).dev = 1
  d : (s.icache ip).d.core = D n
  live : Live sb D n

section Wrote

variable {sb : Superblock} {L : Set Nat} {D : Nat → Dinode} {n : Nat} {ip : Fin 100}
  {a a' : Fin 11 → UInt32} {s s' s'' : State}

theorem Wrote.slot (h : Wrote sb L D n ip a s s') :
    s'.icache ip = { s.icache ip with d := { (s.icache ip).d with addrs := a } } := by
  rw [h.only.icache, setInode_self]

theorem Holding.same (hh : Holding sb D n ip s) :
    s.setInode ip { s.icache ip with d := { (s.icache ip).d with addrs := (D n).addrs } } = s := by
  have hd : (s.icache ip).d.addrs = (D n).addrs := by
    rw [← hh.d]
    rfl
  rw [← hd]
  exact setInode_same s ip

theorem Wrote.refl (hj : Jrn sb s) (hown : Own sb L (s.view 1) D) (hb : s.log.busy = true)
    (hh : Holding sb D n ip s) : Wrote sb L D n ip (D n).addrs s s := by
  refine ⟨?_, hj, hb, ?_, ?_, fun _ _ => rfl⟩
  · rw [hh.same]
    rfl
  · rw [withAddrs_same]
    exact hown
  · rw [withAddrs_same]
    exact Touch.refl ..

theorem Wrote.trans (h : Wrote sb L D n ip a s s')
    (h' : Wrote sb L (withAddrs D n a) n ip a' s' s'') : Wrote sb L D n ip a' s s'' := by
  have hdd := withAddrs_withAddrs D n a a'
  refine ⟨?_, h'.jrn, h'.busy, ?_, ?_, ?_⟩
  · have h1 := h'.only
    rw [h.slot] at h1
    have h2 : DiskOnly
        (s.setInode ip { s.icache ip with d := { (s.icache ip).d with addrs := a' } })
        (s'.setInode ip { s.icache ip with d := { (s.icache ip).d with addrs := a' } }) := by
      have := h.only
      unfold DiskOnly at this ⊢
      rw [this]
      simp only [State.setInode]
      congr 1
      funext j
      by_cases hj : j = ip <;> simp [hj]
    exact h2.trans h1
  · rw [← hdd]
    exact h'.own
  · rw [← hdd]
    exact h.touch.trans h'.touch
  · intro k hk
    rw [h'.inodes k hk, h.inodes k hk]

theorem Wrote.holding (h : Wrote sb L D n ip a s s') (hh : Holding sb D n ip s) :
    Holding sb (withAddrs D n a) n ip s' := by
  refine ⟨?_, ?_, (live_withAddrs sb D n a n).mpr hh.live⟩
  · rw [h.slot]
    exact hh.dev
  · rw [h.slot, withAddrs_self, ← hh.d]
    rfl

end Wrote
/-! ## bmap -/

/-- What `bmap` of block `bn` did to return block `b`. -/
structure BmapPost (sb : Superblock) (L : Set Nat) (D : Nat → Dinode) (n : Nat) (ip : Fin 100)
    (bn : Nat) (s : State) (a : Fin 11 → UInt32) (b : Nat) (s' : State) : Prop where
  wrote : Wrote sb L D n ip a s s'
  took : Took sb {bn} (s.view 1) (D n) (s'.view 1) (withAddrs D n a n)
  result : (blockAddr (s'.view 1) (withAddrs D n a n) bn).toNat = b
  data : ∀ bn', blockAddr (s.view 1) (D n) bn' ≠ 0 →
    s'.view 1 (blockAddr (s.view 1) (D n) bn').toNat =
      s.view 1 (blockAddr (s.view 1) (D n) bn').toNat
  logged : secs s ∪ fresh sb ((freeList sb (s.view 1)).take (lack (s.view 1) (D n) {bn})) ⊆ secs s'
  table : (D n).addrs 10 ≠ 0 → Spills (s.view 1) (D n) {bn} → ((D n).addrs 10).toNat ∈ secs s'

section Bmap

variable {E : Stop Chan → State → Prop} {sb : Superblock} {L : Set Nat} {D : Nat → Dinode}
  {B : Finset Nat} {n : Nat} {ip : Fin 100} {s : State} {f bn : Nat}

theorem spills_singleton {V : Nat → Block} {d : Dinode} :
    Spills V d {bn} ↔ 10 ≤ bn ∧ blockAddr V d bn = 0 := by
  simp [Spills]

theorem lack_direct {V : Nat → Block} {d : Dinode} (hbn : bn < 10) :
    lack V d {bn} = if blockAddr V d bn = 0 then 1 else 0 := by
  unfold lack
  rw [if_neg fun e => by have := (spills_singleton.mp e.2).1; omega, Finset.filter_singleton]
  split <;> rfl

theorem lack_indirect {V : Nat → Block} {d : Dinode} (hbn : 10 ≤ bn) :
    lack V d {bn} = (if d.addrs 10 = 0 then 1 else 0) + if blockAddr V d bn = 0 then 1 else 0 := by
  unfold lack
  rw [Finset.filter_singleton]
  by_cases hz : blockAddr V d bn = 0
  · simp [spills_singleton, hbn, hz, Nat.add_comm]
  · have h10 : d.addrs 10 ≠ 0 := fun e => hz (blockAddr_no_ind hbn e)
    simp [hz, h10]

/-- A new block at an empty address of the inode. -/
structure SlotPost (sb : Superblock) (L : Set Nat) (D : Nat → Dinode) (n : Nat) (ip : Fin 100)
    (j : Fin 11) (s : State) (b : Nat) (s' : State) : Prop where
  wrote : Wrote sb L D n ip (setAddr (D n).addrs j (UInt32.ofNat b)) s s'
  range : dstart sb ≤ b ∧ b < lstart sb
  word : (UInt32.ofNat b).toNat = b
  addr : ∀ bn, blockAddr (s'.view 1) (withAddrs D n (setAddr (D n).addrs j (UInt32.ofNat b)) n) bn =
    if bn = j.val ∧ j.val < 10 then UInt32.ofNat b else blockAddr (s.view 1) (D n) bn
  data : ∀ bn, blockAddr (s.view 1) (D n) bn ≠ 0 →
    s'.view 1 (blockAddr (s.view 1) (D n) bn).toNat = s.view 1 (blockAddr (s.view 1) (D n) bn).toNat
  list : freeList sb (s.view 1) = b :: freeList sb (s'.view 1)
  spent : Spent sb 1 s s'

/-- Storing an address into the slot changes no sector. -/
theorem Jrn.setInode (h : Jrn sb s) (j : Fin 100) (i : Inode) : Jrn sb (s.setInode j i) :=
  h.congr rfl rfl rfl

theorem balloc_slot_wp (hj : Jrn sb s) (hown : Own sb L (s.view 1) D)
    (hh : Holding sb D n ip s) (ht : Txn E sb B (f + 1) s) {j : Fin 11}
    (hz : (D n).addrs j = 0) :
    wp (do
        let addr ← balloc 1
        updInode ip fun i => { i with d := { i.d with
          addrs := fun k => if k = j then UInt32.ofNat addr else i.d.addrs k } }
        pure addr)
      (fun b s' => SlotPost sb L D n ip j s b s' ∧ Txn E sb B f s') E s := by
  have haddrs : (s.icache ip).d.addrs = (D n).addrs := by
    rw [← hh.d]
    rfl
  refine (balloc_own hj hown ht).bind ?_
  rintro b s1 ⟨hb, ht1⟩
  have hal := hb.alloced
  have hic := hal.only.icache
  obtain ⟨hsame, hdata⟩ := hb.held.blocks hh.live
  obtain ⟨hfree, hlogged⟩ := hal.spent hb.list
  obtain ⟨hown', htouch, haddr⟩ := hb.own.adopt_slot hh.live hb.range hb.word hb.new hal.block hz
  have hpos := one_lt_dstart sb
  have harea := hown.area
  refine wp_bind.mpr ?_
  rw [wp_of_ok (updInode_apply ip _ s1), hic, haddrs]
  refine ⟨⟨⟨?_, hal.jrn.setInode _ _, hal.busy, hown', (hb.held.touch {n}).trans htouch, ?_⟩,
    hb.range, ?_, ?_, hdata, hb.list, hfree, hlogged⟩, ht1.setInode _ _⟩
  · have h1 := hal.only
    unfold DiskOnly at h1 ⊢
    rw [h1]
    rfl
  · intro k hk
    have := IBLOCK_lt hk
    have := hb.range
    exact hal.same _ (by omega) (by omega) (IBLOCK_not_bitmap hk)
  · rw [UInt32.toNat_ofNat']
    exact Nat.mod_eq_of_lt hb.word
  · intro bn
    show blockAddr (s1.view 1) _ bn = _
    rw [haddr, hsame]

theorem SlotPost.ne_zero {j : Fin 11} {b : Nat} {s' : State} (h : SlotPost sb L D n ip j s b s') :
    UInt32.ofNat b ≠ 0 := by
  intro e
  have h1 := h.word
  have h2 := h.range
  have := one_lt_dstart sb
  rw [e] at h1
  have h1 : 0 = b := h1
  omega

/-- A direct block is there now. -/
theorem SlotPost.bmap {b : Nat} {s' : State} {h11 : bn < 11} (h10 : bn < 10)
    (h : SlotPost sb L D n ip ⟨bn, h11⟩ s b s') (hz : blockAddr (s.view 1) (D n) bn = 0) :
    BmapPost sb L D n ip bn s (setAddr (D n).addrs ⟨bn, h11⟩ (UInt32.ofNat b)) b s' := by
  have hlack : lack (s.view 1) (D n) {bn} = 1 := by rw [lack_direct h10, if_pos hz]
  have htake : (freeList sb (s.view 1)).take 1 = [b] := by rw [h.list]; rfl
  have hself := h.addr bn
  rw [if_pos ⟨rfl, h10⟩] at hself
  have hother : ∀ bn', bn' ≠ bn → blockAddr (s'.view 1)
      (withAddrs D n (setAddr (D n).addrs ⟨bn, h11⟩ (UInt32.ofNat b)) n) bn' =
        blockAddr (s.view 1) (D n) bn' := by
    intro bn' hne
    rw [h.addr, if_neg fun e => hne e.1]
  have hind : (withAddrs D n (setAddr (D n).addrs ⟨bn, h11⟩ (UInt32.ofNat b)) n).addrs 10 =
      (D n).addrs 10 := by
    rw [withAddrs_self]
    refine if_neg fun e => ?_
    have := congrArg Fin.val e
    simp at this
    omega
  refine { wrote := h.wrote, took := ?_, result := by rw [hself, h.word], data := h.data,
           logged := by rw [hlack]; exact h.spent.logged, table := fun _ hs => ?_ }
  · refine { kept := fun bn' h0 => hother bn' fun e => h0 (e ▸ hz), there := ?_,
             other := fun bn' hne => hother bn' (by simpa using hne), ind := fun _ => hind,
             free := by rw [hlack]; exact h.spent.free, data := fun bn' hne => ?_,
             table := fun hne => absurd hind hne }
    · rintro bn' hm
      rw [Finset.mem_singleton.mp hm, hself]
      exact h.ne_zero
    · obtain rfl : bn' = bn := by_contra fun e => hne (hother bn' e)
      rw [hlack, htake, hself, h.word]
      exact List.mem_singleton_self b
  · have := (spills_singleton.mp hs).1
    omega

/-- The state in which `bmap` knows the indirect block, with the blocks `x` allocated for it. -/
structure IndPost (sb : Superblock) (L : Set Nat) (D : Nat → Dinode) (n : Nat) (ip : Fin 100)
    (s : State) (a : Fin 11 → UInt32) (x : List Nat) (ind : Nat) (s' : State) : Prop where
  wrote : Wrote sb L D n ip a s s'
  table : a 10 ≠ 0 ∧ (a 10).toNat = ind
  kept : (D n).addrs 10 ≠ 0 → a = (D n).addrs ∧ s' = s
  new : (D n).addrs 10 = 0 → ind ∈ x
  addr : ∀ bn, blockAddr (s'.view 1) (withAddrs D n a n) bn = blockAddr (s.view 1) (D n) bn
  data : ∀ bn, blockAddr (s.view 1) (D n) bn ≠ 0 →
    s'.view 1 (blockAddr (s.view 1) (D n) bn).toNat = s.view 1 (blockAddr (s.view 1) (D n) bn).toNat
  list : freeList sb (s.view 1) = x ++ freeList sb (s'.view 1)
  length : x.length = if (D n).addrs 10 = 0 then 1 else 0
  logged : secs s ∪ fresh sb x ⊆ secs s'

theorem bmap_ind_wp (hj : Jrn sb s) (hown : Own sb L (s.view 1) D) (hh : Holding sb D n ip s)
    (ht : Txn E sb B (f + if (D n).addrs 10 = 0 then 1 else 0) s) :
    wp (if (D n).addrs 10 = 0 then do
        let addr ← balloc 1
        updInode ip fun i => { i with d := { i.d with
          addrs := fun k => if k = 10 then UInt32.ofNat addr else i.d.addrs k } }
        pure addr
      else pure ((D n).addrs 10).toNat : K Nat)
      (fun b s' => ∃ a x, IndPost sb L D n ip s a x b s' ∧ Txn E sb B f s') E s := by
  refine wp_ite (fun hz => ?_) fun hz => ?_
  · rw [if_pos hz] at ht
    refine (balloc_slot_wp hj hown hh ht hz).post ?_
    rintro b s' ⟨h, ht'⟩
    have ha : setAddr (D n).addrs 10 (UInt32.ofNat b) 10 = UInt32.ofNat b := if_pos rfl
    refine ⟨_, [b], ⟨h.wrote, ?_, fun hne => absurd hz hne, fun _ => List.mem_singleton_self b,
      fun bn => ?_, h.data, h.list, by rw [if_pos hz]; rfl, ?_⟩, ht'⟩
    · rw [ha]
      exact ⟨h.ne_zero, h.word⟩
    · rw [h.addr bn, if_neg]
      rintro ⟨-, h10⟩
      exact absurd h10 (by decide)
    · have hl := h.spent.logged
      rwa [h.list] at hl
  · rw [if_neg hz] at ht
    refine ⟨_, [], ⟨Wrote.refl hj hown ht.busy hh, ⟨hz, rfl⟩, fun _ => ⟨rfl, rfl⟩,
      fun h0 => absurd h0 hz,
      fun bn => by rw [withAddrs_same], fun _ _ => rfl, rfl, by rw [if_neg hz]; rfl, ?_⟩, ht⟩
    exact Finset.union_subset (Finset.Subset.refl _) (Finset.empty_subset _)

/-- The indirect block first, then an entry of it. -/
theorem IndPost.entry {s1 s2 : State} {a a' : Fin 11 → UInt32} {x : List Nat} {ind b : Nat}
    (h1 : IndPost sb L D n ip s a x ind s1)
    (h2 : BmapPost sb L (withAddrs D n a) n ip bn s1 a' b s2) (ha : a' 10 = a 10) (h10 : 10 ≤ bn)
    (hz : blockAddr (s1.view 1) (withAddrs D n a n) bn = 0) :
    BmapPost sb L D n ip bn s a' b s2 := by
  have hdd := withAddrs_withAddrs D n a a'
  have hz0 : blockAddr (s.view 1) (D n) bn = 0 := (h1.addr bn).symm.trans hz
  have hspill : Spills (s.view 1) (D n) {bn} := spills_singleton.mpr ⟨h10, hz0⟩
  have hlack : lack (s.view 1) (D n) {bn} =
      x.length + lack (s1.view 1) (withAddrs D n a n) {bn} := by
    have hi : (withAddrs D n a n).addrs 10 ≠ 0 := by
      rw [withAddrs_self]
      exact h1.table.1
    rw [lack_indirect h10, lack_indirect h10, if_pos hz0, if_pos hz, if_neg hi, h1.length]
  have htake : (freeList sb (s.view 1)).take (lack (s.view 1) (D n) {bn}) =
      x ++ (freeList sb (s1.view 1)).take (lack (s1.view 1) (withAddrs D n a n) {bn}) := by
    rw [hlack, h1.list, List.take_length_add_append]
  have h2l := h2.logged
  obtain ⟨htook, hres, hdata2⟩ := And.intro h2.took (And.intro h2.result h2.data)
  rw [hdd] at htook hres
  have hind : (withAddrs D n a' n).addrs 10 = a 10 := by
    rw [withAddrs_self]
    exact ha
  refine { wrote := h1.wrote.trans h2.wrote, took := ?_, result := hres, data := ?_,
           logged := ?_, table := ?_ }
  · refine { kept := ?_, there := htook.there, other := ?_, ind := ?_, free := ?_, data := ?_,
             table := ?_ }
    · intro bn' h0
      rw [htook.kept bn' (by rw [h1.addr]; exact h0), h1.addr]
    · intro bn' hne
      rw [htook.other bn' hne, h1.addr]
    · intro hi
      rw [hind]
      rw [(h1.kept (hi.resolve_right fun hs => hs hspill)).1]
    · rw [htook.free, hlack, h1.list, List.drop_length_add_append]
    · intro bn' hne
      rw [htake]
      exact List.mem_append_right _ (htook.data bn' (by rw [h1.addr]; exact hne))
    · intro hne
      rw [hind] at hne ⊢
      rw [htake, h1.table.2]
      exact List.mem_append_left _ (h1.new (by_contra fun h0 => hne (by rw [(h1.kept h0).1])))
  · intro bn' h0
    have := hdata2 bn' (by rw [h1.addr]; exact h0)
    rw [h1.addr] at this
    rw [this, h1.data bn' h0]
  · rw [htake, fresh_append, ← Finset.union_assoc]
    exact (Finset.union_subset_union_left h1.logged).trans h2l
  · intro h0 _
    have := h2.table (by rw [withAddrs_self]; exact h1.table.1) (spills_singleton.mpr ⟨h10, hz⟩)
    rw [withAddrs_self] at this
    rwa [(h1.kept h0).1] at this

/-- A new block in an empty entry of the indirect block. -/
theorem bmap_entry_wp (hj : Jrn sb s) (hown : Own sb L (s.view 1) D) (hh : Holding sb D n ip s)
    (ht : Txn E sb B (f + 1) s) (hB : ((D n).addrs 10).toNat ∈ B) (hbn : 10 ≤ bn ∧ bn < 138)
    (hind : (D n).addrs 10 ≠ 0) (hz : blockAddr (s.view 1) (D n) bn = 0) :
    wp (do
        let addr ← balloc 1
        log_write 1 ((D n).addrs 10).toNat
          ((s.view 1 ((D n).addrs 10).toNat).setWord (bn - 10) (UInt32.ofNat addr))
        pure addr)
      (fun b s' => BmapPost sb L D n ip bn s (D n).addrs b s' ∧ Txn E sb B f s') E s := by
  refine (balloc_own hj hown ht).bind ?_
  rintro b s1 ⟨hb, ht1⟩
  have hal := hb.alloced
  obtain ⟨hsame, hdata⟩ := hb.held.blocks hh.live
  have hp := adr_ind (V := s.view 1) hh.live
  have hp0 : adr sb (s.view 1) D (.ind n) ≠ 0 := by
    rw [hp]
    exact fun e => hind (UInt32.toNat_inj.mp e)
  have hrange := hown.range hp0
  have hiv := hb.held (.ind n) hp0
  rw [hp] at hrange hiv
  rw [← hiv]
  have hz1 : blockAddr (s1.view 1) (D n) bn = 0 := by rw [hsame, hz]
  have hbw : (UInt32.ofNat b).toNat = b := by
    rw [UInt32.toNat_ofNat']
    exact Nat.mod_eq_of_lt hb.word
  have hbne : UInt32.ofNat b ≠ 0 := by
    intro e
    have h1 := hb.range
    have := one_lt_dstart sb
    rw [e] at hbw
    have hbw : 0 = b := hbw
    omega
  refine (log_write_wp hal.jrn hrange.2 (.of_busy hal.busy) ht1.fits).bind fun _ s2 h2 => ?_
  obtain ⟨hown2, htouch2, hb2, haddr2, hdata2⟩ :=
    hb.own.adopt_entry hh.live hb.range hb.word hb.new hbn hind hz1 h2.same h2.self
  have harea := hown.area
  have hbm := not_bitmap hrange.1
  have hspent : Spent sb 1 s s2 := (hal.spent hb.list).trans (h2.spent harea hbm)
  have hself : blockAddr (s2.view 1) (D n) bn = UInt32.ofNat b := by rw [haddr2, if_pos rfl]
  have hother : ∀ bn', bn' ≠ bn → blockAddr (s2.view 1) (D n) bn' =
      blockAddr (s.view 1) (D n) bn' := by
    intro bn' hne
    rw [haddr2, if_neg hne, hsame]
  have hlack : lack (s.view 1) (D n) {bn} = 1 := by
    rw [lack_indirect hbn.1, if_neg hind, if_pos hz]
  have htake : (freeList sb (s.view 1)).take 1 = [b] := by rw [hb.list]; rfl
  refine ⟨{ wrote := ?_, took := ?_, result := ?_, data := fun bn' h0 => ?_, logged := ?_,
            table := fun _ _ => ?_ }, ht1.logs harea h2 hB hbm⟩
  · refine ⟨?_, h2.jrn, h2.busy, ?_, ?_, ?_⟩
    · rw [hh.same]
      exact hal.only.trans h2.only
    · rw [withAddrs_same]
      exact hown2
    · rw [withAddrs_same]
      exact (hb.held.touch {n}).trans htouch2
    · intro k hk
      have := IBLOCK_lt hk
      have := hb.range
      rw [h2.same _ (by omega) (by omega), hal.same _ (by omega) (by omega) (IBLOCK_not_bitmap hk)]
  · rw [withAddrs_same]
    refine { kept := fun bn' h0 => hother bn' fun e => h0 (e ▸ hz), there := ?_,
             other := fun bn' hne => hother bn' (by simpa using hne), ind := fun _ => rfl,
             free := by rw [hlack]; exact hspent.free, data := fun bn' hne => ?_,
             table := fun hne => absurd rfl hne }
    · rintro bn' hm
      rw [Finset.mem_singleton.mp hm, hself]
      exact hbne
    · obtain rfl : bn' = bn := by_contra fun e => hne (hother bn' e)
      rw [hlack, htake, hself, hbw]
      exact List.mem_singleton_self b
  · rw [withAddrs_same, hself, hbw]
  · have := hdata2 bn' (by rw [hsame]; exact h0)
    rw [hsame] at this
    rw [this, hdata bn' h0]
  · rw [hlack]
    exact hspent.logged
  · rw [h2.secs]
    exact Finset.mem_insert_self _ _

/-- A block that is there. -/
theorem BmapPost.there (hj : Jrn sb s) (hown : Own sb L (s.view 1) D) (hb : s.log.busy = true)
    (hh : Holding sb D n ip s) (h0 : blockAddr (s.view 1) (D n) bn ≠ 0) :
    BmapPost sb L D n ip bn s (D n).addrs (blockAddr (s.view 1) (D n) bn).toNat s := by
  have hbns : ∀ bn' ∈ ({bn} : Finset Nat), blockAddr (s.view 1) (D n) bn' ≠ 0 := by
    intro bn' hm
    rwa [Finset.mem_singleton.mp hm]
  have htook : Took sb {bn} (s.view 1) (D n) (s.view 1) (D n) :=
    Took.same rfl (fun _ => rfl) rfl hbns
  refine { wrote := Wrote.refl hj hown hb hh, took := by rw [withAddrs_same]; exact htook,
           result := by rw [withAddrs_same], data := fun _ _ => rfl, logged := ?_,
           table := fun _ hs => absurd (spills_singleton.mp hs).2 h0 }
  rw [lack_eq_zero hbns, List.take_zero]
  exact Finset.union_subset (Finset.Subset.refl _) (Finset.empty_subset _)

/-- `bmap` of a block inside a file of at most MAXFILE blocks. -/
theorem bmap_wp (hj : Jrn sb s) (hown : Own sb L (s.view 1) D) (hh : Holding sb D n ip s)
    (ht : Txn E sb B (f + lack (s.view 1) (D n) {bn}) s) (hB : held (s.view 1) (D n) {bn} ⊆ B)
    (hbn : bn < 138) :
    wp (bmap ip bn) (fun b s' => ∃ a, BmapPost sb L D n ip bn s a b s' ∧ Txn E sb B f s') E s := by
  have haddrs : (s.icache ip).d.addrs = (D n).addrs := by
    rw [← hh.d]
    rfl
  unfold bmap
  refine wp_ok_bind (inode_apply ip s) ?_
  rw [hh.dev, haddrs]
  by_cases h10 : bn < 10
  · rw [dif_pos h10]
    have hba : blockAddr (s.view 1) (D n) bn = (D n).addrs ⟨bn, by omega⟩ := by
      unfold blockAddr
      rw [dif_pos h10]
    rw [lack_direct h10] at ht
    refine wp_ite (fun hz => ?_) fun hz => ?_
    · have hz0 := hba.trans hz
      rw [if_pos hz0] at ht
      refine (balloc_slot_wp hj hown hh ht hz).post ?_
      rintro b s' ⟨h, ht'⟩
      exact ⟨_, h.bmap h10 hz0, ht'⟩
    · rw [← hba] at hz ⊢
      rw [if_neg hz] at ht
      exact ⟨_, BmapPost.there hj hown ht.busy hh hz, ht⟩
  · have h10 : 10 ≤ bn := Nat.not_lt.mp h10
    rw [dif_neg (Nat.not_lt.mpr h10), if_pos (by omega)]
    rw [lack_indirect h10, Nat.add_comm (ite _ _ _), ← Nat.add_assoc] at ht
    refine (bmap_ind_wp hj hown hh ht).bind ?_
    rintro ind s1 ⟨a, x, h1, ht1⟩
    obtain ⟨ha, rfl⟩ := h1.table
    have hword : blockAddr (s1.view 1) (withAddrs D n a n) bn =
        (s1.view 1 (a 10).toNat).word (bn - 10) := by
      rw [withAddrs_self]
      unfold blockAddr
      rw [dif_neg (Nat.not_lt.mpr h10), if_pos hbn]
      exact if_neg ha
    refine wp_ok_bind (bread_apply _ _ s1) ?_
    rw [← hword]
    refine wp_ite (fun hz => ?_) fun hz => ?_
    · have hz0 : blockAddr (s.view 1) (D n) bn = 0 := (h1.addr bn).symm.trans hz
      -- the indirect block was there, or has just been allocated
      have haB : (a 10).toNat ∈ B := by
        by_cases h0 : (D n).addrs 10 = 0
        · have hlist := h1.list
          have hlen := h1.length
          rw [if_pos h0] at hlen ht
          obtain ⟨c, rfl⟩ := List.length_eq_one_iff.mp hlen
          rw [List.mem_singleton.mp (h1.new h0)]
          exact (ht.head hlist).1
        · rw [(h1.kept h0).1]
          exact hB (mem_held.mpr (Or.inr ⟨⟨h0, spills_singleton.mpr ⟨h10, hz0⟩⟩, rfl⟩))
      rw [if_pos hz0] at ht1
      have hrun := bmap_entry_wp h1.wrote.jrn h1.wrote.own (h1.wrote.holding hh) ht1
        (by rw [withAddrs_self]; exact haB) ⟨h10, hbn⟩ (by rw [withAddrs_self]; exact ha) hz
      have hrest : ∀ b s',
          BmapPost sb L (withAddrs D n a) n ip bn s1 (withAddrs D n a n).addrs b s' ∧
          Txn E sb B f s' → ∃ a, BmapPost sb L D n ip bn s a b s' ∧ Txn E sb B f s' := by
        rintro b s2 ⟨h2, ht2⟩
        exact ⟨_, h1.entry h2 (by rw [withAddrs_self]) h10 hz, ht2⟩
      have hrun := hrun.post hrest
      rw [withAddrs_self] at hrun
      exact hrun
    · have hz0 : blockAddr (s.view 1) (D n) bn ≠ 0 := by rwa [h1.addr] at hz
      obtain ⟨rfl, rfl⟩ := h1.kept fun e => hz0 (blockAddr_no_ind h10 e)
      rw [withAddrs_same]
      rw [if_neg hz0] at ht1
      exact ⟨_, BmapPost.there hj hown ht1.busy hh hz0, ht1⟩

end Bmap

end Zv6
