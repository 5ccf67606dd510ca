/-
  Consistent volumes.

  The sectors `V` of the device and a table `D` of dinodes (by inode number) make a volume.
  `Fs sb V D` says its metadata is consistent: the layout is that of the superblock `sb`,
  every block address in use lies in the data area below the log, is marked in the bitmap
  and occurs once (`Pos` is the place of an address), the blocks below a file's size are
  there, and dittos hang off exactly one inode and have none of their own. Nothing is said
  about the contents of files.

  The table is kept apart from the sectors because an inode in the cache can be ahead of
  the one on disk; `table V` is the one on disk. Link counts play no part in any of this
  and are left out of tables (`Dinode.core`).

  What a write to one sector does to a volume depends on the sector: below the log, a data
  block changes the bytes of one block of one file (`Fs.write_data`), an inode sector
  changes no contents (`Fs.frame`).
-/
import Zv6.Fs.Content

namespace Zv6

open Lib

/-! ## Layout -/

/-- The first block behind the boot, super, inode and bitmap blocks. -/
def dstart (sb : Superblock) : Nat := sb.ninodes / 8 + sb.size / 4096 + 4

/-- The first block of the log. -/
def lstart (sb : Superblock) : Nat := sb.size - sb.nlog

/-- The bitmap bit of block `b`. -/
def usedBit (sb : Superblock) (V : Nat → Block) (b : Nat) : Bool :=
  (V (BBLOCK b sb.ninodes)).bit (b % 4096)

/-- A dinode without its link count. -/
def Dinode.core (d : Dinode) : Dinode := { d with nlink := 0 }

/-- The dinodes on disk. -/
def table (V : Nat → Block) (k : Nat) : Dinode := ((V (IBLOCK k)).dinode (k % 8)).core

/-- Inode `k` exists and is allocated. -/
def Live (sb : Superblock) (D : Nat → Dinode) (k : Nat) : Prop :=
  1 ≤ k ∧ k < sb.ninodes ∧ (D k).type ≠ 0

instance (sb : Superblock) (D : Nat → Dinode) (k : Nat) : Decidable (Live sb D k) :=
  inferInstanceAs (Decidable (_ ∧ _ ∧ _))

/-- The first (`false`) or second (`true`) ditto of an inode, 0 if it has none. -/
def Dinode.child (d : Dinode) (second : Bool) : Nat :=
  if second then d.child2.toNat else d.child1.toNat

/-- Where a block address is kept: as block `bn` of inode `k`, or as its indirect block. -/
inductive Pos where
  | data (k bn : Nat)
  | ind (k : Nat)

/-- The address kept at a place. -/
def addrAt (sb : Superblock) (V : Nat → Block) (D : Nat → Dinode) : Pos → UInt32
  | .data k bn => if Live sb D k then blockAddr V (D k) bn else 0
  | .ind k => if Live sb D k then (D k).addrs 10 else 0

/-- The metadata of the volume is consistent. -/
structure Fs (sb : Superblock) (V : Nat → Block) (D : Nat → Dinode) : Prop where
  super : (V 1).superblock = sb
  area : dstart sb ≤ lstart sb
  ninodes : sb.ninodes ≤ 32768
  reserved : ∀ b, b < dstart sb → usedBit sb V b = true
  range : ∀ p, addrAt sb V D p ≠ 0 →
    dstart sb ≤ (addrAt sb V D p).toNat ∧ (addrAt sb V D p).toNat < lstart sb
  used : ∀ p, addrAt sb V D p ≠ 0 → usedBit sb V (addrAt sb V D p).toNat = true
  inj : ∀ p q, addrAt sb V D p ≠ 0 → addrAt sb V D p = addrAt sb V D q → p = q
  mapped : ∀ k, Live sb D k → Mapped V (D k)
  dev : ∀ k, Live sb D k → (D k).type = T_DEV → (D k).size = 0
  child : ∀ k i, Live sb D k → (D k).child i ≠ 0 →
    Live sb D ((D k).child i) ∧ (D ((D k).child i)).type = T_DITTO
  childless : ∀ k, Live sb D k → (D k).type = T_DITTO → (D k).child1 = 0 ∧ (D k).child2 = 0
  parent : ∀ k k' i i', Live sb D k → Live sb D k' → (D k).child i ≠ 0 →
    (D k).child i = (D k').child i' → k = k' ∧ i = i'

/-- Every ditto has the size and the stored checksum of the inode it belongs to. -/
def Paired (sb : Superblock) (D : Nat → Dinode) : Prop :=
  ∀ k i, Live sb D k → (D k).child i ≠ 0 →
    (D ((D k).child i)).size = (D k).size ∧ (D ((D k).child i)).checksum = (D k).checksum

/-- The contents of inode `k` match its stored checksum. -/
def Good (V : Nat → Block) (D : Nat → Dinode) (k : Nat) : Prop :=
  checksumOf (contents V (D k)) = (D k).checksum

instance (V : Nat → Block) (D : Nat → Dinode) (k : Nat) : Decidable (Good V D k) :=
  inferInstanceAs (Decidable (_ = _))

section Layout

variable {sb : Superblock} {V V' : Nat → Block} {D D' : Nat → Dinode}

theorem IBLOCK_lt {k : Nat} (hk : k < sb.ninodes) : IBLOCK k < dstart sb := by
  unfold IBLOCK dstart
  omega

theorem IBLOCK_ne_one (k : Nat) : IBLOCK k ≠ 1 := by
  unfold IBLOCK
  omega

theorem BBLOCK_lt {b : Nat} (hb : b < sb.size) : BBLOCK b sb.ninodes < dstart sb := by
  unfold BBLOCK dstart
  omega

theorem BBLOCK_ne_one (b ninodes : Nat) : BBLOCK b ninodes ≠ 1 := by
  unfold BBLOCK
  omega

theorem IBLOCK_ne_BBLOCK {k b ninodes : Nat} (hk : k < ninodes) : BBLOCK b ninodes ≠ IBLOCK k := by
  unfold IBLOCK BBLOCK
  omega

theorem one_lt_dstart (sb : Superblock) : 1 < dstart sb := by
  unfold dstart
  omega

theorem lstart_le (sb : Superblock) : lstart sb ≤ sb.size := Nat.sub_le _ _

theorem addrAt_data {k : Nat} (hk : Live sb D k) (bn : Nat) :
    addrAt sb V D (.data k bn) = blockAddr V (D k) bn := if_pos hk

theorem addrAt_dead {k : Nat} (hk : ¬ Live sb D k) (bn : Nat) :
    addrAt sb V D (.data k bn) = 0 := if_neg hk

theorem addrAt_ind {k : Nat} (hk : Live sb D k) : addrAt sb V D (.ind k) = (D k).addrs 10 :=
  if_pos hk

/-- A change that keeps the superblock, the bitmap below the log and all addresses keeps
    the volume consistent, as long as sizes stay within what is mapped. -/
theorem Fs.transport (h : Fs sb V D) (hsuper : V' 1 = V 1)
    (hbits : ∀ b, b < lstart sb → usedBit sb V' b = usedBit sb V b)
    (haddr : ∀ p, addrAt sb V' D' p = addrAt sb V D p)
    (htype : ∀ k, (D' k).type = (D k).type)
    (hchild : ∀ k i, (D' k).child i = (D k).child i)
    (hmapped : ∀ k, Live sb D' k → Mapped V' (D' k))
    (hdev : ∀ k, Live sb D' k → (D' k).type = T_DEV → (D' k).size = 0) : Fs sb V' D' := by
  have hlive : ∀ k, Live sb D' k ↔ Live sb D k := by
    intro k
    unfold Live
    rw [htype]
  have hchildren : ∀ k, (D' k).child1 = (D k).child1 ∧ (D' k).child2 = (D k).child2 := by
    intro k
    exact ⟨UInt16.toNat_inj.mp (hchild k false), UInt16.toNat_inj.mp (hchild k true)⟩
  refine { super := ?_, area := h.area, ninodes := h.ninodes, reserved := ?_, range := ?_,
           used := ?_, inj := ?_, mapped := hmapped, dev := hdev, child := ?_, childless := ?_,
           parent := ?_ }
  · rw [hsuper]
    exact h.super
  · intro b hb
    rw [hbits b (Nat.lt_of_lt_of_le hb h.area)]
    exact h.reserved b hb
  · intro p
    rw [haddr]
    exact h.range p
  · intro p
    rw [haddr]
    intro hp
    rw [hbits _ (h.range p hp).2]
    exact h.used p hp
  · intro p q
    rw [haddr, haddr]
    exact h.inj p q
  · intro k i hk
    rw [hchild, hlive, htype]
    exact h.child k i ((hlive k).mp hk)
  · intro k hk
    rw [htype, (hchildren k).1, (hchildren k).2]
    exact h.childless k ((hlive k).mp hk)
  · intro k k' i i' hk hk'
    rw [hchild, hchild]
    exact h.parent k k' i i' ((hlive k).mp hk) ((hlive k').mp hk')

/-- An inode with a ditto is none itself. -/
theorem Fs.has_ditto (h : Fs sb V D) {k : Nat} {i : Bool} (hk : Live sb D k)
    (hi : (D k).child i ≠ 0) : (D k).type ≠ T_DITTO ∧ (D k).child i ≠ k := by
  have hnot : (D k).type ≠ T_DITTO := by
    intro ht
    obtain ⟨h1, h2⟩ := h.childless k hk ht
    refine hi ?_
    unfold Dinode.child
    rw [h1, h2]
    cases i <;> rfl
  refine ⟨hnot, fun he => hnot ?_⟩
  have := (h.child k i hk hi).2
  rwa [he] at this

end Layout

/-! ## Writing one sector -/

section Sector

variable {sb : Superblock} {V V' : Nat → Block} {D : Nat → Dinode}

theorem blockAddr_congr {d : Dinode} (h : d.addrs 10 ≠ 0 →
    V' (d.addrs 10).toNat = V (d.addrs 10).toNat) (bn : Nat) :
    blockAddr V' d bn = blockAddr V d bn := by
  unfold blockAddr
  by_cases h10 : bn < 10
  · rw [dif_pos h10, dif_pos h10]
  · rw [dif_neg h10, dif_neg h10]
    by_cases h0 : d.addrs 10 = 0
    · rw [if_pos h0, if_pos h0]
    · rw [if_neg h0, if_neg h0, h h0]

/-- Below the log, `V'` differs from `V` at most in sector `x`. -/
def Same (sb : Superblock) (x : Nat) (V V' : Nat → Block) : Prop :=
  ∀ c, c < lstart sb → c ≠ x → V' c = V c

/-- The sectors below the log are the same. -/
def SameAll (sb : Superblock) (V V' : Nat → Block) : Prop := ∀ c, c < lstart sb → V' c = V c

theorem SameAll.same (h : SameAll sb V V') (x : Nat) : Same sb x V V' := fun c hc _ => h c hc

/-- Only one sector changed, and it is neither the superblock, nor a bitmap sector, nor an
    indirect block: the metadata is as before. -/
theorem Fs.agree (h : Fs sb V D) {x : Nat} (hV : Same sb x V V') (hx : x ≠ 1)
    (hbit : ∀ b, b < lstart sb → BBLOCK b sb.ninodes ≠ x)
    (hind : ∀ k, Live sb D k → (D k).addrs 10 ≠ 0 → ((D k).addrs 10).toNat ≠ x) :
    Fs sb V' D ∧ ∀ k, Live sb D k → ∀ bn, blockAddr V' (D k) bn = blockAddr V (D k) bn := by
  have harea := h.area
  have haddr : ∀ k, Live sb D k → ∀ bn, blockAddr V' (D k) bn = blockAddr V (D k) bn := by
    intro k hk
    refine blockAddr_congr fun h0 => ?_
    have hp := addrAt_ind (V := V) hk
    have hr := h.range (.ind k) (by rw [hp]; exact h0)
    rw [hp] at hr
    exact hV _ hr.2 (hind k hk h0)
  refine ⟨h.transport ?_ ?_ ?_ (fun _ => rfl) (fun _ _ => rfl) ?_ h.dev, haddr⟩
  · have := one_lt_dstart sb
    exact hV 1 (by omega) hx.symm
  · intro b hb
    have hlt := BBLOCK_lt (Nat.lt_of_lt_of_le hb (lstart_le sb))
    unfold usedBit
    rw [hV _ (by omega) (hbit b hb)]
  · intro p
    cases p with
    | data k bn =>
      by_cases hk : Live sb D k
      · rw [addrAt_data hk, addrAt_data hk, haddr k hk]
      · rw [addrAt_dead hk, addrAt_dead hk]
    | ind k => rfl
  · intro k hk
    refine ⟨(h.mapped k hk).size_le, fun bn hbn => ?_⟩
    rw [haddr k hk]
    exact (h.mapped k hk).block bn hbn

/-- The address of a data block, and that no indirect block has it. -/
theorem Fs.data_block (h : Fs sb V D) {k bn : Nat} (hk : Live sb D k)
    (ha : blockAddr V (D k) bn ≠ 0) : dstart sb ≤ (blockAddr V (D k) bn).toNat ∧
      (blockAddr V (D k) bn).toNat < lstart sb ∧
      ∀ k', Live sb D k' → (D k').addrs 10 ≠ 0 →
        ((D k').addrs 10).toNat ≠ (blockAddr V (D k) bn).toNat := by
  have hp : addrAt sb V D (.data k bn) = blockAddr V (D k) bn := addrAt_data hk bn
  have hr := h.range (.data k bn) (by rw [hp]; exact ha)
  rw [hp] at hr
  refine ⟨hr.1, hr.2, ?_⟩
  intro k' hk' hne he
  have hi := addrAt_ind (V := V) hk'
  have := h.inj (.ind k') (.data k bn) (by rw [hi]; exact hne)
    (by rw [hi, hp]; exact UInt32.toNat_inj.mp he)
  cases this

/-- Two different data blocks have different addresses. -/
theorem Fs.data_inj (h : Fs sb V D) {k bn k' bn' : Nat} (hk : Live sb D k) (hk' : Live sb D k')
    (ha : blockAddr V (D k) bn ≠ 0)
    (he : (blockAddr V (D k) bn).toNat = (blockAddr V (D k') bn').toNat) : k = k' ∧ bn = bn' := by
  have hp : addrAt sb V D (.data k bn) = blockAddr V (D k) bn := addrAt_data hk bn
  have hp' : addrAt sb V D (.data k' bn') = blockAddr V (D k') bn' := addrAt_data hk' bn'
  have := h.inj (.data k bn) (.data k' bn') (by rw [hp]; exact ha)
    (by rw [hp, hp']; exact UInt32.toNat_inj.mp he)
  cases this
  exact ⟨rfl, rfl⟩

/-- Sectors outside the data area hold no contents. -/
theorem Fs.frame (h : Fs sb V D) {x : Nat} (hV : Same sb x V V') (hlt : x < dstart sb)
    (hx : x ≠ 1) (hbit : ∀ b, b < lstart sb → BBLOCK b sb.ninodes ≠ x) :
    Fs sb V' D ∧ ∀ k, Live sb D k → contents V' (D k) = contents V (D k) := by
  have hind : ∀ k, Live sb D k → (D k).addrs 10 ≠ 0 → ((D k).addrs 10).toNat ≠ x := by
    intro k hk h0 he
    have hp := addrAt_ind (V := V) hk
    have hr := h.range (.ind k) (by rw [hp]; exact h0)
    rw [hp] at hr
    omega
  obtain ⟨hfs, haddr⟩ := h.agree hV hx hbit hind
  refine ⟨hfs, fun k hk => contents_congr rfl fun o ho => ?_⟩
  have hd := h.data_block hk ((h.mapped k hk).block (o / 512) (by omega))
  unfold byteAt
  rw [haddr k hk, hV _ hd.2.1 (by omega)]

/-- An inode sector holds no contents. -/
theorem Fs.frame_inode (h : Fs sb V D) {n : Nat} (hn : n < sb.ninodes)
    (hV : Same sb (IBLOCK n) V V') :
    Fs sb V' D ∧ ∀ k, Live sb D k → contents V' (D k) = contents V (D k) :=
  h.frame hV (IBLOCK_lt hn) (IBLOCK_ne_one n) fun _ _ => IBLOCK_ne_BBLOCK hn

/-- The log holds no contents. -/
theorem Fs.frame_log (h : Fs sb V D) (hV : SameAll sb V V') :
    Fs sb V' D ∧ ∀ k, Live sb D k → contents V' (D k) = contents V (D k) :=
  h.frame (hV.same 0) (by unfold dstart; omega) (by omega) fun b _ => by unfold BBLOCK; omega

/-- A data block holds the bytes of one block of one file. -/
theorem Fs.write_data (h : Fs sb V D) {k bn : Nat} (hk : Live sb D k)
    (ha : blockAddr V (D k) bn ≠ 0) (hV : Same sb (blockAddr V (D k) bn).toNat V V') :
    Fs sb V' D ∧
    (∀ k', Live sb D k' → ∀ bn, blockAddr V' (D k') bn = blockAddr V (D k') bn) ∧
    ∀ k', Live sb D k' → ∀ o, o < (D k').size.toNat → ¬ (k' = k ∧ o / 512 = bn) →
      byteAt V' (D k') o = byteAt V (D k') o := by
  have hd := h.data_block hk ha
  have h1 := one_lt_dstart sb
  have hbit : ∀ b, b < lstart sb → BBLOCK b sb.ninodes ≠ (blockAddr V (D k) bn).toNat := by
    intro b hb
    have := BBLOCK_lt (Nat.lt_of_lt_of_le hb (lstart_le sb))
    omega
  obtain ⟨hfs, haddr⟩ := h.agree hV (by omega) hbit hd.2.2
  refine ⟨hfs, haddr, ?_⟩
  intro k' hk' o ho hne
  have ha' := (h.mapped k' hk').block (o / 512) (by omega)
  have hd' := h.data_block hk' ha'
  unfold byteAt
  rw [haddr k' hk', hV _ hd'.2.1 fun he => hne (h.data_inj hk' hk ha' he)]

/-- A write to the data area leaves the dinodes on disk alone. -/
theorem table_data (harea : dstart sb ≤ lstart sb) {x k : Nat} (hV : Same sb x V V')
    (hx : dstart sb ≤ x) (hk : k < sb.ninodes) : table V' k = table V k := by
  have := IBLOCK_lt hk
  unfold table
  rw [hV _ (by omega) (by omega)]

/-- Storing one dinode changes its own entry of the table. -/
theorem table_setDinode (harea : dstart sb ≤ lstart sb) {n : Nat} {d : Dinode}
    (hV : Same sb (IBLOCK n) V V') (hn : V' (IBLOCK n) = (V (IBLOCK n)).setDinode (n % 8) d) :
    table V' n = d.core ∧ ∀ k, k < sb.ninodes → k ≠ n → table V' k = table V k := by
  refine ⟨?_, ?_⟩
  · unfold table
    rw [hn, dinode_setDinode _ _ _ (by omega)]
  · intro k hk hne
    have := IBLOCK_lt hk
    unfold table
    by_cases hb : IBLOCK k = IBLOCK n
    · rw [hb, hn, dinode_setDinode_ne]
      unfold IBLOCK at hb
      omega
    · rw [hV _ (by omega) hb]

end Sector

end Zv6
