/-
  Small volumes.

  `image top files` are the sectors of a volume with 16 inodes, one bitmap sector, a data area
  from block 6 to the log at block 160, and the files of a list: inode `k` is the `k`-th of
  them, its blocks are `6 + 10 (k - 1)` and following, and the bitmap has its first `top` bits
  set. A file is given by what it is (`Spec`), its stored checksum included, so that damaged
  files can be written down. A list that is `SpecsOk` makes a consistent volume
  (`image_fs`).
-/
import Zv6.Fs.Journal
import Zv6.Fs.Slots

namespace Zv6

open Lib

/-- A file of at most ten blocks. -/
structure Spec where
  type : UInt16
  nlink : UInt16 := 1
  child1 : UInt16 := 0
  child2 : UInt16 := 0
  checksum : UInt32
  data : List UInt8
  deriving DecidableEq

/-- The dinode of a file kept as inode `k`. -/
def Spec.dinode (f : Spec) (k : Nat) : Dinode :=
  { type := f.type, major := 0, minor := 0, nlink := f.nlink
    size := UInt32.ofNat f.data.length
    addrs := fun j => if 512 * j.val < f.data.length ∧ j.val < 10
      then UInt32.ofNat (6 + 10 * (k - 1) + j.val) else 0
    child1 := f.child1, child2 := f.child2, checksum := f.checksum }

/-- The dinode of inode `k`. -/
def dinodeAt (files : List Spec) (k : Nat) : Dinode :=
  if k = 0 then Dinode.zero
  else
    match files[k - 1]? with
    | some f => f.dinode k
    | none => Dinode.zero

/-- The superblock of the volumes here. -/
def imageSb : Superblock := { size := 180, nblocks := 154, ninodes := 16, nlog := 20 }

def superBlock : Block :=
  (((Block.zero.setWord 0 180).setWord 1 154).setWord 2 16).setWord 3 20

/-- The sector of inodes `8 i` to `8 i + 7`. -/
def inodeBlock (files : List Spec) (i : Nat) : Block :=
  (List.range 8).foldl (fun b j => b.setDinode j (dinodeAt files (8 * i + j))) Block.zero

/-- The bitmap sector with the first `top` bits set. -/
def bitmap (top : Nat) : Block :=
  ⟨fun i => UInt8.ofNat (2 ^ min 8 (top - 8 * i.val) - 1)⟩

/-- Block `bn` of inode `k`. -/
def dataBlock (files : List Spec) (k bn : Nat) : Block :=
  match files[k - 1]? with
  | some f => ⟨fun i => f.data.getD (512 * bn + i.val) 0⟩
  | none => Block.zero

def image (top : Nat) (files : List Spec) : Nat → Block := fun c =>
  if c = 1 then superBlock
  else if c = 2 ∨ c = 3 then inodeBlock files (c - 2)
  else if c = 5 then bitmap top
  else if 6 ≤ c ∧ c < 156 then dataBlock files ((c - 6) / 10 + 1) ((c - 6) % 10)
  else Block.zero

/-- The inode is allocated, fits in ten blocks, and is empty if it is a device. -/
def Spec.Ok (f : Spec) : Prop :=
  f.type ≠ 0 ∧ f.data.length ≤ 5120 ∧ (f.type = T_DEV → f.data = [])

instance (f : Spec) : Decidable f.Ok := inferInstanceAs (Decidable (_ ∧ _ ∧ _))

/-- The dittos an inode names are dittos of the list. -/
def kidsThere (files : List Spec) (k : Nat) (i : Bool) : Prop :=
  (dinodeAt files k).child i ≠ 0 → (dinodeAt files k).child i < 16 ∧
    (dinodeAt files ((dinodeAt files k).child i)).type = T_DITTO

instance (files : List Spec) (k : Nat) (i : Bool) : Decidable (kidsThere files k i) :=
  inferInstanceAs (Decidable (_ → _))

/-- No ditto is named twice. -/
def kidsOnce (files : List Spec) (k k' : Nat) (i i' : Bool) : Prop :=
  (dinodeAt files k).child i ≠ 0 →
    (dinodeAt files k).child i = (dinodeAt files k').child i' → k = k' ∧ i = i'

instance (files : List Spec) (k k' : Nat) (i i' : Bool) : Decidable (kidsOnce files k k' i i') :=
  inferInstanceAs (Decidable (_ → _ → _))

/-- The list makes a consistent volume. -/
def SpecsOk (files : List Spec) : Prop :=
  (∀ f ∈ files, f.Ok) ∧ (∀ k < 16, ∀ i, kidsThere files k i) ∧
  (∀ k < 16, (dinodeAt files k).type = T_DITTO → ∀ i, (dinodeAt files k).child i = 0) ∧
  ∀ k < 16, ∀ k' < 16, ∀ i i', kidsOnce files k k' i i'

instance (files : List Spec) : Decidable (SpecsOk files) :=
  inferInstanceAs (Decidable (_ ∧ _ ∧ _ ∧ _))

/-! ## The sectors -/

theorem superblock_superBlock : superBlock.superblock = imageSb := by decide

theorem foldl_setDinode (d : Nat → Dinode) (b : Block) (n j : Nat) (hn : n ≤ 8) (hj : j < 8) :
    ((List.range n).foldl (fun b j => b.setDinode j (d j)) b).dinode j =
      if j < n then d j else b.dinode j := by
  induction n with
  | zero => rw [if_neg (by omega)]; rfl
  | succ n ih =>
    rw [List.range_succ, List.foldl_append]
    show (Block.setDinode _ n (d n)).dinode j = _
    by_cases hjn : j = n
    · subst hjn
      rw [dinode_setDinode _ _ _ hj, if_pos (by omega)]
    · rw [dinode_setDinode_ne _ _ _ _ hjn, ih (by omega)]
      by_cases h : j < n
      · rw [if_pos h, if_pos (by omega)]
      · rw [if_neg h, if_neg (by omega)]

theorem table_image (top : Nat) (files : List Spec) {k : Nat} (hk : k < 16) :
    table (image top files) k = (dinodeAt files k).core := by
  have hblk : image top files (IBLOCK k) = inodeBlock files (k / 8) := by
    unfold image IBLOCK
    rw [if_neg (by omega), if_pos (by omega), Nat.add_sub_cancel]
  unfold table
  rw [hblk]
  unfold inodeBlock
  rw [foldl_setDinode (fun j => dinodeAt files (8 * (k / 8) + j)) _ 8 _ (Nat.le_refl _) (by omega),
    if_pos (by omega), Nat.div_add_mod]

theorem bit_bitmap (top b : Nat) (hb : b < 4096) : (bitmap top).bit b = decide (b < top) := by
  have hlt : 2 ^ min 8 (top - 8 * (b / 8)) - 1 < 2 ^ 8 := by
    have : 2 ^ min 8 (top - 8 * (b / 8)) ≤ 2 ^ 8 := Nat.pow_le_pow_right (by omega) (by omega)
    omega
  unfold Block.bit Block.byte bitmap
  rw [dif_pos (by omega), UInt8.toNat_ofNat', Nat.mod_eq_of_lt hlt, Nat.testBit_two_pow_sub_one]
  congr 1
  apply propext
  omega

theorem usedBit_image (top : Nat) (files : List Spec) {b : Nat} (hb : b < 4096) :
    usedBit imageSb (image top files) b = decide (b < top) := by
  have hblk : image top files (BBLOCK b imageSb.ninodes) = bitmap top := by
    have : BBLOCK b imageSb.ninodes = 5 := by
      unfold BBLOCK imageSb
      simp only
      omega
    rw [this]
    rfl
  unfold usedBit
  rw [hblk, Nat.mod_eq_of_lt hb, bit_bitmap _ _ hb]

/-! ## The volume -/

section Volume

variable {top : Nat} {files : List Spec} {f : Spec} {k : Nat}

theorem dinodeAt_live (hk : 1 ≤ k) (ht : (dinodeAt files k).type ≠ 0) :
    ∃ f ∈ files, files[k - 1]? = some f ∧ dinodeAt files k = f.dinode k := by
  unfold dinodeAt at ht ⊢
  rw [if_neg (by omega)] at ht ⊢
  cases hf : files[k - 1]? with
  | none =>
    rw [hf] at ht
    exact absurd rfl ht
  | some f => exact ⟨f, List.mem_of_getElem? hf, rfl, rfl⟩

theorem size_dinode (k : Nat) (hf : f.data.length ≤ 5120) :
    (f.dinode k).core.size.toNat = f.data.length := by
  show (UInt32.ofNat f.data.length).toNat = _
  rw [UInt32.toNat_ofNat']
  exact Nat.mod_eq_of_lt (by omega)

/-- The address of a block of a file in the image. -/
theorem blockAddr_spec (V : Nat → Block) (hf : f.data.length ≤ 5120) (k bn : Nat) :
    blockAddr V (f.dinode k).core bn = if 512 * bn < f.data.length
      then UInt32.ofNat (6 + 10 * (k - 1) + bn) else 0 := by
  unfold blockAddr
  by_cases h10 : bn < 10
  · rw [dif_pos h10]
    show (if 512 * bn < f.data.length ∧ bn < 10 then _ else _) = _
    simp only [h10, and_true]
  · have hind : (f.dinode k).core.addrs 10 = 0 := by
      show (if 512 * 10 < f.data.length ∧ 10 < 10 then _ else _) = _
      rw [if_neg (by omega)]
    rw [dif_neg h10, hind, if_pos rfl, ite_self, if_neg (by omega)]

theorem toNat_block (hk : k < 16) {bn : Nat} (hbn : bn < 10) :
    (UInt32.ofNat (6 + 10 * (k - 1) + bn)).toNat = 6 + 10 * (k - 1) + bn := by
  rw [UInt32.toNat_ofNat']
  exact Nat.mod_eq_of_lt (by omega)

/-- The live inodes of the image are the files of the list. -/
theorem live_image (h : SpecsOk files) (hk : Live imageSb (table (image top files)) k) :
    1 ≤ k ∧ k < 16 ∧ ∃ f ∈ files, files[k - 1]? = some f ∧
      table (image top files) k = (f.dinode k).core ∧ f.data.length ≤ 5120 := by
  obtain ⟨h1, h16, ht⟩ := hk
  have h16 : k < 16 := h16
  rw [table_image top files h16] at ht
  obtain ⟨f, hmem, hf, hd⟩ := dinodeAt_live h1 ht
  refine ⟨h1, h16, f, hmem, hf, ?_, (h.1 f hmem).2.1⟩
  rw [table_image top files h16, hd]

/-- Where the addresses of the image are. -/
theorem addrAt_image (h : SpecsOk files) (p : Pos)
    (hp : addrAt imageSb (image top files) (table (image top files)) p ≠ 0) :
    ∃ k bn, p = .data k bn ∧ 1 ≤ k ∧ k < 16 ∧ k ≤ files.length ∧ bn < 10 ∧
      (addrAt imageSb (image top files) (table (image top files)) p).toNat =
        6 + 10 * (k - 1) + bn := by
  cases p with
  | ind k =>
    by_cases hk : Live imageSb (table (image top files)) k
    · obtain ⟨-, -, f, -, -, hd, -⟩ := live_image h hk
      rw [addrAt_ind hk, hd] at hp
      refine absurd ?_ hp
      show (if 512 * 10 < f.data.length ∧ 10 < 10 then _ else _) = _
      rw [if_neg (by omega)]
    · exact absurd (if_neg hk) hp
  | data k bn =>
    by_cases hk : Live imageSb (table (image top files)) k
    · obtain ⟨h1, h16, f, -, hf, hd, hlen⟩ := live_image h hk
      have hlt := (List.getElem?_eq_some_iff.mp hf).1
      rw [addrAt_data hk, hd, blockAddr_spec _ hlen] at hp ⊢
      by_cases hbn : 512 * bn < f.data.length
      · rw [if_pos hbn]
        exact ⟨k, bn, rfl, h1, h16, by omega, by omega, toNat_block h16 (by omega)⟩
      · rw [if_neg hbn] at hp
        exact absurd rfl hp
    · exact absurd (addrAt_dead hk bn) hp

theorem child_core (d : Dinode) (i : Bool) : d.core.child i = d.child i := rfl

theorem image_fs (h : SpecsOk files) (htop : 6 + 10 * files.length ≤ top) :
    Fs imageSb (image top files) (table (image top files)) := by
  have hpos : ∀ p, addrAt imageSb (image top files) (table (image top files)) p ≠ 0 → _ :=
    addrAt_image h
  refine { super := superblock_superBlock, area := by decide, ninodes := by decide,
           reserved := ?_, range := ?_, used := ?_, inj := ?_, mapped := ?_, dev := ?_, child := ?_,
           childless := ?_, parent := ?_ }
  · intro b hb
    have hb : b < 6 := hb
    rw [usedBit_image _ _ (by omega), decide_eq_true_eq]
    omega
  · intro p hp
    obtain ⟨k, bn, -, h1, h16, hle, hbn, hb⟩ := hpos p hp
    rw [hb]
    have : dstart imageSb = 6 ∧ lstart imageSb = 160 := ⟨rfl, rfl⟩
    omega
  · intro p hp
    obtain ⟨k, bn, -, h1, h16, hle, hbn, hb⟩ := hpos p hp
    rw [hb, usedBit_image _ _ (by omega), decide_eq_true_eq]
    omega
  · intro p q hp he
    obtain ⟨k, bn, rfl, h1, h16, -, hbn, hb⟩ := hpos p hp
    obtain ⟨k', bn', rfl, h1', h16', -, hbn', hb'⟩ := hpos q (he ▸ hp)
    rw [he, hb'] at hb
    have : k = k' ∧ bn = bn' := by omega
    rw [this.1, this.2]
  · intro k hk
    obtain ⟨h1, h16, f, -, -, hd, hlen⟩ := live_image h hk
    have hsize := size_dinode k hlen
    rw [hd]
    refine ⟨by omega, fun bn hbn => ?_⟩
    rw [blockAddr_spec _ hlen, if_pos (by omega)]
    intro h0
    have : (UInt32.ofNat (6 + 10 * (k - 1) + bn)).toNat = _ := toNat_block h16 (by omega)
    rw [h0] at this
    have hz : (0 : UInt32).toNat = 0 := rfl
    omega
  · intro k hk ht
    obtain ⟨-, -, f, hmem, -, hd, -⟩ := live_image h hk
    rw [hd] at ht ⊢
    have := (h.1 f hmem).2.2 ht
    show UInt32.ofNat f.data.length = 0
    rw [this]
    rfl
  · intro k i hk
    obtain ⟨h1, h16, -⟩ := live_image h hk
    rw [table_image _ _ h16, child_core]
    intro hi
    obtain ⟨hlt, ht⟩ := h.2.1 k h16 i hi
    refine ⟨⟨by omega, hlt, ?_⟩, ?_⟩
    · rw [table_image _ _ hlt]
      show (dinodeAt files _).type ≠ 0
      rw [ht]
      decide
    · rw [table_image _ _ hlt]
      exact ht
  · intro k hk ht
    obtain ⟨h1, h16, -⟩ := live_image h hk
    rw [table_image _ _ h16] at ht ⊢
    have := h.2.2.1 k h16 ht
    exact ⟨UInt16.toNat_inj.mp (this false), UInt16.toNat_inj.mp (this true)⟩
  · intro k k' i i' hk hk'
    obtain ⟨-, h16, -⟩ := live_image h hk
    obtain ⟨-, h16', -⟩ := live_image h hk'
    rw [table_image _ _ h16, table_image _ _ h16', child_core, child_core]
    exact h.2.2.2 k h16 k' h16' i i'

/-- The dittos an inode names have its size and stored checksum. -/
def kidsPaired (files : List Spec) (k : Nat) (i : Bool) : Prop :=
  (dinodeAt files k).child i ≠ 0 →
    (dinodeAt files ((dinodeAt files k).child i)).size = (dinodeAt files k).size ∧
    (dinodeAt files ((dinodeAt files k).child i)).checksum = (dinodeAt files k).checksum

instance (files : List Spec) (k : Nat) (i : Bool) : Decidable (kidsPaired files k i) :=
  inferInstanceAs (Decidable (_ → _))

theorem image_paired (h : SpecsOk files) (hp : ∀ k < 16, ∀ i, kidsPaired files k i) :
    Paired imageSb (table (image top files)) := by
  intro k i hk
  obtain ⟨-, h16, -⟩ := live_image h hk
  rw [table_image _ _ h16, child_core]
  intro hi
  rw [table_image _ _ (h.2.1 k h16 i hi).1]
  exact hp k h16 i hi

/-- The contents of a file of the image are its data. -/
theorem contents_image (hk : 1 ≤ k ∧ k < 16) (hf : files[k - 1]? = some f)
    (hlen : f.data.length ≤ 5120) :
    contents (image top files) (table (image top files) k) = f.data := by
  have hd : table (image top files) k = (f.dinode k).core := by
    rw [table_image _ _ hk.2]
    unfold dinodeAt
    rw [if_neg (by omega), hf]
  have hsize := size_dinode k hlen
  rw [hd]
  apply List.ext_getElem?
  intro o
  by_cases ho : o < f.data.length
  · unfold contents
    rw [getElem?_slice _ _ _ _ _ (by omega), Nat.zero_add, List.getElem?_eq_getElem ho]
    congr 1
    unfold byteAt
    rw [blockAddr_spec _ hlen, if_pos (by omega), toNat_block hk.2 (by omega)]
    have hblk : image top files (6 + 10 * (k - 1) + o / 512) = dataBlock files k (o / 512) := by
      unfold image
      have h1 : (6 + 10 * (k - 1) + o / 512 - 6) / 10 + 1 = k := by omega
      have h2 : (6 + 10 * (k - 1) + o / 512 - 6) % 10 = o / 512 := by omega
      rw [if_neg (by omega), if_neg (by omega), if_neg (by omega), if_pos (by omega), h1, h2]
    rw [hblk]
    unfold dataBlock
    rw [hf]
    show Block.byte ⟨fun i => f.data.getD (512 * (o / 512) + i.val) 0⟩ (o % 512) = _
    unfold Block.byte
    rw [dif_pos (by omega)]
    show f.data.getD (512 * (o / 512) + o % 512) 0 = _
    rw [Nat.div_add_mod, List.getD_eq_getElem?_getD, List.getElem?_eq_getElem ho,
      Option.getD_some]
  · rw [List.getElem?_eq_none (by rw [length_contents]; omega), List.getElem?_eq_none (by omega)]

/-- A file of the image matches its checksum if its data does. -/
theorem good_image (hk : 1 ≤ k ∧ k < 16) (hf : files[k - 1]? = some f)
    (hlen : f.data.length ≤ 5120) :
    Good (image top files) (table (image top files)) k ↔ checksumOf f.data = f.checksum := by
  unfold Good
  rw [contents_image hk hf hlen, table_image _ _ hk.2]
  unfold dinodeAt
  rw [if_neg (by omega), hf]
  exact Iff.rfl

end Volume

/-! ## The machine -/

/-- The log of the volumes here, between transactions. -/
def imageLog : Log :=
  { start := 160, size := 20, busy := false, dev := 1, n := 0, sector := fun _ => 0 }

/-- A machine just booted from an image: slot 0 is in use for inode `n`, the working directory
    of process 0. -/
def machine (top : Nat) (files : List Spec) (n : Nat) : State :=
  { State.blank imageLog with
    disk := fun _ => image top files
    icache := fun j => if j = 0 then { Inode.unused with dev := 1, inum := n, ref := 1 }
      else Inode.unused
    proc := fun p => { ofile := fun _ => none, cwd := if p = 0 then some 0 else none } }

section Machine

variable (top : Nat) (files : List Spec) (n : Nat)

theorem machine_idle : Idle (machine top files n) :=
  ⟨rfl, rfl, rfl, fun _ => rfl, Block.word_zero 0⟩

theorem machine_placed : Placed imageSb (machine top files n) := ⟨rfl, rfl⟩

theorem machine_caches {j : Fin 100} {k : Nat} :
    Caches (machine top files n).icache j k ↔ j = 0 ∧ k = n := by
  unfold Caches machine
  by_cases hj : j = 0
  · simp [hj, eq_comm]
  · simp [hj, Inode.unused]

theorem machine_slot {j : Fin 100} (h : 0 < ((machine top files n).icache j).ref) : j = 0 :=
  ((machine_caches top files n).mp ⟨h, rfl⟩).1

theorem machine_free : 2 ≤ (freeSlots (machine top files n)).card := by
  have hsub : ({1, 2} : Finset (Fin 100)) ⊆ freeSlots (machine top files n) := by
    intro j hj
    have hj : j = 1 ∨ j = 2 := by simpa using hj
    unfold freeSlots
    rw [Finset.mem_filter]
    refine ⟨Finset.mem_univ _, ?_⟩
    rcases hj with rfl | rfl <;> rfl
  exact Finset.card_le_card hsub

end Machine

end Zv6
