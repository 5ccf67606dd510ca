/-
  A machine whose inode cache is full.

  The volume has a root directory with the entries ".", ".." and "a", a file with a ditto and 124
  empty files, one of them "a".
  `crowded f` is a machine with it on which slot `j` is in use for inode `f j`, so that no slot
  is free. Nothing is damaged and nothing is locked (`crowded_vol`, `crowd_sound`).
-/
import Zv6.Fs.Machine

namespace Zv6

open Lib

def crowdSb : Superblock := { size := 180, nblocks := 140, ninodes := 128, nlog := 20 }

/-- The entries ".", ".." and "a" of the root; "a" is inode 120. -/
def crowdRoot : List UInt8 :=
  { inum := 1, name := [46] : Dirent }.bytes ++ { inum := 1, name := [46, 46] : Dirent }.bytes ++
    { inum := 120, name := [97] : Dirent }.bytes

def crowdInode (k : Nat) : Dinode :=
  if k = 0 then Dinode.zero
  else if k = 1 then { Dinode.zero with
    type := T_DIR, nlink := 1, size := 48, addrs := fun j => if j = 0 then 20 else 0
    checksum := checksumOf crowdRoot }
  else if k = 2 then { Dinode.zero with type := T_FILE, nlink := 1, child1 := 3 }
  else if k = 3 then { Dinode.zero with type := T_DITTO, nlink := 1 }
  else { Dinode.zero with type := T_FILE, nlink := 1 }

def crowdSuper : Block :=
  (((Block.zero.setWord 0 180).setWord 1 140).setWord 2 128).setWord 3 20

/-- The sectors of the volume. -/
def crowd : Nat → Block := fun c =>
  if c = 1 then crowdSuper
  else if 2 ≤ c ∧ c < 18 then
    (List.range 8).foldl (fun b j => b.setDinode j (crowdInode (8 * (c - 2) + j))) Block.zero
  else if c = 19 then bitmap 21
  else if c = 20 then ⟨fun i => crowdRoot.getD i.val 0⟩
  else Block.zero

def crowded (f : Fin 100 → Nat) : State :=
  { State.blank imageLog with
    disk := fun _ => crowd
    icache := fun j => { Inode.unused with dev := 1, inum := f j, ref := 1 }
    proc := fun p => { ofile := fun _ => none, cwd := if p = 0 then some 0 else none } }

/-! ## The volume -/

theorem table_crowd {k : Nat} (hk : k < 128) : table crowd k = (crowdInode k).core := by
  unfold table crowd IBLOCK
  rw [if_neg (by omega), if_pos (by omega), Nat.add_sub_cancel,
    foldl_setDinode (fun j => crowdInode (8 * (k / 8) + j)) _ 8 _ (Nat.le_refl _) (by omega),
    if_pos (by omega), Nat.div_add_mod]

theorem usedBit_crowd {b : Nat} (hb : b < 4096) :
    usedBit crowdSb crowd b = decide (b < 21) := by
  have hblk : crowd (BBLOCK b crowdSb.ninodes) = bitmap 21 := by
    have : BBLOCK b crowdSb.ninodes = 19 := by
      unfold BBLOCK crowdSb
      simp only
      omega
    rw [this]
    rfl
  unfold usedBit
  rw [hblk, Nat.mod_eq_of_lt hb, bit_bitmap _ _ hb]

/-- Only the root has data. -/
theorem crowdInode_empty {k : Nat} (hk : k ≠ 1) :
    (crowdInode k).size = 0 ∧ (crowdInode k).addrs = (fun _ => 0) ∧
      (crowdInode k).checksum = 0 := by
  unfold crowdInode
  rw [if_neg hk]
  split_ifs <;> exact ⟨rfl, rfl, rfl⟩

theorem crowdInode_root : (crowdInode 1).core.checksum = checksumOf crowdRoot := by
  unfold crowdInode Dinode.core
  rw [if_neg (by omega), if_pos rfl]

/-- Only inode 2 has a ditto. -/
theorem crowdInode_child {k : Nat} {i : Bool} (h : (crowdInode k).child i ≠ 0) :
    k = 2 ∧ i = false ∧ (crowdInode k).child i = 3 := by
  have hk : k = 2 := by
    by_contra hne
    apply h
    unfold crowdInode
    rw [if_neg hne]
    split_ifs <;> cases i <;> rfl
  subst hk
  cases i
  · exact ⟨rfl, rfl, rfl⟩
  · exact absurd rfl h

theorem crowdInode_type {k : Nat} (h1 : 1 ≤ k) : (crowdInode k).type ≠ 0 ∧
    (crowdInode k).type ≠ T_DEV ∧ ((crowdInode k).type = T_DITTO → k = 3) := by
  by_cases h3 : k = 3
  · subst h3
    decide
  · unfold crowdInode
    rw [if_neg (by omega), if_neg h3]
    split_ifs <;> refine ⟨by decide, by decide, fun h => absurd h (by decide)⟩

theorem live_crowd {k : Nat} : Live crowdSb (table crowd) k ↔ 1 ≤ k ∧ k < 128 := by
  constructor
  · intro h
    exact ⟨h.1, h.2.1⟩
  · rintro ⟨h1, h2⟩
    refine ⟨h1, h2, ?_⟩
    rw [table_crowd h2]
    exact (crowdInode_type h1).1

/-- The blocks of an empty inode. -/
theorem blockAddr_nil {d : Dinode} (h : d.addrs = fun _ => 0) (V : Nat → Block) (bn : Nat) :
    blockAddr V d bn = 0 := by
  unfold blockAddr
  rw [h]
  simp

theorem blockAddr_crowd (bn : Nat) :
    blockAddr crowd (crowdInode 1).core bn = if bn = 0 then 20 else 0 := by
  unfold blockAddr
  by_cases h10 : bn < 10
  · rw [dif_pos h10]
    show (if (⟨bn, direct_lt h10⟩ : Fin 11) = 0 then (20 : UInt32) else 0) = _
    simp only [Fin.ext_iff, Fin.val_zero]
  · rw [dif_neg h10, if_neg (by omega : ¬ bn = 0)]
    show (if bn < 138 then (if (0 : UInt32) = 0 then (0 : UInt32) else _) else 0) = 0
    rw [if_pos rfl, ite_self]

/-- The only block in use is that of the root. -/
theorem addrAt_crowd (p : Pos) (hp : addrAt crowdSb crowd (table crowd) p ≠ 0) :
    p = .data 1 0 ∧ addrAt crowdSb crowd (table crowd) p = 20 := by
  cases p with
  | ind k =>
    by_cases hk : Live crowdSb (table crowd) k
    · rw [addrAt_ind hk, table_crowd (live_crowd.mp hk).2] at hp
      by_cases hk1 : k = 1
      · subst hk1
        exact absurd rfl hp
      · exact absurd (congrFun (crowdInode_empty hk1).2.1 10) hp
    · exact absurd (if_neg hk) hp
  | data k bn =>
    by_cases hk : Live crowdSb (table crowd) k
    · rw [addrAt_data hk, table_crowd (live_crowd.mp hk).2] at hp ⊢
      by_cases hk1 : k = 1
      · subst hk1
        rw [blockAddr_crowd] at hp ⊢
        by_cases hbn : bn = 0
        · rw [if_pos hbn, hbn]
          exact ⟨rfl, rfl⟩
        · rw [if_neg hbn] at hp
          exact absurd rfl hp
      · exact absurd
          (blockAddr_nil (d := (crowdInode k).core) (crowdInode_empty hk1).2.1 crowd bn) hp
    · exact absurd (addrAt_dead hk bn) hp

theorem crowd_fs : Fs crowdSb crowd (table crowd) := by
  have harea : dstart crowdSb = 20 ∧ lstart crowdSb = 160 := ⟨rfl, rfl⟩
  have h20 : (20 : UInt32).toNat = 20 := rfl
  refine { super := by decide, area := by decide, ninodes := by decide, reserved := ?_,
           range := ?_, used := ?_, inj := ?_, mapped := ?_, dev := ?_, child := ?_,
           childless := ?_, parent := ?_ }
  · intro b hb
    rw [usedBit_crowd (by omega), decide_eq_true_eq]
    omega
  · intro p hp
    rw [(addrAt_crowd p hp).2]
    omega
  · intro p hp
    rw [(addrAt_crowd p hp).2, usedBit_crowd (by omega)]
    rfl
  · intro p q hp he
    rw [(addrAt_crowd p hp).1, (addrAt_crowd q (he ▸ hp)).1]
  · intro k hk
    obtain ⟨h1, h128⟩ := live_crowd.mp hk
    rw [table_crowd h128]
    by_cases hk1 : k = 1
    · subst hk1
      refine ⟨by decide, fun bn hbn => ?_⟩
      have hbn : bn * 512 < 48 := hbn
      rw [blockAddr_crowd, if_pos (by omega)]
      decide
    · have hsize : (crowdInode k).core.size = 0 := (crowdInode_empty hk1).1
      refine ⟨by rw [hsize]; decide, fun bn hbn => ?_⟩
      rw [hsize] at hbn
      exact absurd hbn (Nat.not_lt_zero _)
  · intro k hk ht
    obtain ⟨h1, h128⟩ := live_crowd.mp hk
    rw [table_crowd h128] at ht
    exact absurd ht (crowdInode_type h1).2.1
  · intro k i hk hi
    obtain ⟨h1, h128⟩ := live_crowd.mp hk
    rw [table_crowd h128, child_core] at hi ⊢
    rw [(crowdInode_child hi).2.2]
    refine ⟨live_crowd.mpr (by omega), ?_⟩
    rw [table_crowd (by omega)]
    rfl
  · intro k hk ht
    obtain ⟨h1, h128⟩ := live_crowd.mp hk
    rw [table_crowd h128] at ht ⊢
    rw [(crowdInode_type h1).2.2 ht]
    exact ⟨rfl, rfl⟩
  · intro k k' i i' hk hk' hi he
    obtain ⟨-, h128⟩ := live_crowd.mp hk
    obtain ⟨-, h128'⟩ := live_crowd.mp hk'
    rw [table_crowd h128, child_core] at hi he
    rw [table_crowd h128', child_core] at he
    obtain ⟨rfl, rfl, -⟩ := crowdInode_child hi
    obtain ⟨rfl, rfl, -⟩ := crowdInode_child (he ▸ hi)
    exact ⟨rfl, rfl⟩

theorem contents_crowd_root : contents crowd (table crowd 1) = crowdRoot := by
  rw [table_crowd (by omega)]
  apply List.ext_getElem?
  intro o
  by_cases ho : o < 48
  · have hsize : (crowdInode 1).core.size.toNat = 48 := rfl
    rw [getElem?_contents _ _ (by omega), List.getElem?_eq_getElem
      (show o < crowdRoot.length from ho)]
    congr 1
    unfold byteAt
    rw [blockAddr_crowd, if_pos (by omega)]
    show Block.byte ⟨fun i => crowdRoot.getD i.val 0⟩ (o % 512) = _
    unfold Block.byte
    rw [dif_pos (by omega)]
    show crowdRoot.getD (o % 512) 0 = _
    rw [Nat.mod_eq_of_lt (by omega), List.getD_eq_getElem?_getD,
      List.getElem?_eq_getElem (show o < crowdRoot.length from ho), Option.getD_some]
  · rw [List.getElem?_eq_none (by rw [length_contents]; exact Nat.le_of_not_lt ho),
      List.getElem?_eq_none (Nat.le_of_not_lt ho)]

theorem contents_crowd_empty {k : Nat} (hk : k < 128) (h1 : k ≠ 1) :
    contents crowd (table crowd k) = [] := by
  apply List.eq_nil_of_length_eq_zero
  rw [length_contents, table_crowd hk]
  exact congrArg UInt32.toNat (crowdInode_empty h1).1

theorem crowd_sound : Sound crowdSb ∅ crowd (table crowd) := by
  have hfs := crowd_fs
  refine ⟨fun k hk _ => hfs.mapped k hk, hfs.dev, ?_, hfs.child, hfs.childless, hfs.parent, ?_,
    by simp⟩
  · intro k hk _
    obtain ⟨-, h128⟩ := live_crowd.mp hk
    unfold Good
    by_cases hk1 : k = 1
    · subst hk1
      rw [contents_crowd_root, table_crowd h128, crowdInode_root]
    · rw [contents_crowd_empty h128 hk1, table_crowd h128]
      exact (crowdInode_empty hk1).2.2.symm
  · intro k i hk hi _
    obtain ⟨-, h128⟩ := live_crowd.mp hk
    rw [table_crowd h128, child_core] at hi ⊢
    obtain ⟨rfl, rfl, hc⟩ := crowdInode_child hi
    rw [hc, contents_crowd_empty (by omega) (by omega), ← table_crowd h128,
      contents_crowd_empty (by omega) (by omega)]

theorem crowd_paired : Paired crowdSb (table crowd) := by
  intro k i hk hi
  obtain ⟨-, h128⟩ := live_crowd.mp hk
  rw [table_crowd h128, child_core] at hi ⊢
  obtain ⟨rfl, rfl, hc⟩ := crowdInode_child hi
  rw [hc, table_crowd (by omega)]
  exact ⟨rfl, rfl⟩

/-! ## The machine -/

/-- The link counts of the volume. -/
def crowdLinks (k : Nat) : UInt16 := (onDisk crowd k).nlink

/-- Inode `n` in slot 0, inode `j + d` in each other slot `j`. -/
def seats (n d : Nat) (j : Fin 100) : Nat := if j = 0 then n else j.val + d

theorem crowded_vol {f : Fin 100 → Nat} {n d : Nat} (hf : f = seats n d) (hn : 1 ≤ n) (hnd : n ≤ d)
    (hd : d ≤ 28) :
    Vol crowdSb (leaked crowdSb crowd (table crowd)) (table crowd) crowdLinks ∅ ∅ (crowded f) := by
  have hlt : ∀ j, 1 ≤ f j ∧ f j < 128 := by
    intro j
    rw [hf, seats]
    split <;> omega
  have hf : Function.Injective f := by
    intro i j h
    rw [hf, seats, seats] at h
    split_ifs at h with hi hj hj
    · rw [hi, hj]
    · omega
    · omega
    · exact Fin.ext (by omega)
  have hidle : Idle (crowded f) := ⟨rfl, rfl, rfl, fun _ => rfl, Block.word_zero 0⟩
  refine ⟨hidle.jrn ⟨rfl, rfl⟩ (by decide), crowd_fs.own, ?_, ?_, ?_, ?_, by simp⟩
  · intro i j k hi hj
    exact hf (hi.2.trans hj.2.symm)
  · intro j _
    exact ⟨rfl, live_crowd.mpr (hlt j)⟩
  · intro j _ hv
    cases hv
  · intro k _ _
    exact ⟨rfl, fun _ => rfl⟩

end Zv6
