/-
  On-disk format (`fs.h`, `buf.h`, `param.h`, `stat.h`).

  A sector is 512 bytes (BSIZE). The structures the kernel casts sectors to are read and
  written byte by byte: `struct superblock` (16 bytes in sector 1), `struct dinode` (64
  bytes, IPB = 8 a sector), the bitmap (BPB = 4096 bits a sector), the indirect block
  (NINDIRECT = 128 words), `struct dirent` (16 bytes) and `struct logheader` (the count,
  then the sector numbers). Constants stand as numbers: NDIRECT = 10, MAXFILE = 138,
  DIRSIZ = 14, LOGSIZE = 20, NINODE = 100, NFILE = 100, NOFILE = 16, NDEV = 10,
  ROOTDEV = 1, ROOTINO = 1.

  `uint` and `short` fields are `UInt32` and `UInt16`; the code computes with them as
  `Nat` and says where it wraps. The record layouts round-trip (`dinode_setDinode`,
  `word_setWord`) and a write to one record leaves its neighbours alone.
-/
import Zv6.Lib.Bytes

namespace Zv6

open Lib

-- numerals of the index types: entries of `addrs`, processes, slots of inodes and files
@[instance] theorem neZero_addrs : NeZero 11 := ⟨by decide⟩
@[instance] theorem neZero_procs : NeZero 64 := ⟨by decide⟩
@[instance] theorem neZero_slots : NeZero 100 := ⟨by decide⟩

/-- A direct block has its place in `addrs`. -/
theorem direct_lt {bn : Nat} (h : bn < 10) : bn < 11 := Nat.lt_succ_of_lt h

/-! ## Constants of the types -/

def T_DIR : UInt16 := 1
def T_FILE : UInt16 := 2
def T_DEV : UInt16 := 3
def T_DITTO : UInt16 := 4

def E_CORRUPTED : Int := -10

/-- Sector of inode `i`. -/
def IBLOCK (i : Nat) : Nat := i / 8 + 2

/-- Sector of the bitmap bit of block `b`. -/
def BBLOCK (b ninodes : Nat) : Nat := b / 4096 + ninodes / 8 + 3

/-! ## Sectors as bytes -/

/-- One sector. -/
structure Block where
  data : Fin 512 → UInt8

namespace Block

/-- The byte at offset `i`. -/
def byte (b : Block) (i : Nat) : UInt8 := if h : i < 512 then b.data ⟨i, h⟩ else 0

def zero : Block := ⟨fun _ => 0⟩

/-- `memmove(b->data + o, src, src.length)`. -/
def write (b : Block) (o : Nat) (src : List UInt8) : Block :=
  ⟨fun i => if o ≤ i.val ∧ i.val < o + src.length then src.getD (i.val - o) 0 else b.data i⟩

/-- `memmove(dst, b->data + o, m)`. -/
def read (b : Block) (o m : Nat) : List UInt8 := (List.range m).map fun k => b.byte (o + k)

/-- Word `i` of the sector read as `uint[128]`. -/
def word (b : Block) (i : Nat) : UInt32 := getU32 b.byte (4 * i)

def setWord (b : Block) (i : Nat) (w : UInt32) : Block := b.write (4 * i) (le32 w)

/-- `(data[i/8] & (1 << (i%8))) != 0`. -/
def bit (b : Block) (i : Nat) : Bool := (b.byte (i / 8)).toNat.testBit (i % 8)

/-- `data[i/8] |= 1 << (i%8)`. -/
def setBit (b : Block) (i : Nat) : Block :=
  b.write (i / 8) [b.byte (i / 8) ||| UInt8.ofNat (2 ^ (i % 8))]

/-- `data[i/8] &= ~(1 << (i%8))`. -/
def clearBit (b : Block) (i : Nat) : Block :=
  b.write (i / 8) [b.byte (i / 8) &&& ~~~ UInt8.ofNat (2 ^ (i % 8))]

theorem byte_write (b : Block) (o : Nat) (src : List UInt8) (i : Nat) (hi : i < 512) :
    (b.write o src).byte i =
      if o ≤ i ∧ i < o + src.length then src.getD (i - o) 0 else b.byte i := by
  simp [byte, write, hi]

theorem byte_write_out (b : Block) (o : Nat) (src : List UInt8) (i : Nat)
    (h : i < o ∨ o + src.length ≤ i) : (b.write o src).byte i = b.byte i := by
  unfold byte
  split
  · simp only [write]
    rw [if_neg (by omega)]
  · rfl

theorem byte_write_in (b : Block) (o : Nat) (src : List UInt8) (k : Nat)
    (hk : k < src.length) (ho : o + k < 512) : (b.write o src).byte (o + k) = src.getD k 0 := by
  rw [byte_write b o src (o + k) ho, if_pos (by omega), Nat.add_sub_cancel_left]

theorem ext_byte {a b : Block} (h : ∀ i, i < 512 → a.byte i = b.byte i) : a = b := by
  cases a
  cases b
  congr 1
  funext i
  simpa [byte] using h i.val i.isLt

theorem word_setWord (b : Block) (i : Nat) (w : UInt32) (hi : i < 128) :
    (b.setWord i w).word i = w := by
  unfold word setWord
  refine getU32_le32 w _ _ ?_
  intro k hk
  rw [byte_write_in _ _ _ _ (by simpa using hk) (by omega)]
  match k, hk with
  | 0, _ => rfl
  | 1, _ => rfl
  | 2, _ => rfl
  | 3, _ => rfl

theorem word_setWord_ne (b : Block) (i j : Nat) (w : UInt32) (hij : j ≠ i) :
    (b.setWord i w).word j = b.word j := by
  unfold word setWord
  refine getU32_congr ?_
  intro k hk
  exact byte_write_out _ _ _ _ (by rw [length_le32]; omega)

theorem setWord_same (b : Block) (i : Nat) : b.setWord i (b.word i) = b := by
  refine ext_byte fun j hj => ?_
  unfold setWord
  rw [byte_write _ _ _ _ hj, length_le32]
  split
  · next h =>
    obtain ⟨k, rfl⟩ := Nat.exists_eq_add_of_le h.1
    have hk : k < 4 := by omega
    rw [Nat.add_sub_cancel_left, ← byteOf_getU32 b.byte (4 * i) k hk]
    unfold word
    match k, hk with
    | 0, _ => rfl
    | 1, _ => rfl
    | 2, _ => rfl
    | 3, _ => rfl
  · rfl

theorem bit_write (b : Block) (i j : Nat) (x : UInt8) (hi : i < 4096) :
    (b.write (i / 8) [x]).bit j =
      if j / 8 = i / 8 then x.toNat.testBit (j % 8) else b.bit j := by
  unfold bit
  split
  · next hb =>
    rw [hb, byte_write _ _ _ _ (by omega)]
    simp
  · next hb =>
    rw [byte_write_out]
    simp only [List.length_singleton]
    omega

theorem bit_setBit (b : Block) (i j : Nat) (hi : i < 4096) :
    (b.setBit i).bit j = if j = i then true else b.bit j := by
  have hlt : 2 ^ (i % 8) < 2 ^ 8 := Nat.pow_lt_pow_right (by omega) (by omega)
  rw [setBit, bit_write _ _ _ _ hi]
  by_cases hb : j / 8 = i / 8
  · have hbit : j = i ↔ i % 8 = j % 8 := by omega
    rw [if_pos hb, UInt8.toNat_or, Nat.testBit_or, UInt8.toNat_ofNat', Nat.mod_eq_of_lt hlt,
      Nat.testBit_two_pow, bit, hb]
    by_cases h : i % 8 = j % 8 <;> simp [hbit, h]
  · rw [if_neg hb, if_neg fun e => hb (by rw [e])]

theorem bit_clearBit (b : Block) (i j : Nat) (hi : i < 4096) :
    (b.clearBit i).bit j = if j = i then false else b.bit j := by
  have hlt : 2 ^ (i % 8) < 2 ^ 8 := Nat.pow_lt_pow_right (by omega) (by omega)
  rw [clearBit, bit_write _ _ _ _ hi]
  by_cases hb : j / 8 = i / 8
  · have hbit : j = i ↔ i % 8 = j % 8 := by omega
    have hn : (~~~ UInt8.ofNat (2 ^ (i % 8))).toNat.testBit (j % 8) =
        !decide (i % 8 = j % 8) := by
      rw [UInt8.toNat_not, UInt8.toNat_ofNat', Nat.mod_eq_of_lt hlt, Nat.sub_sub,
        Nat.add_comm 1, Nat.testBit_two_pow_sub_succ hlt, Nat.testBit_two_pow]
      have : j % 8 < 8 := by omega
      simp [this]
    rw [if_pos hb, UInt8.toNat_and, Nat.testBit_and, hn, bit, hb]
    by_cases h : i % 8 = j % 8 <;> simp [hbit, h]
  · rw [if_neg hb, if_neg fun e => hb (by rw [e])]

theorem byte_zero (i : Nat) : zero.byte i = 0 := by
  unfold byte zero
  split <;> rfl

theorem word_zero (i : Nat) : zero.word i = 0 := by
  unfold word getU32
  rw [byte_zero, byte_zero, byte_zero, byte_zero]
  rfl

end Block

/-! ## Records -/

/-- `struct superblock`. -/
structure Superblock where
  size : Nat
  nblocks : Nat
  ninodes : Nat
  nlog : Nat
  deriving DecidableEq, Repr

def Block.superblock (b : Block) : Superblock :=
  { size := (b.word 0).toNat, nblocks := (b.word 1).toNat,
    ninodes := (b.word 2).toNat, nlog := (b.word 3).toNat }

/-- `struct dinode`. -/
@[ext] structure Dinode where
  type : UInt16
  major : UInt16
  minor : UInt16
  nlink : UInt16
  size : UInt32
  addrs : Fin 11 → UInt32
  child1 : UInt16
  child2 : UInt16
  checksum : UInt32

/-- A zeroed `struct dinode`. -/
def Dinode.zero : Dinode :=
  { type := 0, major := 0, minor := 0, nlink := 0, size := 0, addrs := fun _ => 0,
    child1 := 0, child2 := 0, checksum := 0 }

/-- Byte `j` of a dinode, in the order of its fields. -/
def Dinode.byteAt (d : Dinode) (j : Nat) : UInt8 :=
  if j < 2 then byteOf d.type.toNat j
  else if j < 4 then byteOf d.major.toNat (j - 2)
  else if j < 6 then byteOf d.minor.toNat (j - 4)
  else if j < 8 then byteOf d.nlink.toNat (j - 6)
  else if j < 12 then byteOf d.size.toNat (j - 8)
  else if j < 56 then byteOf (d.addrs (Fin.ofNat 11 ((j - 12) / 4))).toNat ((j - 12) % 4)
  else if j < 58 then byteOf d.child1.toNat (j - 56)
  else if j < 60 then byteOf d.child2.toNat (j - 58)
  else byteOf d.checksum.toNat (j - 60)

/-- The 64 bytes of a dinode. -/
def Dinode.bytes (d : Dinode) : List UInt8 := (List.range 64).map d.byteAt

/-- The dinode stored in the bytes `f`. -/
def Dinode.ofBytes (f : Nat → UInt8) : Dinode :=
  { type := getU16 f 0, major := getU16 f 2, minor := getU16 f 4, nlink := getU16 f 6,
    size := getU32 f 8, addrs := fun k => getU32 f (12 + 4 * k.val),
    child1 := getU16 f 56, child2 := getU16 f 58, checksum := getU32 f 60 }

/-- `*((struct dinode*)data + k)`. -/
def Block.dinode (b : Block) (k : Nat) : Dinode := Dinode.ofBytes fun j => b.byte (64 * k + j)

def Block.setDinode (b : Block) (k : Nat) (d : Dinode) : Block := b.write (64 * k) d.bytes

@[simp] theorem Dinode.length_bytes (d : Dinode) : d.bytes.length = 64 := by
  simp [Dinode.bytes]

theorem Dinode.getD_bytes (d : Dinode) (j : Nat) (hj : j < 64) : d.bytes.getD j 0 = d.byteAt j := by
  simp [Dinode.bytes, List.getD_eq_getElem?_getD, hj]

theorem Dinode.byteAt_addrs (d : Dinode) (a : Fin 11) (k : Nat) (hk : k < 4) :
    d.byteAt (12 + 4 * a.val + k) = byteOf (d.addrs a).toNat k := by
  have ha := a.isLt
  unfold Dinode.byteAt
  have h1 : (12 + 4 * a.val + k - 12) / 4 = a.val := by omega
  have h2 : (12 + 4 * a.val + k - 12) % 4 = k := by omega
  have h3 : Fin.ofNat 11 a.val = a := Fin.ext (Nat.mod_eq_of_lt ha)
  rw [if_neg (by omega), if_neg (by omega), if_neg (by omega), if_neg (by omega),
    if_neg (by omega), if_pos (by omega), h1, h2, h3]

theorem Dinode.ofBytes_byteAt (d : Dinode) : Dinode.ofBytes d.byteAt = d := by
  apply Dinode.ext
  case addrs =>
    funext a
    exact getU32_le32 _ _ _ fun k hk => Dinode.byteAt_addrs d a k hk
  all_goals first
    | exact getU16_le16 _ _ _ fun k hk => by match k, hk with | 0, _ => rfl | 1, _ => rfl
    | exact getU32_le32 _ _ _ fun k hk => by
        match k, hk with | 0, _ => rfl | 1, _ => rfl | 2, _ => rfl | 3, _ => rfl

theorem Dinode.ofBytes_congr {f g : Nat → UInt8} (h : ∀ j, j < 64 → f j = g j) :
    Dinode.ofBytes f = Dinode.ofBytes g := by
  unfold Dinode.ofBytes
  congr 1
  all_goals first
    | exact getU16_congr fun k hk => h _ (by omega)
    | exact getU32_congr fun k hk => h _ (by omega)
    | skip
  funext a
  exact getU32_congr fun k hk => h _ (by omega)

/-- A stored dinode reads back. -/
theorem dinode_setDinode (b : Block) (k : Nat) (d : Dinode) (hk : k < 8) :
    (b.setDinode k d).dinode k = d := by
  conv => rhs; rw [← Dinode.ofBytes_byteAt d]
  refine Dinode.ofBytes_congr fun j hj => ?_
  rw [Block.setDinode, Block.byte_write_in _ _ _ _ (by simpa using hj) (by omega),
    Dinode.getD_bytes d j hj]

/-- Storing one dinode leaves its neighbours alone. -/
theorem dinode_setDinode_ne (b : Block) (k j : Nat) (d : Dinode) (hjk : j ≠ k) :
    (b.setDinode k d).dinode j = b.dinode j := by
  refine Dinode.ofBytes_congr fun i hi => ?_
  exact Block.byte_write_out _ _ _ _ (by rw [Dinode.length_bytes]; omega)

/-- A name as the kernel compares it: at most DIRSIZ bytes, no NUL. -/
abbrev Name := List UInt8

/-- `struct dirent`: a name is NUL-padded to DIRSIZ bytes. -/
structure Dirent where
  inum : UInt16
  name : List UInt8
  deriving DecidableEq

/-- The 16 bytes of a dirent. -/
def Dirent.bytes (de : Dirent) : List UInt8 :=
  le16 de.inum ++ (List.range 14).map fun k => de.name.getD k 0

def Dirent.ofBytes (l : List UInt8) : Dirent :=
  { inum := getU16 (fun k => l.getD k 0) 0, name := (l.drop 2).take 14 }

/-- The count of `struct logheader`. A negative count makes every loop over it empty. -/
def Block.headN (b : Block) : Nat :=
  if (b.word 0).toNat < 2147483648 then (b.word 0).toNat else 0

/-- `sector[i]` of `struct logheader`. -/
def Block.headSector (b : Block) (i : Nat) : Nat := (b.word (1 + i)).toNat

end Zv6
