/-
  `mkfs.c`, function by function: how the first image is made on the host.

  The image file is its sectors and their number. A read behind its end gives less than 512
  bytes, and `rsect` exits; a write there makes the file longer. Seeks and writes of the host
  succeed. A failed `assert` and `exit(1)` are both `panic`, with the text of the assertion or
  the argument of `perror`. `xint` and `xshort` put a value into the image's byte order: records
  are read and written by value here, as in `Model.Layout`, and the two disappear.

  nblocks = 1999, nlog = 20, ninodes = 200, size = 2048. The counters `freeblock`, `usedblocks`
  and `freeinode` are `uint`s; no run gets near 2^32 blocks or inodes, so they are numbers.

  An input file is its name, whether it can be opened, and what the calls of `read` return, one
  after the other. Left out: the output, and the checksum that `main` computes while it reads
  the file, which it does not use.
-/
import Zv6.Model.Inode

namespace Zv6.Host

open Lib

structure Image where
  sect : Nat → Block
  len : Nat
  freeblock : Nat
  usedblocks : Nat
  freeinode : Nat

/-- Host code; nothing sleeps. -/
abbrev M (α : Type) := Exec Empty Image α

def assert (p : Prop) [Decidable p] (msg : String) : M Unit :=
  if p then pure () else Exec.panic msg

/-! ## Sectors and inodes -/

def rsect (sec : Nat) : M Block := fun s =>
  if sec < s.len then .ok (s.sect sec) s else .panic "read" s

def wsect (sec : Nat) (buf : Block) : M Unit :=
  Exec.modify fun s => { s with
    sect := Function.update s.sect sec buf
    len := max s.len (sec + 1) }

/-- Inum to block. -/
def i2b (inum : Nat) : Nat := inum / 8 + 2

def winode (inum : Nat) (ip : Dinode) : M Unit := do
  let buf ← rsect (i2b inum)
  wsect (i2b inum) (buf.setDinode (inum % 8) ip)

def rinode (inum : Nat) : M Dinode := do
  let buf ← rsect (i2b inum)
  pure (buf.dinode (inum % 8))

def ialloc (type : UInt16) : M Nat := do
  let inum ← Exec.gets Image.freeinode
  Exec.modify fun s => { s with freeinode := s.freeinode + 1 }
  winode inum { Dinode.zero with type := type, nlink := 1 }
  pure inum

/-- The bitmap with the first `used` bits set. -/
def bitmap (used : Nat) : Block := (List.range used).foldl Block.setBit Block.zero

/-- Writes the bitmap. -/
def balloc (used : Nat) : M Unit := do
  assert (used < 4096) "used < 512*8"
  wsect (200 / 8 + 3) (bitmap used)

/-! ## Files -/

/-- `freeblock++; usedblocks++` -/
def takeBlock : M Nat := do
  let b ← Exec.gets Image.freeblock
  Exec.modify fun s => { s with freeblock := s.freeblock + 1, usedblocks := s.usedblocks + 1 }
  pure b

/-- `din.addrs[k] = a` -/
def setAddr (din : Dinode) (k : Fin 11) (a : Nat) : Dinode :=
  { din with addrs := Function.update din.addrs k (UInt32.ofNat a) }

/-- `din.addrs[k]`, with a new block if it is 0. -/
def ensure (din : Dinode) (k : Fin 11) : M Dinode :=
  if din.addrs k = 0 then do
    let b ← takeBlock
    pure (setAddr din k b)
  else pure din

/-- The entry of block `j` in the indirect block `ind`, with a new block if it is 0. -/
def ensureIndirect (ind j : Nat) : M Nat := do
  let indirect ← rsect ind
  if indirect.word j = 0 then do
    let b ← takeBlock
    wsect ind (indirect.setWord j (UInt32.ofNat b))
    pure b
  else pure (indirect.word j).toNat

/-- The block that block `fbn` of a file is in, which is given to the file if it has none: the
    upper half of the loop of `iappend`. -/
def findBlock (din : Dinode) (fbn : Nat) : M (Dinode × Nat) :=
  if h : fbn < 10 then do
    let din ← ensure din ⟨fbn, direct_lt h⟩
    pure (din, (din.addrs ⟨fbn, direct_lt h⟩).toNat)
  else do
    let din ← ensure din 10
    let x ← ensureIndirect (din.addrs 10).toNat (fbn - 10)
    pure (din, x)

/-- One round of the loop of `iappend`: the bytes `c`, all for one block, are stored at `off`. -/
def appendChunk (din : Dinode) (off : Nat) (c : List UInt8) : M Dinode := do
  assert (off / 512 < 138) "fbn < MAXFILE"
  let (din, x) ← findBlock din (off / 512)
  let buf ← rsect x
  wsect x (buf.write (off - off / 512 * 512) c)
  pure din

/-- The loop of `iappend` from `off` on, with the bytes `p` left. Each round takes at least one
    of them. -/
def iappendLoop : (fuel : Nat) → Dinode → (off : Nat) → (p : List UInt8) → M (Dinode × Nat)
  | 0, din, off, _ => pure (din, off)
  | fuel + 1, din, off, p =>
    if p = [] then pure (din, off)
    else do
      let n1 := min p.length ((off / 512 + 1) * 512 - off)
      let din ← appendChunk din off (p.take n1)
      iappendLoop fuel din (off + n1) (p.drop n1)

def iappend (inum : Nat) (p : List UInt8) : M Unit := do
  let din ← rinode inum
  let (din, off) ← iappendLoop p.length din din.size.toNat p
  winode inum { din with size := UInt32.ofNat off }

/-- Block `bn` of a file, read over `data`. -/
def rblock (din : Dinode) (bn : Nat) (data : Block) : M Block :=
  if h : bn < 10 then rsect (din.addrs ⟨bn, direct_lt h⟩).toNat
  else if bn - 10 < 128 then do
    let indirect ← rsect (din.addrs 10).toNat
    rsect (indirect.word (bn - 10)).toNat
  else pure data

/-- The copy loop of `readi`: `n` bytes left from offset `off`. -/
def readiLoop (din : Dinode) : (fuel off n : Nat) → (data : Block) → M (List UInt8)
  | 0, _, _, _ => pure []
  | fuel + 1, off, n, data =>
    if n = 0 then pure []
    else do
      let data ← rblock din (off / 512) data
      let m := min n (512 - off % 512)
      let rest ← readiLoop din fuel (off + m) (n - m) data
      pure (data.read (off % 512) m ++ rest)

/-- The result and the bytes stored into `dst`. -/
def readi (din : Dinode) (off n : Nat) : M (Int × List UInt8) :=
  if din.type = T_DEV then pure (-1, [])
  else if din.size.toNat < off ∨ (off + n) % 4294967296 < off then pure (-1, [])
  else do
    let n' := if din.size.toNat < off + n then din.size.toNat - off else n
    let bytes ← readiLoop din n' off n' Block.zero
    pure (n', bytes)

/-- The loop of `ichecksum`, with the 512 words of its buffer summed after each read. -/
def ichecksumLoop (din : Dinode) : (fuel off : Nat) → UInt32 → M UInt32
  | 0, _, _ => fun s => .loops s
  | fuel + 1, off, c => do
    let (r, bytes) ← readi din off 2048
    -- `r` is a `uint`: only 0 leaves the loop
    if r = 0 then pure c
    else
      ichecksumLoop din fuel ((off + (r % 4294967296).toNat) % 4294967296)
        (xorWords c (checksumBuf bytes))

def ichecksum (din : Dinode) : M UInt32 := ichecksumLoop din (din.size.toNat / 2048 + 2) 0 0

/-- The loop of `copy_dinode_content`. -/
def copyLoop (src : Dinode) (dst : Nat) : (fuel off : Nat) → M Unit
  | 0, _ => fun s => .loops s
  | fuel + 1, off => do
    let (r, bytes) ← readi src off 512
    if r = 0 then pure ()
    else do
      iappend dst bytes
      copyLoop src dst fuel ((off + (r % 4294967296).toNat) % 4294967296)

def copy_dinode_content (src : Dinode) (dst : Nat) : M Unit :=
  copyLoop src dst (src.size.toNat / 512 + 2) 0

/-! ## main -/

/-- An argument of `mkfs`. -/
structure HostFile where
  name : List UInt8
  opens : Bool
  pieces : List (List UInt8)
  nul : 0 ∉ name
  read : ∀ p ∈ pieces, 0 < p.length ∧ p.length ≤ 512

/-- The name in the image: without the leading `_` of the binaries. -/
def HostFile.target (f : HostFile) : List UInt8 :=
  if f.name.head? = some 95 then f.name.tail else f.name

def HostFile.bytes (f : HostFile) : List UInt8 := f.pieces.flatten

/-- `for(i = 0; i < n; i++) wsect(i, zeroes)` -/
def wzeroes : Nat → M Unit
  | 0 => pure ()
  | n + 1 => do
    wzeroes n
    wsect n Block.zero

theorem wzeroes_zero : wzeroes 0 = pure () := rfl

theorem wzeroes_succ (n : Nat) : wzeroes (n + 1) = wzeroes n >>= fun _ => wsect n Block.zero := rfl

-- `main` is not to be unfolded into 2048 writes
attribute [irreducible] wzeroes

def superblock : Block :=
  (((Block.zero.setWord 0 2048).setWord 1 1999).setWord 2 200).setWord 3 20

/-- The root directory with its first two entries. -/
def makeRoot : M Nat := do
  let rootino ← ialloc T_DIR
  assert (rootino = 1) "rootino == ROOTINO"
  iappend rootino (Dirent.bytes ⟨UInt16.ofNat rootino, [46]⟩)
  iappend rootino (Dirent.bytes ⟨UInt16.ofNat rootino, [46, 46]⟩)
  pure rootino

/-- The calls of `read` and `iappend` for one file. -/
def appendAll (inum : Nat) : List (List UInt8) → M Unit
  | [] => pure ()
  | p :: ps => do
    iappend inum p
    appendAll inum ps

/-- The checksum of a file that has been written. -/
def setChecksum (inum : Nat) : M Unit := do
  let din2 ← rinode inum
  let _ ← readi din2 0 512
  let checksum2 ← ichecksum din2
  winode inum { din2 with checksum := checksum2 }

/-- One round of the loop over the arguments. -/
def addFile (rootino : Nat) (f : HostFile) : M Unit := do
  assert (47 ∉ f.name) "index(argv[i], '/') == 0"
  assert (f.opens = true) "open"
  let inum ← ialloc T_FILE
  iappend rootino (Dirent.bytes ⟨UInt16.ofNat inum, f.target⟩)
  appendAll inum f.pieces
  setChecksum inum

def addFiles (rootino : Nat) : List HostFile → M Unit
  | [] => pure ()
  | f :: fs => do
    addFile rootino f
    addFiles rootino fs

/-- The root's size is rounded up, and its checksum computed. -/
def fixRoot (rootino : Nat) : M Unit := do
  let din ← rinode rootino
  let off := (din.size.toNat / 512 + 1) * 512
  let din := { din with size := UInt32.ofNat off }
  let checksum ← ichecksum din
  winode rootino { din with checksum := checksum }

/-- The contents, checksum and size of `din` go to a ditto. -/
def fillDitto (din : Dinode) (ditto_inum : Nat) : M Unit := do
  copy_dinode_content din ditto_inum
  let ditto_din ← rinode ditto_inum
  winode ditto_inum { ditto_din with checksum := din.checksum, size := din.size }

def makeDittos (rootino : Nat) : M Unit := do
  let din ← rinode rootino
  let ditto_inum1 ← ialloc T_DITTO
  let ditto_inum2 ← ialloc T_DITTO
  fillDitto din ditto_inum1
  fillDitto din ditto_inum2
  let din ← rinode rootino
  winode rootino { din with
    child1 := UInt16.ofNat ditto_inum1, child2 := UInt16.ofNat ditto_inum2 }

def main (files : List HostFile) : M Unit := do
  assert (1999 + (200 / 8 + 3 + (2048 / (512 * 8) + 1)) + 20 = 2048)
    "nblocks + usedblocks + nlog == size"
  wzeroes 2048
  wsect 1 superblock
  let rootino ← makeRoot
  addFiles rootino files
  fixRoot rootino
  makeDittos rootino
  let usedblocks ← Exec.gets Image.usedblocks
  balloc usedblocks

/-- The empty file that `main` opens, and its counters. -/
def blank : Image where
  sect _ := Block.zero
  len := 0
  freeblock := 200 / 8 + 3 + (2048 / (512 * 8) + 1)
  usedblocks := 200 / 8 + 3 + (2048 / (512 * 8) + 1)
  freeinode := 1

end Zv6.Host
