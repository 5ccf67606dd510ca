/-
  Blocks and inodes (`fs.c`, up to `writei_ext`), function by function.

  Loops are recursions on what is left of them. The two recursions of the source that can
  pass through other inodes (`ilock_ext` into a replica, `writei_ext` into a ditto) take a
  depth: every level holds I_BUSY of one more cache slot, and a second lock of a slot by
  the same call sleeps for ever (`blocked`), so NINODE + 1 = 101 levels are never used up.
-/
import Zv6.Model.Log

namespace Zv6

open Lib

/-! ## Blocks -/

def readsb (dev : Nat) : K Superblock := do
  let b ← bread dev 1
  pure b.superblock

/-- Zero a block. -/
def bzero (dev bno : Nat) : K Unit := log_write dev bno Block.zero

/-- The scan of one bitmap block: the first `bi < lim` whose bit is clear. -/
def firstClear (b : Block) (lim : Nat) : Option Nat :=
  (List.range lim).find? fun bi => !b.bit bi

/-- The outer loop of `balloc` from block `b` on, `k` bitmap blocks left. (`b` is an int in the
    source, so this is the loop for devices of at most 2^31 blocks.) -/
def ballocLoop (dev : Nat) (sb : Superblock) : (k b : Nat) → K Nat
  | 0, _ => Exec.panic "balloc: out of blocks"
  | k + 1, b =>
    if b < sb.size then do
      let bp ← bread dev (BBLOCK b sb.ninodes)
      match firstClear bp (min 4096 (sb.size - b)) with
      | some bi => do
        log_write dev (BBLOCK b sb.ninodes) (bp.setBit bi)
        bzero dev (b + bi)
        pure (b + bi)
      | none => ballocLoop dev sb k (b + 4096)
    else Exec.panic "balloc: out of blocks"

/-- Allocate a zeroed disk block. -/
def balloc (dev : Nat) : K Nat := do
  let sb ← readsb dev
  ballocLoop dev sb (sb.size / 4096 + 1) 0

/-- Free a disk block. -/
def bfree (dev b : Nat) : K Unit := do
  let sb ← readsb dev
  let bp ← bread dev (BBLOCK b sb.ninodes)
  if bp.bit (b % 4096) = false then Exec.panic "freeing free block"
  else log_write dev (BBLOCK b sb.ninodes) (bp.clearBit (b % 4096))

/-! ## The inode cache -/

/-- A `short` used as a `uint`: sign extension. -/
def sext (w : UInt16) : Nat := if w.toNat < 32768 then w.toNat else w.toNat + 4294901760

/-- Find the inode with number `inum` on device `dev` in the cache, or take an empty slot
    for it. -/
def iget (dev inum : Nat) : K (Fin 100) := fun s =>
  match (List.finRange 100).find? fun i =>
      decide (0 < (s.icache i).ref) && decide ((s.icache i).dev = dev) &&
        decide ((s.icache i).inum = inum) with
  | some i => .ok i (s.setInode i { s.icache i with ref := (s.icache i).ref + 1 })
  | none =>
    match (List.finRange 100).find? fun i => decide ((s.icache i).ref = 0) with
    | some i => .ok i (s.setInode i { s.icache i with
        dev := dev, inum := inum, ref := 1, busy := false, valid := false })
    | none => .panic "iget: no inodes" s

def idup (ip : Fin 100) : K (Fin 100) := do
  updInode ip fun i => { i with ref := i.ref + 1 }
  pure ip

/-- The scan of `ialloc` from `inum` on, `k` inodes left. -/
def iallocLoop (dev : Nat) (type : UInt16) : (k inum : Nat) → K (Fin 100)
  | 0, _ => Exec.panic "ialloc: no inodes"
  | k + 1, inum => do
    let bp ← bread dev (IBLOCK inum)
    if (bp.dinode (inum % 8)).type = 0 then do
      log_write dev (IBLOCK inum) (bp.setDinode (inum % 8) { Dinode.zero with type := type })
      iget dev inum
    else iallocLoop dev type k (inum + 1)

/-- Allocate a new inode with the given type on device `dev`. -/
def ialloc (dev : Nat) (type : UInt16) : K (Fin 100) := do
  let sb ← readsb dev
  iallocLoop dev type (sb.ninodes - 1) 1

/-- The wait for I_BUSY at the head of `ilock_ext`. Run alone, a busy inode is the
    caller's own. -/
def lockSlot (ip : Fin 100) : K Unit := fun s =>
  if (s.icache ip).ref < 1 then .panic "ilock" s
  else if (s.icache ip).busy then .blocked (.inode ip) s
  else .ok () (s.setInode ip { s.icache ip with busy := true })

/-- Unlock the given inode. -/
def iunlock (ip : Fin 100) : K Unit := fun s =>
  if (s.icache ip).busy = false ∨ (s.icache ip).ref < 1 then .panic "iunlock" s
  else .ok () (s.setInode ip { s.icache ip with busy := false })

/-! ## Inode content -/

/-- Return the disk block address of the nth block in inode `ip`, allocating it if there
    is no such block. -/
def bmap (ip : Fin 100) (bn : Nat) : K Nat := do
  let i ← inode ip
  if h : bn < 10 then
    let k : Fin 11 := ⟨bn, by omega⟩
    if i.d.addrs k = 0 then do
      let addr ← balloc i.dev
      updInode ip fun i => { i with d := { i.d with
        addrs := fun j => if j = k then UInt32.ofNat addr else i.d.addrs j } }
      pure addr
    else pure (i.d.addrs k).toNat
  else if bn - 10 < 128 then do
    let ind ← (if i.d.addrs 10 = 0 then do
        let addr ← balloc i.dev
        updInode ip fun i => { i with d := { i.d with
          addrs := fun j => if j = 10 then UInt32.ofNat addr else i.d.addrs j } }
        pure addr
      else pure (i.d.addrs 10).toNat : K Nat)
    let bp ← bread i.dev ind
    if bp.word (bn - 10) = 0 then do
      let addr ← balloc i.dev
      log_write i.dev ind (bp.setWord (bn - 10) (UInt32.ofNat addr))
      pure addr
    else pure (bp.word (bn - 10)).toNat
  else Exec.panic "bmap: out of range"

/-- The copy loop of `readi`: `n` bytes left from offset `off`. -/
def readiLoop (ip : Fin 100) : (fuel off n : Nat) → K (List UInt8)
  | 0, _, _ => pure []
  | fuel + 1, off, n =>
    if n = 0 then pure []
    else do
      let i ← inode ip
      let sec ← bmap ip (off / 512)
      let bp ← bread i.dev sec
      let m := min n (512 - off % 512)
      let rest ← readiLoop ip fuel (off + m) (n - m)
      pure (bp.read (off % 512) m ++ rest)

/-- Read data from inode: the result and the bytes stored into `dst`. -/
def readi (ip : Fin 100) (off n : Nat) : K (Int × List UInt8) := do
  let i ← inode ip
  if i.d.type = T_DEV then do
    let sw ← Exec.gets State.devsw
    if 10 ≤ i.d.major.toNat then pure (-1, [])
    else
      match (sw i.d.major.toNat).read with
      | none => pure (-1, [])
      | some f => pure (f n)
  else if i.d.size.toNat < off ∨ (off + n) % 4294967296 < off then pure (-1, [])
  else do
    let n' := if i.d.size.toNat < off + n then i.d.size.toNat - off else n
    let bytes ← readiLoop ip n' off n'
    pure (n', bytes)

/-- XOR of the words of a buffer into `c`, four bytes at a time. -/
def xorWords : UInt32 → List UInt8 → UInt32
  | c, b0 :: b1 :: b2 :: b3 :: rest =>
    xorWords (c ^^^ getU32 (fun k => [b0, b1, b2, b3].getD k 0) 0) rest
  | c, _ => c

/-- The 2048-byte buffer of `ichecksum` after a read: the bytes read, then zeros. -/
def checksumBuf (bytes : List UInt8) : List UInt8 :=
  bytes ++ List.replicate (2048 - bytes.length) 0

/-- The loop of `ichecksum`. -/
def ichecksumLoop (ip : Fin 100) : (fuel off : Nat) → UInt32 → K UInt32
  | 0, _, _ => fun s => .loops s
  | fuel + 1, off, c => do
    let (r, bytes) ← readi ip off 2048
    -- `r` is a `uint`: only 0 leaves the loop
    if r = 0 then pure c
    else
      ichecksumLoop ip fuel ((off + (r % 4294967296).toNat) % 4294967296)
        (xorWords c (checksumBuf bytes))

/-- Compute inode checksum. -/
def ichecksum (ip : Fin 100) : K UInt32 := do
  let i ← inode ip
  if i.d.type = T_DEV then pure 0
  else ichecksumLoop ip (i.d.size.toNat / 2048 + 2) 0 0

/-! ## Locking and verification -/

/-- Copy the on-disk inode into the cache slot. -/
def loadInode (ip : Fin 100) : K Unit := do
  let i ← inode ip
  let bp ← bread i.dev (IBLOCK i.inum)
  updInode ip fun i => { i with d := bp.dinode (i.inum % 8) }

/-- The label `zc_success`. -/
def zcSuccess (ip : Fin 100) : K Int := do
  updInode ip fun i => { i with valid := true }
  let i ← inode ip
  if i.d.type = 0 then Exec.panic "ilock: no type" else pure 0

/-- The labels `zc_verify` and `zc_failure`: `replica` is the replica tried last, `left` how
    many can still be tried, `lock` is `ilock`. -/
def zcVerify (lock : Fin 100 → K Int) (ip : Fin 100) : (left replica : Nat) → K Int
  | 0, _ => do
    let i ← inode ip
    let c ← ichecksum ip
    if c = i.d.checksum then zcSuccess ip
    else do
      iunlock ip
      pure E_CORRUPTED
  | left + 1, replica => do
    let i ← inode ip
    let c ← ichecksum ip
    if c = i.d.checksum then zcSuccess ip
    else do
      let rinum := if replica = 0 then i.d.child1.toNat else i.d.child2.toNat
      if rinum = 0 then do
        iunlock ip
        pure E_CORRUPTED
      else do
        let rinode ← iget i.dev rinum
        let r ← lock rinode
        if r = 0 then do
          iunlock rinode
          iunlock ip
          pure (rinum : Int)
        else zcVerify lock ip left (replica + 1)

/-- `ilock_ext` with `depth` levels of replicas left. -/
def ilockExt : (depth : Nat) → Fin 100 → (checksum : Bool) → K Int
  | 0, _, _ => fun s => .loops s
  | depth + 1, ip, checksum => do
    lockSlot ip
    let i ← inode ip
    if i.valid then pure 0
    else do
      loadInode ip
      if checksum then zcVerify (fun r => ilockExt depth r true) ip 2 0 else zcSuccess ip

def ilock_ext (ip : Fin 100) (checksum : Bool) : K Int := ilockExt 101 ip checksum

/-- Lock the given inode. Might fail and keep the inode unlocked. -/
def ilock (ip : Fin 100) : K Int := ilock_ext ip true

/-! ## Updating inodes -/

/-- Update a child-inode. -/
def cupdate (ip ic : Fin 100) : K Unit := do
  let _ ← ilock_ext ic false
  let c ← inode ic
  if c.d.type ≠ T_DITTO then
    Exec.panic "trying to update a \"child\" that is not a ditto block!\n"
  else do
    let i ← inode ip
    let bp ← bread c.dev (IBLOCK c.inum)
    updInode ic fun c => { c with d := { c.d with size := i.d.size, checksum := i.d.checksum } }
    log_write c.dev (IBLOCK c.inum) (bp.setDinode (c.inum % 8) { c.d with
      nlink := 1, size := i.d.size, checksum := i.d.checksum })
    iunlock ic

/-- Copy a modified in-memory inode to disk, and to its children unless `skip`. -/
def iupdate_ext (ip : Fin 100) (skip : Bool) : K Unit := do
  let i ← inode ip
  let bp ← bread i.dev (IBLOCK i.inum)
  let c ← ichecksum ip
  updInode ip fun i => { i with d := { i.d with checksum := c } }
  let i ← inode ip
  log_write i.dev (IBLOCK i.inum) (bp.setDinode (i.inum % 8) i.d)
  Exec.when (skip = false) do
    Exec.when (i.d.child1 ≠ 0) do
      let c1 ← iget i.dev (sext i.d.child1)
      cupdate ip c1
    Exec.when (i.d.child2 ≠ 0) do
      let c2 ← iget i.dev (sext i.d.child2)
      cupdate ip c2

def iupdate (ip : Fin 100) : K Unit := iupdate_ext ip false

/-- The first loop of `itrunc`: direct blocks from `k` on. -/
def itruncDirect (ip : Fin 100) : List (Fin 11) → K Unit
  | [] => pure ()
  | k :: ks => do
    let i ← inode ip
    Exec.when (i.d.addrs k ≠ 0) do
      bfree i.dev (i.d.addrs k).toNat
      updInode ip fun i => { i with d := { i.d with
        addrs := fun j => if j = k then 0 else i.d.addrs j } }
    itruncDirect ip ks

/-- The second loop of `itrunc`: the entries of the indirect block `a`. -/
def itruncIndirect (dev : Nat) (a : Block) : List Nat → K Unit
  | [] => pure ()
  | j :: js => do
    Exec.when (a.word j ≠ 0) (bfree dev (a.word j).toNat)
    itruncIndirect dev a js

/-- Truncate inode (discard contents). -/
def itrunc (ip : Fin 100) : K Unit := do
  itruncDirect ip ((List.finRange 11).take 10)
  let i ← inode ip
  Exec.when (i.d.addrs 10 ≠ 0) do
    let bp ← bread i.dev (i.d.addrs 10).toNat
    itruncIndirect i.dev bp (List.range 128)
    bfree i.dev (i.d.addrs 10).toNat
    updInode ip fun i => { i with d := { i.d with
      addrs := fun j => if j = 10 then 0 else i.d.addrs j } }
  updInode ip fun i => { i with d := { i.d with size := 0 } }
  iupdate ip

/-- Drop a reference to an in-memory inode. -/
def iput (ip : Fin 100) : K Unit := do
  let i ← inode ip
  if i.ref = 1 ∧ i.valid = true ∧ i.d.nlink = 0 then
    if i.busy then Exec.panic "iput busy"
    else do
      updInode ip fun i => { i with busy := true }
      itrunc ip
      updInode ip fun i => { i with d := { i.d with type := 0 } }
      iupdate ip
      updInode ip fun i => { i with busy := false, valid := false, ref := i.ref - 1 }
  else updInode ip fun i => { i with ref := i.ref - 1 }

/-- Common idiom: unlock, then put. -/
def iunlockput (ip : Fin 100) : K Unit := do
  iunlock ip
  iput ip

/-! ## Writing -/

/-- The copy loop of `writei_ext`: `src` is what is left to copy to offset `off`. -/
def writeiLoop (ip : Fin 100) : (fuel off : Nat) → (src : List UInt8) → K Unit
  | 0, _, _ => pure ()
  | fuel + 1, off, src =>
    if src = [] then pure ()
    else do
      let i ← inode ip
      let sec ← bmap ip (off / 512)
      let bp ← bread i.dev sec
      let m := min src.length (512 - off % 512)
      log_write i.dev sec (bp.write (off % 512) (src.take m))
      writeiLoop ip fuel (off + m) (src.drop m)

/-- One child's share of a write: `write` is `writei` with one level of dittos less. -/
def writeChild (write : Fin 100 → K Int) (dev : Nat) (child : UInt16) : K Unit :=
  Exec.when (child ≠ 0) do
    let ci ← iget dev (sext child)
    let _ ← ilock_ext ci false
    let _ ← write ci
    iunlock ci

/-- `writei_ext` with `depth` levels of dittos left. `src` holds the `n` bytes to write. -/
def writeiExt : (depth : Nat) → (ip : Fin 100) → (src : List UInt8) → (off : Nat) →
    (skip : Bool) → K Int
  | 0, _, _, _, _ => fun s => .loops s
  | depth + 1, ip, src, off, skip => do
    let n := src.length
    let i ← inode ip
    if i.d.type = T_DEV then do
      let sw ← Exec.gets State.devsw
      if 10 ≤ i.d.major.toNat then pure (-1)
      else
        match (sw i.d.major.toNat).write with
        | none => pure (-1)
        | some f => pure (f src)
    else if i.d.size.toNat < off ∨ (off + n) % 4294967296 < off then pure (-1)
    else if 138 * 512 < off + n then pure (-1)
    else do
      writeiLoop ip n off src
      Exec.when (skip = false) do
        writeChild (fun ci => writeiExt depth ci src off false) i.dev i.d.child1
        writeChild (fun ci => writeiExt depth ci src off false) i.dev i.d.child2
      if i.d.type = T_DITTO then pure (n : Int)
      else do
        updInode ip fun i => { i with d := { i.d with
          size := if 0 < n ∧ i.d.size.toNat < off + n then UInt32.ofNat (off + n) else i.d.size } }
        iupdate_ext ip skip
        pure (n : Int)

def writei_ext (ip : Fin 100) (src : List UInt8) (off : Nat) (skip : Bool) : K Int :=
  writeiExt 101 ip src off skip

/-- Write data to inode. -/
def writei (ip : Fin 100) (src : List UInt8) (off : Nat) : K Int := writei_ext ip src off false

/-! ## Recovery -/

/-- The copy loop of `iduplicate`: from `off` until `lim` or the end of `src`. -/
def iduplicateLoop (src dst : Fin 100) (lim : Nat) : (fuel off : Nat) → K Unit
  | 0, _ => fun s => .loops s
  | fuel + 1, off => do
    let (r, buf) ← readi src off 512
    if r ≠ 0 ∧ off < lim then do
      let _ ← writei_ext dst buf off true
      iduplicateLoop src dst lim fuel ((off + (r % 4294967296).toNat) % 4294967296)
    else pure ()

/-- Copy size, checksum, and inode data from a source inode into a destination inode. -/
def iduplicate (src dst : Fin 100) (off ntotal : Nat) : K Unit := do
  let i ← inode src
  updInode dst fun j => { j with d := { j.d with checksum := i.d.checksum, size := i.d.size } }
  iduplicateLoop src dst (ntotal + off) (ntotal / 512 + 2) off

/-- A size used as the `int` bound of a counting loop: a negative bound runs no round. -/
def intBound (w : UInt32) : Nat := if w.toNat < 2147483648 then w.toNat else 0

/-- The loop of `irescue`: `n` bytes left from `off`, `max = ((LOGSIZE-1-1-2) / 4) * 512`. -/
def irescueLoop (ip rinode : Fin 100) : (fuel off n : Nat) → K Unit
  | 0, _, _ => pure ()
  | fuel + 1, off, n =>
    if n = 0 then pure ()
    else do
      let n1 := min n 2048
      begin_trans
      iduplicate rinode ip off n1
      commit_trans
      irescueLoop ip rinode fuel (off + n1) (n - n1)

/-- Copy size, checksum, and inode data from replica inode to a parent. -/
def irescue (ip rinode : Fin 100) : K Unit := do
  let _ ← ilock_ext rinode false
  let _ ← ilock_ext ip false
  let i ← inode ip
  irescueLoop ip rinode (intBound i.d.size) 0 (intBound i.d.size)
  iunlock rinode
  iunlock ip

/-- Lock the given inode, recovering its data in a transaction if necessary. -/
def ilock_trans (ip : Fin 100) : K Int := do
  let r ← ilock ip
  if r = 0 then pure 0
  else if r = E_CORRUPTED then pure E_CORRUPTED
  else do
    Exec.when (0 < r) do
      let i ← inode ip
      let ic ← iget i.dev r.toNat
      irescue ip ic
    let r ← ilock ip
    if r = 0 then pure 0
    else Exec.panic "ilock_trans attempted to recover but still failed to unlock"

end Zv6
