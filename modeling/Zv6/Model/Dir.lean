/-
  Directories and paths (`fs.c`, from `namecmp` on), function by function.

  A path is the list of its bytes before the NUL. `skipelem` is a function of the path
  alone, so the loop of `namex` runs over the elements `skipelem` yields (`elems`); "the
  rest of the path is empty" is "no element is left", since `skipelem` drops the slashes
  behind an element.
-/
import Zv6.Model.Inode

namespace Zv6

open Lib

/-! ## Directories -/

/-- `strncmp(p, q, n) == 0` on strings that end at their first NUL. -/
def strncmpEq : (n : Nat) → List UInt8 → List UInt8 → Bool
  | 0, _, _ => true
  | n + 1, p, q =>
    if p.headD 0 ≠ 0 ∧ p.headD 0 = q.headD 0 then strncmpEq n p.tail q.tail
    else decide (p.headD 0 = q.headD 0)

/-- `namecmp(s, t) == 0`. -/
def namecmp (s t : List UInt8) : Bool := strncmpEq 14 s t

/-- The scan of `dirlookup` from `off` on, `k` entries left: the matching entry's inode
    number and offset. -/
def dirlookupLoop (dp : Fin 100) (name : Name) : (k off : Nat) → K (Option (Nat × Nat))
  | 0, _ => pure none
  | k + 1, off => do
    let i ← inode dp
    if off < i.d.size.toNat then do
      let (r, bytes) ← readi dp off 16
      if r ≠ 16 then Exec.panic "dirlink read"
      else
        let de := Dirent.ofBytes bytes
        if de.inum = 0 then dirlookupLoop dp name k (off + 16)
        else if namecmp name de.name then pure (some (de.inum.toNat, off))
        else dirlookupLoop dp name k (off + 16)
    else pure none

/-- Look for a directory entry in a directory: its inode and the byte offset of the entry. -/
def dirlookup (dp : Fin 100) (name : Name) : K (Option (Fin 100 × Nat)) := do
  let i ← inode dp
  if i.d.type ≠ T_DIR then Exec.panic "dirlookup not DIR"
  else do
    match ← dirlookupLoop dp name (i.d.size.toNat / 16 + 1) 0 with
    | none => pure none
    | some (inum, off) => do
      let ip ← iget i.dev inum
      pure (some (ip, off))

/-- The scan of `dirlink` for an empty dirent from `off` on, `k` entries left: the offset at
    which the loop ends. -/
def emptySlotLoop (dp : Fin 100) : (k off : Nat) → K Nat
  | 0, off => pure off
  | k + 1, off => do
    let i ← inode dp
    if off < i.d.size.toNat then do
      let (r, bytes) ← readi dp off 16
      if r ≠ 16 then Exec.panic "dirlink read"
      else if (Dirent.ofBytes bytes).inum = 0 then pure off
      else emptySlotLoop dp k (off + 16)
    else pure off

/-- Write a new directory entry (name, inum) into the directory `dp`. -/
def dirlink (dp : Fin 100) (name : Name) (inum : Nat) : K Int := do
  match ← dirlookup dp name with
  | some (ip, _) => do
    iput ip
    pure (-1)
  | none => do
    let i ← inode dp
    let off ← emptySlotLoop dp (i.d.size.toNat / 16 + 1) 0
    let de : Dirent := { inum := UInt16.ofNat inum, name := name }
    let r ← writei dp de.bytes off
    if r ≠ 16 then Exec.panic "dirlink" else pure 0

/-! ## Paths -/

/-- Copy the next path element from path into name; the rest of the path has no leading
    slashes. -/
def skipelem (path : List UInt8) : Option (Name × List UInt8) :=
  let p := path.dropWhile (· == 47)
  if p = [] then none
  else some ((p.takeWhile (· != 47)).take 14, (p.dropWhile (· != 47)).dropWhile (· == 47))

/-- The elements `skipelem` yields one after the other. -/
def elemsLoop : (fuel : Nat) → List UInt8 → List Name
  | 0, _ => []
  | fuel + 1, path =>
    match skipelem path with
    | none => []
    | some (name, rest) => name :: elemsLoop fuel rest

def elems (path : List UInt8) : List Name := elemsLoop (path.length + 1) path

/-- The lock `namex` takes on each directory it walks. -/
def walkLock (trans : Bool) (ip : Fin 100) : K Int :=
  if trans then ilock_trans ip else ilock ip

/-- The loop of `namex`. -/
def namexLoop (nameiparent trans : Bool) : (ip : Fin 100) → List Name →
    K (Option (Fin 100) × Name)
  | ip, [] => do
    if nameiparent then do
      iput ip
      pure (none, [])
    else pure (some ip, [])
  | ip, name :: rest => do
    let r ← walkLock trans ip
    if r ≠ 0 then pure (none, name)
    else do
      let i ← inode ip
      if i.d.type ≠ T_DIR then do
        iunlockput ip
        pure (none, name)
      else if nameiparent = true ∧ rest = [] then do
        -- Stop one level early.
        iunlock ip
        pure (some ip, name)
      else do
        match ← dirlookup ip name with
        | none => do
          iunlockput ip
          pure (none, name)
        | some (next, _) => do
          iunlockput ip
          namexLoop nameiparent trans next rest

/-- Look up and return the inode for a path name, or for its parent together with the final
    path element. `p` is the calling process. -/
def namex (p : Fin 64) (path : List UInt8) (nameiparent trans : Bool) :
    K (Option (Fin 100) × Name) := do
  if path.head? = some 47 then do
    let ip ← iget 1 1
    namexLoop nameiparent trans ip (elems path)
  else do
    let pr ← Exec.gets fun s => s.proc p
    match pr.cwd with
    | none => Exec.panic "trap"
    | some cwd => do
      let ip ← idup cwd
      namexLoop nameiparent trans ip (elems path)

def namei (p : Fin 64) (path : List UInt8) : K (Option (Fin 100)) := do
  let (ip, _) ← namex p path false false
  pure ip

def namei_trans (p : Fin 64) (path : List UInt8) : K (Option (Fin 100)) := do
  let (ip, _) ← namex p path false true
  pure ip

def nameiparent (p : Fin 64) (path : List UInt8) : K (Option (Fin 100) × Name) :=
  namex p path true false

def nameiparent_trans (p : Fin 64) (path : List UInt8) : K (Option (Fin 100) × Name) :=
  namex p path true true

/-- The bytes of "..". -/
def dotdot : Name := [46, 46]

/-- The loop of `distance_to_root`. A directory number is a `ushort`: a walk of more than
    65536 steps is in a directory for the second time and never ends. -/
def distanceLoop : (fuel : Nat) → (dp : Fin 100) → (counter : Nat) → K Nat
  | 0, _, _ => fun s => .loops s
  | fuel + 1, dp, counter => do
    match ← dirlookup dp dotdot with
    | none => pure counter
    | some (ip, _) => do
      let d ← inode dp
      iunlockput dp
      let _ ← ilock_trans ip
      let i ← inode ip
      -- If this is the root.
      if d.inum = i.inum then do
        iunlockput ip
        pure counter
      else distanceLoop fuel ip (counter + 1)

def distance_to_root (p : Fin 64) (path : List UInt8) : K Nat := do
  match ← nameiparent_trans p path with
  | (none, _) => Exec.panic "ilock"
  | (some dp, _) => do
    let _ ← ilock_trans dp
    distanceLoop 65537 dp 1

end Zv6
