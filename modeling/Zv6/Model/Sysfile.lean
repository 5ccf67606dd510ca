/-
  The calls that open and create files (`sysfile.c`), function by function.

  `p` is the calling process. A string argument is `none` when `argstr` fails; integer
  arguments are given. A call's result is the value it returns to user space.
-/
import Zv6.Model.File

namespace Zv6

open Lib

/-- The bytes of ".". -/
def dot : Name := [46]

/-- Open modes (`fcntl.h`): bit 0 is O_WRONLY, bit 1 O_RDWR, bit 9 O_CREATE. -/
def oWronly (omode : Nat) : Bool := omode.testBit 0
def oRdwr (omode : Nat) : Bool := omode.testBit 1
def oCreate (omode : Nat) : Bool := omode.testBit 9

/-! ## Create, link, unlink -/

/-- The dittos a new directory gets, by its distance to the root (DITTO_LOWER = 3,
    DITTO_HIGHER = 6). -/
def createDittos (dev : Nat) (ip : Fin 100) (dtr : Nat) : K Unit :=
  if dtr < 3 then do
    let c1 ← ialloc dev T_DITTO
    let c2 ← ialloc dev T_DITTO
    let i1 ← inode c1
    let i2 ← inode c2
    updInode ip fun i => { i with d := { i.d with
      child1 := UInt16.ofNat i1.inum, child2 := UInt16.ofNat i2.inum } }
  else if dtr < 6 then do
    let c1 ← ialloc dev T_DITTO
    let i1 ← inode c1
    updInode ip fun i => { i with d := { i.d with child1 := UInt16.ofNat i1.inum } }
  else pure ()

/-- The "." and ".." entries of the new directory `ip` in `dp`. -/
def createDots (dp ip : Fin 100) (inum parent : Nat) : K Unit := do
  updInode dp fun d => { d with d := { d.d with nlink := d.d.nlink + 1 } }
  iupdate dp
  let r1 ← dirlink ip dot inum
  if r1 < 0 then Exec.panic "create dots"
  else do
    let r2 ← dirlink ip dotdot parent
    if r2 < 0 then Exec.panic "create dots" else pure ()

/-- The part of `create` that makes a new inode in the locked directory `dp`. -/
def createNew (dp : Fin 100) (name : Name) (type major minor : UInt16) (dtr : Nat) :
    K (Fin 100) := do
  let d ← inode dp
  let ip ← ialloc d.dev type
  let _ ← ilock ip
  updInode ip fun i => { i with d := { i.d with major := major, minor := minor, nlink := 1 } }
  Exec.when (type = T_DIR) (createDittos d.dev ip dtr)
  iupdate ip
  let i ← inode ip
  Exec.when (type = T_DIR) (createDots dp ip i.inum d.inum)
  let r ← dirlink dp name i.inum
  if r < 0 then Exec.panic "create: dirlink"
  else do
    iunlockput dp
    pure ip

def create (p : Fin 64) (path : List UInt8) (type major minor : UInt16) : K (Option (Fin 100)) := do
  let dtr ← distance_to_root p path
  match ← nameiparent_trans p path with
  | (none, _) => pure none
  | (some dp, name) => do
    let _ ← ilock dp
    match ← dirlookup dp name with
    | some (ip, _) => do
      iunlockput dp
      let _ ← ilock ip
      let i ← inode ip
      if type = T_FILE ∧ i.d.type = T_FILE then pure (some ip)
      else do
        iunlockput ip
        pure none
    | none => do
      let ip ← createNew dp name type major minor dtr
      pure (some ip)

/-! ## Open and close -/

/-- The common end of the open calls: a descriptor for the locked inode `ip`. -/
def openFd (p : Fin 64) (ip : Fin 100) (omode : Nat) (fail : Int) : K Int := do
  match ← fileFd p with
  | none => do
    iunlockput ip
    pure fail
  | some (f, fd) => do
    iunlock ip
    Exec.modify fun s => s.setFile f { s.ftable f with
      type := .inode, ip := ip, off := 0, readable := !oWronly omode,
      writable := oWronly omode || oRdwr omode }
    pure fd.val

/-- The O_CREATE branch of the open calls. -/
def openCreate (p : Fin 64) (path : List UInt8) (omode : Nat) : K Int := do
  begin_trans
  let ip ← create p path T_FILE 1 0
  commit_trans
  match ip with
  | none => pure (-1)
  | some ip => openFd p ip omode (-1)

def sys_open (p : Fin 64) (path : Option (List UInt8)) (omode : Nat) : K Int :=
  match path with
  | none => pure (-1)
  | some path =>
    if oCreate omode then openCreate p path omode
    else do
      match ← namei_trans p path with
      | none => pure (-1)
      | some ip => do
        let r ← ilock_trans ip
        if r = E_CORRUPTED then pure E_CORRUPTED
        else do
          let i ← inode ip
          if i.d.type = T_DIR ∧ omode ≠ 0 then do
            iunlockput ip
            pure (-1)
          else openFd p ip omode (-1)

/-! ## Directories, devices, programs -/

def sys_mkdir (p : Fin 64) (path : Option (List UInt8)) : K Int := do
  begin_trans
  match path with
  | none => do
    commit_trans
    pure (-1)
  | some path => do
    match ← create p path T_DIR 0 0 with
    | none => do
      commit_trans
      pure (-1)
    | some ip => do
      iunlockput ip
      commit_trans
      pure 0

def sys_mknod (p : Fin 64) (path : Option (List UInt8)) (major minor : UInt16) : K Int := do
  begin_trans
  match path with
  | none => do
    commit_trans
    pure (-1)
  | some path => do
    match ← create p path T_DEV major minor with
    | none => do
      commit_trans
      pure (-1)
    | some ip => do
      iunlockput ip
      commit_trans
      pure 0

end Zv6
