/-
  The kernel state the file-system code works on (`file.h`, `log.c`, `fs.c`, `proc.h`).

  Disk and buffer cache. `disk` is what the drives hold; drive `dev & 1` serves device
  `dev` (`idestart`). The buffer cache appears as what it adds to the disk: `dirty` holds
  the buffers that `log_write` has marked B_DIRTY and that are not installed yet, so
  `bread` returns the dirty buffer of a sector, or else the disk's sector. A clean buffer
  equals its sector, since `bwrite` is synchronous. `trace` records every sector write in
  order: a machine that stops between two writes has made a beginning of `trace`.

  Inode cache, open files, processes. A pointer into `icache.inode[]` or `ftable.file[]`
  is its index. `flags` of an inode are the two bits `busy` (I_BUSY) and `valid` (I_VALID).

  Outside the model: `devsw` (what a device driver answers) and `pipewrite` (what pipes answer to
  a write) are parameters of the state.
-/
import Zv6.Lib.Exec
import Zv6.Model.Layout

namespace Zv6

open Lib

/-- What a process sleeps on. -/
inductive Chan where
  | log
  | inode (ip : Fin 100)
  | buf (dev sec : Nat)
  deriving DecidableEq

/-- `struct inode`. -/
@[ext] structure Inode where
  dev : Nat
  inum : Nat
  ref : Int
  busy : Bool
  valid : Bool
  d : Dinode

/-- `struct log`, its `lh` included. -/
structure Log where
  start : Nat
  size : Nat
  busy : Bool
  dev : Nat
  n : Nat
  sector : Nat → Nat

inductive FdType where
  | none
  | pipe
  | inode
  deriving DecidableEq

/-- `struct file`. -/
structure File where
  type : FdType
  ref : Int
  readable : Bool
  writable : Bool
  ip : Fin 100
  off : Nat

/-- The part of `struct proc` the file system uses. A null `cwd` is that of a process slot
    not in use. -/
structure Proc where
  ofile : Fin 16 → Option (Fin 100)
  cwd : Option (Fin 100)

/-- `struct devsw`: what a driver answers to a read of `n` bytes and to a write. -/
structure DevSw where
  read : Option (Nat → Int × List UInt8)
  write : Option (List UInt8 → Int)

structure State where
  disk : Nat → Nat → Block
  dirty : Nat → Nat → Option Block
  trace : List (Nat × Nat × Block)
  log : Log
  icache : Fin 100 → Inode
  ftable : Fin 100 → File
  proc : Fin 64 → Proc
  devsw : Nat → DevSw
  pipewrite : List UInt8 → Int

/-- Kernel code. -/
abbrev K (α : Type) := Exec Chan State α

/-- Sector `sec` of drive `dv` becomes `b`. -/
def setSector (d : Nat → Nat → Block) (dv sec : Nat) (b : Block) : Nat → Nat → Block :=
  fun v c => if v = dv ∧ c = sec then b else d v c

/-- What `bread(dev, sec)` returns. -/
def State.view (s : State) (dev sec : Nat) : Block :=
  match s.dirty dev sec with
  | some b => b
  | none => s.disk (dev % 2) sec

/-- The in-memory inode `ip` becomes `i`. -/
def State.setInode (s : State) (ip : Fin 100) (i : Inode) : State :=
  { s with icache := fun j => if j = ip then i else s.icache j }

/-- The open file `f` becomes `v`. -/
def State.setFile (s : State) (f : Fin 100) (v : File) : State :=
  { s with ftable := fun j => if j = f then v else s.ftable j }

/-- Process `p` becomes `v`. -/
def State.setProc (s : State) (p : Fin 64) (v : Proc) : State :=
  { s with proc := fun q => if q = p then v else s.proc q }

/-! ## Buffers (`bio.c`, `ide.c`) -/

/-- `bread`. The buffer is released by the caller without further effect. -/
def bread (dev sec : Nat) : K Block := fun s => .ok (s.view dev sec) s

/-- `bwrite` of the buffer of `(dev, sec)` holding `b`: the sector is on the disk and the
    buffer clean when it returns. -/
def bwrite (dev sec : Nat) (b : Block) : K Unit := fun s =>
  .ok () { s with
    disk := setSector s.disk (dev % 2) sec b
    dirty := fun v c => if v = dev ∧ c = sec then none else s.dirty v c
    trace := s.trace ++ [(dev % 2, sec, b)] }

/-- The inode behind a pointer. -/
def inode (ip : Fin 100) : K Inode := fun s => .ok (s.icache ip) s

/-- Assign to fields of the inode behind a pointer. -/
def updInode (ip : Fin 100) (f : Inode → Inode) : K Unit := fun s =>
  .ok () (s.setInode ip (f (s.icache ip)))

end Zv6
