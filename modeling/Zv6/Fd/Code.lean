/-
  Descriptors, open files and pipes: `file.c`, the two ends of a pipe in `pipe.c`, and the calls
  of `sysfile.c` and `proc.c` that make, copy and drop descriptors, run by any number of processes
  at once.

  A step is what a process does under `ftable.lock` or a pipe's lock, or one assignment to its own
  descriptors. What the file system does for these calls is outside: a call that opens an inode
  is given what the lookup returned, and the inode of a closed file is put back without effect
  here, since the file system has no access to the two tables. `kalloc` succeeds or fails.

  A pipe is known by the number of pipes made before it. `freed`, which is not read, records the
  `kfree` of their pages, and `entry` the descriptors a process had when its call began.
-/
import Mathlib.Data.Fintype.Basic
import Zv6.Model.State

namespace Zv6.Fd

open Function

abbrev Pid := Fin 64

/-- An entry of `ftable`. -/
abbrev Fno := Fin 100

/-- `struct file`. -/
structure File where
  type : FdType
  ref : Int
  readable : Bool
  writable : Bool
  pipe : Nat
  ip : Fin 100
  off : Nat

/-- `struct pipe`, without the bytes: `readopen` is `isOpen false`, `writeopen` is `isOpen true`. -/
structure Pipe where
  isOpen : Bool → Bool

/-- `ftable` and the pipes. -/
structure Tab where
  file : Fno → File
  pipe : Nat → Pipe
  npipe : Nat
  freed : List Nat

namespace Tab

def setFile (t : Tab) (f : Fno) (v : File) : Tab := { t with file := update t.file f v }

/-- The entry that `filealloc` takes. -/
def free (t : Tab) : Option Fno := (List.finRange 100).find? fun f => decide ((t.file f).ref = 0)

/-- `f->ref = n` -/
def setRef (t : Tab) (f : Fno) (n : Int) : Tab := t.setFile f { t.file f with ref := n }

/-- `f->ref = 0; f->type = FD_NONE` -/
def clear (t : Tab) (f : Fno) : Tab := t.setFile f { t.file f with ref := 0, type := .none }

/-- `f->type = FD_INODE; f->ip = ip; …` -/
def openInode (t : Tab) (f : Fno) (ip : Fin 100) (omode : Nat) : Tab :=
  t.setFile f { t.file f with
    type := .inode, ip := ip, off := 0, readable := !omode.testBit 0,
    writable := omode.testBit 0 || omode.testBit 1 }

/-- `f->type = FD_PIPE; f->readable = …; f->writable = …; f->pipe = p` -/
def openPipe (t : Tab) (f : Fno) (w : Bool) (k : Nat) : Tab :=
  t.setFile f { t.file f with type := .pipe, readable := !w, writable := w, pipe := k }

/-- `pipealloc`, once it has two files and a page. -/
def newPipe (t : Tab) (f0 f1 : Fno) : Tab :=
  { (t.openPipe f0 false t.npipe).openPipe f1 true t.npipe with
    pipe := update t.pipe t.npipe ⟨fun _ => true⟩
    npipe := t.npipe + 1 }

/-- `pipeclose`, up to the decision whether the page is freed. -/
def shut (t : Tab) (k : Nat) (w : Bool) : Tab :=
  { t with pipe := update t.pipe k ⟨update (t.pipe k).isOpen w false⟩ }

/-- `p->readopen == 0 && p->writeopen == 0` -/
def Closed (t : Tab) (k : Nat) : Prop :=
  (t.pipe k).isOpen false = false ∧ (t.pipe k).isOpen true = false

def kfree (t : Tab) (k : Nat) : Tab := { t with freed := t.freed ++ [k] }

end Tab

/-- `proc->ofile` of every process. -/
abbrev Ofile := Pid → Fin 16 → Option Fno

def Ofile.set (o : Ofile) (p : Pid) (i : Fin 16) (f : Option Fno) : Ofile :=
  update o p (update (o p) i f)

/-- The descriptor that `fdalloc` takes. -/
def Ofile.free (o : Ofile) (p : Pid) : Option (Fin 16) :=
  (List.finRange 16).find? fun i => decide (o p i = none)

/-- What a process goes on with after `fileclose`. -/
inductive Cont where
  /-- Close the files `fs` too and return `r`. -/
  | ret (fs : List Fno) (r : Int)
  /-- `exit`: clear descriptor `i`, which had the file `f`, and go on with `fds`. -/
  | clear (i : Fin 16) (f : Fno) (fds : List (Fin 16))

inductive Place where
  | user
  -- sys_open, sys_forceopen, sys_iopen, sys_ichecksum (`sum`)
  | open1 (ip : Fin 100) (omode : Nat) (fail : Int) (sum : Option Nat)
  | open2 (f : Fno) (ip : Fin 100) (omode : Nat) (fail : Int) (sum : Option Nat)
  | open3 (f : Fno) (i : Fin 16) (ip : Fin 100) (omode : Nat) (sum : Option Nat)
  | open4 (f : Fno) (i : Fin 16) (cs : Nat)
  -- sys_pipe
  | pipe1 (mem : Bool)
  | pipe2 (f0 : Fno) (mem : Bool)
  | pipe3 (f0 f1 : Fno) (mem : Bool)
  | pipe4 (f0 f1 : Fno)
  | pipe5 (f0 f1 : Fno) (i : Fin 16)
  | pipe6 (f0 f1 : Fno) (i : Fin 16)
  -- sys_dup
  | dup1 (i : Fin 16) (f : Fno)
  | dup2 (i : Fin 16) (f : Fno) (j : Fin 16)
  -- sys_close
  | close1 (i : Fin 16) (f : Fno)
  -- fork
  | fork1 (np : Pid) (fds : List (Fin 16)) (pid : Nat)
  | fork2 (np : Pid) (i : Fin 16) (f : Fno) (fds : List (Fin 16)) (pid : Nat)
  -- exit
  | exit1 (fds : List (Fin 16))
  -- fileclose
  | clos (f : Fno) (c : Cont)
  | pclose (k : Nat) (w : Bool) (c : Cont)
  | pfree (k : Nat) (c : Cont)
  /-- The call goes on, or returns. -/
  | fin (c : Cont)

/-- A slot of the process table: free, being filled in by a fork of `p`, or a process that runs. -/
inductive Use where
  | free
  | embryo (p : Pid)
  | live
  deriving DecidableEq

structure Files where
  tab : Tab
  ofile : Ofile
  used : Pid → Use
  place : Pid → Place
  entry : Pid → Fin 16 → Option Fno

namespace Files

def go (s : Files) (p : Pid) (k : Place) : Files := { s with place := update s.place p k }

/-- A call begins. -/
def enter (s : Files) (p : Pid) (k : Place) : Files :=
  { s.go p k with entry := update s.entry p (s.ofile p) }

def setTab (s : Files) (p : Pid) (t : Tab) (k : Place) : Files := { s.go p k with tab := t }

def setFd (s : Files) (p q : Pid) (i : Fin 16) (f : Option Fno) (k : Place) : Files :=
  { s.go p k with ofile := s.ofile.set q i f }

end Files

/-- One step of process `p`. -/
inductive Step (s : Files) (p : Pid) : Place → Files → Prop where
  -- open: the lookup failed, or found an inode
  | nofile (r) (hp : s.used p = .live) (hr : r < 0) : Step s p .user (s.enter p (.fin (.ret [] r)))
  | sysOpen (ip omode fail sum) (hp : s.used p = .live) (hr : fail < 0) :
      Step s p .user (s.enter p (.open1 ip omode fail sum))
  | open1 (ip omode fail sum f) (h : s.tab.free = some f) :
      Step s p (.open1 ip omode fail sum)
        (s.setTab p (s.tab.setRef f 1) (.open2 f ip omode fail sum))
  | openFull (ip omode fail sum) (h : s.tab.free = none) :
      Step s p (.open1 ip omode fail sum) (s.go p (.fin (.ret [] fail)))
  | open2 (f ip omode fail sum i) (h : s.ofile.free p = some i) :
      Step s p (.open2 f ip omode fail sum) (s.setFd p p i (some f) (.open3 f i ip omode sum))
  | openNofd (f ip omode fail sum) (h : s.ofile.free p = none) :
      Step s p (.open2 f ip omode fail sum) (s.go p (.clos f (.ret [] fail)))
  | open3 (f i ip omode) : Step s p (.open3 f i ip omode none)
      (s.setTab p (s.tab.openInode f ip omode) (.fin (.ret [] i.val)))
  | openSum (f i ip omode cs) : Step s p (.open3 f i ip omode (some cs))
      (s.setTab p (s.tab.openInode f ip omode) (.open4 f i cs))
  | open4 (f i cs) : Step s p (.open4 f i cs) (s.setFd p p i none (.clos f (.ret [] cs)))
  -- pipe
  | sysPipe (mem) (hp : s.used p = .live) : Step s p .user (s.enter p (.pipe1 mem))
  | pipe1 (mem f0) (h : s.tab.free = some f0) :
      Step s p (.pipe1 mem) (s.setTab p (s.tab.setRef f0 1) (.pipe2 f0 mem))
  | pipeNone (mem) (h : s.tab.free = none) :
      Step s p (.pipe1 mem) (s.go p (.fin (.ret [] (-1))))
  | pipe2 (f0 mem f1) (h : s.tab.free = some f1) :
      Step s p (.pipe2 f0 mem) (s.setTab p (s.tab.setRef f1 1) (.pipe3 f0 f1 mem))
  | pipeOne (f0 mem) (h : s.tab.free = none) :
      Step s p (.pipe2 f0 mem) (s.go p (.clos f0 (.ret [] (-1))))
  | pipe3 (f0 f1) : Step s p (.pipe3 f0 f1 true)
      (s.setTab p (s.tab.newPipe f0 f1) (.pipe4 f0 f1))
  | pipeNomem (f0 f1) :
      Step s p (.pipe3 f0 f1 false) (s.go p (.clos f0 (.ret [f1] (-1))))
  | pipe4 (f0 f1 i) (h : s.ofile.free p = some i) :
      Step s p (.pipe4 f0 f1) (s.setFd p p i (some f0) (.pipe5 f0 f1 i))
  | pipeNofd (f0 f1) (h : s.ofile.free p = none) :
      Step s p (.pipe4 f0 f1) (s.go p (.clos f0 (.ret [f1] (-1))))
  | pipe5 (f0 f1 i j) (h : s.ofile.free p = some j) :
      Step s p (.pipe5 f0 f1 i) (s.setFd p p j (some f1) (.fin (.ret [] 0)))
  | pipeOnefd (f0 f1 i) (h : s.ofile.free p = none) :
      Step s p (.pipe5 f0 f1 i) (s.go p (.pipe6 f0 f1 i))
  | pipe6 (f0 f1 i) :
      Step s p (.pipe6 f0 f1 i) (s.setFd p p i none (.clos f0 (.ret [f1] (-1))))
  -- dup and close
  | sysDup (i f) (hp : s.used p = .live) (h : s.ofile p i = some f) :
      Step s p .user (s.enter p (.dup1 i f))
  | dup1 (i f j) (h : s.ofile.free p = some j) :
      Step s p (.dup1 i f) (s.setFd p p j (some f) (.dup2 i f j))
  | dupNofd (i f) (h : s.ofile.free p = none) : Step s p (.dup1 i f) (s.go p (.fin (.ret [] (-1))))
  | dup2 (i f j) (h : 1 ≤ (s.tab.file f).ref) : Step s p (.dup2 i f j)
      (s.setTab p (s.tab.setRef f ((s.tab.file f).ref + 1)) (.fin (.ret [] j.val)))
  | sysClose (i f) (hp : s.used p = .live) (h : s.ofile p i = some f) :
      Step s p .user (s.enter p (.close1 i f))
  | close1 (i f) : Step s p (.close1 i f) (s.setFd p p i none (.clos f (.ret [] 0)))
  -- fork; a failed one ends before it comes to the descriptors
  | fork (np pid) (hp : s.used p = .live) (hn : s.used np = .free) :
      Step s p .user
        { s.enter p (.fork1 np (List.finRange 16) pid) with
          used := update s.used np (.embryo p) }
  | forkFile (np i fds pid f) (h : s.ofile p i = some f) (hr : 1 ≤ (s.tab.file f).ref) :
      Step s p (.fork1 np (i :: fds) pid)
        (s.setTab p (s.tab.setRef f ((s.tab.file f).ref + 1)) (.fork2 np i f fds pid))
  | forkNone (np i fds pid) (h : s.ofile p i = none) :
      Step s p (.fork1 np (i :: fds) pid) (s.go p (.fork1 np fds pid))
  | forkSet (np i f fds pid) : Step s p (.fork2 np i f fds pid)
      (s.setFd p np i (some f) (.fork1 np fds pid))
  | forkEnd (np pid) : Step s p (.fork1 np [] pid)
      { s.go p (.fin (.ret [] pid)) with used := update s.used np .live }
  -- exit
  | exit (hp : s.used p = .live) : Step s p .user (s.enter p (.exit1 (List.finRange 16)))
  | exitFile (i fds f) (h : s.ofile p i = some f) :
      Step s p (.exit1 (i :: fds)) (s.go p (.clos f (.clear i f fds)))
  | exitNone (i fds) (h : s.ofile p i = none) : Step s p (.exit1 (i :: fds)) (s.go p (.exit1 fds))
  | exitEnd : Step s p (.exit1 [])
      { s.go p .user with used := update s.used p .free }
  -- fileclose
  | more (f c) (h : 1 < (s.tab.file f).ref) : Step s p (.clos f c)
      (s.setTab p (s.tab.setRef f ((s.tab.file f).ref - 1)) (.fin c))
  | last (f c) (h : (s.tab.file f).ref = 1) (ht : (s.tab.file f).type ≠ .pipe) :
      Step s p (.clos f c) (s.setTab p (s.tab.clear f) (.fin c))
  | lastPipe (f c) (h : (s.tab.file f).ref = 1) (ht : (s.tab.file f).type = .pipe) :
      Step s p (.clos f c) (s.setTab p (s.tab.clear f)
        (.pclose (s.tab.file f).pipe (s.tab.file f).writable c))
  | pclose (k w c) (h : (s.tab.shut k w).Closed k) :
      Step s p (.pclose k w c) (s.setTab p (s.tab.shut k w) (.pfree k c))
  | phalf (k w c) (h : ¬ (s.tab.shut k w).Closed k) :
      Step s p (.pclose k w c) (s.setTab p (s.tab.shut k w) (.fin c))
  | pfree (k c) : Step s p (.pfree k c) (s.setTab p (s.tab.kfree k) (.fin c))
  | next (f fs r) : Step s p (.fin (.ret (f :: fs) r)) (s.go p (.clos f (.ret fs r)))
  | clear (i f fds) : Step s p (.fin (.clear i f fds)) (s.setFd p p i none (.exit1 fds))
  | ret (r) : Step s p (.fin (.ret [] r)) (s.go p .user)

/-- Some processes took steps one after the other. -/
def Runs : Files → Files → Prop :=
  Relation.ReflTransGen fun s s' => ∃ p, Step s p (s.place p) s'

/-- One process runs, no files are open. -/
def boot : Files where
  tab := { file := fun _ => ⟨.none, 0, false, false, 0, 0, 0⟩, pipe := fun _ => ⟨fun _ => false⟩,
           npipe := 0, freed := [] }
  ofile _ _ := none
  used p := if p = 0 then .live else .free
  place _ := .user
  entry _ _ := none

end Zv6.Fd
