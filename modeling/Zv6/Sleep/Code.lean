/-
  The locks a process may sleep for: a buffer's B_BUSY (`bio.c`), an inode's I_BUSY (`fs.c`) and
  `log.busy` (`log.c`), with the disk driver (`ide.c`), whose requests use the same channels.

  Each function is modelled line by line around its spinlocks. What it does between two of them to
  data of its own (reading a dinode, checking it, writing a block) is outside the model, so a
  process between calls may call any of them that its frame allows: give back what it has, use an
  inode it has a reference to. That a process keeps a reference while it uses an inode is the
  rule all callers follow; it is a guard on the last `ref--`.

  `ilock_ext` gives the lock back when the checksum is wrong and returns an error. Some callers do
  not look at the result (`sys_link`, `create`, `filewrite`, `consoleread`) and call `iunlock`
  later all the same: such an inode is in the frame's `owed`.
-/
import Mathlib.Data.Fintype.Basic
import Zv6.Lib.Monitor
import Zv6.Model.Layout

namespace Zv6.Sleep

open Lib Function

/-- An entry of `bcache.buf`. -/
abbrev Buf := Fin 20

/-- An entry of `icache.inode`. -/
abbrev Ino := Fin 100

/-- What a process may sleep for. -/
inductive Obj where
  | buf (b : Buf)
  | ino (i : Ino)
  | log
  deriving DecidableEq

inductive Spin where
  | bcache
  | icache
  | log
  | ide
  | ptable
  deriving DecidableEq

/-- The spinlock that guards the busy flag. -/
def guard : Obj → Spin
  | .buf _ => .bcache
  | .ino _ => .icache
  | .log => .log

/-- `owner` is not in the source: the process that set the flag. -/
structure Flags (P : Type) where
  busy : Obj → Bool
  owner : Obj → Option P
  -- buffers: device and sector, B_VALID and B_DIRTY, most recently used first
  sector : Buf → Nat × Nat
  valid : Buf → Bool
  dirty : Buf → Bool
  order : List Buf
  idequeue : List Buf
  -- inodes: device and number, I_VALID
  inum : Ino → Nat × Nat
  ref : Ino → Nat
  ivalid : Ino → Bool
  nlink : Ino → Int

/-- What a process has in hand. -/
structure Frame where
  /-- Busy flags it set and has not cleared. -/
  held : Finset Obj
  /-- Inodes it has a reference to, its own or that of its files and directory. -/
  refs : Finset Ino
  /-- Inodes it takes to be locked although `ilock` failed. -/
  owed : Finset Ino
  /-- Inodes it is freeing, inside `iput`. -/
  puts : Finset Ino
  deriving DecidableEq

variable {P : Type}

/-- `p` sets the busy flag of `o`. -/
def Flags.take (d : Flags P) (p : P) (o : Obj) : Flags P :=
  { d with busy := update d.busy o true, owner := update d.owner o (some p) }

/-- The busy flag of `o` is cleared. -/
def Flags.clear (d : Flags P) (o : Obj) : Flags P :=
  { d with busy := update d.busy o false, owner := update d.owner o none }

/-- The buffer of a sector. -/
def Flags.cached (d : Flags P) (x : Nat × Nat) : Option Buf :=
  d.order.find? fun b => d.sector b == x

/-- The buffer that `bget` recycles: not busy and clean, least recently used. -/
def Flags.spare (d : Flags P) : Option Buf :=
  d.order.reverse.find? fun b => !d.busy (.buf b) && !d.dirty b

/-- `b->dev = dev; b->sector = sector; b->flags = B_BUSY` -/
def Flags.recycle (d : Flags P) (p : P) (b : Buf) (x : Nat × Nat) : Flags P :=
  { d.take p (.buf b) with
    sector := update d.sector b x
    valid := update d.valid b false
    dirty := update d.dirty b false }

/-- `brelse` moves the buffer to the front and clears B_BUSY. -/
def Flags.relse (d : Flags P) (b : Buf) : Flags P :=
  { d.clear (.buf b) with order := b :: d.order.erase b }

/-- The disk has served the request for `b`. -/
def Flags.served (d : Flags P) (b : Buf) (rest : List Buf) : Flags P :=
  { d with
    idequeue := rest
    valid := update d.valid b true
    dirty := update d.dirty b false }

/-- The entry of an inode that is in the cache. -/
def Flags.icached (d : Flags P) (x : Nat × Nat) : Option Ino :=
  (List.finRange 100).find? fun i => decide (0 < d.ref i) && d.inum i == x

/-- `empty`: the first entry without references. -/
def Flags.empty (d : Flags P) : Option Ino :=
  (List.finRange 100).find? fun i => d.ref i == 0

def Flags.setRef (d : Flags P) (i : Ino) (n : Nat) : Flags P :=
  { d with ref := update d.ref i n }

/-- `ip->dev = dev; ip->inum = inum; ip->ref = 1; ip->flags = 0` -/
def Flags.reuse (d : Flags P) (i : Ino) (x : Nat × Nat) : Flags P :=
  { (d.clear (.ino i)).setRef i 1 with
    inum := update d.inum i x
    ivalid := update d.ivalid i false }

/-- `ip->flags = 0`, when `iput` has freed the inode. -/
def Flags.freed (d : Flags P) (i : Ino) : Flags P :=
  { d.clear (.ino i) with ivalid := update d.ivalid i false }

/-- `ip->flags |= I_VALID`, and the fields of the inode, by a process that has it locked. -/
def Flags.fill (d : Flags P) (i : Ino) (v : Bool) (n : Int) : Flags P :=
  { d with ivalid := update d.ivalid i v, nlink := update d.nlink i n }

namespace Frame

def take (f : Frame) (o : Obj) : Frame := { f with held := insert o f.held }

def drop (f : Frame) (o : Obj) : Frame := { f with held := f.held.erase o }

def use (f : Frame) (i : Ino) : Frame := { f with refs := insert i f.refs }

def forget (f : Frame) (i : Ino) : Frame := { f with refs := f.refs.erase i }

/-- After `iunlock(ip)`; `fails`: inside an `ilock` whose result the caller ignores. -/
def unlocked (f : Frame) (i : Ino) (fails : Bool) : Frame :=
  { f.drop (.ino i) with owed := if fails then insert i f.owed else f.owed.erase i }

end Frame

inductive Place (P : Type) where
  /-- Between the calls below. -/
  | run (f : Frame)
  /-- About to release the spinlock `l`. -/
  | rel (l : Spin) (f : Frame)
  -- bget
  | getAcq (f : Frame) (x : Nat × Nat)
  | getLoop (f : Frame) (x : Nat × Nat)
  | getSleep (f : Frame) (x : Nat × Nat) (b : Buf)
  -- brelse
  | relAcq (f : Frame) (b : Buf)
  | relClear (f : Frame) (b : Buf)
  | relWake (f : Frame) (b : Buf)
  -- iderw
  | rwAcq (f : Frame) (b : Buf)
  | rwQueue (f : Frame) (b : Buf)
  | rwWhile (f : Frame) (b : Buf)
  | rwSleep (f : Frame) (b : Buf)
  -- ideintr
  | intrAcq (f : Frame)
  | intrHead (f : Frame)
  | intrWake (f : Frame) (b : Buf)
  -- iget, idup
  | igetAcq (f : Frame) (x : Nat × Nat)
  | igetScan (f : Frame) (x : Nat × Nat)
  | dupAcq (f : Frame) (i : Ino)
  | dupSet (f : Frame) (i : Ino)
  -- ilock_ext
  | lockAcq (f : Frame) (i : Ino)
  | lockWhile (f : Frame) (i : Ino)
  | lockSleep (f : Frame) (i : Ino)
  -- iunlock
  | unlockAcq (f : Frame) (i : Ino) (fails : Bool)
  | unlockClear (f : Frame) (i : Ino) (fails : Bool)
  | unlockWake (f : Frame) (i : Ino)
  -- iput
  | putAcq (f : Frame) (i : Ino)
  | putTest (f : Frame) (i : Ino)
  | putAgain (f : Frame) (i : Ino)
  | putClear (f : Frame) (i : Ino)
  | putWake (f : Frame) (i : Ino)
  | putDrop (f : Frame) (i : Ino)
  -- begin_trans, commit_trans
  | beginAcq (f : Frame)
  | beginWhile (f : Frame)
  | beginSleep (f : Frame)
  | commitAcq (f : Frame)
  | commitClear (f : Frame)
  | commitWake (f : Frame)
  -- kill
  | killAcq (f : Frame) (q : P)
  | killRouse (f : Frame) (q : P)

/-- What the process has in hand there. -/
def Place.frame : Place P → Frame
  | .run f => f
  | .rel _ f => f
  | .getAcq f _ => f
  | .getLoop f _ => f
  | .getSleep f _ _ => f
  | .relAcq f _ => f
  | .relClear f _ => f
  | .relWake f _ => f
  | .rwAcq f _ => f
  | .rwQueue f _ => f
  | .rwWhile f _ => f
  | .rwSleep f _ => f
  | .intrAcq f => f
  | .intrHead f => f
  | .intrWake f _ => f
  | .igetAcq f _ => f
  | .igetScan f _ => f
  | .dupAcq f _ => f
  | .dupSet f _ => f
  | .lockAcq f _ => f
  | .lockWhile f _ => f
  | .lockSleep f _ => f
  | .unlockAcq f _ _ => f
  | .unlockClear f _ _ => f
  | .unlockWake f _ => f
  | .putAcq f _ => f
  | .putTest f _ => f
  | .putAgain f _ => f
  | .putClear f _ => f
  | .putWake f _ => f
  | .putDrop f _ => f
  | .beginAcq f => f
  | .beginWhile f => f
  | .beginSleep f => f
  | .commitAcq f => f
  | .commitClear f => f
  | .commitWake f => f
  | .killAcq f _ => f
  | .killRouse f _ => f

abbrev Kernel (P : Type) := Machine P Spin Obj (Flags P) (Place P)

/-- The busy flags the process has set and not cleared: what it has locked. -/
def has (m : Kernel P) (p : P) : Finset Obj := (m.thr p).place.frame.held

/-- No other process has a reference to the inode. -/
def Alone (m : Kernel P) (p : P) (i : Ino) : Prop :=
  ∀ q, q ≠ p → i ∉ (m.thr q).place.frame.refs

/-- What process `p` may do next. -/
inductive code (m : Kernel P) (p : P) : Place P → Instr P Spin Obj (Flags P) (Place P) → Prop where
  | rel (l f) : code m p (.rel l f) (.release l (.run f))
  -- bget
  | bget (f x) : code m p (.run f) (.set m.data (.getAcq f x))
  | getAcq (f x) : code m p (.getAcq f x) (.acquire .bcache (.getLoop f x))
  | getHit (f x b) (h : m.data.cached x = some b) (hb : m.data.busy (.buf b) = false) :
      code m p (.getLoop f x) (.set (m.data.take p (.buf b)) (.rel .bcache (f.take (.buf b))))
  | getBusy (f x b) (h : m.data.cached x = some b) (hb : m.data.busy (.buf b) = true) :
      code m p (.getLoop f x) (.set m.data (.getSleep f x b))
  | getSleep (f x b) : code m p (.getSleep f x b) (.sleep (.buf b) .bcache (.getLoop f x))
  | getSpare (f x b) (h : m.data.cached x = none) (hb : m.data.spare = some b) :
      code m p (.getLoop f x)
        (.set (m.data.recycle p b x) (.rel .bcache (f.take (.buf b))))
  -- bwrite sets B_DIRTY; bread and bwrite call iderw
  | bwrite (f b) (h : .buf b ∈ f.held) :
      code m p (.run f)
        (.set { m.data with dirty := update m.data.dirty b true } (.rwAcq f b))
  | bread (f b) (h : .buf b ∈ f.held) (hv : m.data.valid b = false) :
      code m p (.run f) (.set m.data (.rwAcq f b))
  -- log_write sets B_DIRTY, too, when it has written the log
  | logWrite (f b) (h : .buf b ∈ f.held) (hl : m.data.busy .log = true) :
      code m p (.run f) (.set { m.data with dirty := update m.data.dirty b true } (.run f))
  | rwAcq (f b) : code m p (.rwAcq f b) (.acquire .ide (.rwQueue f b))
  | rwQueue (f b) : code m p (.rwQueue f b)
      (.set { m.data with idequeue := m.data.idequeue ++ [b] } (.rwWhile f b))
  | rwStay (f b) (h : ¬ (m.data.valid b = true ∧ m.data.dirty b = false)) :
      code m p (.rwWhile f b) (.set m.data (.rwSleep f b))
  | rwSleep (f b) : code m p (.rwSleep f b) (.sleep (.buf b) .ide (.rwWhile f b))
  | rwDone (f b) (h : m.data.valid b = true ∧ m.data.dirty b = false) :
      code m p (.rwWhile f b) (.set m.data (.rel .ide f))
  -- the disk's interrupt, while some process runs
  | ideintr (f) : code m p (.run f) (.set m.data (.intrAcq f))
  | intrAcq (f) : code m p (.intrAcq f) (.acquire .ide (.intrHead f))
  | intrNone (f) (h : m.data.idequeue = []) : code m p (.intrHead f) (.set m.data (.rel .ide f))
  | intrHead (f b rest) (h : m.data.idequeue = b :: rest) :
      code m p (.intrHead f) (.set (m.data.served b rest) (.intrWake f b))
  | intrWake (f b) : code m p (.intrWake f b) (.wakeup (.buf b) (.rel .ide f))
  -- brelse
  | brelse (f b) (h : .buf b ∈ f.held) : code m p (.run f) (.set m.data (.relAcq f b))
  | relAcq (f b) : code m p (.relAcq f b) (.acquire .bcache (.relClear f b))
  | relClear (f b) : code m p (.relClear f b)
      (.set (m.data.relse b) (.relWake (f.drop (.buf b)) b))
  | relWake (f b) : code m p (.relWake f b) (.wakeup (.buf b) (.rel .bcache f))
  -- iget and idup; an inode of an open file or of the directory is used without them
  | iget (f x) : code m p (.run f) (.set m.data (.igetAcq f x))
  | igetAcq (f x) : code m p (.igetAcq f x) (.acquire .icache (.igetScan f x))
  | igetHit (f x i) (h : m.data.icached x = some i) :
      code m p (.igetScan f x)
        (.set (m.data.setRef i (m.data.ref i + 1)) (.rel .icache (f.use i)))
  | igetEmpty (f x i) (h : m.data.icached x = none) (hi : m.data.empty = some i) :
      code m p (.igetScan f x) (.set (m.data.reuse i x) (.rel .icache (f.use i)))
  | idup (f i) (h : i ∈ f.refs) : code m p (.run f) (.set m.data (.dupAcq f i))
  | dupAcq (f i) : code m p (.dupAcq f i) (.acquire .icache (.dupSet f i))
  | dupSet (f i) : code m p (.dupSet f i)
      (.set (m.data.setRef i (m.data.ref i + 1)) (.rel .icache f))
  | use (f i) (h : 1 ≤ m.data.ref i) : code m p (.run f) (.set m.data (.run (f.use i)))
  | forget (f i) (h : .ino i ∉ f.held) : code m p (.run f) (.set m.data (.run (f.forget i)))
  -- ilock_ext
  | ilock (f i) (h : i ∈ f.refs) : code m p (.run f) (.set m.data (.lockAcq f i))
  | lockAcq (f i) : code m p (.lockAcq f i) (.acquire .icache (.lockWhile f i))
  | lockBusy (f i) (h : m.data.busy (.ino i) = true) :
      code m p (.lockWhile f i) (.set m.data (.lockSleep f i))
  | lockSleep (f i) : code m p (.lockSleep f i) (.sleep (.ino i) .icache (.lockWhile f i))
  | lockTake (f i) (h : m.data.busy (.ino i) = false) :
      code m p (.lockWhile f i)
        (.set (m.data.take p (.ino i)) (.rel .icache (f.take (.ino i))))
  | fill (f i v n) (h : .ino i ∈ f.held) : code m p (.run f) (.set (m.data.fill i v n) (.run f))
  -- iunlock; it panics unless the inode is busy and has a reference
  | iunlock (f i) (h : .ino i ∈ f.held ∨ i ∈ f.owed) (hb : m.data.busy (.ino i) = true)
      (hr : 1 ≤ m.data.ref i) : code m p (.run f) (.set m.data (.unlockAcq f i false))
  | ifail (f i) (h : .ino i ∈ f.held) (hv : m.data.ivalid i = false) :
      code m p (.run f) (.set m.data (.unlockAcq f i true))
  | unlockAcq (f i b) : code m p (.unlockAcq f i b) (.acquire .icache (.unlockClear f i b))
  | unlockClear (f i b) : code m p (.unlockClear f i b)
      (.set (m.data.clear (.ino i)) (.unlockWake (f.unlocked i b) i))
  | unlockWake (f i) : code m p (.unlockWake f i) (.wakeup (.ino i) (.rel .icache f))
  -- iput
  | iput (f i) (h : i ∈ f.refs) : code m p (.run f) (.set m.data (.putAcq f i))
  | putAcq (f i) : code m p (.putAcq f i) (.acquire .icache (.putTest f i))
  | putFree (f i) (h : m.data.ref i = 1 ∧ m.data.ivalid i = true ∧ m.data.nlink i = 0)
      (hb : m.data.busy (.ino i) = false) :
      code m p (.putTest f i) (.set (m.data.take p (.ino i))
        (.rel .icache { f.take (.ino i) with puts := insert i f.puts }))
  | putLess (f i) (h : ¬ (m.data.ref i = 1 ∧ m.data.ivalid i = true ∧ m.data.nlink i = 0)) :
      code m p (.putTest f i) (.set m.data (.putDrop f i))
  | putAgain (f i) (h : i ∈ f.puts) (hi : .ino i ∈ f.held) :
      code m p (.run f) (.set m.data (.putAgain f i))
  | putAgainAcq (f i) : code m p (.putAgain f i) (.acquire .icache (.putClear f i))
  | putClear (f i) : code m p (.putClear f i) (.set (m.data.freed i)
      (.putWake { f.drop (.ino i) with puts := f.puts.erase i } i))
  | putWake (f i) : code m p (.putWake f i) (.wakeup (.ino i) (.putDrop f i))
  | putDrop (f i) (h : 2 ≤ m.data.ref i) :
      code m p (.putDrop f i) (.set (m.data.setRef i (m.data.ref i - 1)) (.rel .icache f))
  | putLast (f i) (h : m.data.ref i = 1 → Alone m p i) (hi : .ino i ∉ f.held) :
      code m p (.putDrop f i)
        (.set (m.data.setRef i (m.data.ref i - 1)) (.rel .icache (f.forget i)))
  -- begin_trans and commit_trans
  | beginTrans (f) : code m p (.run f) (.set m.data (.beginAcq f))
  | beginAcq (f) : code m p (.beginAcq f) (.acquire .log (.beginWhile f))
  | beginBusy (f) (h : m.data.busy .log = true) :
      code m p (.beginWhile f) (.set m.data (.beginSleep f))
  | beginSleep (f) : code m p (.beginSleep f) (.sleep .log .log (.beginWhile f))
  | beginTake (f) (h : m.data.busy .log = false) :
      code m p (.beginWhile f) (.set (m.data.take p .log) (.rel .log (f.take .log)))
  | commitTrans (f) (h : .log ∈ f.held) : code m p (.run f) (.set m.data (.commitAcq f))
  | commitAcq (f) : code m p (.commitAcq f) (.acquire .log (.commitClear f))
  | commitClear (f) : code m p (.commitClear f)
      (.set (m.data.clear .log) (.commitWake (f.drop .log)))
  | commitWake (f) : code m p (.commitWake f) (.wakeup .log (.rel .log f))
  -- kill
  | kill (f q) : code m p (.run f) (.set m.data (.killAcq f q))
  | killAcq (f q) : code m p (.killAcq f q) (.acquire .ptable (.killRouse f q))
  | killRouse (f q) : code m p (.killRouse f q) (.rouse q (.rel .ptable f))

/-- The spinlocks held at each place. -/
def holds : Place P → Set Spin
  | .rel l _ => {l}
  | .getLoop _ _ => {.bcache}
  | .getSleep _ _ _ => {.bcache}
  | .relClear _ _ => {.bcache}
  | .relWake _ _ => {.bcache}
  | .rwQueue _ _ => {.ide}
  | .rwWhile _ _ => {.ide}
  | .rwSleep _ _ => {.ide}
  | .intrHead _ => {.ide}
  | .intrWake _ _ => {.ide}
  | .igetScan _ _ => {.icache}
  | .dupSet _ _ => {.icache}
  | .lockWhile _ _ => {.icache}
  | .lockSleep _ _ => {.icache}
  | .unlockClear _ _ _ => {.icache}
  | .unlockWake _ _ => {.icache}
  | .putTest _ _ => {.icache}
  | .putClear _ _ => {.icache}
  | .putWake _ _ => {.icache}
  | .putDrop _ _ => {.icache}
  | .beginWhile _ => {.log}
  | .beginSleep _ => {.log}
  | .commitClear _ => {.log}
  | .commitWake _ => {.log}
  | .killRouse _ _ => {.ptable}
  | _ => ∅

theorem code_fits (m : Kernel P) (p : P) (t : Place P)
    (i : Instr P Spin Obj (Flags P) (Place P)) (h : code m p t i) :
    Instr.Fits Spin.ptable holds t i := by
  cases h <;> simp [Instr.Fits, holds]

/-- A process with nothing in hand. -/
def Frame.none : Frame := ⟨∅, ∅, ∅, ∅⟩

/-- No process has done anything yet. -/
structure Boots (m : Kernel P) : Prop where
  busy : ∀ o, m.data.busy o = false
  owner : ∀ o, m.data.owner o = Option.none
  lock : ∀ l, m.lock l = Option.none
  thr : ∀ p, m.thr p = .at (.run .none)

theorem Boots.locks {m : Kernel P} (h : Boots m) : LockInv Spin.ptable holds m := by
  constructor
  · intro p
    rw [h.thr p]
    trivial
  · intro p l
    rw [h.lock l, h.thr p]
    simp [Thr.locks, holds]

end Zv6.Sleep
