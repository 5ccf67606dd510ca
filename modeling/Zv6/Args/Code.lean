/-
  System call arguments, and what `read` and `write` do to user memory.

  The arguments lie on the user stack, and the kernel follows user pointers directly, so the
  checks of syscall.c are all that keeps it inside the process. The state has the user memory of
  the calling process and a list of the addresses the kernel has touched. A C int is a word whose
  sign is taken with `signed`.

  Of a file only what decides which addresses are touched is kept. A pipe is the bytes a reader
  will find and the room a writer will find before the other end goes away; the console is the
  characters that will be typed; an inode has its contents, its size and its dittos. Between the
  rounds of `filewrite` the lock is given up, so each round finds the inode and the offset as
  others have left them.
-/
import Mathlib.Algebra.Group.Int.Defs
import Zv6.Mem.Code

namespace Zv6.Args

open Zv6.Lib
open Zv6.Mem (KERNBASE)

abbrev NOFILE : Nat := 16
def BSIZE : UInt32 := 512
def MAXFILE : UInt32 := 138

/-- The value of a word as an int. -/
def signed (w : UInt32) : Int := if w.toNat < 2 ^ 31 then w.toNat else (w.toNat : Int) - 2 ^ 32

/-- An inode as `readi` and `writei` find it. -/
inductive Ino where
  /-- A device without the routine asked for. -/
  | noDriver
  | console (input : List UInt8)
  | file (size : UInt32) (data : Nat → UInt8) (dittos : List Ino)

/-- What an open file refers to. -/
inductive Obj where
  | none
  | pipe (found : List UInt8) (room : Nat)
  /-- The inode and the offset in each round, and whether `ilock_trans` finds it corrupted. -/
  | inode (ip : Nat → Ino) (off : Nat → UInt32) (corrupted : Bool)

structure File where
  readable : Bool
  writable : Bool
  obj : Obj

/-- The calling process. -/
structure User where
  sz : UInt32
  esp : UInt32
  mem : UInt32 → UInt8
  ofile : Fin NOFILE → Option File
  touched : List UInt32
  below : sz.toNat < KERNBASE

abbrev K := Exec Empty User

/-! ## User memory -/

def load (a : UInt32) : K UInt8 := fun u =>
  .ok (u.mem a) { u with touched := a :: u.touched }

def store (a : UInt32) (b : UInt8) : K PUnit :=
  Exec.modify fun u =>
    { u with mem := fun c => if c = a then b else u.mem c, touched := a :: u.touched }

/-- The word at `a`, byte by byte. -/
def loadWord (a : UInt32) : K UInt32 := do
  let b0 ← load a
  let b1 ← load (a + 1)
  let b2 ← load (a + 2)
  let b3 ← load (a + 3)
  pure (UInt32.ofNat (b0.toNat + 256 * b1.toNat + 65536 * b2.toNat + 16777216 * b3.toNat))

/-- `memmove` of `n` bytes from user memory. -/
def copyIn (src : UInt32) : Nat → K PUnit
  | 0 => pure ⟨⟩
  | n + 1 => do
    let _ ← load src
    copyIn (src + 1) n

/-- `memmove` of the `n` bytes `data off`, `data (off + 1)`, … to user memory. -/
def copyOut (data : Nat → UInt8) (dst : UInt32) : Nat → Nat → K PUnit
  | _, 0 => pure ⟨⟩
  | off, n + 1 => do
    store dst (data off)
    copyOut data (dst + 1) (off + 1) n

/-! ## syscall.c -/

def fetchint (addr : UInt32) : K (Option UInt32) := do
  let sz ← Exec.gets User.sz
  if sz ≤ addr ∨ sz < addr + 4 then
    pure none
  else do
    let w ← loadWord addr
    pure (some w)

/-- The loop of `fetchstr` from `s` on, with `k` bytes to go to the end. -/
def fetchstrLoop (addr : UInt32) : Nat → UInt32 → K (Option Nat)
  | 0, _ => pure none
  | k + 1, s => do
    let c ← load s
    if c = 0 then
      pure (some (s - addr).toNat)
    else
      fetchstrLoop addr k (s + 1)

/-- The length of the string; `none` is the source's -1. -/
def fetchstr (addr : UInt32) : K (Option Nat) := do
  let sz ← Exec.gets User.sz
  if sz ≤ addr then
    pure none
  else
    fetchstrLoop addr (sz - addr).toNat addr

def argint (n : Nat) : K (Option UInt32) := do
  let esp ← Exec.gets User.esp
  fetchint (esp + 4 + 4 * UInt32.ofNat n)

def argptr (n : Nat) (size : UInt32) : K (Option UInt32) := do
  match ← argint n with
  | none => pure none
  | some i => do
    let sz ← Exec.gets User.sz
    if sz ≤ i ∨ sz < i + size then
      pure none
    else
      pure (some i)

/-! ## Pipes and the console -/

/-- The copy loop of `piperead`. -/
def pipereadLoop (addr n : UInt32) : List UInt8 → Nat → K Int
  | [], i => pure i
  | c :: cs, i => do
    if (i : Int) < signed n then do
      store (addr + UInt32.ofNat i) c
      pipereadLoop addr n cs (i + 1)
    else
      pure i

/-- The loop of `pipewrite`, with room for `room` more bytes. -/
def pipewriteLoop (addr n : UInt32) : (room i : Nat) → K Int
  | 0, i => pure (if (i : Int) < signed n then -1 else signed n)
  | room + 1, i => do
    if (i : Int) < signed n then do
      let _ ← load (addr + UInt32.ofNat i)
      pipewriteLoop addr n room (i + 1)
    else
      pure (signed n)

/-- The loop of `consoleread`: `left` bytes are still wanted. At the end of the list the process
    is killed. -/
def consolereadLoop (n : Int) : List UInt8 → (dst : UInt32) → (left : Int) → K Int
  | [], _, left => pure (if 0 < left then -1 else n - left)
  | c :: cs, dst, left => do
    if 0 < left then
      -- end of file
      if c = 4 then
        pure (n - left)
      else do
        store dst c
        if c = 10 then
          pure (n - (left - 1))
        else
          consolereadLoop n cs (dst + 1) (left - 1)
    else
      pure (n - left)

def consoleread (dst n : UInt32) (input : List UInt8) : K Int :=
  consolereadLoop (signed n) input dst (signed n)

def consolewrite (buf n : UInt32) : K Int := do
  copyIn buf (signed n).toNat
  pure (signed n)

/-! ## Inodes -/

/-- The loop of `readi` with `left` bytes to go. -/
def readiLoop (data : Nat → UInt8) : (fuel : Nat) → (dst off left : UInt32) → K PUnit
  | 0, _, _, _ => pure ⟨⟩
  | fuel + 1, dst, off, left => do
    if left = 0 then
      pure ⟨⟩
    else do
      let m := min left (BSIZE - off % BSIZE)
      copyOut data dst off.toNat m.toNat
      readiLoop data fuel (dst + m) (off + m) (left - m)

def readi (ip : Ino) (dst off n : UInt32) : K Int :=
  match ip with
  | .noDriver => pure (-1)
  | .console input => consoleread dst n input
  | .file size data _ => do
    if size < off ∨ off + n < off then
      pure (-1)
    else do
      let n := if size < off + n then size - off else n
      readiLoop data n.toNat dst off n
      pure (signed n)

/-- The loop of `writei` with `left` bytes to go. -/
def writeiLoop : (fuel : Nat) → (src off left : UInt32) → K PUnit
  | 0, _, _, _ => pure ⟨⟩
  | fuel + 1, src, off, left => do
    if left = 0 then
      pure ⟨⟩
    else do
      let m := min left (BSIZE - off % BSIZE)
      copyIn src m.toNat
      writeiLoop fuel (src + m) (off + m) (left - m)

mutual

/-- The inode itself, then its dittos from the same user memory. -/
def writei (src off n : UInt32) : Ino → K Int
  | .noDriver => pure (-1)
  | .console _ => consolewrite src n
  | .file size _ dittos => do
    if size < off ∨ off + n < off then
      pure (-1)
    else if MAXFILE * BSIZE < off + n then
      pure (-1)
    else do
      writeiLoop n.toNat src off n
      writeiDittos src off n dittos
      pure (signed n)

def writeiDittos (src off n : UInt32) : List Ino → K PUnit
  | [] => pure ⟨⟩
  | ci :: cs => do
    let _ ← writei src off n ci
    writeiDittos src off n cs

end

/-! ## file.c and sysfile.c -/

def fileread (f : File) (addr n : UInt32) : K Int :=
  if !f.readable then pure (-1)
  else match f.obj with
  | .pipe found _ => pipereadLoop addr n found 0
  | .inode ip off corrupted => do
    let r ← readi (ip 0) addr (off 0) n
    -- the result of ilock_trans is not looked at: a corrupted inode is not locked
    if corrupted then Exec.panic "iunlock" else pure r
  | .none => Exec.panic "fileread"

/-- The loop of `filewrite`: round `k`, `i` bytes written, `left` of them to go. -/
def filewriteLoop (ip : Nat → Ino) (off : Nat → UInt32) (addr : UInt32) :
    (fuel k i left : Nat) → K Bool
  | 0, _, _, left => pure (left == 0)
  | fuel + 1, k, i, left => do
    if left = 0 then
      pure true
    else do
      let n1 := min left 4096
      let r ← writei (addr + UInt32.ofNat i) (off k) (UInt32.ofNat n1) (ip k)
      if r < 0 then
        pure false
      else if r ≠ n1 then
        Exec.panic "short filewrite"
      else
        filewriteLoop ip off addr fuel (k + 1) (i + n1) (left - n1)

def filewrite (f : File) (addr n : UInt32) : K Int :=
  if !f.writable then pure (-1)
  else match f.obj with
  | .pipe _ room => pipewriteLoop addr n room 0
  | .inode ip off corrupted => do
    if corrupted then
      pure (-10)
    else do
      -- a negative n is less than i from the start, and not equal to it
      let all ← filewriteLoop ip off addr (signed n).toNat 0 0 (signed n).toNat
      pure (if all ∧ 0 ≤ signed n then signed n else -1)
  | .none => Exec.panic "filewrite"

def argfd (n : Nat) : K (Option File) := do
  match ← argint n with
  | none => pure none
  | some fd =>
    if h : fd.toNat < NOFILE then
      Exec.gets fun u => u.ofile ⟨fd.toNat, h⟩
    else
      pure none

/-- Descriptor, length and buffer of `read` and `write`; `none` is the source's -1. -/
def rwArgs : K (Option (File × UInt32 × UInt32)) := do
  match ← argfd 0 with
  | none => pure none
  | some f => do
    match ← argint 2 with
    | none => pure none
    | some n => do
      match ← argptr 1 n with
      | none => pure none
      | some p => pure (some (f, p, n))

def sys_read : K Int := do
  match ← rwArgs with
  | none => pure (-1)
  | some (f, p, n) => fileread f p n

def sys_write : K Int := do
  match ← rwArgs with
  | none => pure (-1)
  | some (f, p, n) => filewrite f p n

end Zv6.Args
