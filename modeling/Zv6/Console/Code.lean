/-
  The console's input side (`console.c`), line by line.

  Any number of contexts `P`, processes and interrupt handlers, share the buffer `input`. A context
  is at a place of `consoleintr`, `consoleread` or `kill`, or outside of them (`user`). `getc` may
  return any character at each call, or none. What one character does to the buffer is one step,
  as it happens under the lock; the echo on the screen is left out.

  `events` records each character and each byte taken out of the buffer, `taken` the bytes taken
  out, each with the process and the number of its call, and `calls` the calls each process has
  finished. No code reads them.
-/
import Zv6.Lib.Monitor
import Zv6.Lib.Ring

namespace Zv6.Cons

open Lib Function

inductive Spin where
  | input
  | ptable
  deriving DecidableEq

/-- Readers sleep on `&input.r`. -/
inductive Chan where
  | r
  deriving DecidableEq

/-- Why a call of `consoleread` ends. -/
inductive Stop where
  /-- `n` bytes are read. -/
  | full
  | newline
  /-- A `^D` is met. -/
  | eof
  | killed
  deriving DecidableEq

/-- The locals of `consoleread(ip, dst, n)`: the argument `n` and the bytes copied so far. -/
structure Read where
  n : Int
  dst : List UInt8

/-- A call that has finished. -/
structure Call extends Read where
  stop : Stop

/-- What the call returns. -/
def Call.result (c : Call) : Int := if c.stop = .killed then -1 else c.dst.length

/-- What happened to the buffer. -/
inductive Event where
  | key (c : UInt8)
  | take

/-- A byte taken out of the buffer by the call with number `call` of process `p`. -/
structure Take (P : Type) where
  p : P
  call : Nat
  c : UInt8

structure Input (P : Type) where
  buf : Fin 128 → UInt8
  r : UInt32
  w : UInt32
  e : UInt32
  killed : P → Bool
  events : List Event
  taken : List (Take P)
  calls : P → List Call

inductive Place (P : Type) where
  | user
  -- consoleintr
  | iacquire
  | iloop
  | iwake
  | irelease
  -- consoleread
  | racquire (c : Read)
  | rwhile (c : Read)
  | rempty (c : Read)
  | rcheck (c : Read)
  | rsleep (c : Read)
  | rfetch (c : Read)
  | rrelease (c : Call)
  | rreturn (c : Call)
  -- kill
  | kacquire (q : P)
  | kset (q : P)
  | krouse (q : P)
  | krelease

variable {P : Type}

/-! ## The buffer -/

theorem inputBuf_pos : 0 < 128 := by decide

/-- `i % INPUT_BUF`. -/
def idx (i : UInt32) : Fin 128 := slot inputBuf_pos i

/-- `C(x)`: the character typed with control. -/
def ctrl (x : Char) : UInt8 := UInt8.ofNat (x.toNat - '@'.toNat)

def newline : UInt8 := 10

namespace Input

/-- `input.r == input.w` -/
def Empty (d : Input P) : Prop := d.r = d.w

instance decidableEmpty (d : Input P) : Decidable d.Empty := inferInstanceAs (Decidable (_ = _))

/-- The loop of `^U`, which moves `e` back. It ends after `e - w` rounds. -/
def killLine (d : Input P) : Nat → UInt32 → UInt32
  | 0, e => e
  | k + 1, e => if e ≠ d.w ∧ d.buf (idx (e - 1)) ≠ newline then killLine d k (e - 1) else e

/-- The character `c` is stored and, if it ends a line, what is typed is committed. -/
def store (d : Input P) (c : UInt8) : Input P × Bool :=
  let d := { d with buf := update d.buf (idx d.e) c, e := d.e + 1 }
  if c = newline ∨ c = ctrl 'D' ∨ d.e = d.r + 128 then ({ d with w := d.e }, true) else (d, false)

/-- The body of the loop of `consoleintr`, and whether readers are woken. -/
def switch (d : Input P) (c : UInt8) : Input P × Bool :=
  if c = ctrl 'P' then (d, false)
  else if c = ctrl 'U' then ({ d with e := killLine d (d.e - d.w).toNat d.e }, false)
  else if c = ctrl 'H' ∨ c = 0x7f then
    if d.e ≠ d.w then ({ d with e := d.e - 1 }, false) else (d, false)
  else if c ≠ 0 ∧ d.e - d.r < 128 then store d (if c = 13 then newline else c)
  else (d, false)

/-- The same, recorded. -/
def key (d : Input P) (c : UInt8) : Input P × Bool :=
  switch { d with events := d.events ++ [.key c] } c

/-- `input.buf[input.r % INPUT_BUF]` -/
def next (d : Input P) : UInt8 := d.buf (idx d.r)

/-- `input.r++`, by process `p`. -/
def fetch (d : Input P) (p : P) : Input P :=
  { d with
    r := d.r + 1
    events := d.events ++ [.take]
    taken := d.taken ++ [⟨p, (d.calls p).length, d.next⟩] }

/-- `e - r`: the bytes in use. -/
def used (d : Input P) : Nat := (d.e - d.r).toNat

/-- `w - r`: the bytes committed and not yet read. -/
def ready (d : Input P) : Nat := (d.w - d.r).toNat

end Input

/-! ## The code -/

abbrev Kernel (P : Type) := Machine P Spin Chan (Input P) (Place P)

section Code

variable [DecidableEq P]

/-- What context `p` may do next. -/
inductive code (m : Kernel P) (p : P) :
    Place P → Instr P Spin Chan (Input P) (Place P) → Prop where
  -- consoleintr
  | consoleintr : code m p .user (.set m.data .iacquire)
  | iacquire : code m p .iacquire (.acquire .input .iloop)
  | igetc (c : UInt8) : code m p .iloop
      (.set (m.data.key c).1 (if (m.data.key c).2 then .iwake else .iloop))
  | iwake : code m p .iwake (.wakeup .r .iloop)
  | idone : code m p .iloop (.set m.data .irelease)
  | irelease : code m p .irelease (.release .input .user)
  -- consoleread
  | consoleread (n : Int) : code m p .user (.set m.data (.racquire ⟨n, []⟩))
  | racquire (c) : code m p (.racquire c) (.acquire .input (.rwhile c))
  | rwhile (c) (h : (c.dst.length : Int) < c.n) : code m p (.rwhile c) (.set m.data (.rempty c))
  | rdone (c) (h : ¬ (c.dst.length : Int) < c.n) :
      code m p (.rwhile c) (.set m.data (.rrelease ⟨c, .full⟩))
  | rempty (c) (h : m.data.Empty) : code m p (.rempty c) (.set m.data (.rcheck c))
  | rready (c) (h : ¬ m.data.Empty) : code m p (.rempty c) (.set m.data (.rfetch c))
  | rleave (c) (h : m.data.killed p = true) :
      code m p (.rcheck c) (.set m.data (.rrelease ⟨c, .killed⟩))
  | rstay (c) (h : m.data.killed p = false) : code m p (.rcheck c) (.set m.data (.rsleep c))
  | rsleep (c) : code m p (.rsleep c) (.sleep .r .input (.rempty c))
  -- after some bytes `input.r--` takes back the `input.r++` of the line before
  | rkeep (c) (h : m.data.next = ctrl 'D') (hdst : c.dst ≠ []) : code m p (.rfetch c)
      (.set { m.data with r := m.data.r + 1 - 1 } (.rrelease ⟨c, .eof⟩))
  | reof (c) (h : m.data.next = ctrl 'D') (hdst : c.dst = []) : code m p (.rfetch c)
      (.set (m.data.fetch p) (.rrelease ⟨c, .eof⟩))
  | rline (c) (h : m.data.next = newline) : code m p (.rfetch c) (.set (m.data.fetch p)
      (.rrelease ⟨{ c with dst := c.dst ++ [m.data.next] }, .newline⟩))
  | rbyte (c) (h : m.data.next ≠ ctrl 'D') (hn : m.data.next ≠ newline) : code m p (.rfetch c)
      (.set (m.data.fetch p) (.rwhile { c with dst := c.dst ++ [m.data.next] }))
  | rrelease (c) : code m p (.rrelease c) (.release .input (.rreturn c))
  | rreturn (c) : code m p (.rreturn c) (.set
      { m.data with calls := update m.data.calls p (m.data.calls p ++ [c]) } .user)
  -- kill
  | kill (q : P) : code m p .user (.set m.data (.kacquire q))
  | kacquire (q) : code m p (.kacquire q) (.acquire .ptable (.kset q))
  | kset (q) : code m p (.kset q)
      (.set { m.data with killed := update m.data.killed q true } (.krouse q))
  | krouse (q) : code m p (.krouse q) (.rouse q .krelease)
  | krelease : code m p .krelease (.release .ptable .user)

/-- A run of the contexts on the console. -/
def Runs : Kernel P → Kernel P → Prop := Steps Spin.ptable code

/-- Nothing was typed or read, whatever lies in the buffer and whatever the indices are, no
    context is in the console code and no lock is taken. -/
structure Boots (m : Kernel P) : Prop where
  w : m.data.w = m.data.r
  e : m.data.e = m.data.r
  events : m.data.events = []
  taken : m.data.taken = []
  calls : ∀ p, m.data.calls p = []
  lock : ∀ l, m.lock l = none
  thr : ∀ p, m.thr p = .at .user

end Code

/-- The locks held at each place. -/
def holds : Place P → Set Spin
  | .iloop => {.input}
  | .iwake => {.input}
  | .irelease => {.input}
  | .rwhile _ => {.input}
  | .rempty _ => {.input}
  | .rcheck _ => {.input}
  | .rsleep _ => {.input}
  | .rfetch _ => {.input}
  | .rrelease _ => {.input}
  | .kset _ => {.ptable}
  | .krouse _ => {.ptable}
  | .krelease => {.ptable}
  | _ => ∅

theorem Boots.locks {m : Kernel P} (h : Boots m) : LockInv Spin.ptable holds m := by
  constructor
  · intro p
    rw [h.thr p]
    exact trivial
  · intro p l
    rw [h.thr p, h.lock l]
    simp [Thr.locks, holds]

theorem code_fits [DecidableEq P] (m : Kernel P) (p : P) (t : Place P)
    (i : Instr P Spin Chan (Input P) (Place P)) (h : code m p t i) :
    Instr.Fits Spin.ptable holds t i := by
  cases h with
  | igetc c =>
    show holds (if _ then _ else _) = _
    split <;> rfl
  | _ => simp [Instr.Fits, holds]

end Zv6.Cons
