/-
  `grep` (`grep.c`, with `strchr` and `memmove` of `ulib.c`).

  A pointer is what the memory holds from there on, so the pattern and the text of the matcher
  end at the first NUL. The memory from `buf` on is a list, with NULs behind its end: nothing in
  the program writes behind `buf`. What is written in front of `buf`, once `m` is negative, is
  lost to the model. `read` returns what is left of the input, as far as the kernel gives it and
  the count allows; `write` writes everything.
-/
import Zv6.Lib.Text
import Zv6.Lib.Wp

namespace Zv6.Grep

open Lib Lib.Text

/-! ## The matcher -/

mutual

/-- Search for `re` at the beginning of `text`. -/
def matchhere (re text : Bytes) : Bool :=
  if deref re = 0 then true
  else if deref re.tail = 42 then matchstar (deref re) re.tail.tail text
  else if deref re = 36 ∧ deref re.tail = 0 then deref text = 0
  else if deref text ≠ 0 ∧ (deref re = 46 ∨ deref re = deref text) then
    matchhere re.tail text.tail
  else false
termination_by (re.length, text.length, 0)
decreasing_by
  · have h : re.tail.length < re.length := length_tail_lt ‹_›
    apply Prod.Lex.left
    rw [List.length_tail]
    omega
  · exact Prod.Lex.left _ _ (length_tail_lt ‹_›)

/-- Search for `c*re` at the beginning of `text`. -/
def matchstar (c : UInt8) (re text : Bytes) : Bool :=
  if matchhere re text then true
  else if deref text ≠ 0 ∧ (deref text = c ∨ c = 46) then matchstar c re text.tail
  else false
termination_by (re.length, text.length, 1)
decreasing_by
  · exact Prod.Lex.right _ (Prod.Lex.right _ Nat.zero_lt_one)
  · next h => exact Prod.Lex.right _ (Prod.Lex.left _ _ (length_tail_lt h.1))

end

/-- The loop of `match`. It looks at the empty string, too. -/
def matchLoop (re text : Bytes) : Bool :=
  if matchhere re text then true
  else if deref text ≠ 0 then matchLoop re text.tail
  else false
termination_by text.length
decreasing_by exact length_tail_lt ‹_›

/-- `match` -/
def matchText (re text : Bytes) : Bool :=
  if deref re = 94 then matchhere re.tail text else matchLoop re text

/-! ## The buffer -/

/-- Where `c` stands first in the string `s`. -/
def strchr (c : UInt8) : (s : Bytes) → Option Nat
  | [] => none
  | d :: s => if d = 0 then none else if d = c then some 0 else (strchr c s).map (· + 1)

/-- Copy `n` bytes, the first one first. -/
def memmove : (n dst src : Nat) → Bytes → Bytes
  | 0, _, _, b => b
  | n + 1, dst, src, b => memmove n (dst + 1) (src + 1) (b.set dst (b.getD src 0))

/-- The bytes `w` written at `a`, as far as that is not in front of the buffer. -/
def poke (a : Int) (w b : Bytes) : Bytes :=
  b.take a.toNat ++ w.drop (-a).toNat ++ b.drop (a.toNat + (w.drop (-a).toNat).length)

structure State where
  /-- The memory from `buf` on. -/
  buf : Bytes
  m : Int
  /-- What is left of the input. -/
  input : Bytes
  /-- What has been written. -/
  out : Bytes
  deriving DecidableEq, Repr

abbrev G (α : Type) := Exec Empty State α

/-- `sizeof(buf)` -/
def SIZE : Nat := 1024

/-- `read(fd, buf+m, sizeof(buf)-m)`. The kernel gives up to `k + 1` bytes at a time. -/
def read (k : Nat) : G Nat := do
  let s ← Exec.gets id
  let w := s.input.take (min (k + 1) (SIZE - s.m).toNat)
  Exec.modify fun s => { s with buf := poke s.m w s.buf, input := s.input.drop w.length }
  pure w.length

/-- The loop over the lines in the buffer. It returns `p`. -/
def lineLoop (re : Bytes) : (fuel p : Nat) → G Nat
  | 0, _ => fun s => .loops s
  | fuel + 1, p => do
    let b ← Exec.gets State.buf
    match strchr 10 (b.drop p) with
    | none => pure p
    | some i =>
      Exec.modify fun s => { s with buf := s.buf.set (p + i) 0 }
      let b ← Exec.gets State.buf
      if matchText re (b.drop p) then
        Exec.modify fun s => { s with buf := s.buf.set (p + i) 10 }
        Exec.modify fun s => { s with out := s.out ++ (s.buf.drop p).take (i + 1) }
      else pure ()
      lineLoop re fuel (p + i + 1)

/-- The end of a round: what stands behind the last line goes to the front. -/
def settle (p : Nat) : G Unit := do
  Exec.when (p = 0) (Exec.modify fun s => { s with m := 0 })
  let m ← Exec.gets State.m
  Exec.when (0 < m) (Exec.modify fun s =>
    { s with m := s.m - p, buf := memmove (s.m - p).toNat 0 p s.buf })

/-- One round of the loop of `grep`. It says whether the loop goes on. -/
def round (re : Bytes) (k : Nat) : G Bool := do
  let n ← read k
  if n = 0 then pure false
  else
    Exec.modify fun s => { s with m := s.m + n }
    let b ← Exec.gets State.buf
    let p ← lineLoop re (b.length + 1) 0
    settle p
    pure true

/-- `grep`, as far as the reads of `ks` get it. -/
def grep (re : Bytes) : (ks : List Nat) → G Unit
  | [] => pure ()
  | k :: ks => do
    if ← round re k then grep re ks else pure ()

/-- `grep` is called with an input and what the memory holds from `buf` on. -/
def start (buf input : Bytes) : State := { buf, m := 0, input, out := [] }

end Zv6.Grep
