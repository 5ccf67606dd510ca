/-
  The redo log (`log.c`), function by function.

  `log_write` and the install loop go through `bread`/`bwrite`; `for` loops over the log
  are recursions on what is left of it. Sleeping in `begin_trans` while the caller itself
  holds the transaction is the outcome `blocked .log`.
-/
import Zv6.Model.State

namespace Zv6

open Lib

/-- The loop of `install_trans` from `tail` on, `k` entries left. -/
def installLoop : (k tail : Nat) → K Unit
  | 0, _ => pure ()
  | k + 1, tail => do
    let log ← Exec.gets State.log
    let lbuf ← bread log.dev (log.start + tail + 1)
    bwrite log.dev (log.sector tail) lbuf
    installLoop k (tail + 1)

/-- Copy committed blocks from log to their home location. -/
def install_trans : K Unit := do
  let log ← Exec.gets State.log
  installLoop log.n 0

/-- Read the log header from disk into the in-memory log header. -/
def read_head : K Unit := do
  let log ← Exec.gets State.log
  let b ← bread log.dev log.start
  Exec.modify fun s => { s with log := { s.log with
    n := b.headN
    sector := fun i => if i < b.headN then b.headSector i else s.log.sector i } }

/-- The header sector with `n` and the first `n` sector numbers stored into it; the rest of
    the sector keeps its bytes. -/
def headBlock (b : Block) (n : Nat) (sector : Nat → Nat) : Block :=
  (List.range n).foldl (fun c i => c.setWord (1 + i) (UInt32.ofNat (sector i)))
    (b.setWord 0 (UInt32.ofNat n))

/-- Write in-memory log header to disk. -/
def write_head : K Unit := do
  let log ← Exec.gets State.log
  let b ← bread log.dev log.start
  bwrite log.dev log.start (headBlock b log.n log.sector)

def recover_from_log : K Unit := do
  read_head
  install_trans
  Exec.modify fun s => { s with log := { s.log with n := 0 } }
  write_head

def begin_trans : K Unit := fun s =>
  if s.log.busy then .blocked .log s
  else .ok () { s with log := { s.log with busy := true } }

def commit_trans : K Unit := do
  let log ← Exec.gets State.log
  Exec.when (0 < log.n) do
    write_head
    install_trans
    Exec.modify fun s => { s with log := { s.log with n := 0 } }
    write_head
  Exec.modify fun s => { s with log := { s.log with busy := false } }

/-- The slot `log_write` uses for sector `sec`: an entry that already names it, or the
    first free one. -/
def absorbSlot (log : Log) (sec : Nat) : Nat :=
  ((List.range log.n).find? fun i => log.sector i = sec).getD log.n

theorem absorbSlot_le (log : Log) (sec : Nat) : absorbSlot log sec ≤ log.n := by
  unfold absorbSlot
  cases h : (List.range log.n).find? fun i => decide (log.sector i = sec) with
  | none => exact Nat.le_refl _
  | some i => exact Nat.le_of_lt (List.mem_range.mp (List.mem_of_find?_eq_some h))

/-- `log_write` of the buffer of `(dev, sec)` holding `b`. -/
def log_write (dev sec : Nat) (b : Block) : K Unit := do
  let log ← Exec.gets State.log
  if 20 ≤ log.n ∨ log.size - 1 ≤ log.n then Exec.panic "too big a transaction"
  else if ¬ log.busy then Exec.panic "write outside of trans"
  else do
    let i := absorbSlot log sec
    Exec.modify fun s => { s with log := { s.log with
      sector := fun j => if j = i then sec else s.log.sector j } }
    -- the caller holds the buffer it logs: the `bread` of a slot that is the same sector never ends
    if sec = log.start + i + 1 then Exec.sleep (.buf dev sec)
    else do
      bwrite dev (log.start + i + 1) b
      Exec.when (i = log.n) <|
        Exec.modify fun s => { s with log := { s.log with n := s.log.n + 1 } }
      Exec.modify fun s => { s with
        dirty := fun v c => if v = dev ∧ c = sec then some b else s.dirty v c }

end Zv6
