/-
  The buffer cache (`bio.c`) over the memory disk (`memide.c`), and the log (`log.c`) as it
  uses buffers, function by function.

  The rest of the development reads sectors through `State.view`, the disk with the dirty
  buffers laid over it. Here the NBUF = 20 buffers are explicit: which sector each one holds,
  its three flags, and the list that orders them by use. A process that finds its buffer busy
  sleeps (`blocked`).

  `trace` is a record for the proofs: every sector written to the disk, in order.
-/
import Zv6.Model.Log

namespace Zv6.Bio

open Lib

/-- What a process sleeps on. -/
inductive Chan where
  | buf (i : Fin 20)
  | log

/-- `struct buf`: `flags` are the bits B_BUSY, B_VALID and B_DIRTY. -/
structure Buf where
  dev : Nat
  sector : Nat
  busy : Bool
  valid : Bool
  dirty : Bool
  data : Block

/-- `order` is the list of buffers from `head.next` on, the most recently used first. -/
structure State where
  buf : Fin 20 → Buf
  order : List (Fin 20)
  memdisk : Nat → Block
  disksize : Nat
  log : Log
  trace : List (Nat × Block)

abbrev C (α : Type) := Exec Chan State α

/-- Buffer `i` becomes `b`. -/
def State.setBuf (s : State) (i : Fin 20) (b : Buf) : State :=
  { s with buf := fun j => if j = i then b else s.buf j }

/-- Assign to fields of a buffer. -/
def updBuf (i : Fin 20) (f : Buf → Buf) : C Unit := fun s => .ok () (s.setBuf i (f (s.buf i)))

/-- The buffer behind a pointer. -/
def buffer (i : Fin 20) : C Buf := fun s => .ok (s.buf i) s

/-! ## bio.c -/

/-- Look through buffer cache for sector on device `dev`. If not found, recycle the least
    recently used buffer that is neither busy nor dirty. -/
def bget (dev sector : Nat) : C (Fin 20) := fun s =>
  match s.order.find? fun i =>
      decide ((s.buf i).dev = dev) && decide ((s.buf i).sector = sector) with
  | some i =>
    if (s.buf i).busy then .blocked (.buf i) s
    else .ok i (s.setBuf i { s.buf i with busy := true })
  | none =>
    match s.order.reverse.find? fun i => !(s.buf i).busy && !(s.buf i).dirty with
    | some i => .ok i (s.setBuf i { s.buf i with
        dev := dev, sector := sector, busy := true, valid := false, dirty := false })
    | none => .panic "bget: no buffers" s

/-- Sync buf with disk (`memide.c`). -/
def iderw (i : Fin 20) : C Unit := fun s =>
  let b := s.buf i
  if b.busy = false then .panic "iderw: buf not busy" s
  else if b.valid = true ∧ b.dirty = false then .panic "iderw: nothing to do" s
  else if b.dev ≠ 1 then .panic "iderw: request not for disk 1" s
  else if s.disksize ≤ b.sector then .panic "iderw: sector out of range" s
  else if b.dirty then
    .ok () { s.setBuf i { b with dirty := false, valid := true } with
      memdisk := Function.update s.memdisk b.sector b.data
      trace := s.trace ++ [(b.sector, b.data)] }
  else .ok () (s.setBuf i { b with data := s.memdisk b.sector, valid := true })

/-- Return a B_BUSY buf with the contents of the indicated disk sector. -/
def bread (dev sector : Nat) : C (Fin 20) := do
  let i ← bget dev sector
  let b ← buffer i
  Exec.when (b.valid = false) (iderw i)
  pure i

/-- Write b's contents to disk. Must be B_BUSY. -/
def bwrite (i : Fin 20) : C Unit := do
  let b ← buffer i
  if b.busy = false then Exec.panic "bwrite"
  else do
    updBuf i fun b => { b with dirty := true }
    iderw i

/-- Release a B_BUSY buffer. Move to the head of the MRU list. -/
def brelse (i : Fin 20) : C Unit := do
  let b ← buffer i
  if b.busy = false then Exec.panic "brelse"
  else Exec.modify fun s => { s.setBuf i { s.buf i with busy := false } with
    order := i :: s.order.erase i }

/-! ## log.c -/

/-- The loop of `install_trans` from `tail` on, `k` entries left. -/
def installLoop : (k tail : Nat) → C Unit
  | 0, _ => pure ()
  | k + 1, tail => do
    let log ← Exec.gets State.log
    let lbuf ← bread log.dev (log.start + tail + 1)
    let dbuf ← bread log.dev (log.sector tail)
    let l ← buffer lbuf
    updBuf dbuf fun d => { d with data := l.data }
    bwrite dbuf
    brelse lbuf
    brelse dbuf
    installLoop k (tail + 1)

/-- Copy committed blocks from log to their home location. -/
def install_trans : C Unit := do
  let log ← Exec.gets State.log
  installLoop log.n 0

/-- Write in-memory log header to disk. -/
def write_head : C Unit := do
  let log ← Exec.gets State.log
  let buf ← bread log.dev log.start
  updBuf buf fun b => { b with data := headBlock b.data log.n log.sector }
  bwrite buf
  brelse buf

def begin_trans : C Unit := fun s =>
  if s.log.busy then .blocked .log s
  else .ok () { s with log := { s.log with busy := true } }

def commit_trans : C Unit := do
  let log ← Exec.gets State.log
  Exec.when (0 < log.n) do
    write_head
    install_trans
    Exec.modify fun s => { s with log := { s.log with n := 0 } }
    write_head
  Exec.modify fun s => { s with log := { s.log with busy := false } }

/-- Append the buffer to the log and record its sector number. -/
def log_write (i : Fin 20) : C Unit := do
  let log ← Exec.gets State.log
  if 20 ≤ log.n ∨ log.size - 1 ≤ log.n then Exec.panic "too big a transaction"
  else if ¬ log.busy then Exec.panic "write outside of trans"
  else do
    let b ← buffer i
    let k := absorbSlot log b.sector
    Exec.modify fun s => { s with log := { s.log with
      sector := fun j => if j = k then b.sector else s.log.sector j } }
    let lbuf ← bread b.dev (log.start + k + 1)
    let b ← buffer i
    updBuf lbuf fun l => { l with data := b.data }
    bwrite lbuf
    brelse lbuf
    Exec.when (k = log.n) <| Exec.modify fun s => { s with log := { s.log with n := s.log.n + 1 } }
    updBuf i fun b => { b with dirty := true }

end Zv6.Bio
