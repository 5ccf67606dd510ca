/-
  Open files (`file.c`) and descriptors (the head of `sysfile.c`), function by function.

  `n` of a write is the user's `int`; its bytes are `src`, `n` of them.
-/
import Zv6.Model.Dir

namespace Zv6

open Lib

/-- Allocate a file structure. -/
def filealloc : K (Option (Fin 100)) := fun s =>
  match (List.finRange 100).find? fun f => decide ((s.ftable f).ref = 0) with
  | some f => .ok (some f) (s.setFile f { s.ftable f with ref := 1 })
  | none => .ok none s

/-- Close file `f`. (Decrement ref count, close when reaches 0.) -/
def fileclose (f : Fin 100) : K Unit := do
  let ff ← Exec.gets fun s => s.ftable f
  if ff.ref < 1 then Exec.panic "fileclose"
  else if 0 < ff.ref - 1 then
    Exec.modify fun s => s.setFile f { s.ftable f with ref := ff.ref - 1 }
  else do
    Exec.modify fun s => s.setFile f { s.ftable f with ref := 0, type := .none }
    match ff.type with
    | .none => pure ()
    | .pipe => pure ()
    | .inode => do
      begin_trans
      iput ff.ip
      commit_trans

/-- The loop of `filewrite`: `src` is what is left, `max = ((LOGSIZE-1-1-2) / 2) * 512`.
    Returns whether everything was written. -/
def filewriteLoop (f : Fin 100) : (fuel : Nat) → (src : List UInt8) → K Bool
  | 0, _ => pure true
  | fuel + 1, src =>
    if src = [] then pure true
    else do
      let n1 := min src.length 4096
      begin_trans
      let ff ← Exec.gets fun s => s.ftable f
      let _ ← ilock ff.ip
      let r ← writei ff.ip (src.take n1) ff.off
      Exec.when (0 < r) <|
        Exec.modify fun s => s.setFile f { s.ftable f with
          off := ((s.ftable f).off + r.toNat) % 4294967296 }
      iunlock ff.ip
      commit_trans
      if r < 0 then pure false
      else if r ≠ n1 then Exec.panic "short filewrite"
      else filewriteLoop f fuel (src.drop n1)

/-- Write to file `f`. -/
def filewrite (f : Fin 100) (src : List UInt8) (n : Int) : K Int := do
  let ff ← Exec.gets fun s => s.ftable f
  if ff.writable = false then pure (-1)
  else
    match ff.type with
    | .pipe => do
      let pipewrite ← Exec.gets State.pipewrite
      pure (pipewrite src)
    | .inode => do
      -- First, call ilock_trans once to make sure that the inode is valid.
      let r ← ilock_trans ff.ip
      if r = E_CORRUPTED then pure E_CORRUPTED
      else do
        iunlock ff.ip
        let all ← filewriteLoop f src.length src
        pure (if all = true ∧ 0 ≤ n then n else -1)
    | .none => Exec.panic "filewrite"

/-! ## Descriptors -/

/-- Allocate a file descriptor for the given file. -/
def fdalloc (p : Fin 64) (f : Fin 100) : K (Option (Fin 16)) := fun s =>
  match (List.finRange 16).find? fun i => decide ((s.proc p).ofile i = none) with
  | some i => .ok (some i) (s.setProc p { s.proc p with
      ofile := fun j => if j = i then some f else (s.proc p).ofile j })
  | none => .ok none s

/-- `filealloc`, then `fdalloc`; on failure the file is closed again. -/
def fileFd (p : Fin 64) : K (Option (Fin 100 × Fin 16)) := do
  match ← filealloc with
  | none => pure none
  | some f => do
    match ← fdalloc p f with
    | none => do
      fileclose f
      pure none
    | some fd => pure (some (f, fd))

end Zv6
