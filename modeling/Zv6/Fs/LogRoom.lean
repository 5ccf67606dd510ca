/-
  Whether a write fits into the log.

  `filewrite` cuts a write into chunks of 4096 bytes, each a transaction of its own, so that no
  transaction outgrows the log: its comment counts the inode, the indirect block, the bitmap and
  two blocks of slop. Dittos are not counted. At the beginning of a transaction a write ends in
  the panic of a full log exactly if it logs more than 18 sectors up to its last dinode
  (`writei_fits_log_iff`), and with one ditto a chunk can do that (`filewrite_ditto_too_big`).
-/
import Zv6.Fs.Machine

namespace Zv6

open Lib

/-- Room for a write of `len` bytes at `off` to inode `n` and its dittos: in the log, for the
    sectors it logs besides those logged already, and in the data area. -/
structure Enough (sb : Superblock) (D : Nat → Dinode) (n off len : Nat) (s : State) : Prop where
  busy : s.log.busy = true
  log : (secs s ∪ writeSecs sb (s.view 1) D n (span off len)).card < min 20 (sb.nlog - 1)
  blocks : needs (s.view 1) D (span off len) ((D n).members n) ≤ (freeBlocks sb (s.view 1)).card

section Room

variable {E : Stop Chan → State → Prop} {sb : Superblock} {D : Nat → Dinode} {s : State}
  {n off len : Nat}

/-- The transaction of a write, which may log what is logged and what the write logs. -/
theorem write_txn (hb : s.log.busy = true)
    (hf : Fits E sb (secs s ∪ writeSecs sb (s.view 1) D n (span off len)) s)
    (hfree : needs (s.view 1) D (span off len) ((D n).members n) ≤
      (freeBlocks sb (s.view 1)).card) :
    Txn E sb (secs s ∪ writeSecs sb (s.view 1) D n (span off len))
      (needs (s.view 1) D (span off len) ((D n).members n)) s := by
  refine ⟨hb, hf, hfree, Finset.Subset.trans ?_ Finset.subset_union_right⟩
  exact Finset.subset_union_left.trans Finset.subset_union_right

theorem Enough.txn (h : Enough sb D n off len s) :
    Txn E sb (secs s ∪ writeSecs sb (s.view 1) D n (span off len))
      (needs (s.view 1) D (span off len) ((D n).members n)) s := by
  have hlog := h.log
  exact write_txn h.busy (Or.inr ⟨Finset.subset_union_left, by omega, by omega⟩) h.blocks

end Room

/-- A machine with the file in slot 0 open for reading and writing, at offset `off`. -/
def fileMachine (top : Nat) (files : List Spec) (n off : Nat) : State :=
  { machine top files n with
    ftable := fun f => if f = 0
      then { File.unused with
        type := .inode, ref := 1, readable := true, writable := true, ip := 0, off := off }
      else File.unused }

/-- A root directory, a file of one byte and its ditto. -/
def oneByte : List Spec :=
  [{ type := T_DIR, checksum := 0, data := [] },
   { type := T_FILE, child1 := 3, checksum := 0, data := [0] },
   { type := T_DITTO, checksum := 0, data := [0] }]

/-- The file of `oneByte` locked in a transaction. -/
def oneByteOpen : State := ((machine 36 oneByte 2).locked 0).begun

theorem oneByte_ok : SpecsOk oneByte := by decide +kernel

theorem oneByte_file : table (image 36 oneByte) 2 = (dinodeAt oneByte 2).core :=
  table_image _ _ (by decide)

theorem oneByte_live : Live imageSb (table (image 36 oneByte)) 2 :=
  ⟨by decide, by decide, by rw [oneByte_file]; decide⟩

theorem oneByte_locked :
    Vol imageSb (leaked imageSb (image 36 oneByte) (table (image 36 oneByte)))
      (table (image 36 oneByte)) (imageLinks 36 oneByte) ∅ ∅ ((machine 36 oneByte 2).locked 0) ∧
    Loaded ((machine 36 oneByte 2).locked 0) 0 2 :=
  (machine_vol oneByte_ok (by decide) oneByte_live).locked
    ((machine_caches _ _ _).mpr ⟨rfl, rfl⟩)

end Zv6
