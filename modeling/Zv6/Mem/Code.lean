/-
  The page allocator (kalloc.c) and the page tables (vm.c).

  Physical memory is a map from page numbers to pages of 4096 bytes. The free list is threaded
  through the free pages themselves (`struct run`), page directories and page tables are pages
  of 1024 words, so a page handed out twice really does corrupt what it was used for before.

  A kernel pointer to a page is its page number: `p2v` and `v2p` then do nothing, and the
  pointers the source stores in memory (`r->next`, `kmem.freelist`) are the kernel addresses
  `ka p`. A pointer to an entry of a page table is the number of the page it is in and its
  index. Physical and user addresses are numbers, taken modulo 2^32 where they are used.

  `kalloc` may fail at any call: `fails` says which calls find the list empty (another CPU may
  have the last pages at that moment), and an empty list always fails. `L` holds the two
  addresses that the linker fixes, the start of the kernel's data and its end.
-/
import Zv6.Lib.Wp
import Zv6.Lib.Bytes

namespace Zv6.Mem

open Zv6.Lib

def PGSIZE : Nat := 4096
def EXTMEM : Nat := 0x100000
def PHYSTOP : Nat := 0xE000000
def DEVSPACE : Nat := 0xFE000000
def KERNBASE : Nat := 0x80000000
def KERNLINK : Nat := KERNBASE + EXTMEM
def NPDENTRIES : Nat := 1024
def NPTENTRIES : Nat := 1024

def PTE_P : UInt32 := 1
def PTE_W : UInt32 := 2
def PTE_U : UInt32 := 4

/-- Page directory index. -/
def PDX (va : Nat) : Nat := va / 0x400000 % 1024

/-- Page table index. -/
def PTX (va : Nat) : Nat := va / 0x1000 % 1024

def PGROUNDUP (sz : Nat) : Nat := (sz + PGSIZE - 1) % 2 ^ 32 / PGSIZE * PGSIZE

def PGROUNDDOWN (a : Nat) : Nat := a % 2 ^ 32 / PGSIZE * PGSIZE

/-- The addresses fixed by the linker: `data` and `end`. -/
structure Link where
  data : Nat
  kend : Nat
  data_aligned : data % PGSIZE = 0
  data_after : KERNLINK < data
  end_after : data < kend
  end_below : kend ≤ KERNBASE + 0x400000

/-- The bytes of a page. -/
abbrev Page := Nat → UInt8

/-- Word `i` of a page. -/
def Page.word (p : Page) (i : Nat) : UInt32 := getU32 p (4 * i)

def Page.setWord (p : Page) (i : Nat) (w : UInt32) : Page :=
  fun k => if k / 4 = i then byteOf w.toNat (k % 4) else p k

/-- Physical memory with the head of the free list. -/
structure Mach where
  page : Nat → Page
  freelist : UInt32
  fails : Nat → Bool
  calls : Nat

namespace Mach

def word (m : Mach) (p i : Nat) : UInt32 := (m.page p).word i

def setPage (m : Mach) (p : Nat) (x : Page) : Mach :=
  { m with page := Function.update m.page p x }

def setWord (m : Mach) (p i : Nat) (w : UInt32) : Mach := m.setPage p ((m.page p).setWord i w)

end Mach

abbrev M := Exec Empty Mach

variable (L : Link)

/-! ## kalloc.c -/

/-- The kernel address of a page. -/
def ka (p : Nat) : UInt32 := UInt32.ofNat (KERNBASE + p * PGSIZE)

/-- The page at a kernel address. -/
def pageOf (v : UInt32) : Nat := (v.toNat - KERNBASE) / PGSIZE

/-- The machine after page `p` has been put on the free list: filled with junk, then linked. -/
def Mach.free (m : Mach) (p : Nat) : Mach :=
  { m with
    page := Function.update m.page p (Page.setWord (fun _ => 1) 0 m.freelist)
    freelist := ka p }

def kfree (p : Nat) : M PUnit := do
  if KERNBASE + p * PGSIZE < L.kend ∨ PHYSTOP ≤ p * PGSIZE then
    Exec.panic "kfree"
  else
    Exec.modify fun m => m.free p

/-- `kalloc` finds a page. -/
def Mach.finds (m : Mach) : Bool := !m.fails m.calls && m.freelist != 0

/-- The machine after the first page of the list has been taken. -/
def Mach.take (m : Mach) : Mach :=
  { m with
    freelist := m.word (pageOf m.freelist) 0
    calls := m.calls + 1 }

def kalloc : M (Option Nat) := do
  let m ← Exec.gets id
  if m.finds then do
    Exec.modify fun _ => m.take
    pure (some (pageOf m.freelist))
  else do
    Exec.modify fun m => { m with calls := m.calls + 1 }
    pure none

/-- `for(p = PGROUNDUP(vstart); p + PGSIZE <= vend; p += PGSIZE) kfree(p)`, as the `n` pages
    from page `p` on. -/
def freerange : Nat → Nat → M PUnit
  | _, 0 => pure ⟨⟩
  | p, n + 1 => do
    kfree L p
    freerange (p + 1) n

/-! ## vm.c -/

/-- The entry is present. -/
def present (w : UInt32) : Prop := w &&& PTE_P ≠ 0

instance (w : UInt32) : Decidable (present w) := inferInstanceAs (Decidable (_ ≠ _))

/-- `PTE_ADDR`, as a page number. -/
def frame (w : UInt32) : Nat := w.toNat / PGSIZE

/-- The entry for physical address `pa`. -/
def pte (pa : Nat) (perm : UInt32) : UInt32 := UInt32.ofNat pa ||| perm ||| PTE_P

def memset (p : Nat) (c : UInt8) : M PUnit := Exec.modify fun m => m.setPage p fun _ => c

/-- Where the entry for `va` is. -/
def walkpgdir (d va : Nat) (alloc : Bool) : M (Option (Nat × Nat)) := do
  let pde ← Exec.gets fun m => m.word d (PDX va)
  if present pde then
    pure (some (frame pde, PTX va))
  else if !alloc then
    pure none
  else do
    match ← kalloc with
    | none => pure none
    | some pgtab => do
      memset pgtab 0
      Exec.modify fun m => m.setWord d (PDX va) (pte (pgtab * PGSIZE) (PTE_W ||| PTE_U))
      pure (some (pgtab, PTX va))

/-- Map the page at `a`: one round of the loop of `mappages`. -/
def mapPage (d a pa : Nat) (perm : UInt32) : M Bool := do
  match ← walkpgdir d a true with
  | none => pure false
  | some (t, j) => do
    let w ← Exec.gets fun m => m.word t j
    if present w then
      Exec.panic "remap"
    else do
      Exec.modify fun m => m.setWord t j (pte pa perm)
      pure true

/-- The loop of `mappages` with `k` pages to go after this one. -/
def mapLoop (d : Nat) (perm : UInt32) : Nat → Nat → Nat → M Bool
  | 0, a, pa => mapPage d a pa perm
  | k + 1, a, pa => do
    if ← mapPage d a pa perm then
      mapLoop d perm k (a + PGSIZE) (pa + PGSIZE)
    else
      pure false

/-- Map `size` bytes from `va` on; `false` is the source's -1. -/
def mappages (d va size pa : Nat) (perm : UInt32) : M Bool :=
  let a := PGROUNDDOWN va
  let last := PGROUNDDOWN (va + size + (2 ^ 32 - 1))
  -- a goes up to last, around the end of the address space if need be
  mapLoop d perm ((last + 2 ^ 32 - a) % 2 ^ 32 / PGSIZE) a pa

/-- A row of the kernel's mappings. -/
structure Kmap where
  virt : Nat
  physStart : Nat
  physEnd : Nat
  perm : UInt32

def kmap : List Kmap :=
  [⟨KERNBASE, 0, EXTMEM, PTE_W⟩,
   ⟨KERNLINK, KERNLINK - KERNBASE, L.data - KERNBASE, 0⟩,
   ⟨L.data, L.data - KERNBASE, PHYSTOP, PTE_W⟩,
   ⟨DEVSPACE, DEVSPACE, 0, PTE_W⟩]

/-- `k->phys_end - k->phys_start`. -/
def Kmap.size (k : Kmap) : Nat := (k.physEnd + 2 ^ 32 - k.physStart) % 2 ^ 32

def kmapLoop (d : Nat) : List Kmap → M Bool
  | [] => pure true
  | k :: ks => do
    if ← mappages d k.virt k.size k.physStart k.perm then
      kmapLoop d ks
    else
      pure false

def setupkvm : M (Option Nat) := do
  match ← kalloc with
  | none => pure none
  | some d => do
    memset d 0
    if ← kmapLoop d (kmap L) then
      pure (some d)
    else
      pure none

/-- Free page `p`, which entry `j` of table `t` maps, then clear the entry. -/
def dropPage (t j p : Nat) : M PUnit := do
  if p = 0 then
    Exec.panic "kfree"
  else do
    kfree L p
    Exec.modify fun m => m.setWord t j 0

/-- The loop of `deallocuvm` from `a` on, for at most `k` rounds. -/
def deallocLoop (d oldsz : Nat) : Nat → Nat → M PUnit
  | 0, _ => pure ⟨⟩
  | k + 1, a => do
    if oldsz ≤ a then
      pure ⟨⟩
    else do
      match ← walkpgdir d a false with
      | none => deallocLoop d oldsz k (a + (NPTENTRIES - 1) * PGSIZE + PGSIZE)
      | some (t, j) => do
        let w ← Exec.gets fun m => m.word t j
        Exec.when (present w) (dropPage L t j (frame w))
        deallocLoop d oldsz k (a + PGSIZE)

/-- How often `for(; a < b; a += PGSIZE)` goes round. -/
def rounds (a b : Nat) : Nat := (b - a + PGSIZE - 1) / PGSIZE

def deallocuvm (d oldsz newsz : Nat) : M Nat := do
  if oldsz ≤ newsz then
    pure oldsz
  else do
    deallocLoop L d oldsz (rounds (PGROUNDUP newsz) oldsz) (PGROUNDUP newsz)
    pure newsz

/-- The loop of `allocuvm` with `k` pages to go from `a` on. -/
def allocLoop (d oldsz newsz : Nat) : Nat → Nat → M Nat
  | 0, _ => pure newsz
  | k + 1, a => do
    match ← kalloc with
    | none => do
      let _ ← deallocuvm L d newsz oldsz
      pure 0
    | some mem => do
      memset mem 0
      -- the result is not looked at
      let _ ← mappages d a PGSIZE (mem * PGSIZE) (PTE_W ||| PTE_U)
      allocLoop d oldsz newsz k (a + PGSIZE)

def allocuvm (d oldsz newsz : Nat) : M Nat := do
  if KERNBASE ≤ newsz then
    pure 0
  else if newsz < oldsz then
    pure oldsz
  else
    allocLoop L d oldsz newsz (rounds (PGROUNDUP oldsz) newsz) (PGROUNDUP oldsz)

/-- Free the tables of a directory, `n` entries from entry `i` on. -/
def freeTables (d : Nat) : Nat → Nat → M PUnit
  | _, 0 => pure ⟨⟩
  | i, n + 1 => do
    let w ← Exec.gets fun m => m.word d i
    Exec.when (present w) (kfree L (frame w))
    freeTables d (i + 1) n

/-- The pointer is never null here: a directory is a page number. -/
def freevm (d : Nat) : M PUnit := do
  let _ ← deallocuvm L d KERNBASE 0
  freeTables L d 0 NPDENTRIES
  kfree L d

def clearpteu (d uva : Nat) : M PUnit := do
  match ← walkpgdir d uva false with
  | none => Exec.panic "clearpteu"
  | some (t, j) => Exec.modify fun m => m.setWord t j (m.word t j &&& ~~~PTE_U)

/-- The loop of `copyuvm` with `k` pages to go from `i` on; `false` is `goto bad`. -/
def copyLoop (pgdir d : Nat) : Nat → Nat → M Bool
  | 0, _ => pure true
  | k + 1, i => do
    match ← walkpgdir pgdir i false with
    | none => Exec.panic "copyuvm: pte should exist"
    | some (t, j) => do
      let w ← Exec.gets fun m => m.word t j
      if ¬ present w then
        Exec.panic "copyuvm: page not present"
      else do
        match ← kalloc with
        | none => pure false
        | some mem => do
          Exec.modify fun m => m.setPage mem (m.page (frame w))
          if ← mappages d i PGSIZE (mem * PGSIZE) (PTE_W ||| PTE_U) then
            copyLoop pgdir d k (i + PGSIZE)
          else
            pure false

def copyuvm (pgdir sz : Nat) : M (Option Nat) := do
  match ← setupkvm L with
  | none => pure none
  | some d => do
    if ← copyLoop pgdir d (rounds 0 sz) 0 then
      pure (some d)
    else do
      freevm L d
      pure none

end Zv6.Mem
