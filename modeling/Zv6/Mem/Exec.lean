/-
  Loading a program (exec.c and `loaduvm`).

  The file is its bytes; `readi` on it fails or delivers the bytes from an offset on, as far as
  they go. `load` is `exec` from the check of the ELF header to the guard page: it returns the
  new page directory with its size, or fails after `freevm`, and besides, for the proofs, the
  list of what `loaduvm` wrote: user page number and page table entry of each write. What `exec`
  does before (`namei`, `ilock`) and after (the arguments, the commit) is not here.

  The fields of the program headers are taken as they are. `loaduvm` stops the machine if
  `vaddr` is not a multiple of the page size, and as `vaddr + memsz` may wrap around, it may
  write through entries that were never allocated, the kernel's among them. `allocuvm` goes on
  without a page whose table it is refused. As long as the headers that the loop comes to are
  aligned, do not wrap and do not overlap, and no table is refused, loading is safe and right
  (`load_safe`).
-/
import Zv6.Mem.Copy
import Zv6.Mem.Copyout

namespace Zv6.Mem

open Zv6.Lib Function

/-! ## The code -/

def ELF_MAGIC : Nat := 0x464C457F
def ELF_PROG_LOAD : Nat := 1

/-- Sizes of `struct elfhdr` and `struct proghdr`. -/
def ELFHDR : Nat := 52
def PROGHDR : Nat := 32

abbrev File := List UInt8

def File.byte (f : File) (k : Nat) : UInt8 := f.getD k 0

def File.word (f : File) (o : Nat) : Nat := (getU32 f.byte o).toNat

/-- How many bytes `readi` delivers; `none` is -1. -/
def File.readi (f : File) (off n : Nat) : Option Nat :=
  if f.length < off ∨ 2 ^ 32 ≤ off + n then none else some (min n (f.length - off))

def File.magic (f : File) : Nat := f.word 0
def File.phoff (f : File) : Nat := f.word 28
def File.phnum (f : File) : Nat := (getU16 f.byte 44).toNat

structure Phdr where
  type : Nat
  off : Nat
  vaddr : Nat
  filesz : Nat
  memsz : Nat
  deriving DecidableEq

/-- The program header at `off`, if it can be read as a whole. -/
def File.phdr (f : File) (off : Nat) : Option Phdr :=
  if f.readi off PROGHDR = some PROGHDR then
    some ⟨f.word off, f.word (off + 4), f.word (off + 8), f.word (off + 16), f.word (off + 20)⟩
  else
    none

/-- Bytes `off` to `off + n` of the file over the start of a page. -/
def File.over (f : File) (off n : Nat) (x : Page) : Page :=
  fun k => if k < n then f.byte (off + k) else x k

/-- What `loaduvm` writes: the user page number it goes through and the entry found there. -/
abbrev Writes := List (Nat × UInt32)

/-- The loop of `loaduvm` with `k` pages to go. -/
def loadLoop (f : File) (d addr off sz : Nat) : Nat → Nat → M (Bool × Writes)
  | 0, _ => pure (true, [])
  | k + 1, i => do
    let va := (addr + i) % 2 ^ 32
    match ← walkpgdir d va false with
    | none => Exec.panic "loaduvm: address should exist"
    | some (t, j) => do
      let w ← Exec.gets fun m => m.word t j
      let n := min (sz - i) PGSIZE
      let o := (off + i) % 2 ^ 32
      match f.readi o n with
      | none => pure (false, [])
      | some c => do
        Exec.modify fun m => m.setPage (frame w) (f.over o c (m.page (frame w)))
        if c ≠ n then
          pure (false, [(va / PGSIZE, w)])
        else do
          let (r, log) ← loadLoop f d addr off sz k (i + PGSIZE)
          pure (r, (va / PGSIZE, w) :: log)

def loaduvm (f : File) (d addr off sz : Nat) : M (Bool × Writes) := do
  if addr % PGSIZE ≠ 0 then
    Exec.panic "loaduvm: addr must be page aligned"
  else
    loadLoop f d addr off sz (rounds 0 sz) 0

variable (L : Link)

/-- The loop over the program headers, `k` of them from `off` on; `none` is `goto bad`. -/
def segLoop (f : File) (d : Nat) : Nat → Nat → Nat → M (Option Nat × Writes)
  | 0, _, sz => pure (some sz, [])
  | k + 1, off, sz => do
    match f.phdr off with
    | none => pure (none, [])
    | some ph =>
      if ph.type ≠ ELF_PROG_LOAD then
        segLoop f d k ((off + PROGHDR) % 2 ^ 32) sz
      else if ph.memsz < ph.filesz then
        pure (none, [])
      else do
        let sz ← allocuvm L d sz ((ph.vaddr + ph.memsz) % 2 ^ 32)
        if sz = 0 then
          pure (none, [])
        else do
          let (ok, log) ← loaduvm f d ph.vaddr ph.off ph.filesz
          if ok then do
            let (r, log') ← segLoop f d k ((off + PROGHDR) % 2 ^ 32) sz
            pure (r, log ++ log')
          else
            pure (none, log)

/-- Two pages at the next page boundary, the first inaccessible. -/
@[irreducible] def stackPages (d sz : Nat) : M (Option Nat) := do
  let sz ← allocuvm L d (PGROUNDUP sz) (PGROUNDUP sz + 2 * PGSIZE)
  if sz = 0 then
    pure none
  else do
    clearpteu d (sz - 2 * PGSIZE)
    pure (some sz)

/-- `exec` from the ELF header to the guard page. -/
def load (f : File) : M (Option (Nat × Nat) × Writes) := do
  if f.length < ELFHDR ∨ f.magic ≠ ELF_MAGIC then
    pure (none, [])
  else do
    match ← setupkvm L with
    | none => pure (none, [])
    | some d => do
      let (r, log) ← segLoop L f d f.phnum f.phoff 0
      match r with
      | none => do
        freevm L d
        pure (none, log)
      | some sz => do
        match ← stackPages L d sz with
        | none => do
          freevm L d
          pure (none, log)
        | some sz => pure (some (d, sz), log)

/-! ## An address space under construction -/

variable {L} {D H l0 : List Nat} {m0 : Mach} {f : File}

/-- Directory `d` is being built from pages that were free in `m0`, and nothing else has been
    written since. -/
structure Part (L : Link) (D H : List Nat) (m0 : Mach) (l0 : List Nat) (d : Nat) (m : Mach)
    (l : List Nat) (role : Nat → Role) : Prop where
  own : Own L m l (d :: D) H role
  kept : ∀ q, q ∉ l0 → m.page q = m0.page q
  pool : ∀ q, q ∈ l ∨ Foot m d q → q ∈ l0

/-- Below the size every page is mapped for user code and holds the bytes `b`; above there is
    nothing for it. -/
structure Space (L : Link) (D H : List Nat) (m0 : Mach) (l0 : List Nat) (d sz : Nat)
    (st : Stock) (b : Nat → UInt8) (m : Mach) (l : List Nat) (role : Nat → Role) : Prop
    extends Part L D H m0 l0 d m l role where
  size : sz < KERNBASE
  below : ∀ u < pageCeil sz, Accessible m d u
  above : ∀ u < 2 ^ 19, pageCeil sz ≤ u → ¬ present (m.look d u)
  bytes : ∀ u < pageCeil sz, ∀ k < PGSIZE, m.page (frame (m.look d u)) k = b (u * PGSIZE + k)
  fresh : ∀ a, pageCeil sz * PGSIZE ≤ a → b a = 0
  kernel : ∀ u < 2 ^ 20, 2 ^ 19 ≤ u → ¬ Accessible m d u
  stock : m.stock l d = st

variable {d sz : Nat} {st : Stock} {b : Nat → UInt8} {m m' : Mach} {l l' : List Nat}
  {role role' : Nat → Role} {hs : List Phdr}

theorem Part.shrinks (h : Part L D H m0 l0 d m l role) (hs : Shrinks d m l m' l')
    (hown : Own L m' l' (d :: D) H role') : Part L D H m0 l0 d m' l' role' := by
  refine ⟨hown, ?_, fun q hq => ?_⟩
  · intro q hq
    rw [hs.page q (fun hc => hq (h.pool q (.inl hc))) fun hc => hq (h.pool q (.inr hc))]
    exact h.kept q hq
  · rcases hs.foot q hq with hq | hq
    · exact h.pool q (.inl hq)
    · exact h.pool q (.inr hq)

/-- Giving the directory up leaves all but free pages as they were. -/
theorem Part.freevm (h : Part L D H m0 l0 d m l role) :
    wp (freevm L d) (fun _ m' => ∀ q, q ∉ l0 → m'.page q = m0.page q) (fun _ _ => False) m := by
  refine (freevm_wp h.own).post ?_
  rintro _ m' ⟨l', role', -, hpage, -⟩
  intro q hq
  rw [hpage q (fun hc => hq (h.pool q (.inl hc))) fun hc => hq (h.pool q (.inr hc))]
  exact h.kept q hq

/-- The pages of the directory keep their bytes while it grows. -/
theorem Own.user_kept (h : Own L m l (d :: D) H role) (hg : Grows d m l m' l') {u : Nat}
    (hu : u < 2 ^ 19) (hp : present (m.look d u)) :
    m'.page (frame (m.look d u)) = m.page (frame (m.look d u)) := by
  have hout := h.user_outside List.mem_cons_self hu hp List.mem_cons_self
  exact hg.page _ hout.1 hout.2

/-- What an `allocuvm` maps comes from the free list. -/
theorem Allocs.shrinks {v k : Nat} {X : List Nat}
    (hal : Allocs L (d :: D) H d v k m l X m' l' role') (h : Own L m l (d :: D) H role) :
    Shrinks d m l m' l' := by
  refine hal.grows.shrinks fun u hu hp => ?_
  by_cases hin : v ≤ u ∧ u < v + k
  · obtain ⟨p, hmem, hlook, -⟩ := hal.page u hin.1 hin.2 hp
    rw [hlook, frame_user (h.list.role p hmem).2]
    exact .inl hmem
  · exact .inr (hal.other u (by omega) (by omega))

theorem Part.alloced {v0 v k newsz r : Nat} (h : Part L D H m0 l0 d m l role)
    (hal : Alloced L (d :: D) H d v0 v k newsz m l r m') :
    ∃ l' role', Part L D H m0 l0 d m' l' role' := by
  cases hal with
  | done hal => exact ⟨_, _, h.shrinks (hal.shrinks h.own) hal.own.leakAll⟩
  | undone j _ hal _ hun =>
    have h1 := h.shrinks (hal.shrinks h.own) hal.own.leakAll
    exact ⟨_, _, h1.shrinks hun.shrinks hun.own.leakAll⟩

/-- The space with the pages of an `allocuvm`. -/
theorem Space.grown {newsz k : Nat} (h : Space L D H m0 l0 d sz st b m l role)
    (hal : Allocs L (d :: D) H d (pageCeil sz) k m l [] m' l' role')
    (hst : m'.stock l' d = (m.stock l d).after k (pageCeil sz))
    (hlt : newsz < KERNBASE) (hk : pageCeil sz + k = pageCeil newsz) :
    Space L D H m0 l0 d newsz (st.after k (pageCeil sz)) b m' l' role' := by
  have hceil := pageCeil_le hlt.le
  have hpres := hal.full.mpr rfl
  have hnew : ∀ u, pageCeil sz ≤ u → u < pageCeil newsz → Accessible m' d u ∧
      ∃ p ∈ l, frame (m'.look d u) = p ∧ m'.page p = fun _ => 0 := by
    intro u h1 h2
    obtain ⟨p, hp, hlook, hzero⟩ := hal.page u h1 (by omega) (hpres u h1 (by omega))
    unfold Accessible
    rw [hlook]
    exact ⟨⟨present_pte _ _, (and_perm_eq_iff.mp (and_perm_pte _)).2⟩, p, hp,
      frame_user (h.own.list.role p hp).2, hzero⟩
  refine ⟨h.toPart.shrinks (hal.shrinks h.own) hal.own, hlt, ?_, ?_, ?_, ?_, ?_,
    hst.trans (by rw [h.stock])⟩
  · intro u hu
    by_cases hin : pageCeil sz ≤ u
    · exact (hnew u hin hu).1
    · rw [Accessible.congr (hal.other u (by omega) (by omega))]
      exact h.below u (by omega)
  · intro u hu hle
    rw [hal.other u (by omega) (by omega)]
    exact h.above u hu (by omega)
  · intro u hu k hk
    by_cases hin : pageCeil sz ≤ u
    · obtain ⟨-, p, -, hf, hzero⟩ := hnew u hin hu
      rw [hf, hzero, h.fresh]
      have := Nat.mul_le_mul_right PGSIZE hin
      omega
    · have hpu := (h.below u (by omega)).1
      rw [hal.other u (by omega) (by omega), h.own.user_kept hal.grows (by omega) hpu]
      exact h.bytes u (by omega) k hk
  · intro a ha
    apply h.fresh
    have := Nat.mul_le_mul_right PGSIZE (show pageCeil sz ≤ pageCeil newsz by omega)
    omega
  · intro u hu hk
    rw [Accessible.congr (hal.other u hu (by omega))]
    exact h.kernel u hu hk

/-- `allocuvm` of the sizes `sz` and `newsz` does not fail. -/
def Stock.Succeeds (st : Stock) (sz newsz : Nat) : Prop :=
  newsz < KERNBASE ∧ .data ∉ st.refused (pageCeil newsz - pageCeil sz) (pageCeil sz)

/-- It fails, or no table is refused. -/
def Stock.NoHole (st : Stock) (sz newsz : Nat) : Prop :=
  st.Succeeds sz newsz → .table ∉ st.refused (pageCeil newsz - pageCeil sz) (pageCeil sz)

/-- The stock afterwards. -/
def Stock.grown (st : Stock) (sz newsz : Nat) : Stock :=
  st.after (pageCeil newsz - pageCeil sz) (pageCeil sz)

/-- `allocuvm` fails and leaves a directory that can be given up, or all pages are mapped. -/
theorem Space.allocuvm {newsz : Nat} (h : Space L D H m0 l0 d sz st b m l role)
    (hg : st.NoHole sz newsz) :
    wp (allocuvm L d sz newsz) (fun r m' => ∃ l' role',
      (r = 0 ∧ Part L D H m0 l0 d m' l' role') ∨
      (st.Succeeds sz newsz ∧ r = max sz newsz ∧
        Space L D H m0 l0 d r (st.grown sz newsz) b m' l' role')) (fun _ _ => False) m := by
  by_cases hk : KERNBASE ≤ newsz
  · unfold Mem.allocuvm
    rw [if_pos hk]
    exact ⟨l, role, .inl ⟨rfl, h.toPart⟩⟩
  have hceil := pageCeil_le (Nat.le_of_not_le hk)
  refine (allocuvm_wp h.own List.mem_cons_self sz newsz).mono ?_ ?_
  · rintro r m' (⟨hge, -⟩ | ⟨hlt, rfl, rfl⟩ | ⟨hle, hlt, hal⟩)
    · exact absurd hge hk
    · have hc := pageCeil_mono hlt.le
      refine ⟨l, role, .inr ⟨⟨by omega, ?_⟩, by omega, ?_⟩⟩
      · rw [Nat.sub_eq_zero_of_le hc]
        exact List.not_mem_nil
      · unfold Stock.grown
        rw [Nat.sub_eq_zero_of_le hc]
        exact h
    · obtain ⟨l', role', hpart⟩ := h.toPart.alloced hal
      have hc := pageCeil_mono hle
      cases hal with
      | @done X l1 _ role1 hal href hst =>
        rw [h.stock] at href
        have hyes : st.Succeeds sz newsz := ⟨hlt, by rw [href]; simp⟩
        have hno := hg hyes
        obtain rfl : X = [] := by
          rw [href] at hno
          by_contra hne
          exact hno (List.mem_replicate.mpr ⟨by simpa using hne, rfl⟩)
        rw [Nat.max_eq_right hle]
        exact ⟨l1, role1, .inr ⟨hyes, rfl, h.grown hal hst hlt (by omega)⟩⟩
      | undone => exact ⟨l', role', .inl ⟨rfl, hpart⟩⟩
  · rintro _ _ ⟨u, h1, h2, hp⟩
    exact h.above u (by omega) h1 hp

/-- A directory as `setupkvm` leaves it. -/
theorem Space.empty (hown : Own L m l (d :: D) H role) (hpage : ∀ q, q ∉ l0 → m.page q = m0.page q)
    (hpool : ∀ q, q ∈ l ∨ Foot m d q → q ∈ l0) (hzero : ∀ u < 2 ^ 19, m.look d u = 0)
    (hclosed : Closed m d) :
    Space L D H m0 l0 d 0 (m.stock l d) (fun _ => 0) m l role := by
  have h0 : pageCeil 0 = 0 := by decide
  refine ⟨⟨hown, hpage, hpool⟩, by decide, ?_, ?_, ?_, fun _ _ => rfl, ?_, rfl⟩
  · intro u hu
    omega
  · intro u hu _
    rw [hzero u hu]
    exact not_present_zero
  · intro u hu
    omega
  · intro u hu _ hacc
    exact hacc.2 (hclosed u hu)

/-- A page below the size is written. -/
theorem Space.write {u : Nat} (h : Space L D H m0 l0 d sz st b m l role) (hu : u < pageCeil sz)
    (x : Page) :
    Space L D H m0 l0 d sz st (fun a => if a / PGSIZE = u then x (a % PGSIZE) else b a)
      (m.setPage (frame (m.look d u)) x) l role := by
  have hceil := pageCeil_le h.size.le
  have hok := h.own.dirs d List.mem_cons_self
  have hpu := (h.below u hu).1
  have hr := (hok.user u (by omega) hpu).1
  obtain ⟨hpd, hword, hlook⟩ := hok.keep_write (.inr ⟨_, _, hr⟩) x
  have hstock : (m.setPage (frame (m.look d u)) x).stock l d = m.stock l d :=
    Mach.stock_of_words rfl hword
  have hfoot : ∀ q, Foot (m.setPage (frame (m.look d u)) x) d q → Foot m d q := by
    rintro q ((rfl | ⟨i, hi, hpi, rfl⟩) | ⟨v, hv, hpv, rfl⟩)
    · exact .inl (.inl rfl)
    · rw [hword] at hpi
      exact .inl (.inr ⟨i, hi, hpi, congrArg frame (hword i)⟩)
    · rw [hlook v (by omega)] at hpv ⊢
      exact .inr ⟨v, hv, hpv, rfl⟩
  refine ⟨⟨h.own.write (.inr ⟨d, u, hr⟩) x, ?_, ?_⟩, h.size, ?_, ?_, ?_, ?_, ?_,
    hstock.trans h.stock⟩
  · intro q hq
    rw [← h.kept q hq]
    apply update_of_ne
    rintro rfl
    exact hq (h.pool _ (.inr (.inr ⟨u, by omega, hpu, rfl⟩)))
  · intro q hq
    rcases hq with hq | hq
    · exact h.pool q (.inl hq)
    · exact h.pool q (.inr (hfoot q hq))
  · intro v hv
    rw [Accessible.congr (hlook v (by omega))]
    exact h.below v hv
  · intro v hv hle
    rw [hlook v (by omega)]
    exact h.above v hv hle
  · intro v hv k hk
    have hdiv : (v * PGSIZE + k) / PGSIZE = v := by
      unfold PGSIZE at *
      omega
    have hmod : (v * PGSIZE + k) % PGSIZE = k := by
      unfold PGSIZE at *
      omega
    rw [hlook v (by omega), hdiv, hmod]
    by_cases hvu : v = u
    · subst hvu
      rw [if_pos rfl]
      exact congrFun (update_self ..) k
    · rw [if_neg hvu, ← h.bytes v hv k hk]
      have hne : frame (m.look d v) ≠ frame (m.look d u) := by
        intro he
        have hrv := (hok.user v (by omega) (h.below v hv).1).1
        rw [he, hr] at hrv
        exact hvu (Role.user.inj hrv).2.symm
      exact congrFun (update_of_ne hne ..) k
  · intro a ha
    have : pageCeil sz ≤ a / PGSIZE := (Nat.le_div_iff_mul_le (by decide)).mpr ha
    rw [if_neg (by omega)]
    exact h.fresh a ha
  · intro v hv hk
    rw [Accessible.congr (hlook v hv)]
    exact h.kernel v hv hk

/-! ## loaduvm -/

/-- Every write went through a present entry of the user half to a page of the pool. -/
def WritesOk (l0 : List Nat) (log : Writes) : Prop :=
  ∀ x ∈ log, x.1 < 2 ^ 19 ∧ present x.2 ∧ frame x.2 ∈ l0

/-- The bytes of a file over the bytes of memory, from `addr + i` to `addr + sz`. -/
def File.put (f : File) (addr off i sz : Nat) (b : Nat → UInt8) (a : Nat) : UInt8 :=
  if addr + i ≤ a ∧ a < addr + sz then f.byte (off + (a - addr)) else b a

theorem readi_full {o c : Nat} (h : f.readi o c = some c) : o + c ≤ f.length := by
  unfold File.readi at h
  split at h
  · cases h
  · have := Option.some.inj h
    omega

/-- One page of a segment after the other. -/
theorem put_page {v t off seg : Nat} (h : Space L D H m0 l0 d sz st b m l role)
    (hu : v + t < pageCeil sz) (hlt : t * PGSIZE < seg) :
    f.put (v * PGSIZE) off ((t + 1) * PGSIZE) seg (fun a => if a / PGSIZE = v + t then
      f.over (off + t * PGSIZE) (min (seg - t * PGSIZE) PGSIZE)
        (m.page (frame (m.look d (v + t)))) (a % PGSIZE) else b a) =
      f.put (v * PGSIZE) off (t * PGSIZE) seg b := by
  funext a
  have hbytes := h.bytes (v + t) hu (a % PGSIZE) (Nat.mod_lt _ (by decide))
  unfold File.put File.over
  dsimp only
  by_cases hin : a / PGSIZE = v + t
  · have ha : (v + t) * PGSIZE + a % PGSIZE = a := by
      rw [← hin]
      exact Nat.div_add_mod' a PGSIZE
    rw [ha] at hbytes
    rw [hbytes, if_pos hin, if_neg]
    · unfold PGSIZE at ha hlt ⊢
      by_cases hs : a < v * 4096 + seg
      · rw [if_pos (by omega), if_pos (by omega)]
        congr 1
        omega
      · rw [if_neg (by omega), if_neg (by omega)]
    · unfold PGSIZE at ha ⊢
      omega
  · rw [if_neg hin]
    refine if_congr ?_ rfl rfl
    unfold PGSIZE at hin ⊢
    omega

/-- The loop of `loaduvm` over pages that are mapped. If it succeeds, the file was long enough. -/
theorem Space.loadLoop {v off seg : Nat} (hf : f.length ≤ 0x11400) (k : Nat) :
    ∀ {t : Nat} {b : Nat → UInt8} {m : Mach} {l : List Nat} {role : Nat → Role},
      Space L D H m0 l0 d sz st b m l role → v * PGSIZE + seg ≤ sz → seg ≤ (t + k) * PGSIZE →
      (0 < k → (t + k - 1) * PGSIZE < seg) → off + t * PGSIZE < 2 ^ 32 →
      wp (loadLoop f d (v * PGSIZE) off seg k (t * PGSIZE)) (fun r m' => WritesOk l0 r.2 ∧
        ∃ b', Space L D H m0 l0 d sz st b' m' l role ∧
          (r.1 = true → b' = f.put (v * PGSIZE) off (t * PGSIZE) seg b ∧
            (t * PGSIZE < seg → off + seg ≤ f.length)))
        (fun _ _ => False) m := by
  induction k with
  | zero =>
    intro t b m l role h hseg hk _ _
    refine ⟨by simp [WritesOk], b, h, fun _ => ⟨?_, fun hlt => absurd hk (Nat.not_le.mpr hlt)⟩⟩
    funext a
    unfold File.put
    unfold PGSIZE at hk ⊢
    rw [if_neg (by omega)]
  | succ k ih =>
    intro t b m l role h hseg hk hk' hoff
    have hceil := pageCeil_le h.size.le
    have hsz := h.size
    have hlast : (t + k) * PGSIZE < seg := hk' (Nat.succ_pos k)
    clear hk'
    have hlt : t * PGSIZE < seg :=
      (Nat.mul_le_mul_right PGSIZE (Nat.le_add_right t k)).trans_lt hlast
    have hu : v + t < pageCeil sz := by
      unfold pageCeil
      unfold PGSIZE at hseg hlt ⊢
      omega
    have hva : (v * PGSIZE + t * PGSIZE) % 2 ^ 32 = (v + t) * PGSIZE := by
      unfold KERNBASE at hsz
      unfold PGSIZE at hseg hlt ⊢
      omega
    have hpres := (h.below _ hu).1
    have ht : present (m.word d ((v + t) / 1024)) := by
      by_contra hn
      exact Mach.not_present_look hn hpres
    have hmem : ((v + t) * PGSIZE / PGSIZE, m.look d (v + t)).1 < 2 ^ 19 ∧
        present ((v + t) * PGSIZE / PGSIZE, m.look d (v + t)).2 ∧
        frame ((v + t) * PGSIZE / PGSIZE, m.look d (v + t)).2 ∈ l0 := by
      refine ⟨?_, hpres, h.pool _ (.inr (.inr ⟨v + t, by omega, hpres, rfl⟩))⟩
      unfold PGSIZE
      omega
    unfold Mem.loadLoop
    simp only [hva, Nat.mod_eq_of_lt hoff]
    rw [wp_bind, wp_of_ok (walkpgdir_read (by omega)), if_pos ht]
    simp only
    rw [wp_gets_bind, ← Mach.look_of_present ht]
    cases hread : f.readi (off + t * PGSIZE) (min (seg - t * PGSIZE) PGSIZE) with
    | none => exact ⟨by simp [WritesOk], b, h, nofun⟩
    | some c =>
      simp only
      rw [wp_modify_bind]
      have hw := h.write hu (f.over (off + t * PGSIZE) c (m.page (frame (m.look d (v + t)))))
      apply wp_ite
      · intro _
        refine ⟨?_, _, hw, nofun⟩
        intro x hx
        obtain rfl := List.mem_singleton.mp hx
        exact hmem
      · intro hc
        rw [not_not] at hc
        subst hc
        have hend := readi_full hread
        have hoff' : off + (t + 1) * PGSIZE < 2 ^ 32 := by
          unfold PGSIZE at hend ⊢
          omega
        have hk1 : seg ≤ (t + 1 + k) * PGSIZE := by
          rw [Nat.add_right_comm]
          exact hk
        rw [← Nat.succ_mul]
        refine (ih (t := t + 1) hw hseg hk1 ?_ hoff').bind ?_
        · intro _
          rw [show t + 1 + k - 1 = t + k by omega]
          exact hlast
        · rintro ⟨r, log⟩ m' ⟨hlog, b', hsp, hb⟩
          refine ⟨?_, b', hsp, ?_⟩
          · intro x hx
            rcases List.mem_cons.mp hx with rfl | hx
            · exact hmem
            · exact hlog x hx
          · intro hr
            obtain ⟨rfl, hlen⟩ := hb hr
            refine ⟨put_page h hu hlt, fun _ => ?_⟩
            by_cases hmore : (t + 1) * PGSIZE < seg
            · exact hlen hmore
            · unfold PGSIZE at hend hmore hlt
              omega

/-- `loaduvm` into pages that are mapped. -/
theorem Space.loaduvm {addr off seg : Nat} (h : Space L D H m0 l0 d sz st b m l role)
    (hf : f.length ≤ 0x11400) (ha : addr % PGSIZE = 0) (hseg : addr + seg ≤ sz)
    (hoff : off < 2 ^ 32) :
    wp (loaduvm f d addr off seg) (fun r m' => WritesOk l0 r.2 ∧
      ∃ b', Space L D H m0 l0 d sz st b' m' l role ∧
        (r.1 = true → b' = f.put addr off 0 seg b ∧ (0 < seg → off + seg ≤ f.length)))
      (fun _ _ => False) m := by
  have hdiv : addr / PGSIZE * PGSIZE = addr := Nat.div_mul_cancel (Nat.dvd_of_mod_eq_zero ha)
  have hk1 : seg ≤ (0 + rounds 0 seg) * PGSIZE := by
    unfold rounds PGSIZE
    omega
  have hk2 : 0 < rounds 0 seg → (0 + rounds 0 seg - 1) * PGSIZE < seg := by
    unfold rounds PGSIZE
    omega
  have hloop := Space.loadLoop (v := addr / PGSIZE) hf (rounds 0 seg) (t := 0) h
    (by rw [hdiv]; exact hseg) hk1 hk2 (show off + 0 * PGSIZE < 2 ^ 32 by omega)
  rw [hdiv, Nat.zero_mul] at hloop
  unfold Mem.loaduvm
  rw [if_neg (not_not.mpr ha)]
  exact hloop

/-! ## The program headers -/

/-- The headers of type `ELF_PROG_LOAD` among `k` headers from `off` on, up to the first that
    cannot be read. -/
def File.loads (f : File) : Nat → Nat → List Phdr
  | 0, _ => []
  | k + 1, off =>
    match f.phdr off with
    | none => []
    | some ph =>
      if ph.type ≠ ELF_PROG_LOAD then f.loads k ((off + PROGHDR) % 2 ^ 32)
      else ph :: f.loads k ((off + PROGHDR) % 2 ^ 32)

/-- Memory after the segments have been put over it in order. -/
def File.image (f : File) : List Phdr → (Nat → UInt8) → Nat → UInt8
  | [], b => b
  | ph :: hs, b => f.image hs (f.put ph.vaddr ph.off 0 ph.filesz b)

/-- A byte that segment `g` takes from the file belongs to segment `h`. -/
def Phdr.Overwrites (g h : Phdr) : Prop :=
  ∃ a, (g.vaddr ≤ a ∧ a < g.vaddr + g.filesz) ∧ h.vaddr ≤ a ∧ a < h.vaddr + h.memsz

def Phdr.Apart (g h : Phdr) : Prop := ¬ g.Overwrites h ∧ ¬ h.Overwrites g

/-- The file ends before the segment does. -/
def Phdr.Short (f : File) (ph : Phdr) : Prop := 0 < ph.filesz ∧ f.length < ph.off + ph.filesz

/-- The stack above the segments `hs` leaves no hole, and if it can be had the segments do not
    overlap. -/
def StackFits (sz : Nat) (hs : List Phdr) (st : Stock) : Prop :=
  st.NoHole (pageCeil sz * PGSIZE) ((pageCeil sz + 2) * PGSIZE) ∧
    (st.Succeeds (pageCeil sz * PGSIZE) ((pageCeil sz + 2) * PGSIZE) → hs.Pairwise Phdr.Apart)

/-- The loop over `k` headers from `off` on, with the segments `hs` loaded so far, comes to its
    end or to `bad` with headers that `loaduvm` can serve: `allocuvm` leaves no hole, and if it
    succeeds the segment starts at a page boundary and does not wrap around. -/
def File.Fits (f : File) : Nat → Nat → Nat → List Phdr → Stock → Prop
  | 0, _, sz, hs, st => StackFits sz hs st
  | k + 1, off, sz, hs, st =>
    match f.phdr off with
    | none => True
    | some ph =>
      if ph.type ≠ ELF_PROG_LOAD then
        f.Fits k ((off + PROGHDR) % 2 ^ 32) sz hs st
      else if ph.memsz < ph.filesz then
        True
      else
        let newsz := (ph.vaddr + ph.memsz) % 2 ^ 32
        st.NoHole sz newsz ∧ (st.Succeeds sz newsz → 0 < max sz newsz →
          ph.vaddr % PGSIZE = 0 ∧ ph.vaddr + ph.memsz < 2 ^ 32 ∧
          (ph.Short f ∨ f.Fits k ((off + PROGHDR) % 2 ^ 32) (max sz newsz) (hs ++ [ph])
            (st.grown sz newsz)))

/-- The same for the whole file and the pages that can be had. Without a directory nothing is
    loaded. -/
def File.Loadable (L : Link) (f : File) (s : Supply) : Prop :=
  ELFHDR ≤ f.length → f.magic = ELF_MAGIC → s.ok = true →
    ∀ st, s.newDir.serve ((kmap L).flatMap Kmap.tables) = some st →
      f.Fits f.phnum f.phoff 0 [] st

theorem phdr_off_lt {o : Nat} {ph : Phdr} (h : f.phdr o = some ph) : ph.off < 2 ^ 32 := by
  unfold File.phdr at h
  split at h
  · rw [← Option.some.inj h]
    exact UInt32.toNat_lt _
  · cases h

theorem Space.segLoop (hf : f.length ≤ 0x11400) (k : Nat) :
    ∀ {off sz : Nat} {st : Stock} {hs : List Phdr} {b : Nat → UInt8} {m : Mach} {l : List Nat}
      {role : Nat → Role}, Space L D H m0 l0 d sz st b m l role → f.Fits k off sz hs st →
      wp (segLoop L f d k off sz) (fun r m' => WritesOk l0 r.2 ∧ ∃ l' role',
        match r.1 with
        | none => Part L D H m0 l0 d m' l' role'
        | some sz' => ∃ st', StackFits sz' (hs ++ f.loads k off) st' ∧
          Space L D H m0 l0 d sz' st' (f.image (f.loads k off) b) m' l' role' ∧ sz ≤ sz' ∧
          ∀ ph ∈ f.loads k off, ph.filesz ≤ ph.memsz ∧ ph.vaddr + ph.memsz ≤ sz')
        (fun _ _ => False) m := by
  induction k with
  | zero =>
    intro off sz st hs b m l role h hfit
    exact ⟨by simp [WritesOk], l, role, st, by rwa [File.loads, List.append_nil], h, le_refl _,
      nofun⟩
  | succ k ih =>
    intro off sz st hs b m l role h hfit
    unfold Mem.segLoop
    unfold File.Fits at hfit
    unfold File.loads
    cases hph : f.phdr off with
    | none => exact ⟨by simp [WritesOk], l, role, h.toPart⟩
    | some ph =>
      simp only [hph] at hfit ⊢
      by_cases hty : ph.type ≠ ELF_PROG_LOAD
      · simp only [if_pos hty] at hfit ⊢
        exact ih h hfit
      · simp only [if_neg hty] at hfit ⊢
        apply wp_ite
        · intro _
          exact ⟨by simp [WritesOk], l, role, h.toPart⟩
        · intro hsz
          rw [if_neg hsz] at hfit
          refine (h.allocuvm hfit.1).bind ?_
          rintro r m1 ⟨l1, role1, ⟨rfl, hpart⟩ | ⟨hyes, hr, hsp⟩⟩
          · exact ⟨by simp [WritesOk], l1, role1, hpart⟩
          apply wp_ite
          · intro _
            exact ⟨by simp [WritesOk], l1, role1, hsp.toPart⟩
          intro hr0
          obtain ⟨ha, hwrap, hrest⟩ := hfit.2 hyes (by omega)
          rw [Nat.mod_eq_of_lt hwrap] at hr hsp hrest
          refine (hsp.loaduvm hf ha (by omega) (phdr_off_lt hph)).bind ?_
          rintro ⟨ok, log⟩ m2 ⟨hlog, b', hsp2, hb⟩
          cases ok with
          | false => exact ⟨hlog, l1, role1, hsp2.toPart⟩
          | true =>
            obtain ⟨rfl, hlong⟩ := hb rfl
            have hfits := hrest.resolve_left fun hshort =>
              absurd (hlong hshort.1) (Nat.not_le.mpr hshort.2)
            rw [← hr] at hfits
            simp only [if_true]
            refine (ih hsp2 hfits).bind ?_
            rintro ⟨r', log'⟩ m3 ⟨hlog', l3, role3, hres⟩
            refine ⟨fun x hx => (List.mem_append.mp hx).elim (hlog x) (hlog' x), l3, role3, ?_⟩
            cases r' with
            | none => exact hres
            | some sz' =>
              obtain ⟨st', hstack, hsp3, hle, hall⟩ := hres
              rw [List.append_assoc, List.singleton_append] at hstack
              refine ⟨st', hstack, hsp3, by omega, ?_⟩
              intro q hq
              rcases List.mem_cons.mp hq with rfl | hq
              · exact ⟨by omega, by omega⟩
              · exact hall q hq

/-! ## The stack -/

theorem pageCeil_mul (u : Nat) : pageCeil (u * PGSIZE) = u := by
  unfold pageCeil PGSIZE
  omega

/-- A loaded program of size `sz`: user code may access the top page, the stack, but not the
    guard page below it and nothing above. -/
structure Image (L : Link) (D H : List Nat) (d sz : Nat) (m : Mach) (l : List Nat)
    (role : Nat → Role) : Prop where
  own : Own L m l (d :: D) H role
  aligned : sz % PGSIZE = 0
  room : 2 * PGSIZE ≤ sz
  size : sz < KERNBASE
  stack : Accessible m d (sz / PGSIZE - 1)
  guarded : present (m.look d (sz / PGSIZE - 2)) ∧ ¬ Accessible m d (sz / PGSIZE - 2)
  above : ∀ u < 2 ^ 20, sz / PGSIZE ≤ u → ¬ Accessible m d u

/-- The arguments are then copied out into memory that is mapped once. -/
theorem Image.userMap (h : Image L D H d sz m l role) : UserMap m d := by
  refine (h.own.dirs d List.mem_cons_self).userMap fun u hu hk => h.above u hu ?_
  have hsize := h.size
  unfold KERNBASE at hsize
  unfold PGSIZE
  omega

theorem not_accessible_clear (h : m.look d u = w &&& ~~~PTE_U) : ¬ Accessible m d u := by
  intro hacc
  apply hacc.2
  rw [h, UInt32.and_assoc, UInt32.not_and_self, UInt32.and_zero]

/-- Two pages above the program, and the lower one is closed to user code. -/
theorem Space.image {c : Nat} (h : Space L D H m0 l0 d ((c + 2) * PGSIZE) st b m l role)
    (ht : present (m.word d (c / 1024))) :
    Image L D H d ((c + 2) * PGSIZE)
      (m.setWord (m.tab d (c / 1024)) (c % 1024) (m.look d c &&& ~~~PTE_U)) l role := by
  have hceil := pageCeil_mul (c + 2)
  have hle := pageCeil_le h.size.le
  have hok := h.own.dirs d List.mem_cons_self
  have hdiv : (c + 2) * PGSIZE / PGSIZE = c + 2 := Nat.mul_div_cancel _ (by decide)
  have hguard := hok.look_set (show c < 2 ^ 20 by omega) (show c < 2 ^ 20 by omega) ht
    (m.look d c &&& ~~~PTE_U)
  rw [if_pos rfl] at hguard
  have hother : ∀ u < 2 ^ 20, u ≠ c →
      (m.setWord (m.tab d (c / 1024)) (c % 1024) (m.look d c &&& ~~~PTE_U)).look d u =
        m.look d u := by
    intro u hu hne
    rw [hok.look_set (by omega) hu ht, if_neg hne]
  refine ⟨?_, Nat.mul_mod_left .., Nat.mul_le_mul_right _ (Nat.le_add_left ..), h.size, ?_, ?_, ?_⟩
  · exact h.own.reflag List.mem_cons_self (by omega) ht present_clear.mp (frame_clear _)
  · rw [hdiv, Accessible.congr (hother _ (by omega) (by omega))]
    exact h.below _ (by omega)
  · rw [hdiv, Nat.add_sub_cancel]
    refine ⟨?_, not_accessible_clear hguard⟩
    rw [hguard, present_clear]
    exact (h.below c (by omega)).1
  · intro u hu hge
    rw [hdiv] at hge
    rw [Accessible.congr (hother u hu (by omega))]
    by_cases hk : u < 2 ^ 19
    · exact fun hacc => h.above u hk (by omega) hacc.1
    · exact h.kernel u hu (by omega)

/-- The two pages of the stack. -/
theorem Space.stackPages (h : Space L D H m0 l0 d sz st b m l role) (hfit : StackFits sz hs st) :
    wp (stackPages L d sz) (fun r m' =>
      (r = none → ∃ l' role', Part L D H m0 l0 d m' l' role') ∧
      ∀ sz', r = some sz' → hs.Pairwise Phdr.Apart ∧ (∃ l' role', Image L D H d sz' m' l' role') ∧
        (∀ q, q ∉ l0 → m'.page q = m0.page q) ∧
        ∀ u < pageCeil sz, present (m'.look d u) ∧
          ∀ k < PGSIZE, m'.page (frame (m'.look d u)) k = b (u * PGSIZE + k))
      (fun _ _ => False) m := by
  have hround : PGROUNDUP sz = pageCeil sz * PGSIZE := PGROUNDUP_eq h.size.le
  have hceil := pageCeil_mul (pageCeil sz)
  have hceil2 := pageCeil_mul (pageCeil sz + 2)
  unfold Mem.stackPages
  rw [hround, ← Nat.add_mul]
  by_cases hk : KERNBASE ≤ (pageCeil sz + 2) * PGSIZE
  · unfold Mem.allocuvm
    rw [if_pos hk]
    exact ⟨fun _ => ⟨l, role, h.toPart⟩, nofun⟩
  · have hsz : pageCeil sz * PGSIZE ≤ (pageCeil sz + 2) * PGSIZE :=
      Nat.mul_le_mul_right _ (Nat.le_add_right ..)
    have hround : Space L D H m0 l0 d (pageCeil sz * PGSIZE) st b m l role := by
      refine ⟨h.toPart, by omega, ?_, ?_, ?_, ?_, h.kernel, h.stock⟩ <;> rw [hceil]
      · exact h.below
      · exact h.above
      · exact h.bytes
      · exact h.fresh
    refine (hround.allocuvm hfit.1).bind ?_
    rintro r m1 ⟨l1, role1, ⟨rfl, hpart⟩ | ⟨hyes, hr, hsp⟩⟩
    · rw [if_pos rfl]
      exact ⟨fun _ => ⟨l1, role1, hpart⟩, nofun⟩
    rw [Nat.max_eq_right hsz] at hr
    subst hr
    have hne : (pageCeil sz + 2) * PGSIZE ≠ 0 := by
      unfold PGSIZE
      omega
    have hsub : (pageCeil sz + 2) * PGSIZE - 2 * PGSIZE = pageCeil sz * PGSIZE := by
      rw [← Nat.sub_mul, Nat.add_sub_cancel]
    have hle := pageCeil_le hsp.size.le
    have hpres := (hsp.below (pageCeil sz) (by omega)).1
    have ht : present (m1.word d (pageCeil sz / 1024)) := by
      by_contra hn
      exact Mach.not_present_look hn hpres
    have hok := hsp.own.dirs d List.mem_cons_self
    rw [if_neg hne, hsub]
    unfold clearpteu
    rw [wp_bind, wp_bind, wp_of_ok (walkpgdir_read (by omega)), if_pos ht]
    simp only
    rw [wp_modify, wp_pure, ← Mach.look_of_present ht]
    have hg := hok.grows_entry (P := l1) (w := m1.look d (pageCeil sz) &&& ~~~PTE_U) (by omega) ht
    refine ⟨nofun, ?_⟩
    rintro _ ⟨rfl⟩
    refine ⟨hfit.2 hyes, ⟨l1, role1, hsp.image ht⟩, ?_, ?_⟩
    · intro q hq
      rw [hg.page q (fun hc => hq (hsp.pool q (.inl hc)))
        fun hc => hq (hsp.pool q (.inr (.inl hc)))]
      exact hsp.kept q hq
    · intro u hu
      have hpu := (hsp.below u (by omega)).1
      rw [hok.look_set (by omega) (by omega) ht, if_neg (by omega)]
      refine ⟨hpu, ?_⟩
      rw [hsp.own.user_kept hg (by omega) hpu]
      exact hsp.bytes u (by omega)

/-! ## Loading as a whole -/

/-- A run of `load` that does no harm: only pages that were free have changed, everything
    `loaduvm` wrote went through a present user entry to a page that was free, and if a directory
    is returned then its size is below `KERNBASE` and every segment is in place. -/
structure Safe (f : File) (m : Mach) (l : List Nat) (r : Option (Nat × Nat)) (log : Writes)
    (m' : Mach) : Prop where
  kept : ∀ q, q ∉ l → m'.page q = m.page q
  writes : WritesOk l log
  loaded : ∀ d sz, r = some (d, sz) → sz < KERNBASE ∧ ∀ ph ∈ f.loads f.phnum f.phoff,
    ph.filesz ≤ ph.memsz ∧ ∀ k < ph.memsz,
      present (m'.look d ((ph.vaddr + k) / PGSIZE)) ∧
      m'.page (frame (m'.look d ((ph.vaddr + k) / PGSIZE))) ((ph.vaddr + k) % PGSIZE) =
        if k < ph.filesz then f.byte (ph.off + k) else 0

theorem image_of_outside {a : Nat} : ∀ {hs : List Phdr} {b : Nat → UInt8},
    (∀ ph ∈ hs, ¬ (ph.vaddr ≤ a ∧ a < ph.vaddr + ph.filesz)) → f.image hs b a = b a := by
  intro hs
  induction hs with
  | nil => intro b _; rfl
  | cons ph hs ih =>
    intro b h
    unfold File.image
    rw [ih fun q hq => h q (List.mem_cons_of_mem ph hq)]
    exact if_neg (h ph List.mem_cons_self)

/-- A segment that no other overwrites is in place. -/
theorem image_of_mem {ph : Phdr} (hmem : ph ∈ hs) (hap : hs.Pairwise Phdr.Apart) {k : Nat}
    (hk : k < ph.memsz) : ∀ {b : Nat → UInt8}, b (ph.vaddr + k) = 0 →
      f.image hs b (ph.vaddr + k) = if k < ph.filesz then f.byte (ph.off + k) else 0 := by
  induction hs with
  | nil => cases hmem
  | cons g hs ih =>
    intro b hb
    obtain ⟨hg, hap'⟩ := List.pairwise_cons.mp hap
    unfold File.image
    rcases List.mem_cons.mp hmem with rfl | hmem
    · rw [image_of_outside]
      · unfold File.put
        by_cases hlt : k < ph.filesz
        · rw [if_pos (by omega), if_pos hlt, Nat.add_sub_cancel_left]
        · rw [if_neg (by omega), if_neg hlt]
          exact hb
      · intro q hq hin
        exact (hg q hq).2 ⟨_, hin, by omega, by omega⟩
    · refine ih hmem hap' ?_
      unfold File.put
      rw [if_neg]
      · exact hb
      · intro hin
        exact (hg ph hmem).1 ⟨_, hin, by omega, by omega⟩

theorem load_wp (h : Own L m l D H role) (hf : f.length ≤ 0x11400)
    (hfit : f.Loadable L (m.supply l)) :
    wp (load L f) (fun r m' => Safe f m l r.1 r.2 m' ∧
      ∀ d sz, r.1 = some (d, sz) → ∃ l' role', Image L D H d sz m' l' role')
      (fun _ _ => False) m := by
  have hnone : ∀ {log : Writes} {m' : Mach}, (∀ q, q ∉ l → m'.page q = m.page q) →
      WritesOk l log → Safe f m l none log m' ∧
      ∀ d sz, (none : Option (Nat × Nat)) = some (d, sz) → ∃ l' role',
        Image L D H d sz m' l' role' := fun hk hw => ⟨⟨hk, hw, nofun⟩, nofun⟩
  have hnil : WritesOk l [] := by simp [WritesOk]
  unfold load
  apply wp_ite
  · intro _
    exact hnone (fun _ _ => rfl) hnil
  intro hhead
  rw [not_or, not_lt, not_not] at hhead
  refine (((setupkvm_wp h).and (setupkvm_closed h)).mono (fun _ _ h => h) fun _ _ h => h.1).bind ?_
  rintro (_ | d) m1 ⟨⟨l1, role1, hpage, hrest⟩, hclosed⟩
  · exact hnone hpage hnil
  obtain ⟨hown, hnew, hzero, -, hok, hserve⟩ := hrest
  have hsp : Space L D H m l d 0 (m1.stock l1 d) (fun _ => 0) m1 l1 role1 :=
    .empty hown hpage (fun q => (hnew q).mpr) hzero (hclosed d rfl)
  refine (Space.segLoop hf f.phnum hsp (hfit hhead.1 hhead.2 hok _ hserve)).bind ?_
  rintro ⟨r, log⟩ m2 ⟨hlog, l2, role2, hres⟩
  cases r with
  | none =>
    refine (Part.freevm hres).bind ?_
    intro _ m3 hkept
    exact hnone hkept hlog
  | some sz =>
    obtain ⟨st, hstack, hsp2, -, hall⟩ := hres
    refine (hsp2.stackPages hstack).bind ?_
    rintro (_ | sz') m3 ⟨hfail, hdone⟩
    · obtain ⟨l3, role3, hpart⟩ := hfail rfl
      refine hpart.freevm.bind ?_
      intro _ m4 hkept
      exact hnone hkept hlog
    · obtain ⟨hap, ⟨l3, role3, himage⟩, hkept, hbytes⟩ := hdone sz' rfl
      rw [List.nil_append] at hap
      refine ⟨⟨hkept, hlog, ?_⟩, ?_⟩
      rotate_left
      · intro d1 sz1 he
        obtain ⟨rfl, rfl⟩ := Prod.mk.inj (Option.some.inj he)
        exact ⟨l3, role3, himage⟩
      intro d1 sz1 he
      obtain ⟨rfl, rfl⟩ := Prod.mk.inj (Option.some.inj he)
      refine ⟨himage.size, ?_⟩
      intro ph hph
      obtain ⟨hfm, hend⟩ := hall ph hph
      refine ⟨hfm, ?_⟩
      intro k hk
      have hu : (ph.vaddr + k) / PGSIZE < pageCeil sz := by
        unfold pageCeil PGSIZE
        omega
      obtain ⟨hpu, hb⟩ := hbytes _ hu
      refine ⟨hpu, ?_⟩
      rw [hb _ (Nat.mod_lt _ (by decide)), Nat.div_add_mod']
      exact image_of_mem hph hap hk rfl

/-- As long as no table is refused and the segments that the loop comes to are aligned, do not
    wrap around and do not overlap, `load` returns; it fails or loads every segment, with a stack
    and a guard page above them, and either way no page that was in use has changed. -/
theorem load_safe (h : Own L m l D H role) (hf : f.length ≤ 0x11400)
    (hfit : f.Loadable L (m.supply l)) :
    ∃ r log m', load L f m = .ok (r, log) m' ∧ Safe f m l r log m' ∧
      ∀ d sz, r = some (d, sz) → ∃ l' role', Image L D H d sz m' l' role' := by
  obtain ⟨⟨r, log⟩, m', hr, hsafe⟩ := (load_wp h hf hfit).returns
  exact ⟨r, log, m', hr, hsafe⟩

/-- A file with one program header and four bytes of program. -/
def program (vaddr filesz memsz : UInt32) : File :=
  ([0x464C457F, 0, 0, 0, 0, 0, 0, 52, 0, 0, 0, 1, 0, 1, 84, vaddr, 0, filesz, memsz, 0, 0,
    0x90909090] : List UInt32).flatMap le32

/-- With a page to spare for every request there is no hole. -/
theorem Stock.Rich.noHole {n sz newsz : Nat} (h : Rich (n + (pageCeil newsz - pageCeil sz)) st)
    (hsz : pageCeil sz + (pageCeil newsz - pageCeil sz) ≤ 2 ^ 20) :
    st.NoHole sz newsz ∧ Rich n (st.grown sz newsz) := by
  obtain ⟨hno, hrich⟩ := h.refused _ hsz
  refine ⟨fun _ => ?_, hrich⟩
  rw [hno]
  exact List.not_mem_nil

/-- Four bytes at address 0. -/
theorem load_safe_program : ∃ m l role c, Own linked m l [c] [] role ∧
    ∃ r log m', load linked (program 0 4 8) m = .ok (r, log) m' ∧
      Safe (program 0 4 8) m l r log m' ∧
      ∀ d sz, r = some (d, sz) → ∃ l' role', Image linked [c] [] d sz m' l' role' := by
  obtain ⟨m, l, role, c, h, -, -, hrest⟩ := exists_single
  have hf := hrest.1
  have hlen := hrest.length
  have hnum : (program 0 4 8).phnum = 1 := by decide +kernel
  have hoff : (program 0 4 8).phoff = 52 := by decide +kernel
  have hph : (program 0 4 8).phdr 52 = some ⟨1, 84, 0, 4, 8⟩ := by decide +kernel
  refine ⟨m, l, role, c, h, load_safe h (by decide) fun _ _ _ st hst => ?_⟩
  obtain ⟨-, hrich⟩ := Supply.newDir_rich (n := 3) (s := m.supply l) hf
    (by show _ ≤ l.length; omega)
  obtain ⟨st', hst', hrich⟩ := hrich.serve fun i hi => (kmap_tables linked i hi).2
  obtain rfl : st' = st := Option.some.inj (hst'.symm.trans hst)
  obtain ⟨hno, hrich⟩ := Stock.Rich.noHole (n := 2) (show Stock.Rich (2 + (pageCeil 8 - pageCeil 0))
    st' from hrich) (by decide)
  have hstack := (Stock.Rich.noHole (n := 0) (show Stock.Rich (0 + (pageCeil ((pageCeil 8 + 2) *
    PGSIZE) - pageCeil (pageCeil 8 * PGSIZE))) (st'.grown 0 8) from hrich) (by decide)).1
  rw [hnum, hoff]
  unfold File.Fits
  simp only [hph]
  rw [if_neg (by decide), if_neg (by decide)]
  exact ⟨hno, fun _ _ => ⟨by decide, by decide, .inr ⟨hstack, fun _ => List.pairwise_singleton ..⟩⟩⟩

/-- A segment at address 1 stops the machine. -/
theorem load_unaligned : ∃ m l role c, Own linked m l [c] [] role ∧
    ∃ m', load linked (program 1 0 1) m = .panic "loaduvm: addr must be page aligned" m' := by
  obtain ⟨m, l, role, c, h, -, -, hrest⟩ := exists_single
  have hf := hrest.1
  have hlen := hrest.length
  refine ⟨m, l, role, c, h, ?_⟩
  have hhead : ¬ ((program 1 0 1).length < ELFHDR ∨ (program 1 0 1).magic ≠ ELF_MAGIC) := by
    decide +kernel
  have hnum : (program 1 0 1).phnum = 1 := by decide +kernel
  have hoff : (program 1 0 1).phoff = 52 := by decide +kernel
  have hph : (program 1 0 1).phdr 52 = some ⟨1, 84, 1, 0, 1⟩ := by decide +kernel
  obtain ⟨_, m1, hset, d, l1, role1, rfl, -, hown, -, hzero, -, hA⟩ :=
    (setupkvm_ample (n := 1) h hf (by omega)).returns
  have hceil : pageCeil 2 = 1 ∧ pageCeil 0 = 0 := by decide
  obtain ⟨sz, m2, hall, hal⟩ := allocuvm_returns hown List.mem_cons_self (show 0 ≤ 2 by decide)
    (by decide) fun u _ hu => Mach.look_of_no_table hzero (by omega)
  rw [hceil.1, hceil.2] at hal
  obtain rfl : sz = 2 := (hal.rich (n := 0) hA (by decide)).1
  refine ⟨m2, ?_⟩
  have hload : loaduvm (program 1 0 1) d 1 84 0 m2 =
      .panic "loaduvm: addr must be page aligned" m2 := by
    unfold loaduvm
    rw [if_pos (by decide)]
    rfl
  have hseg : segLoop linked (program 1 0 1) d 1 52 0 m1 =
      .panic "loaduvm: addr must be page aligned" m2 := by
    unfold segLoop
    simp only [hph]
    rw [if_neg (by decide), if_neg (by decide), show (1 + 1) % 2 ^ 32 = 2 from rfl,
      Exec.bind_ok hall, if_neg (by decide), Exec.bind_panic hload]
  unfold load
  rw [if_neg hhead, Exec.bind_ok hset, hnum, hoff]
  exact Exec.bind_panic hseg _

end Zv6.Mem
