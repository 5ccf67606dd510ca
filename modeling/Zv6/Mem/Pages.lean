/-
  Runs of the kernel as far as physical pages go.

  The state has memory, the processes with their page directory, kernel stack and size, the
  pipe buffers, and two lists for everything else that kernel code may have in hand: single
  pages, and directories that belong to no process (the kernel's own, one that `exec` is
  building). At boot the free list is empty and every page is in the hands of `kinit`, which
  frees them one by one.

  A step is one call: `kalloc`, `kfree` by the owner, the functions of vm.c on a directory,
  `userinit`, `growproc`, `fork`, `exit`, `wait`, the commit of `exec`, `pipealloc` and
  `pipeclose`, or a write by user code or kernel code to a page it may write. A call that stops
  the machine ends the run.

  In every state of every run a page is found in at most one place (`page_owners`).
-/
import Zv6.Mem.Space

namespace Zv6.Mem

open Zv6.Lib

variable (L : Link)

/-! ## Processes and pipes -/

structure Proc where
  pgdir : Nat
  kstack : Nat
  sz : Nat
  zombie : Bool

/-- The sum of a size and a signed number as a 32-bit word. -/
def addSize (sz : Nat) (n : Int) : Nat := (((sz : Int) + n) % 2 ^ 32).toNat

/-- The new size; `none` is the source's -1. -/
def growproc (p : Proc) (n : Int) : M (Option Nat) := do
  if 0 < n then do
    let sz ← allocuvm L p.pgdir p.sz (addSize p.sz n)
    pure (if sz = 0 then none else some sz)
  else if n < 0 then do
    let sz ← deallocuvm L p.pgdir p.sz (addSize p.sz n)
    pure (if sz = 0 then none else some sz)
  else
    pure (some p.sz)

/-- The memory side of `fork`: the kernel stack of `allocproc`, then the copy. -/
def fork (p : Proc) : M (Option Proc) := do
  match ← kalloc with
  | none => pure none
  | some kstack => do
    match ← copyuvm L p.pgdir p.sz with
    | none => do
      kfree L kstack
      pure none
    | some pgdir => pure (some ⟨pgdir, kstack, p.sz, false⟩)

/-- What `wait` does with a zombie. -/
def reap (p : Proc) : M PUnit := do
  kfree L p.kstack
  freevm L p.pgdir

/-- Load the initcode at address 0. A null pointer from `kalloc` is not checked for; the write
    through it stops the machine. -/
def inituvm (d : Nat) (code : Page) : M PUnit := do
  match ← kalloc with
  | none => Exec.panic "trap"
  | some mem => do
    memset mem 0
    let _ ← mappages d 0 PGSIZE (mem * PGSIZE) (PTE_W ||| PTE_U)
    Exec.modify fun m => m.setPage mem code

def userinit (code : Page) : M Proc := do
  match ← kalloc with
  | none => Exec.panic "trap"
  | some kstack => do
    match ← setupkvm L with
    | none => Exec.panic "userinit: out of memory?"
    | some pgdir => do
      inituvm pgdir code
      pure ⟨pgdir, kstack, PGSIZE, false⟩

/-! ## The system -/

structure Sys where
  mach : Mach
  procs : List Proc
  pipes : List Nat
  held : List Nat
  dirs : List Nat

namespace Sys

/-- All page directories. -/
def pgdirs (s : Sys) : List Nat := s.procs.map Proc.pgdir ++ s.dirs

/-- All pages held by kernel code: kernel stacks, pipe buffers and the rest. -/
def kernel (s : Sys) : List Nat := s.procs.map Proc.kstack ++ (s.pipes ++ s.held)

end Sys

/-- The pages that user entries of a directory map. -/
def Mach.users (m : Mach) (d : Nat) : List Nat :=
  (List.range (2 ^ 19)).filterMap fun v =>
    if present (m.look d v) then some (frame (m.look d v)) else none

/-- The pages of a directory: itself, its tables, its user pages. -/
def Mach.pages (m : Mach) (d : Nat) : List Nat := d :: (m.tabs d 0 1024 ++ m.users d)

/-- Every place a page can be found in, apart from the free list. -/
def Sys.places (s : Sys) : List Nat := s.kernel ++ s.pgdirs.flatMap s.mach.pages

/-- Kernel code may write the pages it holds, user code those its process maps. -/
def Sys.writable (s : Sys) (p : Nat) : Prop :=
  p ∈ s.kernel ∨ ∃ d ∈ s.pgdirs, p ∈ s.mach.users d

inductive Step : Sys → Sys → Prop where
  | kalloc : kalloc s.mach = .ok r m →
      Step s { s with mach := m, held := r.toList ++ s.held }
  | kfree (a b : List Nat) (p : Nat) : s.held = a ++ p :: b → kfree L p s.mach = .ok ⟨⟩ m →
      Step s { s with mach := m, held := a ++ b }
  | setupkvm : setupkvm L s.mach = .ok r m →
      Step s { s with mach := m, dirs := r.toList ++ s.dirs }
  | allocuvm : d ∈ s.dirs → allocuvm L d oldsz newsz s.mach = .ok r m →
      Step s { s with mach := m }
  | deallocuvm : d ∈ s.dirs → oldsz ≤ KERNBASE → deallocuvm L d oldsz newsz s.mach = .ok r m →
      Step s { s with mach := m }
  | copyuvm : d ∈ s.dirs → copyuvm L d sz s.mach = .ok r m →
      Step s { s with mach := m, dirs := r.toList ++ s.dirs }
  | freevm (a b : List Nat) (d : Nat) : s.dirs = a ++ d :: b → freevm L d s.mach = .ok ⟨⟩ m →
      Step s { s with mach := m, dirs := a ++ b }
  | clearpteu : d ∈ s.dirs → v < 2 ^ 19 → clearpteu d (v * PGSIZE) s.mach = .ok ⟨⟩ m →
      Step s { s with mach := m }
  | write : s.writable p → Step s { s with mach := s.mach.setPage p x }
  | pipealloc : Mem.kalloc s.mach = .ok r m →
      Step s { s with mach := m, pipes := r.toList ++ s.pipes }
  | pipeclose (a b : List Nat) (p : Nat) : s.pipes = a ++ p :: b →
      Mem.kfree L p s.mach = .ok ⟨⟩ m → Step s { s with mach := m, pipes := a ++ b }
  | userinit : userinit L code s.mach = .ok p m →
      Step s { s with mach := m, procs := p :: s.procs }
  | growproc (a b : List Proc) (p : Proc) (n : Int) : s.procs = a ++ p :: b →
      p.zombie = false → growproc L p n s.mach = .ok r m →
      Step s { s with mach := m, procs := a ++ { p with sz := r.getD p.sz } :: b }
  | fork (p : Proc) : p ∈ s.procs → p.zombie = false → s.procs.length < 64 →
      fork L p s.mach = .ok r m → Step s { s with mach := m, procs := r.toList ++ s.procs }
  | exit (a b : List Proc) (p : Proc) : s.procs = a ++ p :: b →
      Step s { s with procs := a ++ { p with zombie := true } :: b }
  | wait (a b : List Proc) (p : Proc) : s.procs = a ++ p :: b → p.zombie = true →
      reap L p s.mach = .ok ⟨⟩ m → Step s { s with mach := m, procs := a ++ b }
  | exec (a b : List Proc) (p : Proc) (e f : List Nat) (d : Nat) : s.procs = a ++ p :: b →
      p.zombie = false → s.dirs = e ++ d :: f → sz ≤ KERNBASE →
      Mem.freevm L p.pgdir s.mach = .ok ⟨⟩ m →
      Step s { s with
        mach := m
        procs := a ++ { p with pgdir := d, sz := sz } :: b
        dirs := e ++ f }

/-- Runs of any length. -/
abbrev Runs : Sys → Sys → Prop := Relation.ReflTransGen (Step L)

/-- The pages from the end of the kernel to the top of memory. -/
@[irreducible] def kinitPages : List Nat :=
  (List.range (PHYSTOP / PGSIZE)).filter fun p => L.kend ≤ KERNBASE + p * PGSIZE

/-- At boot `kinit` holds them all. -/
def boot (m : Mach) : Sys where
  mach := { m with freelist := 0 }
  procs := []
  pipes := []
  held := kinitPages L
  dirs := []

/-! ## Each call keeps the owners apart -/

variable {L}

/-- The roles can be given so that memory agrees with them. -/
def Owned (L : Link) (m : Mach) (D H : List Nat) : Prop := ∃ l role, Own L m l D H role

theorem Owned.perm {D' H' : List Nat} (h : Owned L m D H) (hD : D.Perm D') (hH : H.Perm H') :
    Owned L m D' H' := by
  obtain ⟨l, role, h⟩ := h
  exact ⟨l, role, h.list, fun d hd => h.dirs d (hD.mem_iff.mpr hd), hD.nodup_iff.mp h.nodup,
    hH.nodup_iff.mp h.held.nodup, fun p hp => h.held.role p (hH.mem_iff.mpr hp)⟩

/-- The order does not matter. -/
theorem Owned.count {D' H' : List Nat} (h : Owned L m D H) (hD : ∀ a, D.count a = D'.count a)
    (hH : ∀ a, H.count a = H'.count a) : Owned L m D' H' :=
  h.perm (List.perm_iff_count.mpr hD) (List.perm_iff_count.mpr hH)

variable {m : Mach} {D H : List Nat} {d : Nat} {p : Proc}

/-- The machine may stop at any call. -/
abbrev anyStop : Stop Empty → Mach → Prop := fun _ _ => True

theorem kalloc_owned (h : Owned L m D H) :
    wp kalloc (fun r m' => Owned L m' D (r.toList ++ H)) anyStop m := by
  obtain ⟨l, role, h⟩ := h
  refine (kalloc_wp h).post ?_
  rintro (_ | q) m' ⟨-, -, hr⟩
  · exact ⟨l, role, hr.2⟩
  · obtain ⟨l', -, -, hown⟩ := hr
    exact ⟨l', _, hown⟩

theorem kfree_owned {q : Nat} (h : Owned L m D (q :: H)) :
    wp (kfree L q) (fun _ m' => Owned L m' D H) anyStop m := by
  obtain ⟨l, role, h⟩ := h
  rw [wp_of_ok (kfree_ok (h.held.role q List.mem_cons_self).2)]
  exact ⟨_, _, h.free⟩

theorem setupkvm_owned (h : Owned L m D H) :
    wp (setupkvm L) (fun r m' => Owned L m' (r.toList ++ D) H) anyStop m := by
  obtain ⟨l, role, h⟩ := h
  refine (setupkvm_wp h).mono ?_ fun _ _ h => h.elim
  rintro (_ | d) m' ⟨l', role', -, hown, -⟩
  · exact ⟨l', role', hown⟩
  · exact ⟨l', role', hown⟩

theorem allocuvm_owned (h : Owned L m D H) (hd : d ∈ D) (oldsz newsz : Nat) :
    wp (allocuvm L d oldsz newsz) (fun r m' => Owned L m' D H ∧
      (oldsz ≤ KERNBASE → r ≤ KERNBASE)) anyStop m := by
  obtain ⟨l, role, h⟩ := h
  refine (allocuvm_wp h hd oldsz newsz).mono ?_ fun _ _ _ => trivial
  rintro r m' (⟨-, rfl, rfl⟩ | ⟨-, rfl, rfl⟩ | ⟨-, hlt, hal⟩)
  · exact ⟨⟨l, role, h⟩, fun _ => Nat.zero_le _⟩
  · exact ⟨⟨l, role, h⟩, fun hsz => hsz⟩
  · refine ⟨hal.own, fun _ => ?_⟩
    cases hal with
    | done => exact hlt.le
    | undone => exact Nat.zero_le _

theorem deallocuvm_owned (h : Owned L m D H) (hd : d ∈ D) {oldsz newsz : Nat}
    (hsz : oldsz ≤ KERNBASE) :
    wp (deallocuvm L d oldsz newsz) (fun r m' => Owned L m' D H ∧ r ≤ KERNBASE) anyStop m := by
  obtain ⟨l, role, h⟩ := h
  refine (deallocuvm_wp h hd hsz _).mono ?_ fun _ _ h => h.elim
  rintro r m' ⟨rfl, l', role', hun⟩
  exact ⟨⟨l', role', hun.own⟩, (Nat.min_le_left ..).trans hsz⟩

theorem freevm_owned (h : Owned L m (d :: D) H) :
    wp (freevm L d) (fun _ m' => Owned L m' D H) anyStop m := by
  obtain ⟨l, role, h⟩ := h
  refine (freevm_wp h).mono ?_ fun _ _ h => h.elim
  rintro _ m' ⟨l', role', hown, -, -⟩
  exact ⟨l', role', hown⟩

theorem copyuvm_owned (h : Owned L m D H) (hd : d ∈ D) (sz : Nat) :
    wp (copyuvm L d sz) (fun r m' => Owned L m' (r.toList ++ D) H) anyStop m := by
  obtain ⟨l, role, h⟩ := h
  refine (copyuvm_wp h hd sz).mono ?_ fun _ _ _ => trivial
  rintro (_ | d') m' ⟨l', role', hr⟩
  · exact ⟨l', role', hr.1⟩
  · exact ⟨l', role', hr.2.own⟩

theorem clearpteu_owned (h : Owned L m D H) (hd : d ∈ D) {v : Nat} (hv : v < 2 ^ 19) :
    wp (clearpteu d (v * PGSIZE)) (fun _ m' => Owned L m' D H) anyStop m := by
  obtain ⟨l, role, h⟩ := h
  unfold clearpteu
  refine wp_walk (by omega) (fun _ => trivial) fun ht => ?_
  rw [wp_modify, ← Mach.look_of_present ht]
  exact ⟨l, role, h.reflag hd (by omega) ht present_clear.mp (frame_clear _)⟩

theorem growproc_owned (h : Owned L m D H) (hd : p.pgdir ∈ D) (hsz : p.sz ≤ KERNBASE) (n : Int) :
    wp (growproc L p n) (fun r m' => Owned L m' D H ∧ r.getD p.sz ≤ KERNBASE) anyStop m := by
  unfold growproc
  apply wp_ite
  · intro _
    refine (allocuvm_owned h hd _ _).bind ?_
    rintro r m' ⟨hown, hr⟩
    refine ⟨hown, ?_⟩
    split
    · exact hsz
    · exact hr hsz
  · intro _
    apply wp_ite
    · intro _
      refine (deallocuvm_owned h hd hsz).bind ?_
      rintro r m' ⟨hown, hr⟩
      refine ⟨hown, ?_⟩
      split
      · exact hsz
      · exact hr
    · intro _
      exact ⟨h, hsz⟩

theorem fork_owned (h : Owned L m D H) (hd : p.pgdir ∈ D) :
    wp (fork L p) (fun r m' => Owned L m' (r.toList.map Proc.pgdir ++ D)
      (r.toList.map Proc.kstack ++ H) ∧ ∀ c ∈ r, c.sz = p.sz) anyStop m := by
  unfold fork
  refine (kalloc_owned h).bind ?_
  rintro (_ | kstack) m1 h1
  · exact ⟨h1, nofun⟩
  · refine (copyuvm_owned h1 hd p.sz).bind ?_
    rintro (_ | pgdir) m2 h2
    · refine (kfree_owned h2).bind ?_
      intro _ m3 h3
      exact ⟨h3, nofun⟩
    · refine ⟨h2, ?_⟩
      intro c hc
      cases hc
      rfl

theorem reap_owned (h : Owned L m (p.pgdir :: D) (p.kstack :: H)) :
    wp (reap L p) (fun _ m' => Owned L m' D H) anyStop m := by
  unfold reap
  refine (kfree_owned h).bind ?_
  intro _ m1 h1
  exact freevm_owned h1

theorem inituvm_owned (h : Owned L m D H) (hd : d ∈ D) (code : Page) :
    wp (inituvm d code) (fun _ m' => Owned L m' D H) anyStop m := by
  obtain ⟨l, role, h⟩ := h
  unfold inituvm
  refine (kalloc_wp h).bind ?_
  rintro (_ | mem) m1 ⟨hpage, -, hm⟩
  · exact trivial
  · obtain ⟨l1, rfl, -, hown⟩ := hm
    have hvalid := (hown.held.role mem List.mem_cons_self).2
    have hown1 := (hown.fill (P := l1) hd fun _ => 0).1
    simp only [memset, wp_modify_bind]
    refine ((mappages_user (v := 0) hown1 hd (by omega)).mono (fun _ _ h => h)
      fun _ _ _ => trivial).bind ?_
    rintro (_ | _) m2 ⟨l2, role2, -, -, -, -, hfalse, htrue⟩
    · obtain ⟨hown2, -⟩ := hfalse rfl
      have hr := (hown2.held.role mem List.mem_cons_self).1
      exact ⟨l2, role2, (hown2.write (.inl hr) code).leak⟩
    · obtain ⟨hown2, hlook, -⟩ := htrue rfl
      have h0 := hlook 0 (by omega)
      rw [if_pos rfl] at h0
      have hr := ((hown2.dirs d hd).user 0 (by omega) (by rw [h0]; exact present_pte _ _)).1
      rw [h0, frame_user hvalid] at hr
      exact ⟨l2, role2, hown2.write (.inr ⟨d, 0, hr⟩) code⟩

theorem userinit_owned (h : Owned L m D H) (code : Page) :
    wp (userinit L code) (fun p m' => Owned L m' (p.pgdir :: D) (p.kstack :: H) ∧
      p.sz ≤ KERNBASE) anyStop m := by
  unfold userinit
  refine (kalloc_owned h).bind ?_
  rintro (_ | kstack) m1 h1
  · exact trivial
  · refine (setupkvm_owned h1).bind ?_
    rintro (_ | pgdir) m2 h2
    · exact trivial
    · refine (inituvm_owned h2 List.mem_cons_self code).bind ?_
      intro _ m3 h3
      exact ⟨h3, (by decide : PGSIZE ≤ KERNBASE)⟩

/-! ## Runs -/

/-- The invariant of a run. -/
structure Sys.Inv (L : Link) (s : Sys) : Prop where
  owned : Owned L s.mach s.pgdirs s.kernel
  size : ∀ p ∈ s.procs, p.sz ≤ KERNBASE

theorem Sys.Inv.write {s : Sys} (h : s.Inv L) {p : Nat} (hp : s.writable p) (x : Page) :
    Owned L (s.mach.setPage p x) s.pgdirs s.kernel := by
  obtain ⟨l, role, hown⟩ := h.owned
  refine ⟨l, role, hown.write ?_ x⟩
  rcases hp with hp | ⟨d, hd, hp⟩
  · exact .inl (hown.held.role p hp).1
  · obtain ⟨v, hv, he⟩ := List.mem_filterMap.mp hp
    split at he
    · next hpres =>
      obtain rfl := Option.some.inj he
      exact .inr ⟨d, v, ((hown.dirs d hd).user v (List.mem_range.mp hv) hpres).1⟩
    · cases he

theorem Sys.mem_pgdirs {s : Sys} {p : Proc} (hp : p ∈ s.procs) : p.pgdir ∈ s.pgdirs :=
  List.mem_append_left _ (List.mem_map_of_mem hp)

/-- One call. -/
theorem Sys.Inv.step {s s' : Sys} (h : s.Inv L) (hs : Step L s s') : s'.Inv L := by
  obtain ⟨hown, hsz⟩ := h
  have hdirs : ∀ {d}, d ∈ s.dirs → d ∈ s.pgdirs := fun hd => List.mem_append_right _ hd
  cases hs with
  | kalloc hr | pipealloc hr =>
    refine ⟨((kalloc_owned hown).ok hr).count (fun _ => rfl) ?_, hsz⟩
    intro c
    simp only [Sys.kernel, List.count_append]
    omega
  | kfree a b p he hr =>
    have hown' : Owned L s.mach s.pgdirs (p :: Sys.kernel { s with held := a ++ b }) := by
      refine hown.count (fun _ => rfl) ?_
      intro c
      simp only [Sys.kernel, he, List.count_append, List.count_cons]
      omega
    exact ⟨(kfree_owned hown').ok hr, hsz⟩
  | setupkvm hr =>
    refine ⟨((setupkvm_owned hown).ok hr).count ?_ fun _ => rfl, hsz⟩
    intro c
    simp only [Sys.pgdirs, List.count_append]
    omega
  | allocuvm hd hr => exact ⟨((allocuvm_owned hown (hdirs hd) _ _).ok hr).1, hsz⟩
  | deallocuvm hd hle hr => exact ⟨((deallocuvm_owned hown (hdirs hd) hle).ok hr).1, hsz⟩
  | copyuvm hd hr =>
    refine ⟨((copyuvm_owned hown (hdirs hd) _).ok hr).count ?_ fun _ => rfl, hsz⟩
    intro c
    simp only [Sys.pgdirs, List.count_append]
    omega
  | freevm a b d he hr =>
    have hown' : Owned L s.mach (d :: Sys.pgdirs { s with dirs := a ++ b }) s.kernel := by
      refine hown.count ?_ fun _ => rfl
      intro c
      simp only [Sys.pgdirs, he, List.count_append, List.count_cons]
      omega
    exact ⟨(freevm_owned hown').ok hr, hsz⟩
  | clearpteu hd hv hr => exact ⟨(clearpteu_owned hown (hdirs hd) hv).ok hr, hsz⟩
  | write hp => exact ⟨Sys.Inv.write ⟨hown, hsz⟩ hp _, hsz⟩
  | pipeclose a b p he hr =>
    have hown' : Owned L s.mach s.pgdirs (p :: Sys.kernel { s with pipes := a ++ b }) := by
      refine hown.count (fun _ => rfl) ?_
      intro c
      simp only [Sys.kernel, he, List.count_append, List.count_cons]
      omega
    exact ⟨(kfree_owned hown').ok hr, hsz⟩
  | userinit hr =>
    obtain ⟨h1, h2⟩ := (userinit_owned hown _).ok hr
    refine ⟨h1, ?_⟩
    intro q hq
    rcases List.mem_cons.mp hq with rfl | hq
    · exact h2
    · exact hsz q hq
  | growproc a b p n he hz hr =>
    have hp : p ∈ s.procs := by simp [he]
    obtain ⟨h1, h2⟩ := (growproc_owned hown (Sys.mem_pgdirs hp) (hsz p hp) n).ok hr
    rw [he] at hsz
    refine ⟨by simpa [Sys.pgdirs, Sys.kernel, he] using h1, ?_⟩
    simp only [List.forall_mem_append, List.forall_mem_cons] at hsz ⊢
    exact ⟨hsz.1, h2, hsz.2.2⟩
  | fork p hp hz hn hr =>
    obtain ⟨h1, h2⟩ := (fork_owned hown (Sys.mem_pgdirs hp)).ok hr
    refine ⟨by simpa [Sys.pgdirs, Sys.kernel] using h1, ?_⟩
    intro q hq
    rcases List.mem_append.mp hq with hq | hq
    · rw [h2 q (by simpa using hq)]
      exact hsz p hp
    · exact hsz q hq
  | exit a b p he =>
    rw [he] at hsz
    refine ⟨by simpa [Sys.pgdirs, Sys.kernel, he] using hown, ?_⟩
    simp only [List.forall_mem_append, List.forall_mem_cons] at hsz ⊢
    exact hsz
  | wait a b p he hz hr =>
    have hown' : Owned L s.mach (p.pgdir :: Sys.pgdirs { s with procs := a ++ b })
        (p.kstack :: Sys.kernel { s with procs := a ++ b }) := by
      refine hown.count ?_ ?_
      · intro c
        simp only [Sys.pgdirs, he, List.map_append, List.map_cons, List.count_append,
          List.count_cons]
        omega
      · intro c
        simp only [Sys.kernel, he, List.map_append, List.map_cons, List.count_append,
          List.count_cons]
        omega
    rw [he] at hsz
    refine ⟨(reap_owned hown').ok hr, ?_⟩
    simp only [List.forall_mem_append, List.forall_mem_cons] at hsz ⊢
    exact ⟨hsz.1, hsz.2.2⟩
  | exec a b p e f d he hz hd hle hr =>
    have hown' : Owned L s.mach
        (p.pgdir :: (a.map Proc.pgdir ++ d :: b.map Proc.pgdir ++ (e ++ f))) s.kernel := by
      refine hown.count ?_ fun _ => rfl
      intro c
      simp only [Sys.pgdirs, he, hd, List.map_append, List.map_cons, List.count_append,
        List.count_cons]
      omega
    rw [he] at hsz
    refine ⟨by simpa [Sys.pgdirs, Sys.kernel, he] using (freevm_owned hown').ok hr, ?_⟩
    simp only [List.forall_mem_append, List.forall_mem_cons] at hsz ⊢
    exact ⟨hsz.1, hle, hsz.2.2⟩

theorem mem_kinitPages {q : Nat} : q ∈ kinitPages L ↔ Valid L q := by
  unfold kinitPages Valid
  rw [List.mem_filter, List.mem_range, decide_eq_true_iff, and_comm]
  unfold PHYSTOP PGSIZE
  constructor <;> rintro ⟨h1, h2⟩ <;> exact ⟨h1, by omega⟩

theorem boot_inv (m : Mach) : (boot L m).Inv L := by
  have hk : (boot L m).kernel = kinitPages L := rfl
  have hnd : (kinitPages L).Nodup := by
    unfold kinitPages
    exact List.Nodup.filter _ List.nodup_range
  have hheld : HeldOk L (kinitPages L) fun _ => .held :=
    ⟨hnd, fun p hp => ⟨rfl, mem_kinitPages.mp hp⟩⟩
  refine ⟨⟨[], fun _ => .held, ⟨.nil, List.nodup_nil, nofun⟩, nofun, List.nodup_nil, ?_⟩, nofun⟩
  rw [hk]
  exact hheld

theorem runs_inv {s s' : Sys} (h : s.Inv L) (hr : Runs L s s') : s'.Inv L := by
  induction hr with
  | refl => exact h
  | tail _ hs ih => exact ih.step hs

/-! ## No page in two places -/

theorem DirOk.users_nodup (h : DirOk L m role d) : (m.users d).Nodup := by
  refine List.pairwise_filterMap.mpr (List.nodup_range.imp_of_mem ?_)
  intro u v hu hv hne b hb b' hb' he
  subst he
  split at hb
  · next hpu =>
    split at hb'
    · next hpv =>
      have h1 := (h.user u (List.mem_range.mp hu) hpu).1
      have h2 := (h.user v (List.mem_range.mp hv) hpv).1
      rw [Option.some.inj hb] at h1
      rw [Option.some.inj hb', h1] at h2
      exact hne (Role.user.inj h2).2
    · cases hb'
  · cases hb

theorem DirOk.mem_tabs (h : DirOk L m role d) (hq : q ∈ m.tabs d 0 1024) :
    ∃ i, role q = .table d i := by
  obtain ⟨i, -, h2, h3, rfl⟩ := Mach.mem_tabs hq
  exact ⟨i, (h.table i (by omega) h3).1⟩

theorem DirOk.mem_users (h : DirOk L m role d) (hq : q ∈ m.users d) :
    ∃ v, role q = .user d v := by
  obtain ⟨v, hv, he⟩ := List.mem_filterMap.mp hq
  split at he
  · next hp =>
    obtain rfl := Option.some.inj he
    exact ⟨v, (h.user v (List.mem_range.mp hv) hp).1⟩
  · cases he

/-- What a page of a directory is used for. -/
theorem DirOk.mem_pages (h : DirOk L m role d) (hq : q ∈ m.pages d) :
    (q = d ∧ role q = .dir) ∨ (∃ i, role q = .table d i) ∨ ∃ v, role q = .user d v := by
  rcases List.mem_cons.mp hq with rfl | hq
  · exact .inl ⟨rfl, h.dir.1⟩
  · rcases List.mem_append.mp hq with hq | hq
    · exact .inr (.inl (h.mem_tabs hq))
    · exact .inr (.inr (h.mem_users hq))

theorem DirOk.pages_nodup (h : DirOk L m role d) : (m.pages d).Nodup := by
  refine List.nodup_cons.mpr ⟨?_, List.nodup_append.mpr
    ⟨h.tabs_nodup (by omega), h.users_nodup, ?_⟩⟩
  · intro hm
    have hd := h.dir.1
    rcases List.mem_append.mp hm with hm | hm
    · obtain ⟨i, hi⟩ := h.mem_tabs hm
      rw [hd] at hi
      cases hi
    · obtain ⟨v, hv⟩ := h.mem_users hm
      rw [hd] at hv
      cases hv
  · rintro q hq _ hq' rfl
    obtain ⟨i, hi⟩ := h.mem_tabs hq
    obtain ⟨v, hv⟩ := h.mem_users hq'
    rw [hi] at hv
    cases hv

/-- Two directories have no page in common. -/
theorem DirOk.pages_disjoint {e : Nat} (h : DirOk L m role d) (h' : DirOk L m role e)
    (hne : d ≠ e) : List.Disjoint (m.pages d) (m.pages e) := by
  intro q hq hq'
  rcases h.mem_pages hq with ⟨rfl, hr⟩ | ⟨i, hr⟩ | ⟨v, hr⟩ <;>
    rcases h'.mem_pages hq' with ⟨he, hr'⟩ | ⟨j, hr'⟩ | ⟨u, hr'⟩ <;>
    simp_all

/-- Roles tell all places apart. -/
theorem Own.nodup_places (h : Own L m l D H role) : (l ++ (H ++ D.flatMap m.pages)).Nodup := by
  have hpages : ∀ q ∈ D.flatMap m.pages, role q ≠ .free ∧ role q ≠ .held := by
    intro q hq
    obtain ⟨d, hd, hq⟩ := List.mem_flatMap.mp hq
    rcases (h.dirs d hd).mem_pages hq with ⟨-, hr⟩ | ⟨i, hr⟩ | ⟨v, hr⟩ <;> simp [hr]
  refine List.nodup_append.mpr ⟨h.list.nodup, List.nodup_append.mpr ⟨h.held.nodup,
    List.nodup_flatMap.mpr ⟨fun d hd => (h.dirs d hd).pages_nodup, ?_⟩, ?_⟩, ?_⟩
  · refine h.nodup.imp_of_mem ?_
    intro d e hd he hne
    exact (h.dirs d hd).pages_disjoint (h.dirs e he) hne
  · rintro q hq _ hq' rfl
    exact (hpages q hq').2 (h.held.role q hq).1
  · rintro q hq _ hq' rfl
    have hf := (h.list.role q hq).1
    rcases List.mem_append.mp hq' with hq' | hq'
    · rw [(h.held.role q hq').1] at hf
      cases hf
    · exact (hpages q hq').1 hf

/-! ## The first process -/

/-- A kernel that ends at 0x80120000. -/
def linked : Link := ⟨0x80108000, 0x80120000, by decide, by decide, by decide, by decide⟩

/-- Memory at power-on. -/
def blank : Mach := ⟨fun _ _ => 0, 0, fun _ => false, 0⟩

/-- `freerange` is a run that frees the pages one by one. -/
theorem freerange_runs (n : Nat) : ∀ {p : Nat} {m : Mach} {l : List Nat} {role : Nat → Role},
    Own L m l [] (List.range' p n) role → ∃ m' l' role', freerange L p n m = .ok ⟨⟩ m' ∧
      Runs L ⟨m, [], [], List.range' p n, []⟩ ⟨m', [], [], [], []⟩ ∧
      Own L m' l' [] [] role' ∧ l'.length = l.length + n ∧ m'.fails = m.fails := by
  induction n with
  | zero =>
    intro p m l role h
    exact ⟨m, l, role, rfl, .refl, h, rfl, rfl⟩
  | succ n ih =>
    intro p m l role h
    rw [List.range'_succ] at h
    have hk := kfree_ok (m := m) (h.held.role p List.mem_cons_self).2
    obtain ⟨m', l', role', hr, hruns, hown, hlen, hf⟩ := ih h.free
    refine ⟨m', l', role', ?_, .head (.kfree [] _ p rfl hk) hruns, hown, ?_, hf⟩
    · rw [freerange, Exec.bind_ok hk]
      exact hr
    · rw [hlen, List.length_cons]
      omega

theorem kinitPages_linked : kinitPages linked = List.range' 0x120 0xDEE0 := by
  have hk : linked.kend = 0x80120000 := rfl
  unfold kinitPages
  rw [List.range_eq_range', show PHYSTOP / PGSIZE = 0x120 + 0xDEE0 by decide,
    ← List.range'_append_1, List.filter_append, List.filter_eq_nil_iff.mpr, List.nil_append,
    List.filter_eq_self.mpr]
  · intro p hp
    rw [List.mem_range'_1] at hp
    unfold KERNBASE PGSIZE
    exact decide_eq_true (by omega)
  · intro p hp
    rw [List.mem_range'_1] at hp
    unfold KERNBASE PGSIZE
    rw [decide_eq_true_iff]
    omega

/-- `kinit` frees all pages. -/
theorem exists_kinit : ∃ m l role, Runs linked (boot linked blank) ⟨m, [], [], [], []⟩ ∧
    Own linked m l [] [] role ∧ 4096 ≤ l.length ∧ ∀ k, m.fails k = false := by
  obtain ⟨⟨l, role, h⟩, -⟩ := boot_inv (L := linked) blank
  obtain ⟨p, n, hn, hk⟩ : ∃ p n, 4096 ≤ n ∧ kinitPages linked = List.range' p n :=
    ⟨_, _, by decide, kinitPages_linked⟩
  have hb : boot linked blank = ⟨blank, [], [], List.range' p n, []⟩ := by
    rw [← hk]
    rfl
  rw [hb] at h ⊢
  obtain ⟨m, l', role', -, hr, hown, hlen, hf⟩ := freerange_runs _ h
  exact ⟨m, l', role', hr, hown, by omega, fun k => congrFun hf k⟩

/-- A list with a page, and no call that fails. -/
theorem kalloc_ample {E : Stop Empty → Mach → Prop} (h : Own L m l D H role)
    (hf : ∀ k, m.calls ≤ k → m.fails k = false) (hl : 0 < l.length) :
    wp kalloc (fun r m' => ∃ p l', r = some p ∧ l = p :: l' ∧ m'.page = m.page ∧
      m'.supply l' = (m.supply l).next ∧ (∀ k, m'.calls ≤ k → m'.fails k = false) ∧
      ∃ role', Own L m' l' D (p :: H) role') E m := by
  have hok : (m.supply l).ok = true := by
    simp [Supply.ok, Mach.supply, hf m.calls le_rfl, List.ne_nil_of_length_pos hl]
  refine (kalloc_wp h).post ?_
  rintro (_ | p) m' ⟨hpage, hs, hr⟩
  · rw [hok] at hs
    cases hs
  · obtain ⟨l', rfl, hnext, hown⟩ := hr
    refine ⟨p, l', rfl, rfl, hpage, hnext, ?_, _, hown⟩
    obtain ⟨h1, h2, -⟩ := Supply.mk.inj hnext
    intro k hk
    rw [h1]
    rw [h2] at hk
    exact hf k (Nat.le_of_succ_le hk)

/-- With memory to spare `userinit` maps the code. -/
theorem userinit_ample (h : Own L m l D H role) (hf : ∀ k, m.calls ≤ k → m.fails k = false)
    (hl : 1028 ≤ l.length) (code : Page) :
    wp (userinit L code) (fun p m' => present (m'.look p.pgdir 0)) (fun _ _ => False) m := by
  unfold userinit
  refine (kalloc_ample h hf (by omega)).bind ?_
  rintro _ m1 ⟨kstack, l1, rfl, rfl, -, -, hf1, role1, h1⟩
  rw [List.length_cons] at hl
  refine (setupkvm_ample (n := 2) h1 hf1 (by omega)).bind ?_
  rintro _ m2 ⟨d, l2, role2, rfl, -, h2, -, hzero, -, hA⟩
  rw [wp_bind]
  show wp (inituvm d code) (fun _ m' => present (m'.look d 0)) _ m2
  unfold inituvm
  have hlen := hA.length
  refine (kalloc_ample h2 hA.1 (by omega)).bind ?_
  rintro _ m3 ⟨mem, l3, rfl, rfl, hpage, hnext, -, role3, h3⟩
  have hvalid := (h3.held.role mem List.mem_cons_self).2
  have hhas := ((ample_iff.mp hA).take.ensure (i := 0) (by decide)).1
  simp only [memset, wp_modify_bind]
  refine ((addPage_wp (v := 0) (m := m2) (fun _ => 0) h3 List.mem_cons_self (by omega) hpage
    hnext).mono (fun _ _ h => h) fun _ _ hp => Mach.look_of_no_table hzero (by omega) hp).bind ?_
  rintro _ m4 ⟨l4, role4, hadd⟩
  obtain rfl := hadd.has.trans hhas
  obtain ⟨hlook, -⟩ := hadd.page rfl
  have hok := hadd.own.dirs d List.mem_cons_self
  have hp : present (m4.look d 0) := by
    rw [hlook]
    exact present_pte _ _
  have hr := (hok.user 0 (by omega) hp).1
  rw [hlook, frame_user hvalid] at hr
  rw [wp_modify, (hok.keep_write (.inr ⟨d, 0, hr⟩) code).2.2 0 (by omega)]
  exact hp

/-! ## Every run -/

/-- No physical page has two owners. In every state of every run the free list ends, its
    pages are whole pages between the end of the kernel and the top of memory, and no page appears
    twice among the free list, the kernel stacks, pipe buffers and other pages in the kernel's
    hands, the page directories, their tables and the user pages they map. -/
theorem page_owners {s : Sys} (m : Mach) (h : Runs L (boot L m) s) :
    ∃ l, Chain s.mach s.mach.freelist l ∧
      (∀ p ∈ l, (ka p).toNat % PGSIZE = 0 ∧ L.kend ≤ (ka p).toNat ∧
        (ka p).toNat < KERNBASE + PHYSTOP) ∧
      (l ++ s.places).Nodup := by
  obtain ⟨⟨l, role, hown⟩, -⟩ := runs_inv (boot_inv m) h
  refine ⟨l, hown.list.chain, ?_, hown.nodup_places⟩
  intro p hp
  have hv := (hown.list.role p hp).2
  have h1 := hv.1
  have h2 := hv.2
  rw [hv.ka_toNat]
  refine ⟨?_, h1, by omega⟩
  unfold KERNBASE PGSIZE
  omega

/-- `kinit` frees all pages and `userinit` makes a process, with a kernel stack, a directory,
    its tables and a user page. -/
theorem page_owners_userinit : ∃ s, Runs linked (boot linked blank) s ∧
    (∃ p, s.procs = [p] ∧ p.kstack ∈ s.places ∧ p.pgdir ∈ s.places ∧
      present (s.mach.look p.pgdir 0)) ∧
    ∃ l, Chain s.mach s.mach.freelist l ∧
      (∀ p ∈ l, (ka p).toNat % PGSIZE = 0 ∧ linked.kend ≤ (ka p).toNat ∧
        (ka p).toNat < KERNBASE + PHYSTOP) ∧
      (l ++ s.places).Nodup := by
  obtain ⟨m, l, role, hr, hown, hlen, hf⟩ := exists_kinit
  obtain ⟨p, m', hi, hp⟩ := (userinit_ample hown (fun k _ => hf k) (by omega) fun _ => 0).returns
  have hs : Runs linked (boot linked blank) ⟨m', [p], [], [], []⟩ := hr.tail (.userinit hi)
  refine ⟨_, hs, ⟨p, rfl, ?_, ?_, hp⟩, page_owners blank hs⟩
  · exact List.mem_append_left _ List.mem_cons_self
  · exact List.mem_append_right _ (List.mem_append_left _ List.mem_cons_self)

end Zv6.Mem
