/-
  `fork` with its failures.

  The state has memory, the process table and the reference counts that `fork` touches. Left out
  are the locks, the contents of the new kernel stack (trap frame and context) and the name. To
  memory it does what the `fork` of `Step` does (`Kernel.fork_mem`).

  `fork` asks `kalloc` for the kernel stack, the page directory, the 64 tables of the kernel half
  and, page by page, for the user pages and their tables (`forkRequests`). What it has taken is
  given back if the stack, the directory or a user page is refused. It is not if a table is
  refused: `setupkvm` forgets the directory, and `copyuvm` the page it was about to map
  (`fork_unleaked_iff`).
-/
import Zv6.Mem.Grow

namespace Zv6.Mem

open Zv6.Lib Function

abbrev NPROC : Nat := 64
abbrev NOFILE : Nat := 16

inductive ProcState where
  | unused
  | embryo
  | sleeping
  | runnable
  | running
  | zombie
  deriving DecidableEq

structure Slot where
  state : ProcState
  pid : Nat
  kstack : Option Nat
  pgdir : Option Nat
  sz : Nat
  parent : Option (Fin NPROC)
  ofile : Fin NOFILE → Option Nat
  cwd : Nat

/-- Memory, the process table, and the references to open files and to inodes. -/
structure Kernel where
  mach : Mach
  proc : Fin NPROC → Slot
  nextpid : Nat
  fileRef : Nat → Nat
  inodeRef : Nat → Nat

abbrev K := Exec Empty Kernel

/-- Code that works on memory alone. -/
def mem (x : M α) : K α := fun k =>
  match x k.mach with
  | .ok a m => .ok a { k with mach := m }
  | .panic e m => .panic e { k with mach := m }
  | .blocked c m => .blocked c { k with mach := m }
  | .loops m => .loops { k with mach := m }

def Kernel.setProc (k : Kernel) (i : Fin NPROC) (f : Slot → Slot) : Kernel :=
  { k with proc := update k.proc i (f (k.proc i)) }

/-- The first slot that is not in use. -/
def Kernel.unused (k : Kernel) : Option (Fin NPROC) :=
  (List.finRange NPROC).find? fun i => (k.proc i).state = .unused

def allocproc : K (Option (Fin NPROC)) := do
  match ← Exec.gets Kernel.unused with
  | none => pure none
  | some i => do
    Exec.modify fun k =>
      { k.setProc i fun p => { p with state := .embryo, pid := k.nextpid } with
        nextpid := k.nextpid + 1 }
    match ← mem kalloc with
    | none => do
      Exec.modify fun k => k.setProc i fun p => { p with kstack := none, state := .unused }
      pure none
    | some kstack => do
      Exec.modify fun k => k.setProc i fun p => { p with kstack := some kstack }
      pure (some i)

def filedup (f : Nat) : K PUnit := do
  let ref ← Exec.gets fun k => k.fileRef f
  if ref < 1 then
    Exec.panic "filedup"
  else
    Exec.modify fun k => { k with fileRef := update k.fileRef f (ref + 1) }

def idup (ip : Nat) : K PUnit :=
  Exec.modify fun k => { k with inodeRef := update k.inodeRef ip (k.inodeRef ip + 1) }

/-- The loop over the descriptors `is` of the parent. -/
def dupFiles (np : Fin NPROC) (ofile : Fin NOFILE → Option Nat) : List (Fin NOFILE) → K PUnit
  | [] => pure ⟨⟩
  | i :: is => do
    match ofile i with
    | none => dupFiles np ofile is
    | some f => do
      filedup f
      Exec.modify fun k => k.setProc np fun p =>
        { p with ofile := update p.ofile i (some f) }
      dupFiles np ofile is

variable (L : Link)

/-- The pid of the child; `none` is the source's -1. -/
def Kernel.fork (me : Fin NPROC) : K (Option Nat) := do
  match ← allocproc with
  | none => pure none
  | some np => do
    let p ← Exec.gets fun k => k.proc me
    match ← mem (copyuvm L (p.pgdir.getD 0) p.sz) with
    | none => do
      let kstack ← Exec.gets fun k => (k.proc np).kstack
      mem (kfree L (kstack.getD 0))
      Exec.modify fun k => k.setProc np fun p =>
        { p with pgdir := none, kstack := none, state := .unused }
      pure none
    | some d => do
      Exec.modify fun k => k.setProc np fun q =>
        { q with pgdir := some d, sz := p.sz, parent := some me }
      dupFiles np p.ofile (List.finRange NOFILE)
      idup p.cwd
      Exec.modify fun k => k.setProc np fun q => { q with cwd := p.cwd, state := .runnable }
      let pid ← Exec.gets fun k => (k.proc np).pid
      pure (some pid)

/-! ## What is asked for -/

/-- The first request of a list that is refused. -/
def Supply.first : Supply → List Request → Option Request
  | _, [] => none
  | s, x :: xs => if s.ok then s.next.first xs else some x

/-- The requests for `k` user pages from page `v` on, in a directory without user tables. -/
def userRequests (v k : Nat) : List Request :=
  (List.range' v k).flatMap fun u => if u % 1024 = 0 then [.data, .table] else [.data]

/-- The requests for the tables of `k` pages from page `v` on. -/
def tableRequests (v k : Nat) : List Request :=
  (List.range' v k).flatMap fun u => if u % 1024 = 0 then [.table] else []

/-- The requests of `fork`, as long as none is refused. -/
def forkRequests (sz : Nat) : List Request :=
  .stack :: .dir :: (List.replicate 64 .table ++ userRequests 0 (pageCeil sz))

namespace Stock

/-- Of the tables below `top`, those from that of page `v` on are missing, but for one in the
    middle of which `v` is. -/
def Fresh (top v : Nat) (s : Stock) : Prop :=
  (v / 1024 < top → s.tables (v / 1024) = decide (v % 1024 ≠ 0)) ∧
    ∀ i, v / 1024 < i → i < top → s.tables i = false

variable {s s' : Stock} {top v : Nat}

theorem Fresh.take (h : Fresh top v s) : Fresh top v s.take := h

/-- At the first page of a table the table is asked for, elsewhere it is there. -/
theorem Fresh.ensure (h : Fresh top v s) (hv : v < top * 1024) :
    (v % 1024 = 0 → s.has (v / 1024) = s.supply.ok ∧
      (s.ensure (v / 1024)).supply = s.supply.next) ∧
    (v % 1024 ≠ 0 → s.has (v / 1024) = true ∧ s.ensure (v / 1024) = s) ∧
    (s.has (v / 1024) = true → Fresh top (v + 1) (s.ensure (v / 1024))) := by
  have ht := h.1 (by omega)
  refine ⟨?_, ?_, ?_⟩
  · intro h0
    rw [h0] at ht
    unfold Stock.has Stock.ensure
    rw [ht]
    exact ⟨rfl, rfl⟩
  · intro h0
    have ht' : s.tables (v / 1024) = true := by
      rw [ht]
      exact decide_eq_true h0
    unfold Stock.has Stock.ensure
    rw [ht']
    exact ⟨rfl, rfl⟩
  · intro hhas
    have hthere : (s.ensure (v / 1024)).tables (v / 1024) = true := by
      unfold Stock.has at hhas
      unfold Stock.ensure
      split
      · assumption
      · next hn =>
        have hok : s.supply.ok = true := by
          rw [Bool.not_eq_true] at hn
          rw [hn, Bool.false_or] at hhas
          exact hhas
        rw [if_pos hok]
        exact update_self ..
    refine ⟨?_, ?_⟩
    · intro hlt
      by_cases hdiv : (v + 1) / 1024 = v / 1024
      · rw [hdiv, hthere]
        exact (decide_eq_true (by omega)).symm
      · rw [ensure_tables_ne hdiv, h.2 _ (by omega) hlt]
        exact (decide_eq_false (by omega)).symm
    · intro i hi hlt
      rw [ensure_tables_ne (by omega)]
      exact h.2 i (by omega) hlt

theorem tableRequests_succ (v k : Nat) : tableRequests v (k + 1) =
    (if v % 1024 = 0 then [.table] else []) ++ tableRequests (v + 1) k := by
  unfold tableRequests
  rw [List.range'_succ, List.flatMap_cons]

theorem userRequests_succ (v k : Nat) : userRequests v (k + 1) =
    (if v % 1024 = 0 then [.data, .table] else [.data]) ++ userRequests (v + 1) k := by
  unfold userRequests
  rw [List.range'_succ, List.flatMap_cons]

/-- Looking for the tables of a range of pages. -/
theorem Fresh.serve (k : Nat) : ∀ {v : Nat} {s : Stock}, Fresh top v s → v + k ≤ top * 1024 →
    ∀ rest, s.supply.first (tableRequests v k ++ rest) =
      match s.serve ((List.range' v k).map (· / 1024)) with
      | none => some .table
      | some s' => s'.supply.first rest := by
  induction k with
  | zero =>
    intro v s _ _ rest
    rfl
  | succ k ih =>
    intro v s h hv rest
    obtain ⟨h0, h1, hnext⟩ := h.ensure (by omega)
    rw [tableRequests_succ, List.range'_succ, List.map_cons, serve_cons]
    by_cases hz : v % 1024 = 0
    · obtain ⟨hhas, hsup⟩ := h0 hz
      rw [if_pos hz, List.cons_append, List.nil_append, List.cons_append, Supply.first]
      cases hok : s.supply.ok with
      | true =>
        rw [hok] at hhas
        rw [if_pos rfl, if_pos hhas, ← hsup]
        exact ih (hnext hhas) (by omega) rest
      | false =>
        rw [hok] at hhas
        rw [hhas, if_neg (by simp), if_neg (by simp)]
    · obtain ⟨hhas, hsame⟩ := h1 hz
      rw [if_neg hz, List.nil_append, if_pos hhas]
      have := ih (hnext hhas) (by omega) rest
      rw [hsame] at this ⊢
      exact this

/-- Asking for a range of user pages. -/
theorem Fresh.user (k : Nat) : ∀ {v : Nat} {s : Stock}, Fresh top v s → v + k ≤ top * 1024 →
    s.supply.first (userRequests v k) = (s.refused k v).head? := by
  induction k with
  | zero =>
    intro v s _ _
    rfl
  | succ k ih =>
    intro v s h hv
    obtain ⟨h0, h1, hnext⟩ := h.take.ensure (by omega)
    rw [userRequests_succ, Stock.refused]
    cases hok : s.supply.ok with
    | false =>
      rw [if_neg Bool.false_ne_true]
      split <;> rw [List.cons_append, Supply.first, if_neg (by simp [hok])] <;> rfl
    | true =>
      rw [if_pos rfl]
      by_cases hz : v % 1024 = 0
      · obtain ⟨hhas, hsup⟩ := h0 hz
        rw [if_pos hz, List.cons_append, Supply.first, if_pos hok, List.cons_append,
          Supply.first, List.nil_append]
        cases hok' : s.supply.next.ok with
        | true =>
          have hhas' : s.take.has (v / 1024) = true := hhas.trans hok'
          rw [if_pos rfl, if_pos hhas', List.nil_append]
          have := ih (hnext hhas') (by omega)
          rw [hsup] at this
          exact this
        | false =>
          have hhas' : s.take.has (v / 1024) = false := hhas.trans hok'
          rw [if_neg (by simp), hhas', if_neg (by simp)]
          rfl
      · obtain ⟨hhas, hsame⟩ := h1 hz
        rw [if_neg hz, List.cons_append, Supply.first, if_pos hok, List.nil_append, if_pos hhas,
          List.nil_append]
        have := ih (hnext hhas) (by omega)
        rw [hsame] at this ⊢
        exact this

theorem tableRequests_append (v j k : Nat) :
    tableRequests v (j + k) = tableRequests v j ++ tableRequests (v + j) k := by
  unfold tableRequests
  rw [← List.range'_append_1, List.flatMap_append]

/-- One request for each table. -/
theorem tableRequests_tables (n : Nat) : ∀ a, tableRequests (a * 1024) (n * 1024) =
    List.replicate n .table := by
  induction n with
  | zero =>
    intro a
    rfl
  | succ n ih =>
    intro a
    have hone : tableRequests (a * 1024) 1024 = [.table] := by
      have hrest : tableRequests (a * 1024 + 1) 1023 = [] := by
        refine List.flatMap_eq_nil_iff.mpr fun u hu => ?_
        rw [List.mem_range'_1] at hu
        rw [if_neg (by omega)]
      rw [tableRequests_succ, if_pos (by omega), hrest]
      rfl
    rw [Nat.succ_mul, Nat.add_comm, tableRequests_append, hone, List.replicate_succ,
      ← Nat.succ_mul, ih]
    rfl

end Stock

theorem Kmap.tables_eq {k : Kmap} {a n : Nat} (ha : k.virt / PGSIZE = a)
    (hn : k.size / PGSIZE = n) : k.tables = (List.range' a n).map (· / 1024) := by
  unfold Kmap.tables
  rw [ha, hn]

/-- The tables of the kernel half, page by page. -/
theorem kmap_pages (L : Link) : (kmap L).flatMap Kmap.tables =
    (List.range' (512 * 1024) (56 * 1024)).map (· / 1024) ++
      (List.range' (1016 * 1024) (8 * 1024)).map (· / 1024) := by
  have h1 := L.data_aligned
  have h2 := L.data_after
  have h3 := L.end_after
  have h4 := L.end_below
  simp only [KERNLINK, KERNBASE, EXTMEM, PGSIZE] at h1 h2 h4
  -- the first three rows follow each other
  obtain ⟨n, hn⟩ : ∃ n, L.data = 4096 * (524544 + n) := ⟨L.data / 4096 - 524544, by omega⟩
  have hsplit : 56 * 1024 = 256 + (n + (57088 - n)) := by omega
  unfold kmap
  simp only [List.flatMap_cons, List.flatMap_nil, List.append_nil]
  rw [Kmap.tables_eq (a := 512 * 1024) (n := 256), Kmap.tables_eq (a := 512 * 1024 + 256) (n := n),
    Kmap.tables_eq (a := 512 * 1024 + 256 + n) (n := 57088 - n),
    Kmap.tables_eq (a := 1016 * 1024) (n := 8 * 1024), hsplit, ← List.range'_append_1,
    ← List.range'_append_1, List.map_append, List.map_append, List.append_assoc,
    List.append_assoc]
  all_goals simp only [Kmap.size, KERNLINK, KERNBASE, EXTMEM, PHYSTOP, DEVSPACE, PGSIZE] <;> omega

variable {L}

/-- Tables behind other entries are left alone. -/
theorem Stock.serve_range {s s' : Stock} {a n i : Nat}
    (h : s.serve ((List.range' a n).map (· / 1024)) = some s')
    (hi : ∀ u, a ≤ u → u < a + n → u / 1024 ≠ i) : s'.tables i = s.tables i := by
  refine Stock.serve_tables h ?_
  intro hc
  obtain ⟨u, hu, he⟩ := List.mem_map.mp hc
  rw [List.mem_range'_1] at hu
  exact hi u hu.1 hu.2 he

/-- The request of `copyuvm` that is refused first. -/
theorem copyRefused_eq (s : Supply) {sz : Nat} (hsz : pageCeil sz ≤ 2 ^ 19) :
    copyRefused L s sz =
      s.first (.dir :: (List.replicate 64 .table ++ userRequests 0 (pageCeil sz))) := by
  have hreq : List.replicate 64 Request.table ++ userRequests 0 (pageCeil sz) =
      tableRequests (512 * 1024) (56 * 1024) ++ (tableRequests (1016 * 1024) (8 * 1024) ++
        userRequests 0 (pageCeil sz)) := by
    rw [Stock.tableRequests_tables, Stock.tableRequests_tables, ← List.append_assoc,
      List.replicate_append_replicate]
  have hf1 : Stock.Fresh 1024 (512 * 1024) s.newDir := by
    refine ⟨fun _ => ?_, fun _ _ _ => rfl⟩
    rfl
  unfold copyRefused
  rw [Supply.first]
  split
  · have hserve := hf1.serve (56 * 1024) (by omega)
      (tableRequests (1016 * 1024) (8 * 1024) ++ userRequests 0 (pageCeil sz))
    have hsup : s.newDir.supply = s.next := rfl
    rw [hsup] at hserve
    rw [hreq, hserve, kmap_pages, Stock.serve_append]
    cases h1 : s.newDir.serve ((List.range' (512 * 1024) (56 * 1024)).map (· / 1024)) with
    | none => rfl
    | some s1 =>
      have hkeep1 : ∀ i, i < 512 ∨ 568 ≤ i → s1.tables i = false :=
        fun i hi => Stock.serve_range h1 (by omega)
      have hf2 : Stock.Fresh 1024 (1016 * 1024) s1 :=
        ⟨fun _ => hkeep1 _ (by omega), fun i hi _ => hkeep1 i (by omega)⟩
      dsimp only [Option.bind_some]
      rw [hf2.serve (8 * 1024) (by omega)]
      cases h2 : s1.serve ((List.range' (1016 * 1024) (8 * 1024)).map (· / 1024)) with
      | none => rfl
      | some s2 =>
        have hkeep2 : ∀ i < 512, s2.tables i = false :=
          fun i hi => (Stock.serve_range h2 (by omega)).trans (hkeep1 i (.inl hi))
        have hf3 : Stock.Fresh 512 0 s2 :=
          ⟨fun _ => hkeep2 _ (by omega), fun i _ hlt => hkeep2 i hlt⟩
        exact (hf3.user (pageCeil sz) (by omega)).symm
  · rfl

/-! ## No leaks -/

theorem wp_mem {x : M α} {Q : α → Kernel → Prop} {E : Stop Empty → Kernel → Prop} {k : Kernel} :
    wp (mem x) Q E k ↔ wp x (fun a m => Q a { k with mach := m })
      (fun e m => E e { k with mach := m }) k.mach := by
  unfold wp mem
  cases x k.mach <;> rfl

/-- A `fork` that has failed: the slot `np` is free again, and nothing else has changed but pages
    that were free and the free list, which is now `l'`. -/
structure Failed (L : Link) (D H : List Nat) (np : Fin NPROC) (k : Kernel) (l : List Nat)
    (r : Option Nat) (k' : Kernel) (l' : List Nat) : Prop where
  failed : r = none
  slot : (k'.proc np).state = .unused
  slots : ∀ i, i ≠ np → k'.proc i = k.proc i
  files : k'.fileRef = k.fileRef
  inodes : k'.inodeRef = k.inodeRef
  memory : ∀ q, q ∉ l → k'.mach.page q = k.mach.page q
  own : ∃ role', Own L k'.mach l' D H role'

/-- And no page is lost. -/
def Unleaked (L : Link) (D H : List Nat) (np : Fin NPROC) (k : Kernel) (l : List Nat)
    (r : Option Nat) (k' : Kernel) : Prop :=
  ∃ l', Failed L D H np k l r k' l' ∧ ∀ q, q ∈ l' ↔ q ∈ l

variable {k : Kernel} {m m1 : Mach} {l D H : List Nat} {role : Nat → Role} {me np : Fin NPROC}
  {c : Nat} {x : Request}

theorem Kernel.unused_state (h : k.unused = some np) : (k.proc np).state = .unused := by
  have := List.find?_some h
  exact of_decide_eq_true this

/-- The descriptors are none of memory's business. -/
theorem dupFiles_mem (ofile : Fin NOFILE → Option Nat) (is : List (Fin NOFILE)) : ∀ k : Kernel,
    wp (dupFiles np ofile is) (fun _ k' => k'.mach = k.mach ∧
      (k'.proc np).pgdir = (k.proc np).pgdir ∧ (k'.proc np).kstack = (k.proc np).kstack ∧
      (k'.proc np).sz = (k.proc np).sz) (fun _ _ => True) k := by
  induction is with
  | nil => exact fun k => ⟨rfl, rfl, rfl, rfl⟩
  | cons i is ih =>
    intro k
    unfold dupFiles
    split
    · exact ih k
    · unfold filedup
      rw [wp_bind, wp_gets_bind]
      refine wp_ite (fun _ => trivial) fun _ => ?_
      rw [wp_modify, wp_modify_bind]
      refine (ih _).post fun _ k' h => ?_
      simpa [Kernel.setProc] using h

/-- To memory this `fork` does what the one of `Step` does, and the child's slot has what that
    one returns. -/
theorem Kernel.fork_mem {p : Proc} (hnp : k.unused = some np) (hne : me ≠ np)
    (hc : (k.proc me).pgdir = some p.pgdir) (hsz : (k.proc me).sz = p.sz) :
    wp (Kernel.fork L me) (fun r k' => ∃ q, Mem.fork L p k.mach = .ok q k'.mach ∧
      (r = none ↔ q = none) ∧ ∀ c ∈ q, (k'.proc np).pgdir = some c.pgdir ∧
        (k'.proc np).kstack = some c.kstack ∧ (k'.proc np).sz = c.sz) (fun _ _ => True) k := by
  unfold Kernel.fork allocproc Mem.fork
  rw [wp_bind, wp_gets_bind, hnp]
  simp only [wp_modify_bind]
  rw [wp_bind, wp_mem]
  refine wp_of_return fun a m1 hk => ?_
  have hk : kalloc k.mach = .ok a m1 := hk
  rw [Exec.bind_ok hk]
  cases a with
  | none => exact ⟨none, rfl, by simp, by simp⟩
  | some s =>
    rw [wp_modify_bind]
    simp only [wp_pure, wp_gets_bind]
    rw [wp_bind, wp_mem]
    simp only [Kernel.setProc, update_of_ne hne, hc, hsz, Option.getD_some]
    refine wp_of_return fun d m2 hm => ?_
    rw [Exec.bind_ok hm]
    cases d with
    | none =>
      simp only [wp_gets_bind, update_self, Option.getD_some]
      rw [wp_bind, wp_mem]
      refine wp_of_return fun _ m3 hf => ⟨none, ?_, by simp, by simp⟩
      rw [Exec.bind_ok hf]
      rfl
    | some d =>
      rw [wp_modify_bind]
      refine (dupFiles_mem _ _ _).bind ?_
      rintro _ k1 ⟨h1, h2, h3, h4⟩
      refine ⟨_, congrArg _ h1.symm, by simp, ?_⟩
      rintro c ⟨⟩
      simp only [update_self] at h2 h3 h4 ⊢
      exact ⟨h2, h3, h4⟩

/-- `allocproc` finds the slot and asks for the stack. -/
theorem allocproc_wp (h : Own L k.mach l D H role) (hnp : k.unused = some np) :
    wp allocproc (fun r k' => (∀ i, i ≠ np → k'.proc i = k.proc i) ∧ k'.fileRef = k.fileRef ∧
      k'.inodeRef = k.inodeRef ∧ k'.mach.page = k.mach.page ∧
      match r with
      | none => (k.mach.supply l).ok = false ∧ (k'.proc np).state = .unused ∧
        Own L k'.mach l D H role
      | some i => i = np ∧ (k.mach.supply l).ok = true ∧ ∃ s l1, (k'.proc np).kstack = some s ∧
        l = s :: l1 ∧ k'.mach.supply l1 = (k.mach.supply l).next ∧
        Own L k'.mach l1 D (s :: H) (update role s .held)) (fun _ _ => False) k := by
  unfold allocproc
  rw [wp_gets_bind, hnp]
  simp only [wp_modify_bind]
  rw [wp_bind, wp_mem]
  refine (kalloc_wp h).mono ?_ fun _ _ h => h
  rintro (_ | s) m1 ⟨hpage, hok, hm⟩
  · refine ⟨?_, rfl, rfl, hpage, hok, ?_, hm.2⟩
    · intro i hi
      simp [Kernel.setProc, hi]
    · simp [Kernel.setProc]
  · obtain ⟨l1, rfl, hnext, hown⟩ := hm
    refine ⟨?_, rfl, rfl, hpage, rfl, hok, s, l1, ?_, rfl, hnext, hown⟩
    · intro i hi
      simp [Kernel.setProc, hi]
    · simp [Kernel.setProc]

/-- A `fork` that is refused a page fails, and has lost a page if that was one for a table. -/
theorem fork_wp (h : Own L k.mach l D H role) (hc : (k.proc me).pgdir = some c)
    (hcD : c ∈ D) (hme : (k.proc me).state ≠ .unused) (hnp : k.unused = some np)
    (hsz : (k.proc me).sz < KERNBASE)
    (hmap : ∀ u < pageCeil (k.proc me).sz, present (k.mach.look c u))
    (hx : (k.mach.supply l).first (forkRequests (k.proc me).sz) = some x) :
    wp (Kernel.fork L me) (fun r k' => ∃ l', Failed L D H np k l r k' l' ∧
      (x = .table → ∃ q ∈ l, q ∉ l') ∧ (x ≠ .table → ∀ q, q ∈ l' ↔ q ∈ l)) (fun _ _ => False)
      k := by
  have hceil := pageCeil_le hsz.le
  have hmenp : me ≠ np := by
    rintro rfl
    exact hme (Kernel.unused_state hnp)
  unfold forkRequests at hx
  rw [Supply.first] at hx
  unfold Kernel.fork
  refine (allocproc_wp h hnp).bind ?_
  rintro r k1 ⟨hproc, hfile, hinode, hpage, hcase⟩
  cases r with
  | none =>
    obtain ⟨hok, hslot, hown⟩ := hcase
    rw [hok, if_neg Bool.false_ne_true] at hx
    obtain rfl := Option.some.inj hx
    exact ⟨l, ⟨rfl, hslot, hproc, hfile, hinode, fun q _ => congrFun hpage q, role, hown⟩, nofun,
      fun _ _ => Iff.rfl⟩
  | some i =>
    obtain ⟨rfl, hok, s, l1, hstack, rfl, hnext, hown⟩ := hcase
    rw [if_pos hok, ← copyRefused_eq (L := L) _ hceil, ← hnext] at hx
    have hlook : ∀ u, k1.mach.look c u = k.mach.look c u := fun u => Mach.look_page hpage c u
    dsimp only
    rw [wp_gets_bind, hproc me hmenp, hc, Option.getD_some, wp_bind, wp_mem]
    refine (copyuvm_wp hown hcD (k.proc me).sz).mono ?_ ?_
    · rintro (_ | d) m2 ⟨l2, role2, hpost⟩
      · obtain ⟨hown2, hkept, x', hx', htab, hdata⟩ := hpost
        rw [hx] at hx'
        obtain rfl := Option.some.inj hx'
        have hs := hown2.held.role s List.mem_cons_self
        have hfree : kfree L s m2 = .ok ⟨⟩ (m2.free s) := kfree_ok hs.2
        dsimp only
        rw [wp_gets_bind, hstack, Option.getD_some, wp_bind, wp_mem, wp_of_ok hfree,
          wp_modify_bind, wp_pure]
        refine ⟨s :: l2, ⟨rfl, ?_, ?_, hfile, hinode, ?_, _, hown2.free⟩, ?_, ?_⟩
        · simp [Kernel.setProc]
        · intro j hj
          rw [← hproc j hj]
          exact update_of_ne hj ..
        · intro q hq
          rw [List.mem_cons, not_or] at hq
          rw [← hpage, ← hkept q hq.2]
          exact update_of_ne hq.1 ..
        · intro ht
          obtain ⟨q, hq, hq2⟩ := htab ht
          have hne : q ≠ s := ne_of_mem_of_not_mem hq (List.nodup_cons.mp h.list.nodup).1
          refine ⟨q, List.mem_cons_of_mem s hq, ?_⟩
          rw [List.mem_cons, not_or]
          exact ⟨hne, hq2⟩
        · intro hne q
          rw [List.mem_cons, List.mem_cons, hdata hne q]
      · have hno := hpost.1
        rw [hx] at hno
        cases hno
    · rintro _ _ ⟨u, -, hu, hbad⟩
      rw [hlook] at hbad
      rcases hbad with hbad | rfl
      · exact hbad (hmap u hu)
      · omega

/-- A page that is lost is not there under another name. -/
theorem Failed.not_unleaked {r : Option Nat} {k' : Kernel} {l' : List Nat} {q : Nat}
    (h : Failed L D H np k l r k' l') (hq : q ∈ l) (hq' : q ∉ l') :
    ¬ Unleaked L D H np k l r k' := by
  rintro ⟨l'', h'', hall⟩
  obtain ⟨role', hown⟩ := h.own
  obtain ⟨role'', hown''⟩ := h''.own
  have := (hall q).mpr hq
  rw [hown''.list_unique hown] at this
  exact hq' this

/-- A process table with one process, of one page. -/
def oneProc (m : Mach) (d : Nat) : Kernel where
  mach := m
  proc := fun i => ⟨if i = 0 then .running else .unused, 1, none, some d, PGSIZE, none,
    fun _ => none, 0⟩
  nextpid := 2
  fileRef := fun _ => 0
  inodeRef := fun _ => 0

theorem oneProc_running (m : Mach) (d : Nat) : ((oneProc m d).proc 0).state ≠ .unused := by
  simp [oneProc]

theorem oneProc_unused (m : Mach) (d : Nat) : (oneProc m d).unused = some 1 := by
  rfl

/-- The process forks while call `i` of `kalloc` from now on fails. -/
theorem exists_parent (i : Nat) : ∃ m l role d, Own linked m l [d] [] role ∧
    (∀ u < pageCeil PGSIZE, present (m.look d u)) ∧ 1999 ≤ l.length ∧
    m.fails = fun k => decide (k = m.calls + i) := by
  obtain ⟨m, l, role, d, h, hmap, -, hA⟩ := exists_single
  have hc : pageCeil PGSIZE = 1 := by decide
  refine ⟨{ m with fails := fun k => decide (k = m.calls + i) }, l, role, d, h.refail _, ?_,
    hA.length, rfl⟩
  intro u hu
  exact (hmap u (by omega)).mpr (by omega)

/-- A `fork` that is refused a page leaks nothing if and only if what is refused first is not
    a page table. -/
theorem fork_unleaked_iff (h : Own L k.mach l D H role) (hc : (k.proc me).pgdir = some c)
    (hcD : c ∈ D) (hme : (k.proc me).state ≠ .unused) (hnp : k.unused = some np)
    (hsz : (k.proc me).sz < KERNBASE)
    (hmap : ∀ u < pageCeil (k.proc me).sz, present (k.mach.look c u))
    (hx : (k.mach.supply l).first (forkRequests (k.proc me).sz) = some x) :
    wp (Kernel.fork L me) (Unleaked L D H np k l) (fun _ _ => False) k ↔ x ≠ .table := by
  obtain ⟨r, k', hr, l', hfail, htab, hdata⟩ := (fork_wp h hc hcD hme hnp hsz hmap hx).returns
  rw [wp_of_ok hr]
  constructor
  · intro hun ht
    obtain ⟨q, hq, hq'⟩ := htab ht
    exact hfail.not_unleaked hq hq' hun
  · intro hne
    exact ⟨l', hfail, hdata hne⟩

/-- Without a page for the directory nothing is lost. -/
theorem fork_unleaked_dir : ∃ m l role d, Own linked m l [d] [] role ∧
    wp (Kernel.fork linked 0) (Unleaked linked [d] [] 1 (oneProc m d) l) (fun _ _ => False)
      (oneProc m d) := by
  obtain ⟨m, l, role, d, h, hmap, hlen, hf⟩ := exists_parent 1
  refine ⟨m, l, role, d, h, (fork_unleaked_iff (x := .dir) (k := oneProc m d) h rfl
    List.mem_cons_self (oneProc_running m d) (oneProc_unused m d)
    (show PGSIZE < KERNBASE by decide) hmap ?_).mpr (by simp)⟩
  have h0 : l.length ≠ 0 := by omega
  simp [oneProc, Mach.supply, forkRequests, Supply.first, Supply.ok, Supply.next, hf, h0]

/-- Without a page for the first table the directory is lost. -/
theorem fork_leaks_dir : ∃ m l role d, Own linked m l [d] [] role ∧
    ∃ k', Kernel.fork linked 0 (oneProc m d) = .ok none k' ∧
      (∃ l' role', Own linked k'.mach l' [d] [] role' ∧ ∃ q ∈ l, q ∉ l') ∧
      ¬ Unleaked linked [d] [] 1 (oneProc m d) l none k' := by
  obtain ⟨m, l, role, d, h, hmap, hlen, hf⟩ := exists_parent 2
  have hx : (m.supply l).first (forkRequests PGSIZE) = some .table := by
    have h0 : l.length ≠ 0 ∧ l.length - 1 ≠ 0 := by omega
    simp [Mach.supply, forkRequests, Supply.first, Supply.ok, Supply.next, hf, h0,
      List.replicate_succ]
  obtain ⟨r, k', hr, l', hfail, htab, -⟩ := (fork_wp (k := oneProc m d) h
    (show ((oneProc m d).proc 0).pgdir = some d from rfl)
    List.mem_cons_self (oneProc_running m d) (oneProc_unused m d)
    (show PGSIZE < KERNBASE by decide) hmap hx).returns
  obtain rfl := hfail.failed
  obtain ⟨q, hq, hq'⟩ := htab rfl
  obtain ⟨role', hown⟩ := hfail.own
  exact ⟨m, l, role, d, h, k', hr, ⟨l', role', hown, q, hq, hq'⟩, hfail.not_unleaked hq hq'⟩

end Zv6.Mem
