/-
  Who owns a physical page.

  Every page has at most one role: it is on the free list, it is a page directory, the table
  behind one entry of one directory, the page mapped at one user address of one directory, or
  it is held by kernel code (a kernel stack, a pipe buffer, a page just allocated). `Own` says
  that memory agrees with such an assignment. As a page has only one role, and a role names
  the one place the page may be found, no page can be found in two places.

  The lemmas say how the assignment changes with each elementary change of memory: a page is
  taken from the list or put back, hung into a directory as a table, mapped or unmapped at a
  user address, or a whole directory is given up.
-/
import Zv6.Mem.Code
import Mathlib.Data.Finset.Card
import Mathlib.Data.Nat.Bitwise

namespace Zv6.Mem

open Zv6.Lib Function

/-! ## Words and entries -/

@[simp] theorem Page.word_setWord (p : Page) (i : Nat) (w : UInt32) :
    (p.setWord i w).word i = w := by
  apply getU32_le32
  intro k hk
  unfold Page.setWord
  rw [if_pos (by omega), show (4 * i + k) % 4 = k by omega]

theorem Page.word_setWord_ne (p : Page) {i j : Nat} (w : UInt32) (h : j ≠ i) :
    (p.setWord i w).word j = p.word j := by
  apply getU32_congr
  intro k hk
  unfold Page.setWord
  rw [if_neg (by omega)]

@[simp] theorem Page.word_zero (i : Nat) : Page.word (fun _ => 0) i = 0 := by
  unfold Page.word getU32
  rfl

/-- One bit of a word. -/
theorem and_ne_zero_iff {w c : UInt32} {k : Nat} (hc : c.toNat = 2 ^ k) :
    w &&& c ≠ 0 ↔ w.toNat.testBit k = true := by
  rw [ne_eq, ← UInt32.toNat_inj, UInt32.toNat_and, hc, Nat.and_two_pow]
  cases w.toNat.testBit k <;> simp

theorem present_iff {w : UInt32} : present w ↔ w.toNat.testBit 0 = true := and_ne_zero_iff rfl

@[simp] theorem not_present_zero : ¬ present 0 := by decide

theorem pte_toNat {p : Nat} (hp : p < 2 ^ 20) (perm : UInt32) :
    (pte (p * PGSIZE) perm).toNat = 2 ^ 12 * p ||| (perm ||| PTE_P).toNat := by
  have h : p * PGSIZE < 2 ^ 32 := by unfold PGSIZE; omega
  unfold pte
  rw [UInt32.or_assoc, UInt32.toNat_or, UInt32.toNat_ofNat', Nat.mod_eq_of_lt h]
  congr 1
  unfold PGSIZE
  omega

@[simp] theorem present_pte (pa : Nat) (perm : UInt32) : present (pte pa perm) := by
  rw [present_iff]
  unfold pte
  rw [UInt32.toNat_or, Nat.testBit_or, Bool.or_eq_true]
  exact .inr rfl

theorem frame_pte {p : Nat} (hp : p < 2 ^ 20) {perm : UInt32}
    (h : (perm ||| PTE_P).toNat < 2 ^ 12) : frame (pte (p * PGSIZE) perm) = p := by
  unfold frame
  rw [pte_toNat hp, ← Nat.two_pow_add_eq_or_of_lt h]
  unfold PGSIZE
  omega

/-- Clearing `PTE_U` keeps the frame. -/
theorem frame_clear (w : UInt32) : frame (w &&& ~~~PTE_U) = frame w := by
  have h20 : w.toNat / 2 ^ 12 < 2 ^ 20 := by
    have := w.toNat_lt
    omega
  have hmask : (~~~PTE_U).toNat / 2 ^ 12 = 2 ^ 20 - 1 := by decide
  unfold frame
  rw [UInt32.toNat_and, show PGSIZE = 2 ^ 12 from rfl, Nat.and_div_two_pow, hmask,
    Nat.and_two_pow_sub_one_of_lt_two_pow h20]

theorem present_clear {w : UInt32} : present (w &&& ~~~PTE_U) ↔ present w := by
  have hU : (~~~PTE_U).toNat.testBit 0 = true := by decide
  rw [present_iff, present_iff, UInt32.toNat_and, Nat.testBit_and, hU, Bool.and_true]

/-! ## Roles -/

variable (L : Link)

/-- The page lies between the end of the kernel and the top of memory. -/
def Valid (p : Nat) : Prop := L.kend ≤ KERNBASE + p * PGSIZE ∧ p * PGSIZE < PHYSTOP

/-- What a page is used for. -/
inductive Role where
  | free
  | held
  | dir
  | table (d i : Nat)
  | user (d v : Nat)

/-- The entry of directory `d` for page number `v`, zero where there is no table. -/
def Mach.look (m : Mach) (d v : Nat) : UInt32 :=
  if present (m.word d (v / 1024)) then m.word (frame (m.word d (v / 1024))) (v % 1024) else 0

/-- The byte at user address `a`. -/
def Mach.byte (m : Mach) (d a : Nat) : UInt8 := m.page (frame (m.look d (a / PGSIZE))) (a % PGSIZE)

/-- The pages `l` are linked from address `w` on. -/
inductive Chain (m : Mach) : UInt32 → List Nat → Prop where
  | nil : Chain m 0 []
  | cons : Chain m (m.word p 0) l → Chain m (ka p) (p :: l)

/-- The free list. -/
structure FreeOk (m : Mach) (l : List Nat) (role : Nat → Role) : Prop where
  chain : Chain m m.freelist l
  nodup : l.Nodup
  role : ∀ p ∈ l, role p = .free ∧ Valid L p

/-- One page directory: its tables and the user pages below them. -/
structure DirOk (m : Mach) (role : Nat → Role) (d : Nat) : Prop where
  dir : role d = .dir ∧ Valid L d
  table : ∀ i < 1024, present (m.word d i) →
    role (frame (m.word d i)) = .table d i ∧ Valid L (frame (m.word d i))
  user : ∀ v < 2 ^ 19, present (m.look d v) →
    role (frame (m.look d v)) = .user d v ∧ Valid L (frame (m.look d v))

/-- Pages held by kernel code. -/
structure HeldOk (H : List Nat) (role : Nat → Role) : Prop where
  nodup : H.Nodup
  role : ∀ p ∈ H, role p = .held ∧ Valid L p

/-- Memory agrees with the roles: free list `l`, page directories `D`, held pages `H`. -/
structure Own (m : Mach) (l D H : List Nat) (role : Nat → Role) : Prop where
  list : FreeOk L m l role
  dirs : ∀ d ∈ D, DirOk L m role d
  nodup : D.Nodup
  held : HeldOk L H role

variable {L} {m m' : Mach} {l D H H' : List Nat} {role role' : Nat → Role} {d p q : Nat}
  {w : UInt32} {v i j : Nat}

theorem Valid.lt (h : Valid L p) : p < 2 ^ 20 := by
  have h2 := h.2
  unfold PGSIZE PHYSTOP at h2
  omega

theorem Valid.pos (h : Valid L p) : 0 < p := by
  have h1 := h.1
  have h2 := L.data_after
  have h3 := L.end_after
  unfold KERNLINK EXTMEM at h2
  rcases Nat.eq_zero_or_pos p with rfl | hp
  · omega
  · exact hp

theorem Valid.ka_toNat (h : Valid L p) : (ka p).toNat = KERNBASE + p * PGSIZE := by
  have h2 := h.2
  apply UInt32.toNat_ofNat_of_lt
  unfold PHYSTOP at h2
  unfold KERNBASE UInt32.size
  omega

theorem Valid.pageOf (h : Valid L p) : pageOf (ka p) = p := by
  unfold Mem.pageOf
  rw [h.ka_toNat]
  unfold PGSIZE
  omega

theorem Valid.ka_ne (h : Valid L p) : ka p ≠ 0 := by
  intro h0
  have h1 := h.ka_toNat
  rw [h0] at h1
  have : (0 : UInt32).toNat = 0 := rfl
  unfold KERNBASE at h1
  omega

theorem Mach.word_keep (h : m'.page p = m.page p) (i : Nat) : m'.word p i = m.word p i := by
  unfold Mach.word
  rw [h]

theorem Chain.congr (h : Chain m w l) (hp : ∀ p ∈ l, m'.page p = m.page p) : Chain m' w l := by
  induction h with
  | nil => exact .nil
  | @cons p l _ ih =>
    refine .cons ?_
    rw [Mach.word_keep (hp p List.mem_cons_self)]
    exact ih fun q hq => hp q (List.mem_cons_of_mem p hq)

/-- The list stays while its pages keep their contents and roles. -/
theorem FreeOk.keep (h : FreeOk L m l role) (hf : m'.freelist = m.freelist)
    (hp : ∀ q, role q = .free → m'.page q = m.page q)
    (hr : ∀ q ∈ l, role q = .free → role' q = .free) : FreeOk L m' l role' := by
  refine ⟨?_, h.nodup, ?_⟩
  · rw [hf]
    exact h.chain.congr fun q hq => hp q (h.role q hq).1
  · intro q hq
    exact ⟨hr q hq (h.role q hq).1, (h.role q hq).2⟩

/-- The page belongs to directory `d`. -/
def Mine (role : Nat → Role) (d q : Nat) : Prop :=
  q = d ∨ (∃ i, role q = .table d i) ∨ ∃ v, role q = .user d v

/-- What a directory says depends on the directory and its tables. -/
theorem DirOk.look_keep (h : DirOk L m role d)
    (hp : ∀ q, q = d ∨ (∃ i, role q = .table d i) → m'.page q = m.page q) (hv : v < 2 ^ 20) :
    m'.look d v = m.look d v := by
  unfold Mach.look
  rw [Mach.word_keep (hp d (.inl rfl))]
  split
  · next ht =>
    have := (h.table (v / 1024) (by omega) ht).1
    exact Mach.word_keep (hp _ (.inr ⟨_, this⟩)) _
  · rfl

theorem DirOk.keep (h : DirOk L m role d)
    (hp : ∀ q, q = d ∨ (∃ i, role q = .table d i) → m'.page q = m.page q)
    (hr : ∀ q, Mine role d q → role' q = role q) : DirOk L m' role' d := by
  have hw := Mach.word_keep (hp d (.inl rfl))
  refine ⟨?_, ?_, ?_⟩
  · rw [hr d (.inl rfl)]
    exact h.dir
  · intro i hi ht
    rw [hw] at ht ⊢
    have := h.table i hi ht
    rw [hr _ (.inr (.inl ⟨i, this.1⟩))]
    exact this
  · intro v hv ht
    rw [h.look_keep hp (by omega)] at ht ⊢
    have := h.user v hv ht
    rw [hr _ (.inr (.inr ⟨v, this.1⟩))]
    exact this

/-! ## One page changes hands -/

/-- Contents of held and user pages are nobody's business. -/
theorem Own.keep (h : Own L m l D H role) (hf : m'.freelist = m.freelist)
    (hp : ∀ q, role q = .free ∨ role q = .dir ∨ (∃ d i, role q = .table d i) →
      m'.page q = m.page q) : Own L m' l D H role := by
  refine ⟨h.list.keep hf (fun q hq => hp q (.inl hq)) fun _ _ hq => hq, ?_, h.nodup, h.held⟩
  intro d hd
  refine (h.dirs d hd).keep ?_ fun _ _ => rfl
  rintro q (rfl | ⟨i, hi⟩)
  · exact hp q (.inr (.inl (h.dirs q hd).dir.1))
  · exact hp q (.inr (.inr ⟨d, i, hi⟩))

theorem Own.write (h : Own L m l D H role) (hp : role p = .held ∨ ∃ d v, role p = .user d v)
    (x : Page) : Own L (m.setPage p x) l D H role := by
  have hfree : (m.setPage p x).freelist = m.freelist := rfl
  apply h.keep hfree
  intro q hq
  apply update_of_ne
  rintro rfl
  rcases hp with hp | ⟨d, v, hp⟩ <;> simp [hp] at hq

/-- A page that belongs to no directory gets a new role. -/
theorem Own.relabel (h : Own L m l D H role) (hp : role p = .held ∨ role p = .free)
    (hl : p ∉ l) (hH : HeldOk L H' (update role p r)) :
    Own L m l D H' (update role p r) := by
  refine ⟨?_, ?_, h.nodup, hH⟩
  · refine h.list.keep rfl (fun _ _ => rfl) ?_
    intro q hq hr
    rw [update_of_ne]
    · exact hr
    · rintro rfl
      exact hl hq
  · intro d hd
    refine (h.dirs d hd).keep (fun _ _ => rfl) ?_
    intro q hq
    apply update_of_ne
    rintro rfl
    rcases hq with rfl | ⟨i, hi⟩ | ⟨v, hv⟩
    · have := (h.dirs q hd).dir.1
      simp [this] at hp
    · simp [hi] at hp
    · simp [hv] at hp

theorem HeldOk.cons (h : HeldOk L H role) (hp : role p ≠ .held) (hv : Valid L p) :
    HeldOk L (p :: H) (update role p .held) := by
  have hn : p ∉ H := fun hm => hp (h.role p hm).1
  refine ⟨List.nodup_cons.mpr ⟨hn, h.nodup⟩, ?_⟩
  intro q hq
  rcases List.mem_cons.mp hq with rfl | hq
  · exact ⟨update_self .., hv⟩
  · rw [update_of_ne (ne_of_mem_of_not_mem hq hn)]
    exact h.role q hq

theorem HeldOk.tail (h : HeldOk L (p :: H) role) (r : Role) :
    HeldOk L H (update role p r) := by
  have hn := List.nodup_cons.mp h.nodup
  refine ⟨hn.2, ?_⟩
  intro q hq
  rw [update_of_ne (ne_of_mem_of_not_mem hq hn.1)]
  exact h.role q (List.mem_cons_of_mem p hq)

/-- A page is taken off the list. -/
theorem Own.take (h : Own L m (p :: l) D H role) :
    m.freelist = ka p ∧ m.finds = !m.fails m.calls ∧
      Own L m.take l D (p :: H) (update role p .held) := by
  have hv := (h.list.role p List.mem_cons_self)
  have hn := List.nodup_cons.mp h.list.nodup
  generalize hf : m.freelist = w
  have hc := h.list.chain
  rw [hf] at hc
  cases hc with
  | cons hc =>
    refine ⟨rfl, ?_, ?_⟩
    · unfold Mach.finds
      rw [hf]
      simp [hv.2.ka_ne]
    · have hh : HeldOk L (p :: H) (update role p .held) :=
        h.held.cons (by simp [hv.1]) hv.2
      have ht : m.take.freelist = m.word p 0 := by
        show m.word (Mem.pageOf m.freelist) 0 = _
        rw [hf, hv.2.pageOf]
      have hl : Own L m.take l D H role := by
        refine ⟨⟨?_, hn.2, fun q hq => h.list.role q (List.mem_cons_of_mem p hq)⟩, ?_, h.nodup,
          h.held⟩
        · rw [ht]
          exact hc.congr fun _ _ => rfl
        · intro d hd
          exact (h.dirs d hd).keep (fun _ _ => rfl) fun _ _ => rfl
      exact hl.relabel (.inr hv.1) hn.1 hh

/-- A held page is put on the list. -/
theorem Own.free (h : Own L m l D (p :: H) role) :
    Own L (m.free p) (p :: l) D H (update role p .free) := by
  have hp := h.held.role p List.mem_cons_self
  have hl : p ∉ l := by
    intro hm
    have := (h.list.role p hm).1
    simp [hp.1] at this
  have hr := h.relabel (.inl hp.1) hl (h.held.tail .free)
  have hpage : ∀ q, q ≠ p → (m.free p).page q = m.page q :=
    fun q hq => update_of_ne hq ..
  refine ⟨⟨?_, List.nodup_cons.mpr ⟨hl, h.list.nodup⟩, ?_⟩, ?_, h.nodup, hr.held⟩
  · refine .cons ?_
    have hw : (m.free p).word p 0 = m.freelist := by
      simp [Mach.word, Mach.free]
    rw [hw]
    refine h.list.chain.congr fun q hq => hpage q ?_
    rintro rfl
    exact hl hq
  · intro q hq
    rcases List.mem_cons.mp hq with rfl | hq
    · exact ⟨update_self .., hp.2⟩
    · exact hr.list.role q hq
  · intro d hd
    have hd' := hr.dirs d hd
    refine hd'.keep ?_ fun _ _ => rfl
    intro q hq
    apply hpage
    rintro rfl
    rcases hq with rfl | ⟨i, hi⟩
    · have := hd'.dir.1
      simp at this
    · simp at hi

/-- Giving up a held page leaks it, no more. -/
theorem Own.leak (h : Own L m l D (p :: H) role) : Own L m l D H role :=
  ⟨h.list, h.dirs, h.nodup, (List.nodup_cons.mp h.held.nodup).2,
    fun q hq => h.held.role q (List.mem_cons_of_mem p hq)⟩

theorem Own.leakDir (h : Own L m l (d :: D) H role) : Own L m l D H role :=
  ⟨h.list, fun q hq => h.dirs q (List.mem_cons_of_mem d hq), (List.nodup_cons.mp h.nodup).2,
    h.held⟩

theorem Own.not_mem_list (h : Own L m l D H role) (hp : role p ≠ .free) : p ∉ l :=
  fun hm => hp (h.list.role p hm).1

theorem Mach.look_of_zero (h : ∀ i, m.word d i = 0) (v : Nat) : m.look d v = 0 := by
  unfold Mach.look
  rw [h]
  rfl

/-- A held page of zeroes is an empty directory. -/
theorem Own.newDir (h : Own L m l D (d :: H) role) (h0 : ∀ i, m.word d i = 0) :
    Own L m l (d :: D) H (update role d .dir) := by
  have hd := h.held.role d List.mem_cons_self
  have hr := h.relabel (.inl hd.1) (h.not_mem_list (by simp [hd.1])) (h.held.tail .dir)
  refine ⟨hr.list, ?_, ?_, hr.held⟩
  · intro q hq
    rcases List.mem_cons.mp hq with rfl | hq
    · refine ⟨⟨update_self .., hd.2⟩, ?_, ?_⟩
      · intro i _ hi
        simp [h0] at hi
      · intro v _ hv
        simp [Mach.look_of_zero h0] at hv
    · exact hr.dirs q hq
  · refine List.nodup_cons.mpr ⟨?_, h.nodup⟩
    intro hm
    have := (h.dirs d hm).dir.1
    simp [hd.1] at this

/-- A write to a directory or one of its tables concerns that directory only. -/
theorem Own.touch (h : Own L m l D H role) (hd : d ∈ D)
    (hq : q = d ∨ ∃ i, role q = .table d i)
    (hr : ∀ p, role p ≠ .held → (∀ v, role p ≠ .user d v) → role' p = role p)
    (hnew : DirOk L (m.setPage q x) role' d) (hH : HeldOk L H' role') :
    Own L (m.setPage q x) l D H' role' := by
  have hne : ∀ p, p ≠ q → (m.setPage q x).page p = m.page p :=
    fun p hp => update_of_ne hp ..
  have hqd : role q = .dir ∨ ∃ i, role q = .table d i := by
    rcases hq with rfl | hq
    · exact .inl (h.dirs q hd).dir.1
    · exact .inr hq
  refine ⟨?_, ?_, h.nodup, hH⟩
  · refine h.list.keep rfl ?_ ?_
    · intro p hp
      apply hne
      rintro rfl
      rcases hqd with hq | ⟨i, hq⟩ <;> simp [hp] at hq
    · intro p _ hp
      rw [hr p (by simp [hp]) (by simp [hp])]
      exact hp
  · intro d' hd'
    by_cases hdd : d' = d
    · subst hdd
      exact hnew
    · refine (h.dirs d' hd').keep ?_ ?_
      · intro p hp
        apply hne
        rintro rfl
        rcases hp with rfl | ⟨i, hi⟩
        · rcases hq with rfl | ⟨i, hi⟩
          · exact hdd rfl
          · have := (h.dirs p hd').dir.1
            simp [hi] at this
        · rcases hqd with hq | ⟨j, hq⟩
          · simp [hi] at hq
          · rw [hi] at hq
            exact hdd (Role.table.inj hq).1
      · rintro p (rfl | ⟨i, hi⟩ | ⟨v, hv⟩)
        · have := (h.dirs p hd').dir.1
          exact hr p (by simp [this]) (by simp [this])
        · exact hr p (by simp [hi]) (by simp [hi])
        · refine hr p (by simp [hv]) ?_
          intro v' hv'
          rw [hv] at hv'
          exact hdd (Role.user.inj hv').1

@[simp] theorem Mach.word_setWord (m : Mach) (p i : Nat) (w : UInt32) :
    (m.setWord p i w).word p i = w := by
  simp [Mach.word, Mach.setWord, Mach.setPage]

theorem Mach.word_setWord_ne (m : Mach) (p : Nat) (w : UInt32) (h : j ≠ i) :
    (m.setWord p i w).word p j = m.word p j := by
  simp [Mach.word, Mach.setWord, Mach.setPage, Page.word_setWord_ne _ _ h]

theorem Mach.word_setWord_other (m : Mach) {p q : Nat} (i j : Nat) (w : UInt32) (h : q ≠ p) :
    (m.setWord p i w).word q j = m.word q j :=
  Mach.word_keep (update_of_ne h ..) j

/-! ## Tables -/

/-- The table of entry `i`. -/
def Mach.tab (m : Mach) (d i : Nat) : Nat := frame (m.word d i)

theorem Mach.look_of_present (h : present (m.word d (v / 1024))) :
    m.look d v = m.word (m.tab d (v / 1024)) (v % 1024) :=
  if_pos h

theorem DirOk.tab_ne (h : DirOk L m role d) (hi : i < 1024) (ht : present (m.word d i)) :
    m.tab d i ≠ d := by
  intro he
  have := (h.table i hi ht).1
  unfold Mach.tab at he
  rw [he, h.dir.1] at this
  cases this

theorem DirOk.tab_inj (h : DirOk L m role d) (hi : i < 1024) (hj : j < 1024)
    (hpi : present (m.word d i)) (hpj : present (m.word d j)) (he : m.tab d i = m.tab d j) :
    i = j := by
  have h1 := (h.table i hi hpi).1
  have h2 := (h.table j hj hpj).1
  unfold Mach.tab at he
  rw [he, h2] at h1
  exact (Role.table.inj h1).2.symm

/-- The tables of a directory are pages of their own. -/
structure Tables (m : Mach) (d : Nat) : Prop where
  ne : ∀ i < 1024, present (m.word d i) → m.tab d i ≠ d
  inj : ∀ i < 1024, ∀ j < 1024, present (m.word d i) → present (m.word d j) →
    m.tab d i = m.tab d j → i = j

theorem DirOk.tables (h : DirOk L m role d) : Tables m d :=
  ⟨fun _ hi ht => h.tab_ne hi ht, fun _ hi _ hj hpi hpj he => h.tab_inj hi hj hpi hpj he⟩

/-- Setting one entry of a table sets one entry of the directory. -/
theorem Tables.look_set (h : Tables m d) {v u : Nat} (hv : v < 2 ^ 20) (hu : u < 2 ^ 20)
    (ht : present (m.word d (v / 1024))) (w : UInt32) :
    (m.setWord (m.tab d (v / 1024)) (v % 1024) w).look d u =
      if u = v then w else m.look d u := by
  have hd := fun i => m.word_setWord_other (v % 1024) i w (h.ne _ (by omega) ht).symm
  unfold Mach.look
  rw [hd]
  by_cases huv : u = v
  · subst huv
    rw [if_pos ht, if_pos rfl]
    exact m.word_setWord _ _ w
  · rw [if_neg huv]
    split
    · next hpu =>
      by_cases hi : u / 1024 = v / 1024
      · rw [hi]
        exact m.word_setWord_ne _ w (by omega)
      · apply m.word_setWord_other
        intro he
        exact hi (h.inj _ (by omega) _ (by omega) hpu ht he)
    · rfl

theorem DirOk.look_set (h : DirOk L m role d) {v u : Nat} (hv : v < 2 ^ 20) (hu : u < 2 ^ 20)
    (ht : present (m.word d (v / 1024))) (w : UInt32) :
    (m.setWord (m.tab d (v / 1024)) (v % 1024) w).look d u =
      if u = v then w else m.look d u :=
  h.tables.look_set hv hu ht w

/-- An entry is set: the new entry agrees with the new roles, and the others keep theirs. -/
theorem Own.setEntry (h : Own L m l D H role) (hd : d ∈ D) (hv : v < 2 ^ 20)
    (ht : present (m.word d (v / 1024)))
    (hr : ∀ p, role p ≠ .held → role p ≠ .user d v → role' p = role p)
    (hw : v < 2 ^ 19 → present w → role' (frame w) = .user d v ∧ Valid L (frame w))
    (hH : HeldOk L H' role') :
    Own L (m.setWord (m.tab d (v / 1024)) (v % 1024) w) l D H' role' := by
  have hok := h.dirs d hd
  have hdw := fun i => m.word_setWord_other (v % 1024) i w (hok.tab_ne (by omega) ht).symm
  have hnew : DirOk L (m.setWord (m.tab d (v / 1024)) (v % 1024) w) role' d := by
    refine ⟨?_, ?_, ?_⟩
    · rw [hr d (by simp [hok.dir.1]) (by simp [hok.dir.1])]
      exact hok.dir
    · intro i hi hp
      rw [hdw] at hp ⊢
      have h1 := hok.table i hi hp
      rw [hr _ (by simp [h1.1]) (by simp [h1.1])]
      exact h1
    · intro u hu hp
      rw [hok.look_set hv (by omega) ht] at hp ⊢
      split at hp
      · next he =>
        subst he
        rw [if_pos rfl]
        exact hw hu hp
      · next he =>
        rw [if_neg he]
        have h1 := hok.user u hu hp
        rw [hr _ (by simp [h1.1]) (by simpa [h1.1] using he)]
        exact h1
  exact h.touch hd (.inr ⟨_, (hok.table _ (by omega) ht).1⟩) (fun p h1 h2 => hr p h1 (h2 v))
    hnew hH

/-- A held page is mapped at a user address. -/
theorem Own.map (h : Own L m l D (p :: H) role) (hd : d ∈ D) (hv : v < 2 ^ 19)
    (ht : present (m.word d (v / 1024))) (hw : frame w = p) :
    Own L (m.setWord (m.tab d (v / 1024)) (v % 1024) w) l D H
      (update role p (.user d v)) := by
  have hp := h.held.role p List.mem_cons_self
  refine h.setEntry hd (by omega) ht ?_ ?_ (h.held.tail _)
  · intro q hq _
    apply update_of_ne
    rintro rfl
    exact hq hp.1
  · intro _ _
    rw [hw]
    exact ⟨update_self .., hp.2⟩

/-- Entries of the kernel half have no owner. -/
theorem Own.mapKernel (h : Own L m l D H role) (hd : d ∈ D) (hv : 2 ^ 19 ≤ v) (hv' : v < 2 ^ 20)
    (ht : present (m.word d (v / 1024))) (w : UInt32) :
    Own L (m.setWord (m.tab d (v / 1024)) (v % 1024) w) l D H role := by
  refine h.setEntry hd hv' ht (fun _ _ _ => rfl) ?_ h.held
  intro hlt
  omega

/-- A user page is unmapped; whoever did it holds the page. -/
theorem Own.unmap (h : Own L m l D H role) (hd : d ∈ D) (hv : v < 2 ^ 19)
    (ht : present (m.word d (v / 1024))) (hp : present (m.look d v)) :
    Own L (m.setWord (m.tab d (v / 1024)) (v % 1024) 0) l D (frame (m.look d v) :: H)
      (update role (frame (m.look d v)) .held) := by
  have hu := (h.dirs d hd).user v hv hp
  refine h.setEntry hd (by omega) ht ?_ ?_ (h.held.cons (by simp [hu.1]) hu.2)
  · intro q _ hq
    apply update_of_ne
    rintro rfl
    exact hq hu.1
  · intro _ h0
    exact absurd h0 not_present_zero

/-- The flags of an entry change. -/
theorem Own.reflag (h : Own L m l D H role) (hd : d ∈ D) (hv : v < 2 ^ 20)
    (ht : present (m.word d (v / 1024))) (hw : present w → present (m.look d v))
    (hf : frame w = frame (m.look d v)) :
    Own L (m.setWord (m.tab d (v / 1024)) (v % 1024) w) l D H role := by
  refine h.setEntry hd hv ht (fun _ _ _ => rfl) ?_ h.held
  intro hlt hp
  rw [hf]
  exact (h.dirs d hd).user v hlt (hw hp)

/-- Hanging an empty table into a directory changes no entry. -/
theorem Tables.look_hang {t i v : Nat} (h : Tables m d) (hv : v < 2 ^ 20)
    (hn : ¬ present (m.word d i)) (h0 : ∀ j, m.word t j = 0) (htd : t ≠ d) (hw : frame w = t) :
    (m.setWord d i w).look d v = m.look d v := by
  unfold Mach.look
  by_cases hi : v / 1024 = i
  · rw [hi, Mach.word_setWord, if_neg hn, hw, Mach.word_setWord_other _ _ _ _ htd, h0, ite_self]
  · rw [Mach.word_setWord_ne _ _ _ hi]
    split
    · next ht => exact Mach.word_setWord_other _ _ _ _ (h.ne _ (by omega) ht)
    · rfl

/-- A held page of zeroes becomes the table of an absent entry. -/
theorem Own.hang {t i : Nat} (h : Own L m l D (t :: H) role) (hd : d ∈ D)
    (hn : ¬ present (m.word d i)) (h0 : ∀ j, m.word t j = 0) (hw : frame w = t) :
    Own L (m.setWord d i w) l D H (update role t (.table d i)) := by
  have ht := h.held.role t List.mem_cons_self
  have hok := h.dirs d hd
  have hne : ∀ p, role p ≠ .held → update role t (.table d i) p = role p := by
    intro p hp
    apply update_of_ne
    rintro rfl
    exact hp ht.1
  have htd : t ≠ d := by
    rintro rfl
    have := hok.dir.1
    simp [ht.1] at this
  have hnew : DirOk L (m.setWord d i w) (update role t (.table d i)) d := by
    refine ⟨?_, ?_, ?_⟩
    · rw [hne d (by simp [hok.dir.1])]
      exact hok.dir
    · intro j hj hp
      by_cases hji : j = i
      · subst hji
        rw [Mach.word_setWord, hw]
        exact ⟨update_self .., ht.2⟩
      · rw [Mach.word_setWord_ne _ _ _ hji] at hp ⊢
        have h1 := hok.table j hj hp
        rw [hne _ (by simp [h1.1])]
        exact h1
    · intro v hv hp
      rw [hok.tables.look_hang (by omega) hn h0 htd hw] at hp ⊢
      have h1 := hok.user v hv hp
      rw [hne _ (by simp [h1.1])]
      exact h1
  exact h.touch hd (.inl rfl) (fun p hp _ => hne p hp) hnew (h.held.tail _)

/-! ## Giving up a directory -/

/-- The tables of a directory from entry `i` on. -/
def Mach.tabs (m : Mach) (d : Nat) : Nat → Nat → List Nat
  | _, 0 => []
  | i, n + 1 => if present (m.word d i) then m.tab d i :: m.tabs d (i + 1) n else m.tabs d (i + 1) n

theorem Mach.mem_tabs {n : Nat} : ∀ {i : Nat}, p ∈ m.tabs d i n →
    ∃ j, i ≤ j ∧ j < i + n ∧ present (m.word d j) ∧ p = m.tab d j := by
  induction n with
  | zero =>
    intro i h
    cases h
  | succ n ih =>
    intro i h
    unfold Mach.tabs at h
    have hrest : p ∈ m.tabs d (i + 1) n →
        ∃ j, i ≤ j ∧ j < i + (n + 1) ∧ present (m.word d j) ∧ p = m.tab d j := by
      intro hm
      obtain ⟨j, h1, h2, h3⟩ := ih hm
      exact ⟨j, by omega, by omega, h3⟩
    split at h
    · next hp =>
      rcases List.mem_cons.mp h with rfl | hm
      · exact ⟨i, le_refl i, by omega, hp, rfl⟩
      · exact hrest hm
    · exact hrest h

theorem DirOk.tabs_nodup (h : DirOk L m role d) {n : Nat} :
    ∀ {i : Nat}, i + n ≤ 1024 → (m.tabs d i n).Nodup := by
  induction n with
  | zero =>
    intro i _
    exact List.nodup_nil
  | succ n ih =>
    intro i hin
    unfold Mach.tabs
    split
    · next hp =>
      refine List.nodup_cons.mpr ⟨?_, ih (by omega)⟩
      intro hm
      obtain ⟨j, h1, h2, h3, h4⟩ := Mach.mem_tabs hm
      have := h.tab_inj (by omega) (by omega) hp h3 h4
      omega
    · exact ih (by omega)

/-- The roles after directory `d` has been given up: the directory and its tables are held. -/
def surrender (role : Nat → Role) (d : Nat) (q : Nat) : Role :=
  if q = d then .held else
  match role q with
  | .table d' i => if d' = d then .held else .table d' i
  | r => r

theorem surrender_table (h : role q = .table d i) : surrender role d q = .held := by
  simp [surrender, h]

theorem surrender_of_ne (hq : q ≠ d) (h : ∀ i, role q ≠ .table d i) :
    surrender role d q = role q := by
  unfold surrender
  rw [if_neg hq]
  split
  · next d' i he =>
    rw [if_neg, he]
    rintro rfl
    exact h i he
  · rfl

/-- A directory is given up: it and its tables are now held, its user pages are lost. -/
theorem Own.surrender (h : Own L m l (d :: D) H role) :
    Own L m l D (m.tabs d 0 1024 ++ d :: H) (surrender role d) := by
  have hok := h.dirs d List.mem_cons_self
  have hnd := List.nodup_cons.mp h.nodup
  have hkeep : ∀ q, role q = .free ∨ role q = .held → Mem.surrender role d q = role q := by
    intro q hq
    apply surrender_of_ne
    · rintro rfl
      rw [hok.dir.1] at hq
      simp at hq
    · intro i hi
      simp [hi] at hq
  have htab : ∀ p ∈ m.tabs d 0 1024, ∃ i, role p = .table d i ∧ Valid L p := by
    intro p hp
    obtain ⟨i, -, h2, h3, rfl⟩ := Mach.mem_tabs hp
    exact ⟨i, hok.table i (by omega) h3⟩
  refine ⟨?_, ?_, hnd.2, ?_, ?_⟩
  · refine h.list.keep rfl (fun _ _ => rfl) ?_
    intro q _ hq
    rw [hkeep q (.inl hq)]
    exact hq
  · intro d' hd'
    have hne : d' ≠ d := ne_of_mem_of_not_mem hd' hnd.1
    have hok' := h.dirs d' (List.mem_cons_of_mem d hd')
    refine hok'.keep (fun _ _ => rfl) ?_
    rintro q (rfl | ⟨i, hi⟩ | ⟨v, hv⟩)
    · exact surrender_of_ne hne (by simp [hok'.dir.1])
    · refine surrender_of_ne ?_ ?_
      · rintro rfl
        rw [hok.dir.1] at hi
        cases hi
      · intro j hj
        rw [hi] at hj
        exact hne (Role.table.inj hj).1
    · refine surrender_of_ne ?_ (by simp [hv])
      rintro rfl
      rw [hok.dir.1] at hv
      cases hv
  · refine List.nodup_append.mpr ⟨hok.tabs_nodup (by omega),
      List.nodup_cons.mpr ⟨?_, h.held.nodup⟩, ?_⟩
    · intro hm
      have := (h.held.role d hm).1
      simp [hok.dir.1] at this
    · intro p hp q hq
      rintro rfl
      obtain ⟨i, hi, -⟩ := htab p hp
      rcases List.mem_cons.mp hq with rfl | hq
      · rw [hok.dir.1] at hi
        cases hi
      · rw [(h.held.role p hq).1] at hi
        cases hi
  · intro p hp
    rcases List.mem_append.mp hp with hp | hp
    · obtain ⟨i, hi, hv⟩ := htab p hp
      exact ⟨surrender_table hi, hv⟩
    · rcases List.mem_cons.mp hp with rfl | hp
      · exact ⟨if_pos rfl, hok.dir.2⟩
      · have := h.held.role p hp
        rw [hkeep p (.inr this.1)]
        exact this

end Zv6.Mem
