/-
  A page directory as a flat map (`walkpgdir` and `mappages` of vm.c).

  `translate` is what a directory says of an address: the address of the physical page and the
  flags, found with `walkpgdir`. `mappages` changes this map at the pages it is asked for and
  nowhere else, also where it hangs a new table into the directory, and whatever the physical
  pages are used for. All it needs is a `Directory`: the tables are pages of their own, and
  neither they nor the directory are on the free list. Every directory the kernel makes is one
  (`Own.directory`).

  The model's `mappages` counts its pages. The loop of the source runs until the page is the last
  one, which it tests for equality on an address that may wrap; `mapUntil` is that loop, and it
  makes the same rounds (`mapUntil_eq`).
-/
import Zv6.Mem.Pages

namespace Zv6.Mem

open Zv6.Lib Function

variable {L : Link} {m m' : Mach} {l : List Nat} {role : Nat → Role} {d v a va size pa : Nat}
  {perm : UInt32}

/-! ## The map -/

/-- The entry for `a`, if there is a table for it. -/
def Mach.entry (m : Mach) (d a : Nat) : Option UInt32 :=
  match walkpgdir d a false m with
  | .ok (some (t, j)) m => some (m.word t j)
  | _ => none

/-- The physical page of `a` and its flags. -/
def Mach.translate (m : Mach) (d a : Nat) : Option (Nat × UInt32) :=
  match m.entry d a with
  | some w => if present w then some (frame w * PGSIZE, w &&& 0xFFF) else none
  | none => none

theorem entry_eq (m : Mach) (d : Nat) (ha : a < 2 ^ 32) :
    m.entry d a =
      if present (m.word d (a / PGSIZE / 1024)) then some (m.look d (a / PGSIZE)) else none := by
  have hx : PDX a = a / PGSIZE / 1024 := by
    unfold PDX PGSIZE
    omega
  have ht : PTX a = a / PGSIZE % 1024 := rfl
  unfold Mach.entry walkpgdir
  rw [Exec.gets_bind, hx, ht]
  by_cases hp : present (m.word d (a / PGSIZE / 1024))
  · rw [if_pos hp, if_pos hp, Mach.look_of_present hp]
    rfl
  · rw [if_neg hp, if_neg hp]
    rfl

theorem translate_eq (m : Mach) (d : Nat) (ha : a < 2 ^ 32) :
    m.translate d a = if present (m.look d (a / PGSIZE)) then
      some (frame (m.look d (a / PGSIZE)) * PGSIZE, m.look d (a / PGSIZE) &&& 0xFFF) else none := by
  unfold Mach.translate
  rw [entry_eq m d ha]
  by_cases hp : present (m.word d (a / PGSIZE / 1024))
  · rw [if_pos hp]
  · rw [if_neg hp, if_neg (Mach.not_present_look hp)]

theorem translate_eq_none (ha : a < 2 ^ 32) :
    m.translate d a = none ↔ ¬ present (m.look d (a / PGSIZE)) := by
  rw [translate_eq m d ha]
  by_cases hp : present (m.look d (a / PGSIZE)) <;> simp [hp]

/-- Page and flags of a new entry. -/
theorem translate_pte (ha : a < 2 ^ 32) (hpa : pa % PGSIZE = 0) (hperm : perm.toNat < 4096)
    (h : m.look d (a / PGSIZE) = pte pa perm) :
    m.translate d a = some (pa % 2 ^ 32, perm ||| PTE_P) := by
  unfold PGSIZE at hpa
  have hmod : pte pa perm = pte (pa % 2 ^ 32 / PGSIZE * PGSIZE) perm := by
    have hpage : pa % 2 ^ 32 / PGSIZE * PGSIZE = pa % 2 ^ 32 := by
      unfold PGSIZE
      omega
    have hword : UInt32.ofNat pa = UInt32.ofNat (pa % 2 ^ 32) := by
      apply UInt32.toNat_inj.mp
      rw [UInt32.toNat_ofNat', UInt32.toNat_ofNat', Nat.mod_mod]
    unfold pte
    rw [hpage, hword]
  have h20 : pa % 2 ^ 32 / PGSIZE < 2 ^ 20 := by
    unfold PGSIZE
    omega
  have hflags : (perm ||| PTE_P).toNat < 2 ^ 12 := by
    rw [UInt32.toNat_or]
    exact Nat.or_lt_two_pow hperm (by decide)
  have hand : pte pa perm &&& 0xFFF = perm ||| PTE_P := by
    apply UInt32.toNat_inj.mp
    have hmask : (0xFFF : UInt32).toNat = 2 ^ 12 - 1 := rfl
    rw [hmod, UInt32.toNat_and, pte_toNat h20, hmask, Nat.and_two_pow_sub_one_eq_mod,
      ← Nat.two_pow_add_eq_or_of_lt hflags]
    omega
  have hframe : frame (pte pa perm) * PGSIZE = pa % 2 ^ 32 := by
    rw [hmod, frame_pte h20 hflags]
    unfold PGSIZE
    omega
  rw [translate_eq m d ha, h, if_pos (present_pte _ _), hand, hframe]

/-! ## Directories -/

/-- A page directory beside the free list `l`: its tables are pages of their own, and neither it
    nor they are free. -/
structure Directory (L : Link) (m : Mach) (l : List Nat) (role : Nat → Role) (d : Nat) : Prop where
  list : Own L m l [] [] role
  tables : Tables m d
  taken : ∀ q, Tab m d q → role q ≠ .free

/-- The kernel's directories are such. -/
theorem Own.directory {D H : List Nat} (h : Own L m l D H role) (hd : d ∈ D) :
    Directory L m l role d := by
  have hok := h.dirs d hd
  refine ⟨⟨h.list, fun _ hq => absurd hq List.not_mem_nil, List.nodup_nil, List.nodup_nil,
    fun _ hq => absurd hq List.not_mem_nil⟩, hok.tables, ?_⟩
  intro q hq hfree
  rcases hq with rfl | ⟨i, hi, hp, rfl⟩
  · rw [hok.dir.1] at hfree
    cases hfree
  · have ht : role (m.tab d i) = .table d i := (hok.table i hi hp).1
    rw [ht] at hfree
    cases hfree

/-- A page that is not free may be written. -/
theorem Own.write_taken {p : Nat} (h : Own L m l [] [] role) (hp : role p ≠ .free) (x : Page) :
    Own L (m.setPage p x) l [] [] role := by
  have hkeep : ∀ q, role q = .free → (m.setPage p x).page q = m.page q := by
    intro q hq
    apply update_of_ne
    intro he
    exact hp (he ▸ hq)
  exact ⟨h.list.keep rfl hkeep fun _ _ hq => hq, fun _ hq => absurd hq List.not_mem_nil, h.nodup,
    h.held⟩

/-- What a directory says depends on the directory and its tables. -/
theorem Mach.look_keep (h : ∀ q, Tab m d q → m'.page q = m.page q) (hv : v < 2 ^ 20) :
    m'.look d v = m.look d v := by
  have hd := Mach.word_keep (h d (.inl rfl))
  unfold Mach.look
  rw [hd]
  split
  · next ht => exact Mach.word_keep (h _ (.entry (by omega) ht)) _
  · rfl

theorem Tables.congr (h : Tables m d) (hw : ∀ i, m'.word d i = m.word d i) : Tables m' d := by
  have ht : ∀ i, m'.tab d i = m.tab d i := fun i => congrArg frame (hw i)
  refine ⟨?_, ?_⟩
  · intro i hi hp
    rw [hw] at hp
    rw [ht]
    exact h.ne i hi hp
  · intro i hi j hj hpi hpj he
    rw [hw] at hpi hpj
    rw [ht, ht] at he
    exact h.inj i hi j hj hpi hpj he

/-- A table that is no page of the directory is hung in at an absent entry. -/
theorem Tables.hang {t i : Nat} {w : UInt32} (h : Tables m d) (ht : ¬ Tab m d t)
    (hw : frame w = t)
    (hword : ∀ j, m'.word d j = if j = i then w else m.word d j) : Tables m' d := by
  have htab : ∀ j, m'.tab d j = if j = i then t else m.tab d j := by
    intro j
    unfold Mach.tab
    rw [hword]
    split
    · exact hw
    · rfl
  have hold : ∀ j, j ≠ i → present (m'.word d j) → present (m.word d j) := by
    intro j hj hp
    rwa [hword, if_neg hj] at hp
  have hnew : ∀ j < 1024, j ≠ i → present (m'.word d j) → m.tab d j ≠ t := by
    intro j hj hne hp he
    exact ht (he ▸ .entry hj (hold j hne hp))
  refine ⟨?_, ?_⟩
  · intro j hj hp
    rw [htab]
    split
    · intro he
      exact ht (.inl he)
    · next hne => exact h.ne j hj (hold j hne hp)
  · intro j hj k hk hpj hpk he
    rw [htab, htab] at he
    by_cases hji : j = i
    · by_cases hki : k = i
      · rw [hji, hki]
      · rw [if_pos hji, if_neg hki] at he
        exact absurd he.symm (hnew k hk hki hpk)
    · by_cases hki : k = i
      · rw [if_neg hji, if_pos hki] at he
        exact absurd he (hnew j hj hji hpj)
      · rw [if_neg hji, if_neg hki] at he
        exact h.inj j hj k hk (hold j hji hpj) (hold k hki hpk) he

/-! ## One page -/

/-- `walkpgdir` finds the table or makes one, and changes no entry. -/
theorem Directory.walkpgdir (h : Directory L m l role d) (hv : v < 2 ^ 20) :
    wp (walkpgdir d (v * PGSIZE) true) (fun r m' =>
      (∃ l' role', Directory L m' l' role' d) ∧ (∀ u < 2 ^ 20, m'.look d u = m.look d u) ∧
      ∀ x, r = some x → Found m' d v x) (fun _ _ => False) m := by
  unfold Mem.walkpgdir
  rw [wp_gets_bind, PDX_mul hv, PTX_mul]
  apply wp_ite
  · intro hp
    exact ⟨⟨l, role, h⟩, fun _ _ => rfl, fun x hx => ⟨hp, (Option.some.inj hx).symm⟩⟩
  · intro hn
    rw [if_neg (by simp)]
    apply (kalloc_wp h.list).bind
    intro r m1 h1
    obtain ⟨hpage, hr⟩ := h1
    have hlook : ∀ u, m1.look d u = m.look d u := Mach.look_page hpage d
    have htab : ∀ q, Tab m1 d q ↔ Tab m d q := by
      intro q
      unfold Tab Mach.tab
      simp only [Mach.word_page hpage]
    cases r with
    | none =>
      refine ⟨⟨l, role, hr.2.2, h.tables.congr (Mach.word_page hpage d), ?_⟩, fun u _ => hlook u,
        fun x hx => by cases hx⟩
      intro q hq
      exact h.taken q ((htab q).mp hq)
    | some t =>
      obtain ⟨-, l1, rfl, -, hown⟩ := hr
      have hfree : role t = .free := (h.list.list.role t List.mem_cons_self).1
      have hvalid := (hown.held.role t List.mem_cons_self).2
      have hnot : ∀ q, Tab m d q → q ≠ t := by
        intro q hq he
        exact h.taken q hq (he ▸ hfree)
      have hw : frame (pte (t * PGSIZE) (PTE_W ||| PTE_U)) = t := frame_pte hvalid.lt (by decide)
      -- the roles say now that the page is held, and this is not free
      have hrole : ∀ q, Tab m d q → update role t .held q ≠ .free := by
        intro q hq
        rw [update_of_ne (hnot q hq)]
        exact h.taken q hq
      have hword : ∀ j, ((m1.setPage t fun _ => 0).setWord d (v / 1024)
          (pte (t * PGSIZE) (PTE_W ||| PTE_U))).word d j =
          if j = v / 1024 then pte (t * PGSIZE) (PTE_W ||| PTE_U) else m.word d j := by
        intro j
        split
        · next hj => rw [hj, Mach.word_setWord]
        · next hj =>
          rw [Mach.word_setWord_ne _ _ _ hj, Mach.word_setPage_ne (hnot d (.inl rfl)),
            Mach.word_page hpage]
      simp only [memset, wp_modify_bind, wp_pure]
      refine ⟨⟨l1, update role t .held, ?_, ?_, ?_⟩, ?_, ?_⟩
      · have hzero := hown.leak.write_taken
          (show update role t .held t ≠ .free by simp) fun _ => 0
        exact hzero.write_taken (hrole d (.inl rfl)) _
      · exact h.tables.hang (fun hq => hnot t hq rfl) hw hword
      · intro q hq
        rcases hq with rfl | ⟨j, hj, hp, rfl⟩
        · exact hrole q (.inl rfl)
        · unfold Mach.tab
          rw [hword] at hp ⊢
          split at hp
          · next he =>
            rw [if_pos he, hw, update_self]
            simp
          · next he =>
            rw [if_neg he]
            exact hrole _ (.entry hj hp)
      · intro u hu
        have hkeep : (m1.setPage t fun _ => 0).look d u = m.look d u := by
          rw [← hlook u]
          apply Mach.look_keep _ hu
          intro q hq
          exact update_of_ne (hnot q ((htab q).mp hq)) ..
        have htables : Tables (m1.setPage t fun _ => 0) d := by
          apply h.tables.congr
          intro i
          rw [Mach.word_setPage_ne (hnot d (.inl rfl)), Mach.word_page hpage]
        rw [htables.look_hang hu _ _ (hnot d (.inl rfl)).symm hw, hkeep]
        · rw [Mach.word_setPage_ne (hnot d (.inl rfl)), Mach.word_page hpage]
          exact hn
        · intro j
          simp [Mach.word, Mach.setPage]
      · intro x hx
        obtain rfl := (Option.some.inj hx).symm
        refine ⟨?_, ?_⟩
        · rw [Mach.word_setWord]
          exact present_pte _ _
        · unfold Mach.tab
          rw [Mach.word_setWord, hw]

/-- One round of the loop sets one entry, if there is memory for the table. -/
theorem Directory.mapPage (h : Directory L m l role d) (hv : v < 2 ^ 20)
    (hn : ¬ present (m.look d v)) (pa : Nat) (perm : UInt32) :
    wp (mapPage d (v * PGSIZE) pa perm) (fun r m' => (∃ l' role', Directory L m' l' role' d) ∧
      ∀ u < 2 ^ 20, m'.look d u = if r = true ∧ u = v then pte pa perm else m.look d u)
      (fun _ _ => False) m := by
  unfold Mem.mapPage
  apply (h.walkpgdir hv).bind
  intro x m1 h1
  obtain ⟨⟨l1, role1, hdir⟩, hlook, hfound⟩ := h1
  cases x with
  | none =>
    refine ⟨⟨l1, role1, hdir⟩, ?_⟩
    intro u hu
    rw [if_neg (by simp)]
    exact hlook u hu
  | some x =>
    obtain ⟨t, j⟩ := x
    obtain ⟨hp, hx⟩ := hfound _ rfl
    obtain ⟨rfl, rfl⟩ := Prod.mk.inj hx
    have hi : v / 1024 < 1024 := by omega
    have hdw : ∀ i, (m1.setWord (m1.tab d (v / 1024)) (v % 1024) (pte pa perm)).word d i =
        m1.word d i :=
      fun i => Mach.word_setWord_other _ _ _ _ (hdir.tables.ne _ hi hp).symm
    rw [wp_gets_bind, ← Mach.look_of_present hp, hlook v hv, if_neg hn, wp_modify_bind, wp_pure]
    refine ⟨⟨l1, role1, ?_, hdir.tables.congr hdw, ?_⟩, ?_⟩
    · exact hdir.list.write_taken (hdir.taken _ (.entry hi hp)) _
    · intro q hq
      rcases hq with rfl | ⟨i, hi', hpi, rfl⟩
      · exact hdir.taken q (.inl rfl)
      · rw [hdw] at hpi
        have htab : (m1.setWord (m1.tab d (v / 1024)) (v % 1024) (pte pa perm)).tab d i =
            m1.tab d i := congrArg frame (hdw i)
        rw [htab]
        exact hdir.taken _ (.entry hi' hpi)
    · intro u hu
      rw [hdir.tables.look_set hv hu hp, hlook u hu]
      simp

/-! ## The loop -/

/-- Pages `v` to `v + k` are mapped, in order, or as many of them as there is memory for. -/
theorem Directory.mapLoop (perm : UInt32) (k : Nat) :
    ∀ {v : Nat} (pa : Nat) {m : Mach} {l : List Nat} {role : Nat → Role}, Directory L m l role d →
      v + k < 2 ^ 20 → (∀ u, v ≤ u → u ≤ v + k → ¬ present (m.look d u)) →
      wp (mapLoop d perm k (v * PGSIZE) pa) (fun r m' => (∃ l' role', Directory L m' l' role' d) ∧
        (∀ u < 2 ^ 20, u < v ∨ v + k < u → m'.look d u = m.look d u) ∧
        (r = true → ∀ u, v ≤ u → u ≤ v + k → m'.look d u = pte (pa + (u - v) * PGSIZE) perm))
        (fun _ _ => False) m := by
  induction k with
  | zero =>
    intro v pa m l role h hk hfree
    apply (h.mapPage hk (hfree v (Nat.le_refl v) (Nat.le_refl v)) pa perm).post
    intro r m' h'
    obtain ⟨hdir, hlook⟩ := h'
    refine ⟨hdir, ?_, ?_⟩
    · intro u hu hne
      rw [hlook u hu, if_neg (by omega)]
    · intro hr u hu1 hu2
      obtain rfl : u = v := by omega
      rw [hlook u hk, if_pos ⟨hr, rfl⟩, Nat.sub_self, Nat.zero_mul, Nat.add_zero]
  | succ k ih =>
    intro v pa m l role h hk hfree
    unfold Mem.mapLoop
    apply (h.mapPage (by omega) (hfree v (Nat.le_refl v) (by omega)) pa perm).bind
    intro r m1 h1
    obtain ⟨⟨l1, role1, hdir⟩, hlook⟩ := h1
    cases r with
    | false =>
      refine ⟨⟨l1, role1, hdir⟩, ?_, ?_⟩
      · intro u hu _
        rw [hlook u hu, if_neg (by simp)]
      · intro hr
        cases hr
    | true =>
      rw [if_pos rfl, show v * PGSIZE + PGSIZE = (v + 1) * PGSIZE by rw [Nat.succ_mul]]
      have hrest : ∀ u, v + 1 ≤ u → u ≤ v + 1 + k → ¬ present (m1.look d u) := by
        intro u hu1 hu2
        rw [hlook u (by omega), if_neg (by omega)]
        exact hfree u (by omega) (by omega)
      apply (ih _ hdir (by omega) hrest).post
      intro r m2 h2
      obtain ⟨hdir2, hother, hmapped⟩ := h2
      refine ⟨hdir2, ?_, ?_⟩
      · intro u hu hne
        rw [hother u hu (by omega), hlook u hu, if_neg (by omega)]
      · intro hr u hu1 hu2
        by_cases huv : u = v
        · rw [hother u (by omega) (by omega), hlook u (by omega), if_pos ⟨rfl, huv⟩, huv,
            Nat.sub_self, Nat.zero_mul, Nat.add_zero]
        · rw [hmapped hr u (by omega) (by omega)]
          have hdist : pa + PGSIZE + (u - (v + 1)) * PGSIZE = pa + (u - v) * PGSIZE := by
            unfold PGSIZE
            omega
          rw [hdist]

/-- The loop of `mappages` as it stands in the source, for at most `n` rounds: it ends at the page
    that equals `last`. -/
def mapUntil (d last : Nat) (perm : UInt32) : Nat → Nat → Nat → M Bool
  | 0, _, _ => fun m => .loops m
  | n + 1, a, pa => do
    if ← mapPage d a pa perm then
      if a = last then
        pure true
      else
        mapUntil d last perm n ((a + PGSIZE) % 2 ^ 32) ((pa + PGSIZE) % 2 ^ 32)
    else
      pure false

theorem pte_mod (pa : Nat) (perm : UInt32) : pte (pa % 2 ^ 32) perm = pte pa perm := by
  have hword : UInt32.ofNat (pa % 2 ^ 32) = UInt32.ofNat pa := by
    apply UInt32.toNat_inj.mp
    rw [UInt32.toNat_ofNat', UInt32.toNat_ofNat', Nat.mod_mod]
  unfold pte
  rw [hword]

theorem mapPage_mod (d a pa : Nat) (perm : UInt32) :
    mapPage d a (pa % 2 ^ 32) perm = mapPage d a pa perm := by
  unfold mapPage
  simp only [pte_mod]

theorem mapLoop_mod (d : Nat) (perm : UInt32) (k : Nat) :
    ∀ a pa, mapLoop d perm k a (pa % 2 ^ 32) = mapLoop d perm k a pa := by
  induction k with
  | zero => exact fun a pa => mapPage_mod d a pa perm
  | succ k ih =>
    intro a pa
    unfold mapLoop
    rw [mapPage_mod, ← ih, Nat.mod_add_mod, ih]

/-- The source's loop stops at the last page, also if this is the last of the address space. -/
theorem mapUntil_eq (d : Nat) (perm : UInt32) (k : Nat) : ∀ {n v pa : Nat}, k < n →
    v + k < 2 ^ 20 →
    mapUntil d ((v + k) * PGSIZE) perm n (v * PGSIZE) pa = mapLoop d perm k (v * PGSIZE) pa := by
  induction k with
  | zero =>
    intro n v pa hn hv
    obtain ⟨n, rfl⟩ := Nat.exists_eq_add_of_lt hn
    funext m
    unfold mapUntil mapLoop
    rw [Nat.add_zero, if_pos rfl, Exec.bind_apply]
    cases mapPage d (v * PGSIZE) pa perm m with
    | ok r m1 => cases r <;> rfl
    | _ => rfl
  | succ k ih =>
    intro n v pa hn hv
    cases n with
    | zero => omega
    | succ n =>
      have hne : v * PGSIZE ≠ (v + (k + 1)) * PGSIZE := by
        unfold PGSIZE
        omega
      have hnext : (v * PGSIZE + PGSIZE) % 2 ^ 32 = (v + 1) * PGSIZE := by
        unfold PGSIZE
        omega
      have hstep : v * PGSIZE + PGSIZE = (v + 1) * PGSIZE := by rw [Nat.succ_mul]
      unfold mapUntil mapLoop
      rw [if_neg hne, hnext, hstep, show v + (k + 1) = v + 1 + k by omega,
        ih (by omega) (by omega), mapLoop_mod]

/-- Which pages `mappages` maps. -/
theorem mappages_eq (h0 : 0 < size) (hend : va + size ≤ 2 ^ 32) :
    PGROUNDDOWN va = va / PGSIZE * PGSIZE ∧
    PGROUNDDOWN (va + size - 1) = (va + size - 1) / PGSIZE * PGSIZE ∧
    mappages d va size pa perm = mapLoop d perm ((va + size - 1) / PGSIZE - va / PGSIZE)
      (va / PGSIZE * PGSIZE) pa := by
  have h1 : PGROUNDDOWN va = va / PGSIZE * PGSIZE := by
    unfold PGROUNDDOWN PGSIZE
    omega
  have h2 : PGROUNDDOWN (va + size - 1) = (va + size - 1) / PGSIZE * PGSIZE := by
    unfold PGROUNDDOWN PGSIZE
    omega
  have h3 : PGROUNDDOWN (va + size + (2 ^ 32 - 1)) = (va + size - 1) / PGSIZE * PGSIZE := by
    unfold PGROUNDDOWN PGSIZE
    omega
  have h4 : ((va + size - 1) / PGSIZE * PGSIZE + 2 ^ 32 - va / PGSIZE * PGSIZE) % 2 ^ 32 / PGSIZE =
      (va + size - 1) / PGSIZE - va / PGSIZE := by
    unfold PGSIZE
    omega
  refine ⟨h1, h2, ?_⟩
  unfold mappages
  simp only [h1, h3, h4]

/-! ## mappages -/

/-- `mappages` returns, after the rounds the source's loop makes. The translation changes at the
    pages asked for only, and if the result is 0, those translate to the physical pages from `pa`
    on, with the flags asked for. -/
theorem mappages_flat (h : Directory L m l role d) (h0 : 0 < size) (hend : va + size ≤ 2 ^ 32)
    (hpa : pa % PGSIZE = 0)
    (hfree : ∀ a < 2 ^ 32, va / PGSIZE ≤ a / PGSIZE → a / PGSIZE ≤ (va + size - 1) / PGSIZE →
      m.translate d a = none) :
    ∃ r m', mappages d va size pa perm m = .ok r m' ∧
      (∀ n, (va + size - 1) / PGSIZE - va / PGSIZE < n →
        mapUntil d (PGROUNDDOWN (va + size - 1)) perm n (PGROUNDDOWN va) pa m = .ok r m') ∧
      (∃ l' role', Directory L m' l' role' d) ∧
      (∀ a < 2 ^ 32, a / PGSIZE < va / PGSIZE ∨ (va + size - 1) / PGSIZE < a / PGSIZE →
        m'.translate d a = m.translate d a) ∧
      (r = true → ∀ a < 2 ^ 32, va / PGSIZE ≤ a / PGSIZE →
        a / PGSIZE ≤ (va + size - 1) / PGSIZE →
        m'.entry d a = some (pte (pa + (a / PGSIZE - va / PGSIZE) * PGSIZE) perm) ∧
        (perm.toNat < 4096 → m'.translate d a =
          some ((pa + (a / PGSIZE - va / PGSIZE) * PGSIZE) % 2 ^ 32, perm ||| PTE_P))) := by
  obtain ⟨hfirst, hlast, heq⟩ := @mappages_eq d va size pa perm h0 hend
  have hle : va / PGSIZE ≤ (va + size - 1) / PGSIZE := Nat.div_le_div_right (by omega)
  have htop : (va + size - 1) / PGSIZE < 2 ^ 20 := by
    unfold PGSIZE
    omega
  have hsum :
      va / PGSIZE + ((va + size - 1) / PGSIZE - va / PGSIZE) = (va + size - 1) / PGSIZE := by
    omega
  have hnone : ∀ u, va / PGSIZE ≤ u → u ≤ va / PGSIZE + ((va + size - 1) / PGSIZE - va / PGSIZE) →
      ¬ present (m.look d u) := by
    intro u hu1 hu2
    have hpage : u * PGSIZE / PGSIZE = u := Nat.mul_div_cancel u (by decide)
    have hlt : u * PGSIZE < 2 ^ 32 := by
      unfold PGSIZE
      unfold PGSIZE at hu2 htop
      omega
    have hu := hfree (u * PGSIZE) hlt (by rw [hpage]; exact hu1) (by rw [hpage]; omega)
    rw [translate_eq_none hlt, hpage] at hu
    exact hu
  obtain ⟨r, m', hr, hdir, hother, hmapped⟩ :=
    (h.mapLoop perm _ pa (by omega) hnone).returns
  rw [hsum] at hother hmapped
  have hpage : ∀ a < 2 ^ 32, a / PGSIZE < 2 ^ 20 := by
    intro a ha
    unfold PGSIZE
    omega
  refine ⟨r, m', ?_, ?_, hdir, ?_, ?_⟩
  · rw [heq]
    exact hr
  · intro n hn
    rw [hfirst, hlast, ← hsum, mapUntil_eq d perm _ hn (by omega)]
    exact hr
  · intro a ha hne
    rw [translate_eq m' d ha, translate_eq m d ha, hother _ (hpage a ha) hne]
  · intro hr a ha ha1 ha2
    have hlook := hmapped hr _ ha1 ha2
    refine ⟨?_, ?_⟩
    · have htable : present (m'.word d (a / PGSIZE / 1024)) := by
        by_contra hn
        have hpres : present (m'.look d (a / PGSIZE)) := by
          rw [hlook]
          exact present_pte _ _
        exact Mach.not_present_look hn hpres
      rw [entry_eq m' d ha, if_pos htable, hlook]
    · intro hperm
      apply translate_pte ha _ hperm hlook
      unfold PGSIZE at hpa ⊢
      omega

/-- A directory in page 0 with one table, in page 1, for the top of the address space. -/
def topTable : Mach :=
  blank.setPage 0 (Page.setWord (fun _ => 0) 1023 (pte PGSIZE (PTE_W ||| PTE_U)))

theorem topTable_word (i : Nat) :
    topTable.word 0 i = if i = 1023 then pte PGSIZE (PTE_W ||| PTE_U) else 0 := by
  have hpage : topTable.word 0 i =
      (Page.setWord (fun _ => 0) 1023 (pte PGSIZE (PTE_W ||| PTE_U))).word i := by
    simp [Mach.word, topTable, Mach.setPage]
  rw [hpage]
  split
  · next hi => rw [hi, Page.word_setWord]
  · next hi => rw [Page.word_setWord_ne _ _ hi, Page.word_zero]

theorem topTable_directory : Directory linked topTable [] (fun _ => .held) 0 := by
  have hpres : ∀ i, present (topTable.word 0 i) → i = 1023 := by
    intro i hp
    by_contra hi
    rw [topTable_word, if_neg hi] at hp
    exact not_present_zero hp
  have htab : topTable.tab 0 1023 = 1 := by
    unfold Mach.tab
    rw [topTable_word]
    decide
  refine ⟨⟨⟨.nil, List.nodup_nil, ?_⟩, ?_, List.nodup_nil, List.nodup_nil, ?_⟩, ⟨?_, ?_⟩, ?_⟩
  · exact fun _ hq => absurd hq List.not_mem_nil
  · exact fun _ hq => absurd hq List.not_mem_nil
  · exact fun _ hq => absurd hq List.not_mem_nil
  · intro i _ hp
    rw [hpres i hp, htab]
    decide
  · intro i _ j _ hi hj _
    rw [hpres i hi, hpres j hj]
  · intro q _ hq
    cases hq

/-- The last page of the address space is mapped to itself, as `setupkvm` does it for devices. -/
theorem mappages_flat_top : ∃ m',
    mappages 0 0xFFFFF000 0x1000 0xFFFFF000 PTE_W topTable = .ok true m' ∧
    mapUntil 0 (PGROUNDDOWN 0xFFFFFFFF) PTE_W 1 (PGROUNDDOWN 0xFFFFF000) 0xFFFFF000 topTable =
      .ok true m' ∧
    m'.translate 0 0xFFFFFFFF = some (0xFFFFF000, PTE_W ||| PTE_P) := by
  have hfree : ∀ a < 2 ^ 32, 0xFFFFF000 / PGSIZE ≤ a / PGSIZE →
      a / PGSIZE ≤ (0xFFFFF000 + 0x1000 - 1) / PGSIZE → topTable.translate 0 a = none := by
    intro a ha h1 h2
    have hpage : a / PGSIZE = 0xFFFFF := Nat.le_antisymm h2 h1
    rw [translate_eq_none ha, hpage]
    decide +kernel
  obtain ⟨r, m', hr, hsrc, -, -, hmap⟩ := @mappages_flat linked topTable [] (fun _ => .held) 0
    0xFFFFF000 0x1000 0xFFFFF000 PTE_W topTable_directory (by decide) (by decide) (by decide) hfree
  have hcheck : (mappages 0 0xFFFFF000 0x1000 0xFFFFF000 PTE_W topTable).check (fun r _ => r) =
      true := by
    decide +kernel
  rw [hr] at hcheck
  obtain rfl : r = true := hcheck
  exact ⟨m', hr, hsrc 1 (by decide), (hmap rfl 0xFFFFFFFF (by decide) (by decide) (by decide)).2
    (by decide)⟩

/-! ## The kernel half -/

/-- No page is open to user code. -/
def Closed (m : Mach) (d : Nat) : Prop := ∀ v < 2 ^ 20, m.look d v &&& PTE_U = 0

theorem pte_closed (hpa : pa % PGSIZE = 0) (hperm : perm &&& PTE_U = 0) :
    pte pa perm &&& PTE_U = 0 := by
  by_contra hne
  have hU : PTE_U.toNat = 2 ^ 2 := rfl
  have hbit := (and_ne_zero_iff hU).mp hne
  have hp : ¬ perm.toNat.testBit 2 = true := fun hb => (and_ne_zero_iff hU).mpr hb hperm
  have ha : ¬ (pa % 2 ^ 32).testBit 2 = true := by
    rw [Nat.testBit_eq_decide_div_mod_eq]
    unfold PGSIZE at hpa
    simp only [decide_eq_true_eq]
    omega
  unfold pte at hbit
  rw [UInt32.toNat_or, UInt32.toNat_or, Nat.testBit_or, Nat.testBit_or, UInt32.toNat_ofNat',
    Bool.or_eq_true, Bool.or_eq_true] at hbit
  rcases hbit with (hb | hb) | hb
  · exact ha hb
  · exact hp hb
  · exact absurd hb (by decide)

theorem Directory.mapLoop_closed (hperm : perm &&& PTE_U = 0) (k : Nat) :
    ∀ {v pa : Nat} {m : Mach} {l : List Nat} {role : Nat → Role}, Directory L m l role d →
      v + k < 2 ^ 20 → pa % PGSIZE = 0 → Closed m d →
      wp (Mem.mapLoop d perm k (v * PGSIZE) pa)
        (fun _ m' => (∃ l' role', Directory L m' l' role' d) ∧ Closed m' d)
        (fun _ _ => True) m := by
  have hpage : ∀ {v pa : Nat} {m : Mach} {l : List Nat} {role : Nat → Role},
      Directory L m l role d → v < 2 ^ 20 → pa % PGSIZE = 0 → Closed m d →
      wp (Mem.mapPage d (v * PGSIZE) pa perm)
        (fun _ m' => (∃ l' role', Directory L m' l' role' d) ∧ Closed m' d)
        (fun _ _ => True) m := by
    intro v pa m l role h hv hpa hc
    by_cases hp : present (m.look d v)
    · unfold wp
      rw [mapPage_remap hv hp]
      trivial
    · apply (h.mapPage hv hp pa perm).mono
      · intro r m' h'
        obtain ⟨hdir, hlook⟩ := h'
        refine ⟨hdir, ?_⟩
        intro u hu
        rw [hlook u hu]
        split
        · exact pte_closed hpa hperm
        · exact hc u hu
      · intro _ _ hf
        exact hf.elim
  induction k with
  | zero =>
    intro v pa m l role h hk hpa hc
    exact hpage h hk hpa hc
  | succ k ih =>
    intro v pa m l role h hk hpa hc
    unfold Mem.mapLoop
    apply (hpage h (by omega) hpa hc).bind
    intro r m1 h1
    obtain ⟨⟨l1, role1, hdir⟩, hc1⟩ := h1
    cases r with
    | false => exact ⟨⟨l1, role1, hdir⟩, hc1⟩
    | true =>
      rw [if_pos rfl, show v * PGSIZE + PGSIZE = (v + 1) * PGSIZE by rw [Nat.succ_mul]]
      apply ih hdir (by omega) _ hc1
      unfold PGSIZE at *
      omega

theorem Directory.kmapLoop_closed : ∀ (ks : List Kmap) {lo : Nat} {m : Mach} {l : List Nat}
    {role : Nat → Role}, Directory L m l role d → Rows lo ks →
    (∀ k ∈ ks, k.physStart % PGSIZE = 0 ∧ k.perm &&& PTE_U = 0) → Closed m d →
    wp (kmapLoop d ks) (fun _ m' => Closed m' d) (fun _ _ => True) m := by
  intro ks
  induction ks with
  | nil =>
    intro lo m l role _ _ _ hc
    exact hc
  | cons k ks ih =>
    intro lo m l role h hrows hall hc
    obtain ⟨ha, -, h0, hs, hle, hrows⟩ := hrows
    obtain ⟨hphys, hperm⟩ := hall k List.mem_cons_self
    have htop : k.virt / PGSIZE + (k.size / PGSIZE - 1) < 2 ^ 20 := by
      unfold PGSIZE at *
      omega
    unfold kmapLoop
    rw [mappages_row ha h0 hs hle]
    apply (Directory.mapLoop_closed hperm _ h htop hphys hc).bind
    intro r m1 h1
    obtain ⟨⟨l1, role1, hdir⟩, hc1⟩ := h1
    cases r with
    | false => exact hc1
    | true =>
      rw [if_pos rfl]
      exact ih hdir hrows (fun k hk => hall k (List.mem_cons_of_mem _ hk)) hc1

/-- The mappings of the kernel are not open to user code. -/
theorem setupkvm_closed {D H : List Nat} (h : Own L m l D H role) :
    wp (setupkvm L) (fun r m' => ∀ d, r = some d → Closed m' d) (fun _ _ => True) m := by
  unfold setupkvm
  apply (kalloc_wp h).bind
  intro r m1 h1
  obtain ⟨-, hr⟩ := h1
  cases r with
  | none =>
    intro d hd
    cases hd
  | some d =>
    obtain ⟨-, l1, rfl, -, hown⟩ := hr
    have hd := hown.held.role d List.mem_cons_self
    have h0 : ∀ i, (m1.setPage d fun _ => 0).word d i = 0 := by
      intro i
      simp [Mach.word, Mach.setPage]
    have hdir := ((hown.write (.inl hd.1) fun _ => 0).newDir h0).directory List.mem_cons_self
    have hclosed : Closed (m1.setPage d fun _ => 0) d := by
      intro v _
      rw [Mach.look_of_zero h0]
      decide
    have hrow : ∀ k ∈ kmap L, k.physStart % PGSIZE = 0 ∧ k.perm &&& PTE_U = 0 := by
      have h1 := L.data_aligned
      have h2 := L.data_after
      have hdata : (L.data - KERNBASE) % PGSIZE = 0 := by
        unfold KERNLINK KERNBASE EXTMEM PGSIZE at *
        omega
      intro k hk
      simp only [kmap, List.mem_cons, List.not_mem_nil, or_false] at hk
      rcases hk with rfl | rfl | rfl | rfl
      · decide
      · exact ⟨show (KERNLINK - KERNBASE) % PGSIZE = 0 by decide,
          show (0 : UInt32) &&& PTE_U = 0 by decide⟩
      · exact ⟨hdata, show PTE_W &&& PTE_U = 0 by decide⟩
      · decide
    simp only [memset, wp_modify_bind]
    apply (hdir.kmapLoop_closed (kmap L) (rows_kmap L) hrow hclosed).bind
    intro r m2 hc2
    cases r with
    | false =>
      intro d hd
      cases hd
    | true =>
      rw [if_pos rfl]
      intro e he
      rw [← Option.some.inj he]
      exact hc2

end Zv6.Mem
