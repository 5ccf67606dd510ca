/-
  Growing and shrinking an address space.

  `deallocuvm` steps over a missing table by 1024 pages from wherever it is. Where that is not
  the first page of a table, it also steps over the first pages of the next one
  (`deallocuvm_removes_iff`). `allocuvm` does not look at what `mappages` returns. When no table
  can be had for a page, the page is lost and the call goes on (`allocuvm_all_or_nothing_iff`).
  `growproc` has both to live with, and takes the size 0 for a failure and a size below 0 for a
  large one (`growproc_atomic_iff`).
-/
import Zv6.Mem.Copy

namespace Zv6.Mem

open Zv6.Lib

variable {L : Link} {m m' m1 : Mach} {l l' l1 D H X : List Nat} {role role' role1 : Nat → Role}
  {c d q v w k : Nat}

/-! ## Mappings -/

/-- What directory `d` maps at page number `u`. -/
def Mach.maps (m : Mach) (d u : Nat) : Option UInt32 :=
  if present (m.look d u) then some (m.look d u) else none

theorem Mach.maps_congr (h : m'.look d u = m.look d u) : m'.maps d u = m.maps d u := by
  unfold Mach.maps
  rw [h]

theorem Mach.maps_none (h : ¬ present (m.look d u)) : m.maps d u = none := if_neg h

/-- The physical pages mapped from page number `v` up to `w`. -/
def Mach.frames (m : Mach) (d v w : Nat) : List Nat :=
  ((List.range' v (w - v)).filter fun u => present (m.look d u)).map fun u => frame (m.look d u)

theorem Mach.mem_frames : q ∈ m.frames d v w ↔
    Freed m d (fun u => v ≤ u ∧ u < w) q := by
  unfold Mach.frames Freed
  simp only [List.mem_map, List.mem_filter, List.mem_range'_1, decide_eq_true_eq]
  refine exists_congr fun u => ?_
  constructor
  · rintro ⟨⟨⟨h1, h2⟩, hp⟩, hq⟩
    exact ⟨⟨h1, by omega⟩, hp, hq.symm⟩
  · rintro ⟨⟨h1, h2⟩, hp, hq⟩
    exact ⟨⟨⟨h1, by omega⟩, hp⟩, hq.symm⟩

/-- A physical page is mapped once. -/
theorem DirOk.look_inj (h : DirOk L m role d) {u u' : Nat} (hu : u < 2 ^ 19) (hu' : u' < 2 ^ 19)
    (hp : present (m.look d u)) (hp' : present (m.look d u'))
    (he : frame (m.look d u) = frame (m.look d u')) : u = u' := by
  have h1 := (h.user u hu hp).1
  rw [he, (h.user u' hu' hp').1] at h1
  exact (Role.user.inj h1).2.symm

theorem DirOk.frames_nodup (h : DirOk L m role d) (hw : w ≤ 2 ^ 19) : (m.frames d v w).Nodup := by
  refine List.Nodup.map_on ?_ (List.Nodup.filter _ List.nodup_range')
  intro u hu u' hu' he
  simp only [List.mem_filter, List.mem_range'_1, decide_eq_true_eq] at hu hu'
  exact h.look_inj (by omega) (by omega) hu.2 hu'.2 he

/-- No user page is free. -/
theorem DirOk.freed_not_mem {S : Nat → Prop} (h : Own L m l D H role) (hd : d ∈ D)
    (hS : ∀ u, S u → u < 2 ^ 19) (hq : Freed m d S q) : q ∉ l := by
  obtain ⟨u, hu, hp, rfl⟩ := hq
  exact (h.user_outside hd (hS u hu) hp hd).1

/-! ## Small address spaces -/

/-- Which calls of `kalloc` fail is nobody's business. -/
theorem Own.refail (h : Own L m l D H role) (f : Nat → Bool) :
    Own L { m with fails := f } l D H role :=
  ⟨h.list.keep rfl (fun _ _ => rfl) fun _ _ hq => hq,
    fun d hd => (h.dirs d hd).keep (fun _ _ => rfl) fun _ _ => rfl, h.nodup, h.held⟩

/-- A directory without user pages in a memory that has a page for its first page but none for
    the table. -/
theorem exists_short : ∃ m l role d, Own linked m l [d] [] role ∧
    (∀ i < 512, ¬ present (m.word d i)) ∧ (m.stock l d).refused 1 0 = [.table] := by
  obtain ⟨m, l, role, d, h, hzero, hA⟩ := exists_empty
  refine ⟨{ m with fails := fun k => decide (k = m.calls + 1) }, l, role, d, h.refail _, hzero, ?_⟩
  have hlen : l.length ≠ 0 := by
    have := hA.length
    omega
  generalize hs : Mach.stock { m with fails := fun k => decide (k = m.calls + 1) } l d = s
  have hok : s.supply.ok = true := by
    simp [← hs, Mach.stock, Mach.supply, Supply.ok, hlen]
  have hn : s.supply.next.ok = false := by
    rw [Supply.next_of_ok hok]
    simp [← hs, Mach.stock, Mach.supply, Supply.ok]
  have ht : s.tables 0 = false := by
    rw [← hs]
    exact decide_eq_false (hzero 0 (by decide))
  rw [Stock.refused, if_pos hok, Stock.has, Stock.take]
  simp only [Nat.zero_div, ht, hn, Bool.or_false, Bool.false_eq_true, if_false]
  rfl

/-- A directory without the first table, with a page in the second. -/
theorem exists_gap : ∃ m l role d, Own linked m l [d] [] role ∧ ¬ present (m.word d 0) ∧
    present (m.look d 1024) := by
  obtain ⟨m1, l1, role1, d, h1, hzero, hA⟩ := exists_empty
  have hc : pageCeil 0x400000 = 1024 ∧ pageCeil 0x401000 = 1025 := by decide
  obtain ⟨r, m2, -, hal⟩ := allocuvm_returns h1 List.mem_cons_self
    (show 0x400000 ≤ 0x401000 by decide) (by decide)
    fun u _ h2 => Mach.look_of_no_table hzero (by omega)
  rw [hc.1, hc.2] at hal
  obtain ⟨-, l2, role2, hal', -, hst⟩ := hal.rich (n := 1999) hA (by decide)
  refine ⟨m2, l2, role2, d, hal'.own, ?_, hal'.full.mpr rfl 1024 (le_refl _) (by decide)⟩
  have h0 : (m2.stock l2 d).tables 0 = (m1.stock l1 d).tables 0 := by
    rw [hst]
    exact Stock.ensure_tables_ne (by decide)
  exact of_decide_eq_false (h0.trans (decide_eq_false (hzero 0 (by decide))))

/-! ## deallocuvm -/

/-- Unmapping pages of `d` leaves the other directories as they are. -/
theorem Unmaps.other_dir {S : Nat → Prop} (h : Unmaps L D H d S m l m' l' role')
    (hown : Own L m l D H role) (hd : d ∈ D) (hc : c ∈ D) (hne : c ≠ d) {u : Nat}
    (hu : u < 2 ^ 20) : m'.look c u = m.look c u := by
  refine (hown.dirs c hc).look_keep ?_ hu
  intro q hq
  obtain ⟨htab, hr⟩ := hown.tab_apart hd hc hne hq
  refine h.page q htab ?_
  rintro ⟨v, hv, hp, rfl⟩
  rw [((hown.dirs d hd).user v (h.below v hv) hp).1] at hr
  rcases hr with hr | ⟨i, hr⟩ <;> cases hr

/-- The pages from page number `v` up to `w` have been removed from `d`: none is mapped, the
    free list has each physical page that was mapped there once more, and all other mappings of all
    directories are as they were. -/
structure Removed (L : Link) (D H : List Nat) (d v w : Nat) (m : Mach) (l : List Nat)
    (m' : Mach) : Prop where
  gone : ∀ u, v ≤ u → u < w → ¬ present (m'.look d u)
  freed : ∃ l' role', Own L m' l' D H role' ∧ l'.Perm (m.frames d v w ++ l)
  other : ∀ c ∈ D, ∀ u < 2 ^ 20, (c = d → u < v ∨ w ≤ u) → m'.look c u = m.look c u

theorem Unmaps.removed (h : Unmaps L D H d (fun u => v ≤ u ∧ u < w) m l m' l' role')
    (hown : Own L m l D H role) (hd : d ∈ D) (hw : w ≤ 2 ^ 19) : Removed L D H d v w m l m' := by
  have hnd : (m.frames d v w ++ l).Nodup := by
    refine List.nodup_append.mpr ⟨(hown.dirs d hd).frames_nodup hw, hown.list.nodup, ?_⟩
    rintro q hq _ hq' rfl
    exact DirOk.freed_not_mem hown hd h.below (Mach.mem_frames.mp hq) hq'
  refine ⟨fun u h1 h2 => h.gone ⟨h1, h2⟩, ⟨l', role', h.own, ?_⟩, ?_⟩
  · refine (List.perm_ext_iff_of_nodup h.own.list.nodup hnd).mpr ?_
    intro q
    rw [h.list q, List.mem_append, Mach.mem_frames, or_comm]
  · intro c hc u hu hout
    by_cases hcd : c = d
    · subst hcd
      refine h.kept u hu ?_
      rintro ⟨h1, h2⟩
      have := hout rfl
      omega
    · exact h.other_dir hown hd hc hcd hu

/-- `deallocuvm` removes the whole range if and only if no page of it that is mapped is
    stepped over; `freevm` steps over none. -/
theorem deallocuvm_removes_iff {oldsz newsz : Nat} (h : Own L m l (d :: D) H role)
    (hsz : oldsz ≤ KERNBASE) :
    (wp (deallocuvm L d oldsz newsz)
      (fun _ m' => Removed L (d :: D) H d (pageCeil newsz) (pageCeil oldsz) m l m')
      (fun _ _ => False) m ↔
      ∀ u, pageCeil newsz ≤ u → u < pageCeil oldsz → Skipped m d (pageCeil newsz) u →
        ¬ present (m.look d u)) ∧
    wp (freevm L d) (fun _ m' => ∃ l' role', Own L m' l' D H role' ∧
      ∀ u < 2 ^ 19, present (m.look d u) → frame (m.look d u) ∈ l') (fun _ _ => False) m := by
  have hd : d ∈ d :: D := List.mem_cons_self
  have hceil := pageCeil_le hsz
  refine ⟨?_, ?_⟩
  · obtain ⟨r, m', hr, -, l', role', hun⟩ := (deallocuvm_wp h hd hsz newsz).returns
    rw [wp_of_ok hr]
    constructor
    · intro hrem u h1 h2 hs hp
      have hkept := hun.kept u (by omega) fun hreach => absurd hs hreach.2.2
      rw [← hkept] at hp
      exact hrem.gone u h1 h2 hp
    · intro hall
      refine (hun.congr ?_ ?_).removed h hd hceil
      · rintro u ⟨-, hu⟩
        omega
      · intro u hp
        refine ⟨fun hreach => ⟨hreach.1, hreach.2.1⟩, ?_⟩
        rintro ⟨h1, h2⟩
        exact ⟨h1, h2, fun hs => hall u h1 h2 hs hp⟩
  · refine (freevm_wp h).post ?_
    rintro _ m' ⟨l', role', hown, -, hlist⟩
    refine ⟨l', role', hown, ?_⟩
    intro u hu hp
    exact (hlist _).mpr (.inr (.inr ⟨u, hu, hp, rfl⟩))

/-- The pages of an address space go, if all tables are there. -/
theorem deallocuvm_removes_page : ∃ m l role d, Own linked m l [d] [] role ∧
    present (m.look d 0) ∧ wp (deallocuvm linked d PGSIZE 0)
      (fun _ m' => Removed linked [d] [] d 0 1 m l m') (fun _ _ => False) m := by
  obtain ⟨m, l, role, d, h, -, ⟨p, hp⟩, -⟩ := exists_single
  refine ⟨m, l, role, d, h, by rw [hp]; exact present_pte _ _,
    (deallocuvm_removes_iff h (by decide)).1.mpr ?_⟩
  rintro u - - ⟨hs, -⟩
  exact absurd hs (by simp [pageCeil, PGSIZE])

/-- Shrinking to one byte leaves the page at 4 MB. -/
theorem deallocuvm_leaves_page : ∃ m l role d, Own linked m l [d] [] role ∧
    present (m.look d 1024) ∧ ∃ m', deallocuvm linked d 0x401000 1 m = .ok 1 m' ∧
      m'.look d 1024 = m.look d 1024 ∧
      ¬ Removed linked [d] [] d (pageCeil 1) (pageCeil 0x401000) m l m' := by
  obtain ⟨m, l, role, d, h, h0, hp⟩ := exists_gap
  obtain ⟨r, m', hr, hr1, l', role', hun⟩ :=
    (deallocuvm_wp h List.mem_cons_self (show 0x401000 ≤ KERNBASE by decide) 1).returns
  obtain rfl : r = 1 := hr1.trans (by decide)
  have hskip : Skipped m d (pageCeil 1) 1024 := by
    refine ⟨by decide, ?_⟩
    intro i _ hi
    obtain rfl : i = 0 := by omega
    exact h0
  have hkept := hun.kept 1024 (by decide) fun hreach => absurd hskip hreach.2.2
  refine ⟨m, l, role, d, h, hp, m', hr, hkept, ?_⟩
  intro hrem
  refine hrem.gone 1024 (by decide) (by decide) ?_
  rw [hkept]
  exact hp

/-! ## allocuvm -/

/-- Memory determines the free list. -/
theorem Chain.unique {a : UInt32} (h : Chain m a l) : ∀ {l' : List Nat}, Chain m a l' →
    (∀ p ∈ l, Valid L p) → (∀ p ∈ l', Valid L p) → l = l' := by
  induction h with
  | nil =>
    intro l' h' _ hv'
    generalize ha : (0 : UInt32) = a at h'
    cases h' with
    | nil => rfl
    | cons _ => exact absurd ha.symm (hv' _ List.mem_cons_self).ka_ne
  | @cons p l _ ih =>
    intro l' h' hv hv'
    have hp := hv p List.mem_cons_self
    generalize ha : ka p = a at h'
    cases h' with
    | nil => exact absurd ha hp.ka_ne
    | @cons q l' hq =>
      have he : p = q := by
        rw [← hp.pageOf, ha, (hv' q List.mem_cons_self).pageOf]
      subst he
      rw [ih hq (fun r hr => hv r (List.mem_cons_of_mem p hr))
        fun r hr => hv' r (List.mem_cons_of_mem p hr)]

theorem Own.list_unique {D' H' : List Nat} (h : Own L m l D H role)
    (h' : Own L m l' D' H' role') : l = l' :=
  h.list.chain.unique h'.list.chain (fun p hp => (h.list.role p hp).2)
    fun p hp => (h'.list.role p hp).2

/-- A loop that starts behind mapped pages steps over nothing. -/
theorem not_skipped (hv : ∀ u < v, present (m.look d u)) (hu : v ≤ u) : ¬ Skipped m d v u := by
  rintro ⟨h1, h2⟩
  have hp := hv (v - 1) (by omega)
  have hdiv : (v - 1) / 1024 = v / 1024 := by omega
  refine Mach.not_present_look ?_ hp
  rw [hdiv]
  exact h2 (v / 1024) (le_refl _) (by omega)

/-- All pages from page number `v` up to `w` have been added to `d`: each is mapped, for user
    code and writable, to a page of zeroes that was free and is mapped nowhere else, and all other
    mappings of all directories are as they were. -/
structure Added (D : List Nat) (d v w : Nat) (m : Mach) (l : List Nat) (m' : Mach) : Prop where
  page : ∀ u, v ≤ u → u < w → ∃ p ∈ l, m'.look d u = pte (p * PGSIZE) (PTE_W ||| PTE_U) ∧
    frame (m'.look d u) = p ∧ m'.page p = fun _ => 0
  distinct : ∀ u, v ≤ u → u < w → ∀ c ∈ D, ∀ u' < 2 ^ 19, present (m'.look c u') →
    frame (m'.look c u') = frame (m'.look d u) → c = d ∧ u' = u
  other : ∀ c ∈ D, ∀ u < 2 ^ 20, (c = d → u < v ∨ w ≤ u) → m'.look c u = m.look c u

/-- Nothing is mapped that was not, and all pages taken from the free list are back but for
    those that have become tables. -/
structure Undone (L : Link) (D H : List Nat) (d : Nat) (m : Mach) (l : List Nat) (m' : Mach) :
    Prop where
  maps : ∀ c ∈ D, ∀ u < 2 ^ 20, m'.maps c u = m.maps c u
  back : ∃ l' role', Own L m' l' D H role' ∧ ∀ q ∈ l, q ∈ l' ∨ Tab m' d q

/-- All or nothing. -/
def AllOrNothing (L : Link) (D H : List Nat) (d oldsz newsz : Nat) (m : Mach) (l : List Nat)
    (r : Nat) (m' : Mach) : Prop :=
  (r = newsz ∨ r = 0) ∧
    (r = newsz → newsz ≠ 0 → Added D d (pageCeil oldsz) (pageCeil newsz) m l m') ∧
    (r = 0 → Undone L D H d m l m')

theorem Allocs.added (hal : Allocs L D H d v k m l [] m' l' role') (h : Own L m l D H role)
    (hd : d ∈ D) (hv : v + k ≤ 2 ^ 19) : Added D d v (v + k) m l m' := by
  have hpres := hal.full.mpr rfl
  refine ⟨?_, ?_, ?_⟩
  · intro u h1 h2
    obtain ⟨p, hp, hlook, hzero⟩ := hal.page u h1 h2 (hpres u h1 h2)
    refine ⟨p, hp, hlook, ?_, hzero⟩
    rw [hlook]
    exact frame_user (h.list.role p hp).2
  · intro u h1 h2 c hc u' hu' hp' he
    have hr := ((hal.own.dirs d hd).user u (by omega) (hpres u h1 h2)).1
    rw [← he, ((hal.own.dirs c hc).user u' hu' hp').1] at hr
    exact Role.user.inj hr
  · intro c hc u hu hout
    by_cases hcd : c = d
    · subst hcd
      exact hal.other u hu (hout rfl)
    · exact (hal.grows.other_dir h hd hc hcd).1 u hu

/-- A call that has been refused a data page has unmapped all it has mapped. -/
theorem Allocs.unmapped {j : Nat} (hal : Allocs L D H d v j m l X m1 l1 role1)
    (hun : Unmaps L D (X ++ H) d (Reached m1 d v w) m1 l1 m' l' role') (h : Own L m l D H role)
    (hd : d ∈ D) (hmap : ∀ u < 2 ^ 19, present (m.look d u) ↔ u < v) (hj : v + j ≤ w)
    (hw : w ≤ 2 ^ 19) : ∀ c ∈ D, ∀ u < 2 ^ 20, m'.maps c u = m.maps c u := by
  intro c hc u hu
  by_cases hcd : c = d
  · subst hcd
    have hbelow : ∀ u < v, present (m1.look c u) := by
      intro u hlt
      rw [hal.other u (by omega) (.inl hlt), hmap u (by omega)]
      exact hlt
    by_cases hin : v ≤ u ∧ u < w
    · have hn : ¬ present (m.look c u) := by
        rw [hmap u (by omega)]
        omega
      rw [Mach.maps_none (hun.gone ⟨hin.1, hin.2, not_skipped hbelow hin.1⟩), Mach.maps_none hn]
    · apply Mach.maps_congr
      rw [hun.kept u hu fun hreach => absurd ⟨hreach.1, hreach.2.1⟩ hin]
      exact hal.other u hu (by omega)
  · apply Mach.maps_congr
    rw [hun.other_dir hal.own hd hc hcd hu]
    exact (hal.grows.other_dir h hd hc hcd).1 u hu

/-- If no page is lost and nothing new is mapped, all pages are back but for the tables. -/
theorem Conserves.back (hcons : Conserves d m l m' l') (h : Own L m l D H role) (hd : d ∈ D)
    (hmaps : ∀ c ∈ D, ∀ u < 2 ^ 20, m'.maps c u = m.maps c u) :
    ∀ q ∈ l, q ∈ l' ∨ Tab m' d q := by
  intro q hq
  rcases (hcons q).mp (.inl hq) with hq' | ht | ⟨u, hu, hp, he⟩
  · exact .inl hq'
  · exact .inr ht
  · have hm := hmaps d hd u (by omega)
    unfold Mach.maps at hm
    rw [if_pos hp] at hm
    split at hm
    · next hp0 =>
      rw [Option.some.inj hm] at he
      exact absurd (he ▸ hq) (h.user_outside hd hu hp0 hd).1
    · cases hm

theorem replicate_table_eq_nil :
    Request.table ∉ List.replicate X.length Request.table ↔ X = [] := by
  cases X <;> simp

/-- `allocuvm` does all or nothing if and only if no page table is refused. -/
theorem allocuvm_all_or_nothing_iff {oldsz newsz : Nat} (h : Own L m l D H role) (hd : d ∈ D)
    (hle : oldsz ≤ newsz) (hlt : newsz < KERNBASE)
    (hmap : ∀ u < 2 ^ 19, present (m.look d u) ↔ u < pageCeil oldsz) :
    wp (allocuvm L d oldsz newsz) (AllOrNothing L D H d oldsz newsz m l) (fun _ _ => False) m ↔
      .table ∉ (m.stock l d).refused (pageCeil newsz - pageCeil oldsz) (pageCeil oldsz) := by
  have hceil := pageCeil_le hlt.le
  have hmono := pageCeil_mono hle
  have hk : pageCeil oldsz + (pageCeil newsz - pageCeil oldsz) = pageCeil newsz := by omega
  obtain ⟨r, m', hr, hal⟩ := allocuvm_returns h hd hle hlt fun u h1 h2 hp => by
    rw [hmap u (by omega)] at hp
    omega
  rw [wp_of_ok hr]
  cases hal with
  | @done X l' m' role' hal href _ =>
    rw [href, replicate_table_eq_nil]
    constructor
    · rintro ⟨-, hadd, -⟩
      rw [← hal.full]
      intro u h1 h2
      have hne : newsz ≠ 0 := by
        rintro rfl
        have h0 : pageCeil 0 = 0 := by decide
        omega
      obtain ⟨p, -, hlook, -⟩ := (hadd rfl hne).page u h1 (by omega)
      rw [hlook]
      exact present_pte _ _
    · rintro rfl
      have hadd := hal.added h hd (by omega)
      rw [hk] at hadd
      refine ⟨.inl rfl, fun _ _ => hadd, ?_⟩
      rintro rfl
      have h0 : pageCeil 0 = 0 := by decide
      obtain rfl : oldsz = 0 := by omega
      have hmaps : ∀ c ∈ D, ∀ u < 2 ^ 20, m'.maps c u = m.maps c u := fun c hc u hu =>
        Mach.maps_congr (hadd.other c hc u hu fun _ => by omega)
      exact ⟨hmaps, l', role', hal.own, hal.conserves.back h hd hmaps⟩
  | @undone X l1 l' m1 m' role1 role' j hj hal href hun =>
    have hmaps := hal.unmapped hun h hd hmap (by omega) hceil
    have htab : .table ∉ List.replicate X.length Request.table ++ [.data] ↔ X = [] := by
      rw [← replicate_table_eq_nil]
      simp
    rw [href, htab]
    constructor
    · rintro ⟨-, -, hundo⟩
      obtain ⟨-, l'', role'', hown, hback⟩ := hundo rfl
      cases X with
      | nil => rfl
      | cons p X =>
        have hheld := hun.own.held.role p List.mem_cons_self
        rw [hown.list_unique hun.own] at hback
        rcases hback p (hal.lost p List.mem_cons_self) with hp | hp
        · exact absurd hp (hun.own.not_mem_list (by simp [hheld.1]))
        · exact absurd hp ((hun.own.dirs d hd).held_ne hheld.1).2
    · rintro rfl
      refine ⟨.inr rfl, ?_, fun _ => ⟨hmaps, l', role', hun.own,
        (hal.conserves.trans hun.conserves).back h hd hmaps⟩⟩
      intro h0 hne
      exact absurd h0.symm hne

/-- An empty address space grows by a page. -/
theorem allocuvm_all_or_nothing_page : ∃ m l role d, Own linked m l [d] [] role ∧
    wp (allocuvm linked d 0 PGSIZE) (AllOrNothing linked [d] [] d 0 PGSIZE m l)
      (fun _ _ => False) m := by
  obtain ⟨m, l, role, d, h, hzero, hA⟩ := exists_empty
  have hc : pageCeil 0 = 0 ∧ pageCeil PGSIZE = 1 := by decide
  refine ⟨m, l, role, d, h, (allocuvm_all_or_nothing_iff h List.mem_cons_self (by decide)
    (by decide) ?_).mpr ?_⟩
  · intro u hu
    rw [hc.1]
    exact ⟨fun hp => absurd hp (Mach.look_of_no_table hzero hu), fun hlt => by omega⟩
  · rw [hc.1, hc.2, ((ample_iff.mp hA).refused (n := 1999) 1 (v := 0) (by decide)).1]
    exact List.not_mem_nil

/-- The page is taken, no table can be had for it, and `allocuvm` reports success. -/
theorem allocuvm_hole : ∃ m l role d, Own linked m l [d] [] role ∧
    (∀ u < 2 ^ 19, ¬ present (m.look d u)) ∧ ∃ m', allocuvm linked d 0 PGSIZE m = .ok PGSIZE m' ∧
      ¬ present (m'.look d 0) ∧ ¬ AllOrNothing linked [d] [] d 0 PGSIZE m l PGSIZE m' := by
  obtain ⟨m, l, role, d, h, hzero, href⟩ := exists_short
  have hc : pageCeil 0 = 0 ∧ pageCeil PGSIZE = 1 := by decide
  obtain ⟨r, m', hr, hal⟩ := allocuvm_returns h List.mem_cons_self (show 0 ≤ PGSIZE by decide)
    (by decide) fun u _ h2 => Mach.look_of_no_table hzero (by omega)
  rw [hc.1, hc.2] at hal
  have hhole : r = PGSIZE ∧ ¬ present (m'.look d 0) := by
    cases hal with
    | @done X l' m' role' hal hlist _ =>
      refine ⟨rfl, ?_⟩
      rw [href] at hlist
      intro hp
      have hX := hal.full.mp fun u h1 h2 => by
        obtain rfl : u = 0 := by omega
        exact hp
      rw [hX] at hlist
      cases hlist
    | undone j hj hal hlist =>
      rw [href] at hlist
      have := congrArg (Request.data ∈ ·) hlist
      simp at this
  obtain ⟨rfl, hp⟩ := hhole
  refine ⟨m, l, role, d, h, fun u => Mach.look_of_no_table hzero, m', hr, hp, ?_⟩
  rintro ⟨-, hadd, -⟩
  obtain ⟨p, -, hlook, -⟩ := (hadd rfl (by decide)).page 0 (by decide) (by decide)
  rw [hlook] at hp
  exact hp (present_pte _ _)

/-! ## growproc -/

/-- What `growproc` should do: on success the new size is the sum, exactly the pages below it
    are mapped, and the bytes below both sizes are kept; on failure nothing has changed. -/
def Atomic (p : Proc) (n : Int) (m : Mach) (r : Option Nat) (m' : Mach) : Prop :=
  match r with
  | some sz => (sz : Int) = p.sz + n ∧ sz < KERNBASE ∧
    (∀ u < 2 ^ 19, present (m'.look p.pgdir u) ↔ u < pageCeil sz) ∧
    ∀ a < min p.sz sz, m'.byte p.pgdir a = m.byte p.pgdir a
  | none => (∀ u < 2 ^ 20, m'.maps p.pgdir u = m.maps p.pgdir u) ∧
    ∀ u < 2 ^ 19, present (m.look p.pgdir u) →
      m'.page (frame (m.look p.pgdir u)) = m.page (frame (m.look p.pgdir u))

/-- The pages whose entries and contents are kept keep their bytes. -/
theorem Mach.byte_keep {a : Nat} (hlook : m'.look d (a / PGSIZE) = m.look d (a / PGSIZE))
    (hpage : m'.page (frame (m.look d (a / PGSIZE))) = m.page (frame (m.look d (a / PGSIZE)))) :
    m'.byte d a = m.byte d a := by
  unfold Mach.byte
  rw [hlook, hpage]

theorem addSize_of_nonneg {sz : Nat} {n : Int} (h : 0 ≤ (sz : Int) + n)
    (hlt : (sz : Int) + n < 2 ^ 32) :
    ((addSize sz n : Nat) : Int) = sz + n := by
  unfold addSize
  omega

theorem addSize_of_neg {sz : Nat} {n : Int} (h : (sz : Int) + n < 0) (hn : -2 ^ 31 ≤ n) :
    2 ^ 31 ≤ addSize sz n := by
  unfold addSize
  omega

section Grow

variable {p : Proc} {n : Int} {newsz : Nat}

/-- The page at `u` keeps its bytes if it is not unmapped. -/
theorem Unmaps.user_kept {S : Nat → Prop} (hun : Unmaps L D H d S m l m' l' role')
    (h : Own L m l D H role) (hd : d ∈ D) {u : Nat} (hu : u < 2 ^ 19)
    (hp : present (m.look d u)) (hS : ¬ S u) :
    m'.page (frame (m.look d u)) = m.page (frame (m.look d u)) := by
  refine hun.page _ (h.user_outside hd hu hp hd).2 ?_
  rintro ⟨u', hu', hp', he⟩
  have := (h.dirs d hd).look_inj hu (hun.below u' hu') hp hp' he
  subst this
  exact hS hu'

theorem Own.grows_kept (h : Own L m l D H role) (hg : Grows d m l m' l') (hd : d ∈ D) {u : Nat}
    (hu : u < 2 ^ 19) (hp : present (m.look d u)) :
    m'.page (frame (m.look d u)) = m.page (frame (m.look d u)) :=
  hg.page _ (h.user_outside hd hu hp hd).1 (h.user_outside hd hu hp hd).2

/-- Growing that goes through is right if no page is lost. -/
theorem Allocs.atomic_iff (hal : Allocs L D H p.pgdir (pageCeil p.sz) k m l X m' l' role')
    (h : Own L m l D H role) (hd : p.pgdir ∈ D)
    (hmap : ∀ u < 2 ^ 19, present (m.look p.pgdir u) ↔ u < pageCeil p.sz)
    (hnew : (newsz : Int) = p.sz + n) (hlt : newsz < KERNBASE)
    (hk : pageCeil p.sz + k = pageCeil newsz) : Atomic p n m (some newsz) m' ↔ X = [] := by
  have hceil := pageCeil_le hlt.le
  rw [← hal.full]
  constructor
  · rintro ⟨-, -, hpres, -⟩ u h1 h2
    exact (hpres u (by omega)).mpr (by omega)
  · intro hfull
    refine ⟨hnew, hlt, ?_, ?_⟩
    · intro u hu
      by_cases hin : pageCeil p.sz ≤ u ∧ u < pageCeil newsz
      · exact ⟨fun _ => hin.2, fun _ => hfull u hin.1 (by omega)⟩
      · rw [hal.other u (by omega) (by omega), hmap u hu]
        omega
    · intro a ha
      have hu : a / PGSIZE < pageCeil p.sz := by
        unfold pageCeil PGSIZE
        omega
      refine Mach.byte_keep (hal.other _ (by omega) (.inl hu)) ?_
      exact h.grows_kept hal.grows hd (by omega) ((hmap _ (by omega)).mpr hu)

/-- Growing that fails changes nothing, whatever has been lost. -/
theorem Allocs.atomic_none {j : Nat}
    (hal : Allocs L D H p.pgdir (pageCeil p.sz) j m l X m1 l1 role1)
    (hun : Unmaps L D (X ++ H) p.pgdir (Reached m1 p.pgdir (pageCeil p.sz) w) m1 l1 m' l' role')
    (h : Own L m l D H role) (hd : p.pgdir ∈ D)
    (hmap : ∀ u < 2 ^ 19, present (m.look p.pgdir u) ↔ u < pageCeil p.sz)
    (hj : pageCeil p.sz + j ≤ w) (hw : w ≤ 2 ^ 19) : Atomic p n m none m' := by
  refine ⟨hal.unmapped hun h hd hmap hj hw p.pgdir hd, ?_⟩
  intro u hu hp
  have hlt := (hmap u hu).mp hp
  have hlook := hal.other u (by omega) (.inl hlt)
  have hkept := hun.user_kept hal.own hd (u := u) hu (by rw [hlook]; exact hp)
    fun hreach => absurd hreach.1 (by omega)
  rw [hlook] at hkept
  rw [hkept]
  exact h.grows_kept hal.grows hd hu hp

/-- Shrinking to a size that is not 0 is right. -/
theorem Unmaps.atomic
    (hun : Unmaps L D H p.pgdir (Reached m p.pgdir (pageCeil newsz) (pageCeil p.sz)) m l m' l'
      role') (h : Own L m l D H role) (hd : p.pgdir ∈ D)
    (hmap : ∀ u < 2 ^ 19, present (m.look p.pgdir u) ↔ u < pageCeil p.sz) (hk : p.sz < KERNBASE)
    (hnew : (newsz : Int) = p.sz + n) (hle : newsz ≤ p.sz) : Atomic p n m (some newsz) m' := by
  have hceil := pageCeil_le hk.le
  have hmono := pageCeil_mono hle
  have hreach : ∀ u, pageCeil newsz ≤ u → u < pageCeil p.sz →
      Reached m p.pgdir (pageCeil newsz) (pageCeil p.sz) u := by
    intro u h1 h2
    exact ⟨h1, h2, not_skipped (fun u' hu' => (hmap u' (by omega)).mpr (by omega)) h1⟩
  refine ⟨hnew, by omega, ?_, ?_⟩
  · intro u hu
    by_cases hin : pageCeil newsz ≤ u ∧ u < pageCeil p.sz
    · exact ⟨fun hp => absurd hp (hun.gone (hreach u hin.1 hin.2)), fun hlt => by omega⟩
    · rw [hun.kept u (by omega) fun hr => absurd ⟨hr.1, hr.2.1⟩ hin, hmap u hu]
      omega
  · intro a ha
    have hu : a / PGSIZE < pageCeil newsz := by
      unfold pageCeil PGSIZE
      omega
    have hn : ¬ Reached m p.pgdir (pageCeil newsz) (pageCeil p.sz) (a / PGSIZE) :=
      fun hr => absurd hr.1 (by omega)
    refine Mach.byte_keep (hun.kept _ (by omega) fun hr => absurd hr hn) ?_
    exact hun.user_kept h hd (by omega) ((hmap _ (by omega)).mpr (by omega)) hn

theorem Atomic.refl : Atomic p n m none m := ⟨fun _ _ => rfl, fun _ _ _ => rfl⟩

/-- The growing half. -/
theorem grow_iff (h : Own L m l D H role) (hd : p.pgdir ∈ D) (hk : p.sz < KERNBASE)
    (hmap : ∀ u < 2 ^ 19, present (m.look p.pgdir u) ↔ u < pageCeil p.sz) (hn : 0 < n)
    (hn' : n < 2 ^ 31) :
    wp (growproc L p n) (Atomic p n m) (fun _ _ => False) m ↔
      (p.sz + n < KERNBASE →
        .table ∈ (m.stock l p.pgdir).refused (pageCeil (p.sz + n.toNat) - pageCeil p.sz)
          (pageCeil p.sz) →
        .data ∈ (m.stock l p.pgdir).refused (pageCeil (p.sz + n.toNat) - pageCeil p.sz)
          (pageCeil p.sz)) := by
  have hadd : addSize p.sz n = p.sz + n.toNat := by
    have := addSize_of_nonneg (show 0 ≤ (p.sz : Int) + n by omega)
      (by unfold KERNBASE at hk; omega)
    omega
  unfold growproc
  rw [if_pos hn, hadd]
  by_cases hlt : p.sz + n.toNat < KERNBASE
  · have hceil := pageCeil_le hlt.le
    have hmono := pageCeil_mono (show p.sz ≤ p.sz + n.toNat by omega)
    obtain ⟨r, m', hr, hal⟩ := allocuvm_returns h hd (Nat.le_add_right _ _) hlt
      fun u h1 h2 hp => by
        rw [hmap u (by omega)] at hp
        omega
    rw [wp_bind, wp_of_ok hr, wp_pure]
    cases hal with
    | @done X l' m' role' hal href _ =>
      rw [if_neg (by omega), href, hal.atomic_iff h hd hmap (by omega) hlt (by omega)]
      cases X <;> simp
      omega
    | @undone X l1 l' m1 m' role1 role' j hj hal href hun =>
      rw [if_pos rfl, href]
      refine ⟨fun _ _ _ => by simp, fun _ => ?_⟩
      exact hal.atomic_none hun h hd hmap (by omega) hceil
  · have hr : allocuvm L p.pgdir p.sz (p.sz + n.toNat) m = .ok 0 m := by
      unfold allocuvm
      rw [if_pos (by omega)]
      rfl
    rw [wp_bind, wp_of_ok hr, wp_pure, if_pos rfl]
    exact ⟨fun _ hc => absurd hc (by omega), fun _ => .refl⟩

/-- The shrinking half. -/
theorem shrink_iff (h : Own L m l D H role) (hd : p.pgdir ∈ D) (h0 : 0 < p.sz)
    (hk : p.sz < KERNBASE)
    (hmap : ∀ u < 2 ^ 19, present (m.look p.pgdir u) ↔ u < pageCeil p.sz) (hn : n < 0)
    (hn' : -2 ^ 31 ≤ n) :
    wp (growproc L p n) (Atomic p n m) (fun _ _ => False) m ↔ 0 < p.sz + n := by
  obtain ⟨r, m', hr, hr', l', role', hun⟩ :=
    (deallocuvm_wp h hd hk.le (addSize p.sz n)).returns
  unfold growproc
  rw [if_neg (by omega), if_pos hn, wp_bind, wp_of_ok hr, wp_pure]
  by_cases hneg : (p.sz : Int) + n < 0
  · -- the sum wraps, nothing is done, and the old size is reported as the new one
    have hbig := addSize_of_neg hneg hn'
    have hmin : r = p.sz := by
      unfold KERNBASE at hk
      omega
    rw [hmin, if_neg (by omega)]
    refine ⟨fun hat => ?_, fun hc => by omega⟩
    have := hat.1
    omega
  · have hsum := addSize_of_nonneg (show 0 ≤ (p.sz : Int) + n by omega)
      (by unfold KERNBASE at hk; omega)
    have hmin : r = addSize p.sz n := by omega
    by_cases hz : addSize p.sz n = 0
    · -- everything is freed, and the size 0 is taken for a failure
      rw [hmin, if_pos hz]
      refine ⟨fun hat => ?_, fun hc => by omega⟩
      have hp0 : 0 < pageCeil p.sz := by
        unfold pageCeil PGSIZE
        omega
      have hpres := (hmap 0 (by omega)).mpr hp0
      have hgone : ¬ present (m'.look p.pgdir 0) := by
        apply hun.gone
        rw [hz]
        exact reached_zero.mpr hp0
      have := hat.1 0 (by omega)
      rw [Mach.maps_none hgone, Mach.maps, if_pos hpres] at this
      cases this
    · rw [hmin, if_neg hz]
      exact ⟨fun _ => by omega, fun _ => hun.atomic h hd hmap hk hsum (by omega)⟩

/-- `growproc` is atomic if and only if it shrinks to a size above 0, or grows and no page is
    lost for lack of a table without the call failing. -/
theorem growproc_atomic_iff (h : Own L m l D H role) (hd : p.pgdir ∈ D) (h0 : 0 < p.sz)
    (hk : p.sz < KERNBASE)
    (hmap : ∀ u < 2 ^ 19, present (m.look p.pgdir u) ↔ u < pageCeil p.sz) (hn : -2 ^ 31 ≤ n)
    (hn' : n < 2 ^ 31) :
    wp (growproc L p n) (Atomic p n m) (fun _ _ => False) m ↔
      (0 ≤ n ∧ (p.sz + n < KERNBASE →
        .table ∈ (m.stock l p.pgdir).refused (pageCeil (p.sz + n.toNat) - pageCeil p.sz)
          (pageCeil p.sz) →
        .data ∈ (m.stock l p.pgdir).refused (pageCeil (p.sz + n.toNat) - pageCeil p.sz)
          (pageCeil p.sz))) ∨ (n < 0 ∧ 0 < p.sz + n) := by
  rcases lt_trichotomy n 0 with hlt | rfl | hgt
  · rw [shrink_iff h hd h0 hk hmap hlt hn]
    omega
  · have hpost : wp (growproc L p 0) (Atomic p 0 m) (fun _ _ => False) m := by
      refine ⟨(Int.add_zero _).symm, hk, hmap, fun a _ => rfl⟩
    refine ⟨fun _ => .inl ⟨le_refl 0, ?_⟩, fun _ => hpost⟩
    have hz : pageCeil (p.sz + (0 : Int).toNat) - pageCeil p.sz = 0 := by simp
    rw [hz]
    intro _ hc
    cases hc
  · rw [grow_iff h hd hk hmap hgt hn']
    constructor
    · intro hc
      exact .inl ⟨hgt.le, hc⟩
    · rintro (hc | hc)
      · exact hc.2
      · omega

/-- A process of one page. -/
theorem exists_proc : ∃ m l role, ∃ p : Proc, Own linked m l [p.pgdir] [] role ∧
    p.sz = PGSIZE ∧ ∀ u < 2 ^ 19, present (m.look p.pgdir u) ↔ u < pageCeil p.sz := by
  obtain ⟨m, l, role, d, h, hmap, -, -⟩ := exists_single
  have hc : pageCeil PGSIZE = 1 := by decide
  refine ⟨m, l, role, ⟨d, 0, PGSIZE, false⟩, h, rfl, ?_⟩
  dsimp only
  rw [hc]
  exact hmap

/-- A process of one page gives up a byte. -/
theorem growproc_atomic_byte : ∃ (m : Mach) (l : List Nat) (role : Nat → Role) (p : Proc),
    Own linked m l [p.pgdir] [] role ∧ p.sz = PGSIZE ∧
    wp (growproc linked p (-1)) (Atomic p (-1) m) (fun _ _ => False) m := by
  obtain ⟨m, l, role, p, h, hsz, hmap⟩ := exists_proc
  have h0 : 0 < p.sz ∧ p.sz < KERNBASE ∧ 0 < (p.sz : Int) + -1 := by
    rw [hsz]
    decide
  exact ⟨m, l, role, p, h, hsz, (growproc_atomic_iff h List.mem_cons_self h0.1 h0.2.1 hmap
    (by omega) (by omega)).mpr (.inr ⟨by omega, h0.2.2⟩)⟩

/-- It cannot give up all it has: that is reported as a failure after the page is gone. And
    giving up more is reported as a success. -/
theorem growproc_to_zero : ∃ (m : Mach) (l : List Nat) (role : Nat → Role) (p : Proc),
    Own linked m l [p.pgdir] [] role ∧ p.sz = PGSIZE ∧
    (∀ u < 2 ^ 19, present (m.look p.pgdir u) ↔ u < pageCeil p.sz) ∧
    (∃ m', growproc linked p (-4096) m = .ok none m' ∧ ¬ present (m'.look p.pgdir 0) ∧
      ¬ Atomic p (-4096) m none m') ∧
    growproc linked p (-4097) m = .ok (some PGSIZE) m ∧ ¬ Atomic p (-4097) m (some PGSIZE) m := by
  obtain ⟨m, l, role, p, h, hsz, hmap⟩ := exists_proc
  have hc : 0 < pageCeil p.sz ∧ p.sz ≤ KERNBASE ∧ addSize p.sz (-4096) = 0 ∧
      p.sz ≤ addSize p.sz (-4097) := by
    rw [hsz]
    decide
  refine ⟨m, l, role, p, h, hsz, hmap, ?_, ?_, ?_⟩
  · obtain ⟨r, m', hr, hr', l', role', hun⟩ :=
      (deallocuvm_wp h List.mem_cons_self hc.2.1 0).returns
    rw [Nat.min_zero] at hr'
    have hgone : ¬ present (m'.look p.pgdir 0) := hun.gone (reached_zero.mpr hc.1)
    refine ⟨m', ?_, hgone, ?_⟩
    · unfold growproc
      rw [if_neg (by omega), if_pos (by omega), hc.2.2.1, Exec.bind_ok hr, if_pos hr']
      rfl
    · rintro ⟨hmaps, -⟩
      have := hmaps 0 (by omega)
      rw [Mach.maps_none hgone, Mach.maps, if_pos ((hmap 0 (by omega)).mpr hc.1)] at this
      cases this
  · have hr : deallocuvm linked p.pgdir p.sz (addSize p.sz (-4097)) m = .ok p.sz m := by
      unfold deallocuvm
      rw [if_pos hc.2.2.2]
      rfl
    unfold growproc
    rw [if_neg (by omega), if_pos (by omega), Exec.bind_ok hr, hsz, if_neg (by decide)]
    rfl
  · rintro ⟨hs, -⟩
    rw [hsz] at hs
    exact absurd hs (by decide)

end Grow

end Zv6.Mem
