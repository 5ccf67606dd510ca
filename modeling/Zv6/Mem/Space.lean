/-
  Address spaces as a whole: `deallocuvm`, `freevm`, `allocuvm` and `copyuvm`.

  `kfree` does not notice a page that is still in use, so these functions are right only
  because every page they free is one they own: a page that an entry of the directory maps, a
  table behind an entry, the directory. That the entries agree with the owners is `Own`, and
  each function keeps it, also on its failure paths, where pages may leak.
-/
import Zv6.Mem.Tables

namespace Zv6.Mem

open Zv6.Lib Function

variable {L : Link} {m m' m'' : Mach} {l l' D H P P' P'' : List Nat} {role : Nat → Role}
  {c d p q u v n : Nat} {r : Bool}

/-! ## deallocuvm -/

/-- Only pages of the pool and of the directory have been written; pages may have moved from
    the directory to the pool. -/
structure Shrinks (d : Nat) (m : Mach) (P : List Nat) (m' : Mach) (P' : List Nat) : Prop where
  page : ∀ q, q ∉ P → ¬ Foot m d q → m'.page q = m.page q
  foot : ∀ q, q ∈ P' ∨ Foot m' d q → q ∈ P ∨ Foot m d q

/-- A directory that has grown by pages of the pool. -/
theorem Grows.shrinks (h : Grows d m P m' P') (hu : ∀ u < 2 ^ 19, present (m'.look d u) →
    frame (m'.look d u) ∈ P ∨ m'.look d u = m.look d u) : Shrinks d m P m' P' := by
  refine ⟨fun q hq hf => h.page q hq fun hc => hf (.inl hc), ?_⟩
  intro q hq
  rcases hq with hq | hq | ⟨u, hlt, hp, rfl⟩
  · exact .inl (h.pool q hq)
  · rcases h.tab q hq with hq | hq
    · exact .inl hq
    · exact .inr (.inl hq)
  · rcases hu u hlt hp with hm | he
    · exact .inl hm
    · rw [he] at hp ⊢
      exact .inr (.inr ⟨u, hlt, hp, rfl⟩)

theorem Mach.free_setWord {t j : Nat} (h : t ≠ p) (w : UInt32) :
    (m.free p).setWord t j w = (m.setWord t j w).free p := by
  unfold Mach.free Mach.setWord Mach.setPage
  simp only [update_of_ne h]
  rw [update_comm h]

/-- Freeing a page that is not the directory's changes nothing in it. -/
theorem DirOk.free_page (h : DirOk L m role d) (hp : role p = .held)
    (hq : q = d ∨ ∃ i, role q = .table d i) : (m.free p).page q = m.page q := by
  apply update_of_ne
  rintro rfl
  rcases hq with rfl | ⟨i, hi⟩
  · rw [h.dir.1] at hp
    cases hp
  · rw [hi] at hp
    cases hp

/-- The page was mapped at one of the page numbers `S`. -/
def Freed (m : Mach) (d : Nat) (S : Nat → Prop) (q : Nat) : Prop :=
  ∃ u, S u ∧ present (m.look d u) ∧ q = frame (m.look d u)

/-- The user pages mapped at the page numbers `S` have been unmapped and freed, and nothing
    else. -/
structure Unmaps (L : Link) (D H : List Nat) (d : Nat) (S : Nat → Prop) (m : Mach) (l : List Nat)
    (m' : Mach) (l' : List Nat) (role' : Nat → Role) : Prop where
  own : Own L m' l' D H role'
  below : ∀ u, S u → u < 2 ^ 19
  word : ∀ i, m'.word d i = m.word d i
  cleared : ∀ u, S u → present (m.look d u) → m'.look d u = 0
  kept : ∀ u < 2 ^ 20, (S u → ¬ present (m.look d u)) → m'.look d u = m.look d u
  list : ∀ q, q ∈ l' ↔ q ∈ l ∨ Freed m d S q
  page : ∀ q, ¬ Tab m d q → ¬ Freed m d S q → m'.page q = m.page q

theorem Tab.congr (h : ∀ i, m'.word d i = m.word d i) (q : Nat) : Tab m' d q ↔ Tab m d q := by
  unfold Tab Mach.tab
  simp only [h]

section Unmaps

variable {S T : Nat → Prop} {role' role'' : Nat → Role}

theorem Unmaps.none (h : Own L m l D H role) (hS : ∀ u, ¬ S u) :
    Unmaps L D H d S m l m l role := by
  refine ⟨h, fun u hu => absurd hu (hS u), fun _ => rfl, fun u hu => absurd hu (hS u),
    fun _ _ _ => rfl, ?_, fun _ _ _ => rfl⟩
  intro q
  simp [Freed, hS]

theorem Freed.congr (h : ∀ u, present (m.look d u) → (S u ↔ T u)) (q : Nat) :
    Freed m d S q ↔ Freed m d T q := by
  refine exists_congr fun u => ?_
  rw [and_left_comm, and_left_comm (a := T u)]
  exact and_congr_right fun hp => and_congr_left fun _ => h u hp

/-- Only the pages that are mapped matter. -/
theorem Unmaps.congr (h : Unmaps L D H d S m l m' l' role') (hT : ∀ u, T u → u < 2 ^ 19)
    (hS : ∀ u, present (m.look d u) → (S u ↔ T u)) : Unmaps L D H d T m l m' l' role' := by
  refine ⟨h.own, hT, h.word, fun u hu hp => h.cleared u ((hS u hp).mpr hu) hp, ?_, ?_, ?_⟩
  · intro u hu hn
    exact h.kept u hu fun hs hp => hn ((hS u hp).mp hs) hp
  · intro q
    rw [h.list q, Freed.congr hS]
  · intro q ht hf
    rw [← Freed.congr hS] at hf
    exact h.page q ht hf

/-- A page that is still mapped was mapped all along. -/
theorem Unmaps.look_of_present (h : Unmaps L D H d S m l m' l' role') (hu : u < 2 ^ 20)
    (hp : present (m'.look d u)) : m'.look d u = m.look d u ∧ ¬ S u := by
  have hs : S u → ¬ present (m.look d u) := by
    intro hs hp'
    rw [h.cleared u hs hp'] at hp
    exact not_present_zero hp
  have he := h.kept u hu hs
  refine ⟨he, fun hs' => hs hs' ?_⟩
  rw [← he]
  exact hp

theorem Unmaps.gone (h : Unmaps L D H d S m l m' l' role') (hu : S u) :
    ¬ present (m'.look d u) := fun hp =>
  (h.look_of_present ((h.below u hu).trans (by omega)) hp).2 hu

theorem Unmaps.freed_trans (h : Unmaps L D H d S m l m' l' role') (hT : ∀ u, T u → u < 2 ^ 19)
    (q : Nat) : Freed m d (fun u => S u ∨ T u) q ↔ Freed m d S q ∨ Freed m' d T q := by
  constructor
  · rintro ⟨u, hu, hp, hq⟩
    by_cases hs : S u
    · exact .inl ⟨u, hs, hp, hq⟩
    · have ht := hu.resolve_left hs
      have he := h.kept u ((hT u ht).trans (by omega)) fun hc => absurd hc hs
      rw [← he] at hp hq
      exact .inr ⟨u, ht, hp, hq⟩
  · rintro (⟨u, hu, hp, hq⟩ | ⟨u, hu, hp, hq⟩)
    · exact ⟨u, .inl hu, hp, hq⟩
    · have he := (h.look_of_present ((hT u hu).trans (by omega)) hp).1
      rw [he] at hp hq
      exact ⟨u, .inr hu, hp, hq⟩

theorem Unmaps.trans {l'' : List Nat} (h : Unmaps L D H d S m l m' l' role')
    (h' : Unmaps L D H d T m' l' m'' l'' role'') :
    Unmaps L D H d (fun u => S u ∨ T u) m l m'' l'' role'' := by
  refine ⟨h'.own, fun u hu => hu.elim (h.below u) (h'.below u), ?_, ?_, ?_, ?_, ?_⟩
  · intro i
    rw [h'.word, h.word]
  · intro u hu hp
    have hlt : u < 2 ^ 20 := (hu.elim (h.below u) (h'.below u)).trans (by omega)
    by_cases hs : S u
    · have h0 := h.cleared u hs hp
      rw [h'.kept u hlt fun _ => by rw [h0]; exact not_present_zero]
      exact h0
    · rw [← h.kept u hlt fun hc => absurd hc hs] at hp
      exact h'.cleared u (hu.resolve_left hs) hp
  · intro u hu hn
    have he := h.kept u hu fun hs => hn (.inl hs)
    rw [h'.kept u hu fun ht => he ▸ hn (.inr ht)]
    exact he
  · intro q
    rw [h'.list q, h.list q, h.freed_trans h'.below, or_assoc]
  · intro q ht hf
    rw [h.freed_trans h'.below, not_or] at hf
    rw [h'.page q (fun hc => ht ((Tab.congr h.word q).mp hc)) hf.2]
    exact h.page q ht hf.1

theorem Freed.foot (hS : ∀ u, S u → u < 2 ^ 19) (h : Freed m d S q) : Foot m d q := by
  obtain ⟨u, hu, hp, hq⟩ := h
  exact .inr ⟨u, hS u hu, hp, hq⟩

theorem Unmaps.conserves (h : Unmaps L D H d S m l m' l' role') : Conserves d m l m' l' := by
  intro q
  rw [h.list q, or_assoc]
  refine or_congr_right ?_
  constructor
  · rintro (ht | ⟨u, hu, hp, hq⟩)
    · exact .inr (.inl ((Tab.congr h.word q).mpr ht))
    · by_cases hs : S u
      · exact .inl ⟨u, hs, hp, hq⟩
      · rw [← h.kept u (hu.trans (by omega)) fun hc => absurd hc hs] at hp hq
        exact .inr (.inr ⟨u, hu, hp, hq⟩)
  · rintro (hf | ht | ⟨u, hu, hp, hq⟩)
    · exact hf.foot h.below
    · exact .inl ((Tab.congr h.word q).mp ht)
    · have he := (h.look_of_present (hu.trans (by omega)) hp).1
      rw [he] at hp hq
      exact .inr ⟨u, hu, hp, hq⟩

theorem Unmaps.shrinks (h : Unmaps L D H d S m l m' l' role') : Shrinks d m l m' l' :=
  ⟨fun q _ hf => h.page q (fun hc => hf (.inl hc)) fun hc => hf (hc.foot h.below),
    fun q => (h.conserves q).mpr⟩

end Unmaps

/-- Freeing the page at `v` and clearing its entry. -/
theorem dropPage_wp (h : Own L m l D H role) (hd : d ∈ D) (hv : v < 2 ^ 19)
    (ht : present (m.word d (v / 1024))) (hp : present (m.look d v)) :
    wp (dropPage L (m.tab d (v / 1024)) (v % 1024) (frame (m.look d v)))
      (fun _ m' => ∃ l' role', Unmaps L D H d (· = v) m l m' l' role')
      (fun _ _ => False) m := by
  have hok := h.dirs d hd
  have hu := hok.user v hv hp
  have htab := hok.table _ (by omega) ht
  have hne : m.tab d (v / 1024) ≠ frame (m.look d v) := by
    intro he
    unfold Mach.tab at he
    rw [he, hu.1] at htab
    cases htab.1
  have hown := h.unmap hd hv ht hp
  unfold dropPage
  rw [if_neg hu.2.pos.ne', wp_bind, wp_of_ok (kfree_ok hu.2), wp_modify, Mach.free_setWord hne]
  have hok1 := hown.dirs d hd
  have hkeep := fun q => hok1.free_page (q := q) (hown.held.role _ List.mem_cons_self).1
  have hlook := fun u (hlt : u < 2 ^ 20) =>
    (hok1.look_keep hkeep hlt).trans (hok.look_set (by omega) hlt ht 0)
  have hfreed : ∀ q, Freed m d (· = v) q ↔ q = frame (m.look d v) := by
    intro q
    simp [Freed, hp]
  refine ⟨_, _, hown.free, fun u he => he ▸ hv, ?_, ?_, ?_, ?_, ?_⟩
  · intro i
    rw [Mach.word_keep (hkeep d (.inl rfl)), hok.word_entry (by omega) ht]
  · rintro u rfl _
    rw [hlook u (by omega), if_pos rfl]
  · intro u hlt hn
    rw [hlook u hlt]
    split
    · next he =>
      subst he
      exact absurd hp (hn rfl)
    · rfl
  · intro q
    rw [hfreed, List.mem_cons, or_comm]
  · intro q hq hf
    rw [hfreed] at hf
    have h2 : q ≠ m.tab d (v / 1024) := fun he => hq (he ▸ .entry (by omega) ht)
    simp [Mach.free, Mach.setWord, Mach.setPage, hf, h2]

/-- The loop of `deallocuvm` that starts at page `v` steps over page `u`: no table is there from
    that of `v` on until that of `u`, and the last step over a missing table ends behind `u`. -/
def Skipped (m : Mach) (d v u : Nat) : Prop :=
  u % 1024 < v % 1024 ∧ ∀ i, v / 1024 ≤ i → i < u / 1024 → ¬ present (m.word d i)

/-- The loop that starts at page `v` and ends before page `w` comes to page `u`. -/
def Reached (m : Mach) (d v w u : Nat) : Prop := v ≤ u ∧ u < w ∧ ¬ Skipped m d v u

theorem Reached.congr (h : ∀ i, m'.word d i = m.word d i) (v w u : Nat) :
    Reached m' d v w u ↔ Reached m d v w u := by
  unfold Reached Skipped
  simp only [h]

/-- Where there is a table, the loop goes on with the next page. -/
theorem reached_succ {w : Nat} (hvw : v < w) (ht : present (m.word d (v / 1024))) (u : Nat) :
    u = v ∨ Reached m d (v + 1) w u ↔ Reached m d v w u := by
  unfold Reached Skipped
  constructor
  · rintro (rfl | ⟨h1, h2, -⟩)
    · exact ⟨le_refl u, hvw, fun hs => absurd hs.1 (lt_irrefl _)⟩
    · exact ⟨by omega, h2, fun hs => hs.2 (v / 1024) (le_refl _) (by omega) ht⟩
  · rintro ⟨h1, h2, -⟩
    by_cases he : u = v
    · exact .inl he
    · refine .inr ⟨by omega, h2, ?_⟩
      rintro ⟨h3, h4⟩
      have hdiv : (v + 1) / 1024 = v / 1024 := by omega
      exact h4 (v / 1024) hdiv.le (by omega) ht

/-- Where there is none, it goes on 1024 pages further. -/
theorem reached_skip {w u : Nat} (ht : ¬ present (m.word d (v / 1024)))
    (hu : present (m.look d u)) : Reached m d (v + 1024) w u ↔ Reached m d v w u := by
  have hne : u / 1024 ≠ v / 1024 := by
    intro he
    rw [← he] at ht
    exact Mach.not_present_look ht hu
  have hdiv : (v + 1024) / 1024 = v / 1024 + 1 := by omega
  have hmod : (v + 1024) % 1024 = v % 1024 := by omega
  unfold Reached Skipped
  rw [hdiv, hmod]
  constructor
  · rintro ⟨h1, h2, h3⟩
    refine ⟨by omega, h2, fun hs => h3 ⟨hs.1, fun i hi => hs.2 i (by omega)⟩⟩
  · rintro ⟨h1, h2, h3⟩
    have hskip : ∀ i, v / 1024 + 1 ≤ i ∨ i = v / 1024 ↔ v / 1024 ≤ i := by
      intro i
      omega
    have habs : (∀ i, v / 1024 + 1 ≤ i → i < u / 1024 → ¬ present (m.word d i)) →
        ∀ i, v / 1024 ≤ i → i < u / 1024 → ¬ present (m.word d i) := by
      intro hall i hi hlt
      rcases (hskip i).mpr hi with hi | rfl
      · exact hall i hi hlt
      · exact ht
    refine ⟨?_, h2, fun hs => h3 ⟨hs.1, habs hs.2⟩⟩
    by_contra hlt
    refine h3 ⟨by omega, habs ?_⟩
    intro i hi hi'
    omega

/-- The number of the first page at or after `sz`. -/
def pageCeil (sz : Nat) : Nat := (sz + PGSIZE - 1) / PGSIZE

theorem pageCeil_le {sz : Nat} (h : sz ≤ KERNBASE) : pageCeil sz ≤ 2 ^ 19 := by
  unfold pageCeil KERNBASE PGSIZE at *
  omega

/-- The loop of `deallocuvm` over user pages. -/
theorem deallocLoop_wp (hd : d ∈ D) {oldsz : Nat} (hsz : oldsz ≤ KERNBASE) (k : Nat) :
    ∀ {v : Nat} {m : Mach} {l : List Nat} {role : Nat → Role}, Own L m l D H role →
      pageCeil oldsz ≤ v + k →
      wp (deallocLoop L d oldsz k (v * PGSIZE))
        (fun _ m' => ∃ l' role',
          Unmaps L D H d (Reached m d v (pageCeil oldsz)) m l m' l' role')
        (fun _ _ => False) m := by
  have hceil := pageCeil_le hsz
  have hend : ∀ {v m l role}, Own L m l D H role → pageCeil oldsz ≤ v →
      Unmaps L D H d (Reached m d v (pageCeil oldsz)) m l m l role := by
    intro v m l role h hle
    refine .none h ?_
    rintro u ⟨h1, h2, -⟩
    omega
  induction k with
  | zero =>
    intro v m l role h hk
    exact ⟨l, role, hend h (by omega)⟩
  | succ k ih =>
    intro v m l role h hk
    unfold deallocLoop
    apply wp_ite
    · intro hle
      refine ⟨l, role, hend h ?_⟩
      unfold pageCeil PGSIZE at *
      omega
    · intro hlt
      have hv : v < pageCeil oldsz := by
        unfold pageCeil PGSIZE at *
        omega
      have hbelow : ∀ u, Reached m d v (pageCeil oldsz) u → u < 2 ^ 19 := by
        rintro u ⟨-, hu, -⟩
        omega
      refine wp_walk (by omega) (fun ht => ?_) fun ht => ?_
      · have hskip : v * PGSIZE + (NPTENTRIES - 1) * PGSIZE + PGSIZE = (v + 1024) * PGSIZE := by
          unfold NPTENTRIES PGSIZE
          omega
        rw [hskip]
        refine (ih h (by omega)).post ?_
        rintro _ m' ⟨l', role', hun⟩
        exact ⟨l', role', hun.congr hbelow fun u hp => reached_skip ht hp⟩
      · rw [wp_gets_bind, ← Mach.look_of_present ht, ← Nat.succ_mul]
        refine wp.bind (wp_when (Q := fun _ m' => ∃ l' role',
          Unmaps L D H d (· = v) m l m' l' role') ?_ ?_) ?_
        · intro hp
          exact dropPage_wp h hd (by omega) ht hp
        · intro hp
          refine ⟨l, role, (Unmaps.none h fun _ h => h).congr (fun u he => he ▸ by omega) ?_⟩
          intro u hu
          refine ⟨False.elim, ?_⟩
          rintro rfl
          exact hp hu
        · rintro _ m1 ⟨l1, role1, h1⟩
          refine (ih h1.own (by omega)).post ?_
          rintro _ m2 ⟨l2, role2, h2⟩
          refine ⟨l2, role2, (h1.trans h2).congr hbelow fun u _ => ?_⟩
          rw [Reached.congr h1.word]
          exact reached_succ hv ht u

theorem PGROUNDUP_eq {sz : Nat} (h : sz ≤ KERNBASE) : PGROUNDUP sz = pageCeil sz * PGSIZE := by
  unfold PGROUNDUP pageCeil KERNBASE PGSIZE at *
  omega

theorem pageCeil_mono {a b : Nat} (h : a ≤ b) : pageCeil a ≤ pageCeil b := by
  unfold pageCeil PGSIZE
  omega

theorem rounds_eq {a b : Nat} (h : b ≤ KERNBASE) (hle : a ≤ b) :
    rounds (PGROUNDUP a) b = pageCeil b - pageCeil a := by
  rw [PGROUNDUP_eq (by omega)]
  unfold rounds pageCeil PGSIZE
  omega

theorem deallocuvm_wp (h : Own L m l D H role) (hd : d ∈ D) {oldsz : Nat}
    (hsz : oldsz ≤ KERNBASE) (newsz : Nat) :
    wp (deallocuvm L d oldsz newsz) (fun r m' => r = min oldsz newsz ∧ ∃ l' role',
      Unmaps L D H d (Reached m d (pageCeil newsz) (pageCeil oldsz)) m l m' l' role')
      (fun _ _ => False) m := by
  unfold deallocuvm
  apply wp_ite
  · intro hle
    refine ⟨(Nat.min_eq_left hle).symm, l, role, .none h ?_⟩
    rintro u ⟨h1, h2, -⟩
    have := pageCeil_mono hle
    omega
  · intro hlt
    rw [rounds_eq hsz (by omega), PGROUNDUP_eq (by omega)]
    refine (deallocLoop_wp hd hsz _ h (by omega)).bind ?_
    intro _ m' hun
    exact ⟨(Nat.min_eq_right (by omega)).symm, hun⟩

/-! ## freevm -/

theorem Mach.tabs_keep (h : m'.page d = m.page d) (n : Nat) :
    ∀ i, m'.tabs d i n = m.tabs d i n := by
  induction n with
  | zero => intro _; rfl
  | succ n ih =>
    intro i
    unfold Mach.tabs Mach.tab
    rw [Mach.word_keep h, ih]

theorem Mach.tab_mem_tabs {j : Nat} (hp : present (m.word d j)) (n : Nat) :
    ∀ {i : Nat}, i ≤ j → j < i + n → m.tab d j ∈ m.tabs d i n := by
  induction n with
  | zero =>
    intro i h1 h2
    omega
  | succ n ih =>
    intro i h1 h2
    unfold Mach.tabs
    rcases Nat.eq_or_lt_of_le h1 with rfl | hlt
    · rw [if_pos hp]
      exact List.mem_cons_self
    · have hm := ih hlt (by omega)
      split
      · exact List.mem_cons_of_mem _ hm
      · exact hm

/-- Freeing the tables of a directory that has been given up. -/
theorem freeTables_wp (n : Nat) :
    ∀ {i : Nat} {m : Mach} {l : List Nat} {role : Nat → Role},
      Own L m l D (m.tabs d i n ++ d :: H) role →
      wp (freeTables L d i n) (fun _ m' => ∃ l' role', Own L m' l' D (d :: H) role' ∧
        (∀ q, q ∉ m.tabs d i n → m'.page q = m.page q) ∧
        ∀ q, q ∈ l' ↔ q ∈ l ∨ q ∈ m.tabs d i n) (fun _ _ => False) m := by
  induction n with
  | zero =>
    intro i m l role h
    exact ⟨l, role, h, fun _ _ => rfl, fun q => by simp [Mach.tabs]⟩
  | succ n ih =>
    intro i m l role h
    unfold freeTables
    rw [wp_gets_bind]
    unfold Mach.tabs at h ⊢
    by_cases hp : present (m.word d i)
    · rw [if_pos hp] at h ⊢
      rw [Exec.when_pos hp, wp_bind]
      refine (wp_of_ok (kfree_ok (h.held.role _ List.mem_cons_self).2)).mpr ?_
      have hne : ∀ q, q ≠ m.tab d i → (m.free (m.tab d i)).page q = m.page q :=
        fun q hq => update_of_ne hq ..
      have hd : d ≠ m.tab d i := by
        have := (List.nodup_cons.mp h.held.nodup).1
        rintro he
        exact this (he ▸ List.mem_append_right _ List.mem_cons_self)
      have htabs := Mach.tabs_keep (hne d hd) n (i + 1)
      have hfree := h.free
      rw [← htabs] at hfree
      refine (ih hfree).post ?_
      rintro _ m' ⟨l', role', hown, hpage, hl⟩
      rw [htabs] at hpage hl
      refine ⟨l', role', hown, ?_, ?_⟩
      · intro q hq
        rw [hpage q fun hc => hq (List.mem_cons_of_mem _ hc)]
        exact hne q fun he => hq (he ▸ List.mem_cons_self)
      · intro q
        rw [hl q, List.mem_cons, List.mem_cons, or_assoc, or_left_comm]
    · rw [if_neg hp] at h ⊢
      rw [Exec.when_neg hp, wp_pure_bind]
      exact ih h

/-- `deallocuvm` from page 0 on skips no page. -/
theorem reached_zero {w u : Nat} : Reached m d 0 w u ↔ u < w := by
  unfold Reached Skipped
  simp

/-- All pages of the directory go back to the list, each once. -/
theorem freevm_wp (h : Own L m l (d :: D) H role) :
    wp (freevm L d) (fun _ m' => ∃ l' role', Own L m' l' D H role' ∧
      (∀ q, q ∉ l → ¬ Foot m d q → m'.page q = m.page q) ∧ ∀ q, q ∈ l' ↔ q ∈ l ∨ Foot m d q)
      (fun _ _ => False) m := by
  have hk : pageCeil KERNBASE = 2 ^ 19 := by decide
  have h0 : pageCeil 0 = 0 := by decide
  unfold freevm
  refine (deallocuvm_wp h List.mem_cons_self (le_refl KERNBASE) _).bind ?_
  rintro _ m1 ⟨-, l1, role1, hun⟩
  have htabs : ∀ q, q ∈ m1.tabs d 0 1024 ↔ Tab m d q ∧ q ≠ d := by
    intro q
    constructor
    · intro hq
      obtain ⟨j, -, h2, h3, rfl⟩ := Mach.mem_tabs hq
      refine ⟨(Tab.congr hun.word _).mp (.entry (by omega) h3), ?_⟩
      exact (hun.own.dirs d List.mem_cons_self).tab_ne (by omega) h3
    · rintro ⟨ht, hne⟩
      rcases (Tab.congr hun.word q).mpr ht with rfl | ⟨j, hj, hp, rfl⟩
      · exact absurd rfl hne
      · exact Mach.tab_mem_tabs hp 1024 (Nat.zero_le j) (by omega)
  have hfreed : ∀ q, q ∈ l1 ↔ q ∈ l ∨ ∃ u < 2 ^ 19, present (m.look d u) ∧
      q = frame (m.look d u) := by
    intro q
    rw [hun.list q, h0, hk]
    unfold Freed
    simp only [reached_zero]
  refine (freeTables_wp 1024 hun.own.surrender).bind ?_
  rintro _ m2 ⟨l2, role2, hown2, hpage, hl⟩
  rw [wp_of_ok (kfree_ok (hown2.held.role d List.mem_cons_self).2)]
  refine ⟨_, _, hown2.free, ?_, ?_⟩
  · intro q hq hf
    have hqd : q ≠ d := fun he => hf (.inl (.inl he))
    have h1 : (m2.free d).page q = m2.page q := update_of_ne hqd ..
    rw [h1, hpage q fun hc => hf (.inl ((htabs q).mp hc).1)]
    exact hun.shrinks.page q hq hf
  · intro q
    rw [List.mem_cons, hl q, htabs, hfreed]
    unfold Foot
    by_cases hqd : q = d
    · simp [hqd, Tab]
    · simp only [hqd, false_or, ne_eq, not_false_eq_true, and_true]
      rw [or_assoc, or_comm (a := Tab m d q)]

/-! ## allocuvm -/

/-- What a page is asked for. -/
inductive Request where
  | stack
  | dir
  | data
  | table
  deriving DecidableEq

namespace Stock

/-- The requests that are refused when pages are asked for `k` page numbers from `v` on, each
    with its table if that is missing. A data page that is refused ends the series, a table does
    not. -/
def refused : Nat → Nat → Stock → List Request
  | 0, _, _ => []
  | k + 1, v, s =>
    if s.supply.ok then
      (if s.take.has (v / 1024) then [] else [.table]) ++
        refused k (v + 1) (s.take.ensure (v / 1024))
    else [.data]

/-- After the series, if no data page is refused. -/
def after : Nat → Nat → Stock → Stock
  | 0, _, s => s
  | k + 1, v, s => after k (v + 1) (s.take.ensure (v / 1024))

theorem Rich.refused (k : Nat) : ∀ {v : Nat} {s : Stock}, Rich (n + k) s →
    v + k ≤ 2 ^ 20 → s.refused k v = [] ∧ Rich n (s.after k v) := by
  induction k with
  | zero =>
    intro v s h _
    exact ⟨rfl, h⟩
  | succ k ih =>
    intro v s h hv
    obtain ⟨hhas, hr⟩ := h.take.ensure (i := v / 1024) (by omega)
    unfold Stock.refused Stock.after
    rw [if_pos h.ok, if_pos hhas]
    exact ih hr (by omega)

end Stock

/-- A user page is neither free nor a table. -/
theorem Own.user_outside (h : Own L m l D H role) (hd : d ∈ D) (hu : u < 2 ^ 19)
    (hp : present (m.look d u)) {d' : Nat} (hd' : d' ∈ D) :
    frame (m.look d u) ∉ l ∧ ¬ Tab m d' (frame (m.look d u)) := by
  have hr := ((h.dirs d hd).user u hu hp).1
  refine ⟨h.not_mem_list (by simp [hr]), ?_⟩
  have hok := h.dirs d' hd'
  rintro (he | ⟨i, hi, hpi, he⟩)
  · rw [he, hok.dir.1] at hr
    cases hr
  · have := (hok.table i hi hpi).1
    unfold Mach.tab at he
    rw [← he, hr] at this
    cases this

/-- Writing a page that is no table changes no table. -/
theorem DirOk.keep_write (h : DirOk L m role d) (hp : role p = .held ∨ ∃ e u, role p = .user e u)
    (x : Page) : p ≠ d ∧ (∀ i, (m.setPage p x).word d i = m.word d i) ∧
      ∀ v < 2 ^ 20, (m.setPage p x).look d v = m.look d v := by
  have hne : ∀ q, q = d ∨ (∃ i, role q = .table d i) → q ≠ p := by
    rintro q hq rfl
    have hd := h.dir.1
    rcases hp with hp | ⟨e, u, hp⟩ <;> rcases hq with rfl | ⟨i, hi⟩ <;> simp_all
  have hd := hne d (.inl rfl)
  exact ⟨hd.symm, fun i => Mach.word_setPage_ne hd i,
    fun v hv => h.look_keep (fun q hq => update_of_ne (hne q hq) ..) hv⟩

/-- A page is allocated and written before it is mapped. -/
theorem Own.fill (h : Own L m l D (p :: H) role) (hd : d ∈ D) (x : Page) :
    Own L (m.setPage p x) l D (p :: H) role ∧
      (∀ u < 2 ^ 20, (m.setPage p x).look d u = m.look d u) ∧
      Grows d m (p :: P) (m.setPage p x) (p :: P) ∧
      ∀ i, (m.setPage p x).word d i = m.word d i := by
  have hp := (h.held.role p List.mem_cons_self).1
  obtain ⟨-, hdw, hlook⟩ := (h.dirs d hd).keep_write (.inl hp) x
  refine ⟨h.write (.inl hp) x, hlook, ⟨?_, fun _ hq => hq, ?_⟩, hdw⟩
  · intro q hq _
    exact update_of_ne (List.ne_of_not_mem_cons hq) ..
  · rintro q (rfl | ⟨i, hi, hpi, rfl⟩)
    · exact .inr (.inl rfl)
    · rw [hdw] at hpi
      exact .inr (.inr ⟨i, hi, hpi, congrArg frame (hdw i)⟩)

/-- The page `p` unless it could be mapped. -/
def lostPage (r : Bool) (p : Nat) : List Nat := if r then [] else [p]

/-- What one round of `allocuvm` or `copyuvm` does with the page `p` it has allocated: the page
    is filled with `x` and mapped at `v`, or lost. -/
structure Adds (L : Link) (D H : List Nat) (d v p : Nat) (x : Page) (m : Mach) (l : List Nat)
    (r : Bool) (m' : Mach) (l' : List Nat) (role' : Nat → Role) : Prop where
  own : Own L m' l' D (lostPage r p ++ H) role'
  grows : Grows d m l m' l'
  conserves : Conserves d m l m' (lostPage r p ++ l')
  other : ∀ u < 2 ^ 20, u ≠ v → m'.look d u = m.look d u
  lost : r = false → ¬ present (m'.look d v)
  page : r = true → m'.look d v = pte (p * PGSIZE) (PTE_W ||| PTE_U) ∧ m'.page p = x
  stock : m'.stock l' d = (m.stock l d).take.ensure (v / 1024)
  has : r = (m.stock l d).take.has (v / 1024)

theorem addPage_wp {m1 : Mach} (x : Page) (h : Own L m1 l D (p :: H) role) (hd : d ∈ D)
    (hv : v < 2 ^ 19) (hpage : m1.page = m.page)
    (hnext : m1.supply l = (m.supply (p :: l)).next) :
    wp (mappages d (v * PGSIZE) PGSIZE (p * PGSIZE) (PTE_W ||| PTE_U))
      (fun r m' => ∃ l' role', Adds L D H d v p x m (p :: l) r m' l' role')
      (fun _ _ => present (m.look d v)) (m1.setPage p x) := by
  have hp := h.held.role p List.mem_cons_self
  obtain ⟨hown1, hlook1, hgrow1, hword1⟩ := h.fill (P := l) hd x
  have hlook : ∀ u < 2 ^ 20, (m1.setPage p x).look d u = m.look d u := by
    intro u hu
    rw [hlook1 u hu, Mach.look_page hpage]
  have hgrow : Grows d m (p :: l) (m1.setPage p x) (p :: l) :=
    (Grows.of_page hpage fun _ hq => hq).trans hgrow1
  have hcons : Conserves d m (p :: l) (m1.setPage p x) (p :: l) := by
    refine .of_foot (Foot.congr ?_ fun u hu => hlook u (by omega))
    intro i
    rw [hword1, Mach.word_page hpage]
  have hstock : (m1.setPage p x).stock l d = (m.stock (p :: l) d).take := by
    rw [← Mach.stock_take hnext hpage]
    exact Mach.stock_of_words rfl hword1
  refine (mappages_user hown1 hd hv).mono ?_ ?_
  · rintro (_ | _) m2 ⟨l2, role2, hpage2, hgrow2, hstock2, hhas, hfalse, htrue⟩
    · obtain ⟨hown2, hn, hlook2, hcons2⟩ := hfalse rfl
      rw [hstock] at hstock2 hhas
      refine ⟨l2, role2, hown2, hgrow.trans hgrow2, hcons.trans (hcons2.hold p), ?_, ?_, nofun,
        hstock2, hhas⟩
      · intro u hu _
        rw [hlook2 u hu, hlook u hu]
      · intro _
        rw [hlook2 v (by omega)]
        exact hn
    · obtain ⟨hown2, hlook2, hcons2⟩ := htrue rfl
      rw [hstock] at hstock2 hhas
      refine ⟨l2, role2, hown2, hgrow.trans hgrow2, hcons.trans hcons2, ?_, nofun,
        fun _ => ⟨?_, ?_⟩, hstock2, hhas⟩
      · intro u hu hne
        rw [hlook2 u hu, if_neg hne, hlook u hu]
      · rw [hlook2 v (by omega), if_pos rfl]
      · rw [hpage2]
        exact update_self ..
  · intro _ _ hpres
    rw [hlook v (by omega)] at hpres
    exact hpres

theorem frame_user (hp : Valid L p) : frame (pte (p * PGSIZE) (PTE_W ||| PTE_U)) = p :=
  frame_pte hp.lt (by decide)

/-- The page a round has mapped stays as it is while the directory grows. -/
theorem Adds.stays {x : Page} {role' : Nat → Role} (h : Adds L D H d v p x m l r m' l' role')
    (hr : r = true) (hd : d ∈ D) (hv : v < 2 ^ 19) (hp : Valid L p) {l'' : List Nat}
    (hg : Grows d m' l' m'' l'') : m''.page p = x := by
  obtain ⟨hlook, hx⟩ := h.page hr
  have hout := h.own.user_outside hd hv (by rw [hlook]; exact present_pte _ _) hd
  rw [hlook, frame_user hp] at hout
  rw [hg.page p hout.1 hout.2]
  exact hx

/-- The pages a loop of `k` rounds from `v` on has mapped: each is mapped to a page of zeroes,
    or, if no table could be had for it, not mapped at all. The pages `X` are lost. -/
structure Allocs (L : Link) (D H : List Nat) (d v k : Nat) (m : Mach) (l X : List Nat)
    (m' : Mach) (l' : List Nat) (role' : Nat → Role) : Prop where
  own : Own L m' l' D (X ++ H) role'
  grows : Grows d m l m' l'
  conserves : Conserves d m l m' (X ++ l')
  other : ∀ u < 2 ^ 20, u < v ∨ v + k ≤ u → m'.look d u = m.look d u
  page : ∀ u, v ≤ u → u < v + k → present (m'.look d u) →
    ∃ p ∈ l, m'.look d u = pte (p * PGSIZE) (PTE_W ||| PTE_U) ∧ m'.page p = fun _ => 0
  full : (∀ u, v ≤ u → u < v + k → present (m'.look d u)) ↔ X = []
  lost : ∀ p ∈ X, p ∈ l

theorem Allocs.zero {m1 : Mach} (h : Own L m1 l D H role) (hpage : m1.page = m.page) :
    Allocs L D H d v 0 m l [] m1 l role := by
  refine ⟨h, .of_page hpage fun _ hq => hq, .of_foot (Foot.of_page hpage),
    fun u _ _ => Mach.look_page hpage d u, ?_, ?_, nofun⟩
  · intro u h1 h2
    omega
  · refine ⟨fun _ => rfl, ?_⟩
    intro _ u h1 h2
    omega

/-- One round followed by the rest. -/
theorem Adds.allocs {role' role'' : Nat → Role} {k : Nat} {l'' X : List Nat}
    (h : Adds L D H d v p (fun _ => 0) m (p :: l) r m' l' role')
    (h' : Allocs L D (lostPage r p ++ H) d (v + 1) k m' l' X m'' l'' role'') (hd : d ∈ D)
    (hv : v + k < 2 ^ 19) (hp : Valid L p) :
    Allocs L D H d v (k + 1) m (p :: l) (X ++ lostPage r p) m'' l'' role'' := by
  have hlook : m''.look d v = m'.look d v := h'.other v (by omega) (by omega)
  refine ⟨?_, h.grows.trans h'.grows, ?_, ?_, ?_, ?_, ?_⟩
  · rw [List.append_assoc]
    exact h'.own
  · intro q
    have h2 := h'.conserves q
    rw [h.conserves q, List.append_assoc, List.mem_append, List.mem_append, List.mem_append,
      or_assoc, h2, List.mem_append, or_assoc, or_assoc, or_left_comm, or_assoc]
  · intro u hu hne
    rw [h'.other u hu (by omega), h.other u hu (by omega)]
  · intro u h1 h2 hpres
    rcases Nat.eq_or_lt_of_le h1 with rfl | hlt
    · rw [hlook] at hpres ⊢
      cases r with
      | false => exact absurd hpres (h.lost rfl)
      | true =>
        exact ⟨p, List.mem_cons_self, (h.page rfl).1, h.stays rfl hd (by omega) hp h'.grows⟩
    · obtain ⟨q, hq, hx⟩ := h'.page u hlt (by omega) hpres
      exact ⟨q, h.grows.pool q hq, hx⟩
  · rw [List.append_eq_nil_iff, ← h'.full]
    constructor
    · intro hall
      refine ⟨fun u h1 h2 => hall u (by omega) (by omega), ?_⟩
      cases r with
      | false =>
        have := hall v (le_refl v) (by omega)
        rw [hlook] at this
        exact absurd this (h.lost rfl)
      | true => rfl
    · rintro ⟨hall, hr⟩ u h1 h2
      rcases Nat.eq_or_lt_of_le h1 with rfl | hlt
      · cases r with
        | false => cases hr
        | true =>
          rw [hlook, (h.page rfl).1]
          exact present_pte _ _
      · exact hall u hlt (by omega)
  · intro q hq
    rcases List.mem_append.mp hq with hq | hq
    · exact h.grows.pool q (h'.lost q hq)
    · cases r with
      | false => exact List.mem_singleton.mp hq ▸ List.mem_cons_self
      | true => cases hq

/-- What a call of `allocuvm` comes to: all rounds are done, or a data page is refused and what
    has been mapped is unmapped again. -/
inductive Alloced (L : Link) (D H : List Nat) (d v0 v k newsz : Nat) (m : Mach) (l : List Nat) :
    Nat → Mach → Prop where
  | done {X l' : List Nat} {m' : Mach} {role' : Nat → Role} :
      Allocs L D H d v k m l X m' l' role' →
      (m.stock l d).refused k v = List.replicate X.length .table →
      m'.stock l' d = (m.stock l d).after k v → Alloced L D H d v0 v k newsz m l newsz m'
  | undone {X l1 l' : List Nat} {m1 m' : Mach} {role1 role' : Nat → Role} (j : Nat) : j < k →
      Allocs L D H d v j m l X m1 l1 role1 →
      (m.stock l d).refused k v = List.replicate X.length .table ++ [.data] →
      Unmaps L D (X ++ H) d (Reached m1 d v0 (pageCeil newsz)) m1 l1 m' l' role' →
      Alloced L D H d v0 v k newsz m l 0 m'

theorem replicate_lostPage (X : List Nat) (r : Bool) (p : Nat) :
    List.replicate (X ++ lostPage r p).length Request.table =
      (if r then [] else [.table]) ++ List.replicate X.length .table := by
  cases r with
  | false => exact List.length_append ▸ List.replicate_succ
  | true => simp [lostPage]

/-- One round followed by the rest of the call. -/
theorem Adds.alloced {role' : Nat → Role} {k v0 newsz r' : Nat}
    (h : Adds L D H d v p (fun _ => 0) m (p :: l) r m' l' role')
    (h' : Alloced L D (lostPage r p ++ H) d v0 (v + 1) k newsz m' l' r' m'') (hd : d ∈ D)
    (hv : v + k < 2 ^ 19) (hp : Valid L p) (hok : (m.supply (p :: l)).ok = true) :
    Alloced L D H d v0 v (k + 1) newsz m (p :: l) r' m'' := by
  have hok' : (m.stock (p :: l) d).supply.ok = true := hok
  have hrefused : ∀ R, (m'.stock l' d).refused k (v + 1) = R →
      (m.stock (p :: l) d).refused (k + 1) v = (if r then [] else [.table]) ++ R := by
    rintro R rfl
    rw [Stock.refused, if_pos hok', ← h.has, h.stock]
  cases h' with
  | done hal href hst =>
    refine .done (h.allocs hal hd hv hp) ?_ ?_
    · rw [replicate_lostPage]
      exact hrefused _ href
    · rw [hst, h.stock]
      rfl
  | undone j hj hal href hun =>
    rw [← List.append_assoc] at hun
    refine .undone (j + 1) (by omega) (h.allocs hal hd (by omega) hp) ?_ hun
    rw [replicate_lostPage, List.append_assoc]
    exact hrefused _ href

theorem allocLoop_wp (hd : d ∈ D) {oldsz newsz : Nat} (hsz : newsz < KERNBASE) (k : Nat) :
    ∀ {v : Nat} {m : Mach} {l H : List Nat} {role : Nat → Role}, Own L m l D H role →
      v + k ≤ 2 ^ 19 →
      wp (allocLoop L d oldsz newsz k (v * PGSIZE))
        (Alloced L D H d (pageCeil oldsz) v k newsz m l)
        (fun _ _ => ∃ u, v ≤ u ∧ u < v + k ∧ present (m.look d u)) m := by
  induction k with
  | zero =>
    intro v m l H role h _
    exact .done (.zero h rfl) rfl rfl
  | succ k ih =>
    intro v m l H role h hv
    unfold allocLoop
    refine (kalloc_wp h).bind ?_
    rintro (_ | p) m1 ⟨hpage, hok, hm⟩
    · refine (deallocuvm_wp hm.2 hd hsz.le _).andThen ?_
      rintro _ m2 ⟨-, l2, role2, hun⟩
      refine .undone 0 (Nat.succ_pos k) (.zero hm.2 hpage) ?_ hun
      have hok' : (m.stock l d).supply.ok = false := hok
      rw [Stock.refused, if_neg (by simp [hok'])]
      rfl
    · obtain ⟨l1, rfl, hnext, hown⟩ := hm
      have hvp := (hown.held.role p List.mem_cons_self).2
      have hadds := addPage_wp (fun _ => 0) hown hd (v := v) (by omega) hpage hnext
      simp only [memset, wp_modify_bind]
      refine (hadds.mono (fun _ _ h => h) ?_).bind ?_
      · intro _ _ hpres
        exact ⟨v, le_refl v, by omega, hpres⟩
      rintro r m2 ⟨l2, role2, hadd⟩
      rw [← Nat.succ_mul]
      refine (ih hadd.own (by omega)).mono ?_ ?_
      · intro r' m3 hal
        exact hadd.alloced hal hd (by omega) hvp hok
      · rintro _ _ ⟨u, h1, h2, hpres⟩
        rw [hadd.other u (by omega) (by omega)] at hpres
        exact ⟨u, by omega, by omega, hpres⟩

/-- `allocuvm` refuses, has nothing to do, or runs its loop. -/
theorem allocuvm_wp (h : Own L m l D H role) (hd : d ∈ D) (oldsz newsz : Nat) :
    wp (allocuvm L d oldsz newsz) (fun r m' =>
      (KERNBASE ≤ newsz ∧ r = 0 ∧ m' = m) ∨ (newsz < oldsz ∧ r = oldsz ∧ m' = m) ∨
      (oldsz ≤ newsz ∧ newsz < KERNBASE ∧ Alloced L D H d (pageCeil oldsz) (pageCeil oldsz)
        (pageCeil newsz - pageCeil oldsz) newsz m l r m'))
      (fun _ _ => ∃ u, pageCeil oldsz ≤ u ∧ u < pageCeil newsz ∧ present (m.look d u)) m := by
  unfold allocuvm
  apply wp_ite
  · intro hk
    exact .inl ⟨hk, rfl, rfl⟩
  · intro hk
    apply wp_ite
    · intro hlt
      exact .inr (.inl ⟨hlt, rfl, rfl⟩)
    · intro hle
      have hc := pageCeil_mono (show oldsz ≤ newsz by omega)
      have hc' : pageCeil newsz ≤ 2 ^ 19 := pageCeil_le (by omega)
      rw [rounds_eq (by omega) (by omega), PGROUNDUP_eq (by omega)]
      refine (allocLoop_wp hd (by omega) _ h (v := pageCeil oldsz) (by omega)).mono ?_ ?_
      · intro r m' hr
        exact .inr (.inr ⟨by omega, by omega, hr⟩)
      · rintro _ _ ⟨u, h1, h2, hp⟩
        exact ⟨u, h1, by omega, hp⟩

/-- Where nothing is mapped it returns. -/
theorem allocuvm_returns (h : Own L m l D H role) (hd : d ∈ D) {oldsz newsz : Nat}
    (hle : oldsz ≤ newsz) (hlt : newsz < KERNBASE)
    (hno : ∀ u, pageCeil oldsz ≤ u → u < pageCeil newsz → ¬ present (m.look d u)) :
    ∃ r m', allocuvm L d oldsz newsz m = .ok r m' ∧ Alloced L D H d (pageCeil oldsz)
      (pageCeil oldsz) (pageCeil newsz - pageCeil oldsz) newsz m l r m' := by
  obtain ⟨r, m', hr, hcase⟩ := (allocuvm_wp h hd oldsz newsz).returns_of
    fun _ _ ⟨u, h1, h2, hp⟩ => hno u h1 h2 hp
  rcases hcase with ⟨hge, -⟩ | ⟨hgt, -⟩ | ⟨-, -, hal⟩
  · omega
  · omega
  · exact ⟨r, m', hr, hal⟩

theorem Own.leakAll {X : List Nat} (h : Own L m l D (X ++ H) role) : Own L m l D H role := by
  induction X with
  | nil => exact h
  | cons p X ih => exact ih h.leak

theorem Alloced.own {v0 k newsz r : Nat} (h : Alloced L D H d v0 v k newsz m l r m') :
    ∃ l' role', Own L m' l' D H role' := by
  cases h with
  | done hal | undone _ _ _ _ hal => exact ⟨_, _, hal.own.leakAll⟩

/-- With memory to spare all pages are mapped, and nothing is lost. -/
theorem Alloced.rich {v0 k newsz r : Nat} (h : Alloced L D H d v0 v k newsz m l r m')
    (hA : Ample (n + k) m l d) (hv : v + k ≤ 2 ^ 20) :
    r = newsz ∧ ∃ l' role', Allocs L D H d v k m l [] m' l' role' ∧ Ample n m' l' d ∧
      m'.stock l' d = (m.stock l d).after k v := by
  obtain ⟨hno, hrich⟩ := (ample_iff.mp hA).refused k hv
  cases h with
  | @done X l' _ role' hal href hst =>
    rw [hno] at href
    obtain rfl : X = [] := by
      simpa using href.symm
    rw [← hst] at hrich
    exact ⟨rfl, l', role', hal, ample_iff.mpr hrich, hst⟩
  | undone j _ hal href =>
    rw [hno] at href
    simp at href

/-! ## copyuvm -/

/-- No page of the tables of `c` is one of those of `d`. -/
theorem Own.tab_apart {c q : Nat} (h : Own L m l D H role) (hd : d ∈ D) (hc : c ∈ D)
    (hne : c ≠ d) (hq : q = c ∨ ∃ i, role q = .table c i) :
    ¬ Tab m d q ∧ (role q = .dir ∨ ∃ i, role q = .table c i) := by
  have hokd := h.dirs d hd
  have hr : role q = .dir ∧ q = c ∨ ∃ i, role q = .table c i :=
    hq.imp_left fun (e : q = c) => ⟨e ▸ (h.dirs c hc).dir.1, e⟩
  refine ⟨?_, hr.imp_left And.left⟩
  rintro (rfl | ⟨j, hj, hpj, rfl⟩)
  · rcases hr with ⟨-, he⟩ | ⟨i, hr⟩
    · exact hne he.symm
    · rw [hokd.dir.1] at hr
      cases hr
  · have ht := (hokd.table j hj hpj).1
    unfold Mach.tab at hr
    rw [ht] at hr
    rcases hr with ⟨hr, -⟩ | ⟨i, hr⟩
    · cases hr
    · exact hne (Role.table.inj hr).1.symm

/-- Another directory is not concerned when `d` grows. -/
theorem Grows.other_dir (hg : Grows d m l m' l') (h : Own L m l D H role) (hd : d ∈ D) (hc : c ∈ D)
    (hne : c ≠ d) : (∀ u < 2 ^ 20, m'.look c u = m.look c u) ∧
      ∀ u < 2 ^ 19, present (m.look c u) →
        m'.page (frame (m.look c u)) = m.page (frame (m.look c u)) := by
  refine ⟨?_, ?_⟩
  · intro u hu
    refine (h.dirs c hc).look_keep ?_ hu
    intro q hq
    obtain ⟨htab, hr⟩ := h.tab_apart hd hc hne hq
    refine hg.page q (h.not_mem_list ?_) htab
    rcases hr with hr | ⟨i, hr⟩ <;> simp [hr]
  · intro u hu hp
    have hout := h.user_outside hc hu hp hd
    exact hg.page _ hout.1 hout.2

/-- What `k` rounds of `copyuvm` from page `v` on do: each page of `c` is copied to a page from
    the free list and mapped in `d`, until a request is refused. The pages `X` are lost. -/
structure Copied (L : Link) (D H : List Nat) (c d v k : Nat) (m : Mach) (l X : List Nat)
    (r : Bool) (m' : Mach) (l' : List Nat) (role' : Nat → Role) : Prop where
  own : Own L m' l' D (X ++ H) role'
  grows : Grows d m l m' l'
  conserves : Conserves d m l m' (X ++ l')
  other : r = true → ∀ u < 2 ^ 20, u < v ∨ v + k ≤ u → m'.look d u = m.look d u
  page : r = true → v + k ≤ 2 ^ 19 ∧ ∀ u, v ≤ u → u < v + k →
    present (m.look c u) ∧ ∃ p ∈ l, m'.look d u = pte (p * PGSIZE) (PTE_W ||| PTE_U) ∧
      m'.page p = m.page (frame (m.look c u))
  done : r = true → X = [] ∧ (m.stock l d).refused k v = []
  failed : r = false → (X = [] ∧ ((m.stock l d).refused k v).head? = some .data) ∨
    ((∃ p ∈ l, X = [p]) ∧ ((m.stock l d).refused k v).head? = some .table)

/-- One round followed by the rest. -/
theorem Adds.copied {c k : Nat} {role' role'' : Nat → Role} {l'' X : List Nat}
    (h : Adds L D H d v p (m.page (frame (m.look c v))) m (p :: l) true m' l' role')
    (h' : Copied L D H c d (v + 1) k m' l' X r m'' l'' role'') (hown : Own L m (p :: l) D H role)
    (hd : d ∈ D) (hc : c ∈ D) (hne : c ≠ d) (hv : v < 2 ^ 19) (hpres : present (m.look c v))
    (hok : (m.supply (p :: l)).ok = true) :
    Copied L D H c d v (k + 1) m (p :: l) X r m'' l'' role'' := by
  have hvp := (hown.list.role p List.mem_cons_self).2
  have hok' : (m.stock (p :: l) d).supply.ok = true := hok
  have hrefused : (m.stock (p :: l) d).refused (k + 1) v = (m'.stock l' d).refused k (v + 1) := by
    rw [Stock.refused, if_pos hok', ← h.has, if_pos rfl, h.stock]
    rfl
  obtain ⟨hlook, hpage⟩ := h.grows.other_dir hown hd hc hne
  refine ⟨h'.own, h.grows.trans h'.grows, h.conserves.trans h'.conserves, ?_, ?_, ?_, ?_⟩
  · intro hr u hu hou
    rw [h'.other hr u hu (by omega), h.other u hu (by omega)]
  · intro hr
    obtain ⟨hk, hall⟩ := h'.page hr
    refine ⟨by omega, ?_⟩
    intro u h1 h2
    rcases Nat.eq_or_lt_of_le h1 with rfl | hlt
    · refine ⟨hpres, p, List.mem_cons_self, ?_, h.stays rfl hd hv hvp h'.grows⟩
      rw [h'.other hr v (by omega) (by omega)]
      exact (h.page rfl).1
    · obtain ⟨hpu, q, hq, hlq, hpq⟩ := hall u hlt (by omega)
      rw [hlook u (by omega)] at hpu hpq
      exact ⟨hpu, q, h.grows.pool q hq, hlq, hpq.trans (hpage u (by omega) hpu)⟩
  · rw [hrefused]
    exact h'.done
  · intro hr
    rw [hrefused]
    rcases h'.failed hr with hX | ⟨⟨q, hq, hX⟩, hhead⟩
    · exact .inl hX
    · exact .inr ⟨⟨q, h.grows.pool q hq, hX⟩, hhead⟩

theorem copyLoop_wp (hd : d ∈ D) (hc : c ∈ D) (hne : c ≠ d) (k : Nat) :
    ∀ {v : Nat} {m : Mach} {l : List Nat} {role : Nat → Role}, Own L m l D H role →
      v ≤ 2 ^ 19 → present (m.look d (2 ^ 19)) →
      wp (copyLoop c d k (v * PGSIZE))
        (fun r m' => ∃ X l' role', Copied L D H c d v k m l X r m' l' role')
        (fun _ _ => ∃ u ≤ 2 ^ 19, v ≤ u ∧ u < v + k ∧
          (¬ present (m.look c u) ∨ present (m.look d u))) m := by
  induction k with
  | zero =>
    intro v m l role h hv _
    refine ⟨[], l, role, h, .refl, .refl, fun _ _ _ _ => rfl, fun _ => ⟨hv, ?_⟩,
      fun _ => ⟨rfl, rfl⟩, nofun⟩
    intro u h1 h2
    omega
  | succ k ih =>
    intro v m l role h hv hkern
    unfold copyLoop
    refine wp_walk (by omega) (fun hn => ?_) fun ht => ?_
    · exact ⟨v, hv, le_refl v, by omega, .inl (Mach.not_present_look hn)⟩
    · rw [wp_gets_bind, ← Mach.look_of_present ht]
      apply wp_ite
      · intro hn
        exact ⟨v, hv, le_refl v, by omega, .inl hn⟩
      · intro hp
        rw [not_not] at hp
        refine (kalloc_wp h).bind ?_
        have hsup : (m.stock l d).supply = m.supply l := rfl
        rintro (_ | p) m1 ⟨hpage, hok, hm⟩
        · refine ⟨[], l, role, hm.2, .of_page hpage fun _ hq => hq,
            .of_foot (Foot.of_page hpage), nofun, nofun, nofun, fun _ => .inl ⟨rfl, ?_⟩⟩
          rw [Stock.refused, hsup, if_neg (by simp [hok])]
          rfl
        · obtain ⟨l1, rfl, hnext, hown⟩ := hm
          simp only [wp_modify_bind]
          have hx : m1.page (frame (m.look c v)) = m.page (frame (m.look c v)) := by
            rw [hpage]
          rw [hx]
          by_cases hlt : v < 2 ^ 19
          · refine ((addPage_wp _ hown hd hlt hpage hnext).mono (fun _ _ h => h) ?_).bind ?_
            · intro _ _ hpres
              exact ⟨v, hv, le_refl v, by omega, .inr hpres⟩
            rintro (_ | _) m2 ⟨l2, role2, hadd⟩
            · rw [if_neg (by simp)]
              refine ⟨[p], l2, role2, hadd.own, hadd.grows, hadd.conserves, nofun, nofun, nofun,
                fun _ => .inr ⟨⟨p, List.mem_cons_self, rfl⟩, ?_⟩⟩
              rw [Stock.refused, hsup, if_pos hok, ← hadd.has, if_neg (by simp)]
              rfl
            · rw [if_pos rfl, ← Nat.succ_mul]
              obtain ⟨hlook, -⟩ := hadd.grows.other_dir h hd hc hne
              refine (ih hadd.own hlt ?_).mono ?_ ?_
              · rw [hadd.other _ (by omega) (by omega)]
                exact hkern
              · rintro r m3 ⟨X, l3, role3, hcop⟩
                exact ⟨X, l3, role3, hadd.copied hcop h hd hc hne hlt hp hok⟩
              · rintro _ _ ⟨u, h0, h1, h2, hu⟩
                rw [hlook u (by omega), hadd.other u (by omega) (by omega)] at hu
                exact ⟨u, h0, by omega, by omega, hu⟩
          · obtain rfl : v = 2 ^ 19 := by omega
            have hfill := (hown.fill (P := l1) hd (m.page (frame (m.look c (2 ^ 19))))).2.1
            have hremap : present ((m1.setPage p (m.page (frame (m.look c (2 ^ 19))))).look d
                (2 ^ 19)) := by
              rw [hfill _ (by omega), Mach.look_page hpage]
              exact hkern
            rw [wp_bind, mappages_page (by omega)]
            unfold wp
            rw [mapPage_remap (by omega) hremap]
            exact ⟨2 ^ 19, le_refl _, le_refl _, by omega, .inr hkern⟩

/-- While only free pages are written, every directory says what it said. -/
theorem Own.look_of_free (h : Own L m l D H role) (hc : c ∈ D)
    (hp : ∀ q, q ∉ l → m'.page q = m.page q) (hu : u < 2 ^ 20) : m'.look c u = m.look c u := by
  refine (h.dirs c hc).look_keep ?_ hu
  rintro q (rfl | ⟨i, hi⟩)
  · exact hp q (h.not_mem_list (by simp [(h.dirs q hc).dir.1]))
  · exact hp q (h.not_mem_list (by simp [hi]))

/-- The child of a directory: pages of its own with the same contents below the size, nothing
    above. -/
structure Child (L : Link) (D H : List Nat) (c sz : Nat) (m : Mach) (l : List Nat) (d : Nat)
    (m' : Mach) (l' : List Nat) (role' : Nat → Role) : Prop where
  own : Own L m' l' (d :: D) H role'
  rest : ∀ q, q ∉ l → m'.page q = m.page q
  size : pageCeil sz ≤ 2 ^ 19
  page : ∀ u < pageCeil sz, present (m.look c u) ∧ ∃ p ∈ l,
    m'.look d u = pte (p * PGSIZE) (PTE_W ||| PTE_U) ∧ m'.page p = m.page (frame (m.look c u))
  above : ∀ u < 2 ^ 19, pageCeil sz ≤ u → m'.look d u = 0

/-- The request of `copyuvm` that is refused first: the directory, a table of the kernel half,
    or a page or table of the user half. -/
def copyRefused (L : Link) (s : Supply) (sz : Nat) : Option Request :=
  if s.ok then
    match s.newDir.serve ((kmap L).flatMap Kmap.tables) with
    | none => some .table
    | some s' => (s'.refused (pageCeil sz) 0).head?
  else some .dir

/-- What `copyuvm` comes to. If it fails, the pages are back on the list unless a table was
    refused. -/
def CopyPost (L : Link) (D H : List Nat) (c sz : Nat) (m : Mach) (l : List Nat)
    (r : Option Nat) (m' : Mach) (l' : List Nat) (role' : Nat → Role) : Prop :=
  match r with
  | none => Own L m' l' D H role' ∧ (∀ q, q ∉ l → m'.page q = m.page q) ∧
    ∃ x, copyRefused L (m.supply l) sz = some x ∧ (x = .table → ∃ q ∈ l, q ∉ l') ∧
      (x ≠ .table → ∀ q, q ∈ l' ↔ q ∈ l)
  | some d => copyRefused L (m.supply l) sz = none ∧ Child L D H c sz m l d m' l' role'

theorem copyuvm_wp (h : Own L m l D H role) (hc : c ∈ D) (sz : Nat) :
    wp (copyuvm L c sz) (fun r m' => ∃ l' role', CopyPost L D H c sz m l r m' l' role')
      (fun _ _ => ∃ u ≤ 2 ^ 19, u < pageCeil sz ∧ (¬ present (m.look c u) ∨ u = 2 ^ 19)) m := by
  unfold copyuvm
  refine (setupkvm_wp h).andThen ?_
  rintro (_ | d) m1 ⟨l1, role1, hpage1, hown1, hcase⟩
  · refine ⟨l1, role1, hown1, hpage1, ?_⟩
    unfold copyRefused
    rcases hcase with ⟨-, ⟨hno, rfl⟩ | ⟨hok, hserve, d, hd, hd', -⟩⟩
    · rw [hno, if_neg (by simp)]
      exact ⟨_, rfl, nofun, fun _ _ => Iff.rfl⟩
    · rw [if_pos hok, hserve]
      exact ⟨_, rfl, fun _ => ⟨d, hd, hd'⟩, fun hne => absurd rfl hne⟩
  · obtain ⟨hnew, hzero, hkern, hok, hserve⟩ := hcase
    have href : copyRefused L (m.supply l) sz =
        ((m1.stock l1 d).refused (pageCeil sz) 0).head? := by
      unfold copyRefused
      rw [if_pos hok, hserve]
    have hcd : c ∈ d :: D := List.mem_cons_of_mem d hc
    have hne : c ≠ d := ne_of_mem_of_not_mem hc (List.nodup_cons.mp hown1.nodup).1
    have hlook := fun u (hu : u < 2 ^ 20) => h.look_of_free hc hpage1 hu
    have hr : rounds 0 sz = pageCeil sz := by
      unfold rounds pageCeil
      rw [Nat.sub_zero]
    have hloop := copyLoop_wp List.mem_cons_self hcd hne (pageCeil sz) hown1 (Nat.zero_le _) hkern
    rw [Nat.zero_mul] at hloop
    rw [hr]
    refine (hloop.mono (fun _ _ h => h) ?_).bind ?_
    · rintro _ _ ⟨u, h0, -, h2, hu⟩
      rw [Nat.zero_add] at h2
      refine ⟨u, h0, h2, ?_⟩
      rw [hlook u (by omega)] at hu
      rcases hu with hu | hu
      · exact .inl hu
      · refine .inr ?_
        by_contra hn
        rw [hzero u (by omega)] at hu
        exact not_present_zero hu
    rintro r m2 ⟨X, l2, role2, hcop⟩
    have hrest : ∀ q, q ∉ l → m2.page q = m.page q := by
      intro q hq
      have hq' := hq
      rw [hnew q, not_or] at hq'
      rw [hcop.grows.page q hq'.1 fun hc => hq'.2 (.inl hc)]
      exact hpage1 q hq
    cases r with
    | false =>
      rw [if_neg (by simp)]
      refine (freevm_wp hcop.own).andThen ?_
      rintro _ m3 ⟨l3, role3, hown3, hpage3, hlist⟩
      have hback : ∀ q, q ∈ X ∨ q ∈ l3 ↔ q ∈ l := by
        intro q
        rw [hlist q, hnew q, hcop.conserves q, List.mem_append, or_assoc]
      refine ⟨l3, role3, hown3.leakAll, ?_, ?_⟩
      · intro q hq
        have hq' := hq
        rw [← hback, not_or, hlist, not_or] at hq'
        rw [hpage3 q hq'.2.1 hq'.2.2]
        exact hrest q hq
      · rw [href]
        rcases hcop.failed rfl with ⟨rfl, hhead⟩ | ⟨⟨p, hp, rfl⟩, hhead⟩
        · refine ⟨_, hhead, nofun, fun _ q => ?_⟩
          rw [← hback q]
          simp
        · refine ⟨_, hhead, fun _ => ⟨p, (hback p).mp (.inl List.mem_cons_self), ?_⟩,
            fun hne => absurd rfl hne⟩
          exact hown3.not_mem_list (by simp [(hown3.held.role p List.mem_cons_self).1])
    | true =>
      rw [if_pos rfl]
      obtain ⟨rfl, hnone⟩ := hcop.done rfl
      refine ⟨l2, role2, ?_, hcop.own, hrest, ?_, ?_, ?_⟩
      · rw [href, hnone]
        rfl
      · have := (hcop.page rfl).1
        omega
      · intro u hu
        obtain ⟨hk, hall⟩ := hcop.page rfl
        obtain ⟨hpu, p, hp, hlp, hpp⟩ := hall u (Nat.zero_le u) (by omega)
        rw [hlook u (by omega)] at hpu hpp
        refine ⟨hpu, p, (hnew p).mpr (.inl hp), hlp, hpp.trans ?_⟩
        have hr := ((h.dirs c hc).user u (by omega) hpu).1
        exact hpage1 _ (h.not_mem_list (by simp [hr]))
      · intro u hu hle
        rw [hcop.other rfl u (by omega) (.inr (by omega))]
        exact hzero u hu

/-- With enough memory nothing is refused. -/
theorem copyRefused_ample {s : Supply} {sz : Nat} (hf : ∀ k, s.calls ≤ k → s.fails k = false)
    (hl : 1025 + pageCeil sz ≤ s.left) (hsz : pageCeil sz ≤ 2 ^ 19) :
    copyRefused L s sz = none := by
  obtain ⟨hok, hrich⟩ := Supply.newDir_rich hf hl
  obtain ⟨s', hs, hrich'⟩ := hrich.serve fun i hi => (kmap_tables L i hi).2
  rw [← Nat.zero_add (pageCeil sz)] at hrich'
  unfold copyRefused
  rw [if_pos hok, hs]
  show List.head? _ = none
  rw [(hrich'.refused (pageCeil sz) (v := 0) (by omega)).1]
  rfl

end Zv6.Mem
