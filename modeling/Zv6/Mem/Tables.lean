/-
  What the functions of vm.c do to the page tables.

  Each function is given one specification. It says who owns the pages afterwards (`Own`),
  what the entries of the directory are (`look`), which pages may have been written
  (`Grows`, `Shrinks`: pages off the free list, the directory and its tables), and, for the
  functions that allocate, that they succeed while memory is `Ample`.
-/
import Zv6.Mem.Own

namespace Zv6.Mem

open Zv6.Lib Function

variable {L : Link} {m m' m'' : Mach} {l l' l'' D H P P' P'' : List Nat} {role : Nat → Role}
  {d p q v n : Nat} {w : UInt32}

/-! ## Footprints -/

/-- The directory and its tables. -/
def Tab (m : Mach) (d q : Nat) : Prop :=
  q = d ∨ ∃ i < 1024, present (m.word d i) ∧ q = m.tab d i

/-- All pages of a directory. -/
def Foot (m : Mach) (d q : Nat) : Prop :=
  Tab m d q ∨ ∃ v < 2 ^ 19, present (m.look d v) ∧ q = frame (m.look d v)

/-- Only pages of the pool `P`, the directory and its tables have been written, and the new
    tables come from the pool. -/
structure Grows (d : Nat) (m : Mach) (P : List Nat) (m' : Mach) (P' : List Nat) : Prop where
  page : ∀ q, q ∉ P → ¬ Tab m d q → m'.page q = m.page q
  pool : ∀ q ∈ P', q ∈ P
  tab : ∀ q, Tab m' d q → q ∈ P ∨ Tab m d q

theorem Grows.refl : Grows d m P m P := ⟨fun _ _ _ => rfl, fun _ h => h, fun _ h => .inr h⟩

theorem Grows.trans (h : Grows d m P m' P') (h' : Grows d m' P' m'' P'') :
    Grows d m P m'' P'' := by
  refine ⟨?_, fun q hq => h.pool q (h'.pool q hq), ?_⟩
  · intro q hq ht
    rw [h'.page q (fun hc => hq (h.pool q hc)) fun hc => (h.tab q hc).elim hq ht]
    exact h.page q hq ht
  · intro q hq
    rcases h'.tab q hq with hq | hq
    · exact .inl (h.pool q hq)
    · exact h.tab q hq

/-- A page in hand may be written, too. -/
theorem Grows.hold (h : Grows d m P m' P') (p : Nat) : Grows d m (p :: P) m' (p :: P') := by
  refine ⟨fun q hq => h.page q fun hm => hq (List.mem_cons_of_mem p hm), ?_, ?_⟩
  · intro q hq
    rcases List.mem_cons.mp hq with rfl | hq
    · exact List.mem_cons_self
    · exact List.mem_cons_of_mem p (h.pool q hq)
  · intro q hq
    rcases h.tab q hq with hq | hq
    · exact .inl (List.mem_cons_of_mem p hq)
    · exact .inr hq

theorem Grows.drop (h : Grows d m P m' (p :: P')) : Grows d m P m' P' :=
  ⟨h.page, fun q hq => h.pool q (List.mem_cons_of_mem p hq), h.tab⟩

/-- No page gets lost: those of the pool and those of the directory are together the same. -/
def Conserves (d : Nat) (m : Mach) (P : List Nat) (m' : Mach) (P' : List Nat) : Prop :=
  ∀ q, q ∈ P ∨ Foot m d q ↔ q ∈ P' ∨ Foot m' d q

theorem Conserves.refl : Conserves d m P m P := fun _ => Iff.rfl

theorem Conserves.trans (h : Conserves d m P m' P') (h' : Conserves d m' P' m'' P'') :
    Conserves d m P m'' P'' := fun q => (h q).trans (h' q)

theorem Conserves.hold (h : Conserves d m P m' P') (p : Nat) :
    Conserves d m (p :: P) m' (p :: P') := by
  intro q
  rw [List.mem_cons, List.mem_cons, or_assoc, or_assoc, h q]

theorem Conserves.of_foot (h : ∀ q, Foot m' d q ↔ Foot m d q) : Conserves d m P m' P := by
  intro q
  rw [h q]

/-- A page of the pool becomes a page of the directory. -/
theorem Conserves.gain (h : ∀ q, Foot m' d q ↔ q = p ∨ Foot m d q) :
    Conserves d m (p :: P) m' P := by
  intro q
  rw [h q, List.mem_cons, or_left_comm, or_assoc]

theorem Mach.word_page (h : m'.page = m.page) (p i : Nat) : m'.word p i = m.word p i :=
  Mach.word_keep (congrFun h p) i

theorem Mach.look_page (h : m'.page = m.page) (d v : Nat) : m'.look d v = m.look d v := by
  simp only [Mach.look, Mach.word_page h]

theorem Mach.not_present_look (h : ¬ present (m.word d (v / 1024))) :
    ¬ present (m.look d v) := by
  unfold Mach.look
  rw [if_neg h]
  exact not_present_zero

theorem Tab.of_page (h : m'.page = m.page) (ht : Tab m' d q) : Tab m d q := by
  simpa only [Tab, Mach.tab, Mach.word_page h] using ht

theorem Grows.of_page (h : m'.page = m.page) (hP : ∀ q ∈ P', q ∈ P) : Grows d m P m' P' :=
  ⟨fun q _ _ => congrFun h q, hP, fun _ hq => .inr (hq.of_page h)⟩

theorem Mach.word_setPage_ne {x : Page} (h : q ≠ p) (i : Nat) :
    (m.setPage p x).word q i = m.word q i :=
  Mach.word_keep (update_of_ne h ..) i

theorem exists_look_congr (hl : ∀ u < 2 ^ 19, m'.look d u = m.look d u) (q : Nat) :
    (∃ u < 2 ^ 19, present (m'.look d u) ∧ q = frame (m'.look d u)) ↔
      ∃ u < 2 ^ 19, present (m.look d u) ∧ q = frame (m.look d u) := by
  refine exists_congr fun u => and_congr_right fun hlt => ?_
  rw [hl u hlt]

theorem Foot.congr (hw : ∀ i, m'.word d i = m.word d i)
    (hl : ∀ u < 2 ^ 19, m'.look d u = m.look d u) (q : Nat) : Foot m' d q ↔ Foot m d q := by
  unfold Foot Tab Mach.tab
  simp only [hw, exists_look_congr hl]

theorem Foot.of_page (h : m'.page = m.page) (q : Nat) : Foot m' d q ↔ Foot m d q :=
  Foot.congr (Mach.word_page h d) (fun u _ => Mach.look_page h d u) q

/-- One entry is set that was not present. -/
theorem exists_entry_set {f f' : Nat → UInt32} (hv : v < n) (hn : ¬ present (f v)) (hw : present w)
    (hf : ∀ u < n, f' u = if u = v then w else f u) (q : Nat) :
    (∃ u < n, present (f' u) ∧ q = frame (f' u)) ↔
      q = frame w ∨ ∃ u < n, present (f u) ∧ q = frame (f u) := by
  constructor
  · rintro ⟨u, hlt, hp, hq⟩
    rw [hf u hlt] at hp hq
    split at hp
    · next he => exact .inl (by rw [hq, if_pos he])
    · next he => exact .inr ⟨u, hlt, hp, by rw [hq, if_neg he]⟩
  · rintro (hq | ⟨u, hlt, hp, hq⟩)
    · refine ⟨v, hv, ?_⟩
      rw [hf v hv, if_pos rfl]
      exact ⟨hw, hq⟩
    · have hne : u ≠ v := by
        rintro rfl
        exact hn hp
      refine ⟨u, hlt, ?_⟩
      rw [hf u hlt, if_neg hne]
      exact ⟨hp, hq⟩

/-- A user page is mapped where there was none. -/
theorem Foot.set (hv : v < 2 ^ 19) (hn : ¬ present (m.look d v)) (hw : present w)
    (hd : ∀ i, m'.word d i = m.word d i)
    (hl : ∀ u < 2 ^ 19, m'.look d u = if u = v then w else m.look d u) (q : Nat) :
    Foot m' d q ↔ q = frame w ∨ Foot m d q := by
  unfold Foot Tab Mach.tab
  rw [exists_entry_set hv hn hw hl, or_left_comm]
  simp only [hd]

/-- A table is hung in where there was none. -/
theorem Foot.hang {i : Nat} (hi : i < 1024) (hn : ¬ present (m.word d i)) (hw : present w)
    (hd : ∀ j, m'.word d j = if j = i then w else m.word d j)
    (hl : ∀ u < 2 ^ 19, m'.look d u = m.look d u) (q : Nat) :
    Foot m' d q ↔ q = frame w ∨ Foot m d q := by
  unfold Foot Tab Mach.tab
  rw [exists_entry_set hi hn hw (fun j _ => hd j), exists_look_congr hl, or_left_comm, or_assoc]

/-! ## What the outcome of allocations depends on -/

/-- Which calls of `kalloc` fail, the number of the next call, and the pages left. -/
structure Supply where
  fails : Nat → Bool
  calls : Nat
  left : Nat

/-- The next call finds a page. -/
def Supply.ok (s : Supply) : Bool := !s.fails s.calls && s.left != 0

def Supply.next (s : Supply) : Supply :=
  { s with calls := s.calls + 1, left := if s.ok then s.left - 1 else s.left }

theorem Supply.next_of_ok {s : Supply} (h : s.ok = true) :
    s.next = ⟨s.fails, s.calls + 1, s.left - 1⟩ := by
  unfold Supply.next
  rw [if_pos h]

theorem Supply.next_of_not_ok {s : Supply} (h : s.ok = false) :
    s.next = ⟨s.fails, s.calls + 1, s.left⟩ := by
  unfold Supply.next
  rw [h, if_neg (by simp)]

/-- The supply together with the tables that a directory has. -/
structure Stock where
  supply : Supply
  tables : Nat → Bool

namespace Stock

/-- A page is asked for. -/
def take (s : Stock) : Stock := { s with supply := s.supply.next }

/-- The table behind entry `i` is there or can be had. -/
def has (s : Stock) (i : Nat) : Bool := s.tables i || s.supply.ok

/-- After the table behind entry `i` has been looked for. -/
def ensure (s : Stock) (i : Nat) : Stock :=
  if s.tables i then s
  else ⟨s.supply.next, if s.supply.ok then update s.tables i true else s.tables⟩

/-- After the tables `ts` have been looked for, one after the other, if all can be had. -/
def serve : Stock → List Nat → Option Stock
  | s, [] => some s
  | s, i :: ts => if s.has i then serve (s.ensure i) ts else none

/-- No call fails, and there is a page for every table that may be missing and `n` more. -/
def Rich (n : Nat) (s : Stock) : Prop :=
  (∀ k, s.supply.calls ≤ k → s.supply.fails k = false) ∧
    1024 + n ≤ s.supply.left + ({i ∈ Finset.range 1024 | s.tables i} : Finset Nat).card

variable {s s' : Stock} {i : Nat} {ts : List Nat}

theorem Rich.ok (h : Rich (n + 1) s) : s.supply.ok = true := by
  have h2 := h.2
  have h3 : ({i ∈ Finset.range 1024 | s.tables i} : Finset Nat).card ≤ 1024 :=
    (Finset.card_filter_le _ _).trans (Finset.card_range 1024).le
  have hl : s.supply.left ≠ 0 := by omega
  simp [Supply.ok, h.1 _ (le_refl _), hl]

theorem Rich.take (h : Rich (n + 1) s) : Rich n s.take := by
  have hok := h.ok
  refine ⟨fun k hk => h.1 k (Nat.le_of_succ_le hk), ?_⟩
  have h2 := h.2
  have h3 : s.take.supply.left = s.supply.left - 1 := by
    simp [Stock.take, Supply.next, hok]
  rw [h3]
  show 1024 + n ≤ s.supply.left - 1 + ({i ∈ Finset.range 1024 | s.tables i} : Finset Nat).card
  omega

/-- While the supply is rich every table can be had. -/
theorem Rich.ensure (h : Rich n s) (hi : i < 1024) : s.has i = true ∧ Rich n (s.ensure i) := by
  unfold Stock.has Stock.ensure
  cases ht : s.tables i with
  | true => exact ⟨rfl, h⟩
  | false =>
    have hsub : ({j ∈ Finset.range 1024 | s.tables j} : Finset Nat) ⊆
        (Finset.range 1024).erase i := by
      intro j hj
      rw [Finset.mem_filter] at hj
      refine Finset.mem_erase.mpr ⟨?_, hj.1⟩
      rintro rfl
      rw [ht] at hj
      cases hj.2
    have hlt := Finset.card_le_card hsub
    rw [Finset.card_erase_of_mem (Finset.mem_range.mpr hi), Finset.card_range] at hlt
    have h2 := h.2
    have hok : s.supply.ok = true := by
      have hl : s.supply.left ≠ 0 := by omega
      simp [Supply.ok, h.1 _ (le_refl _), hl]
    have hins : ({j ∈ Finset.range 1024 | update s.tables i true j} : Finset Nat) =
        insert i {j ∈ Finset.range 1024 | s.tables j} := by
      ext j
      by_cases hj : j = i
      · subst hj
        simp [hi]
      · simp [hj]
    refine ⟨hok, ?_⟩
    rw [if_neg (by simp), hok, if_pos rfl]
    refine ⟨fun k hk => h.1 k (Nat.le_of_succ_le hk), ?_⟩
    simp only [hins, Supply.next, hok, if_true]
    rw [Finset.card_insert_of_notMem (by simp [ht])]
    omega

theorem serve_cons : s.serve (i :: ts) = if s.has i then (s.ensure i).serve ts else none := rfl

theorem Rich.serve (h : Rich n s) (ht : ∀ i ∈ ts, i < 1024) :
    ∃ s', s.serve ts = some s' ∧ Rich n s' := by
  induction ts generalizing s with
  | nil => exact ⟨s, rfl, h⟩
  | cons i ts ih =>
    obtain ⟨hhas, hr⟩ := h.ensure (ht i List.mem_cons_self)
    rw [serve_cons, if_pos hhas]
    exact ih hr fun j hj => ht j (List.mem_cons_of_mem i hj)

theorem serve_append {ts' : List Nat} :
    s.serve (ts ++ ts') = (s.serve ts).bind fun s' => s'.serve ts' := by
  induction ts generalizing s with
  | nil => rfl
  | cons i ts ih =>
    rw [List.cons_append, serve_cons, serve_cons]
    split
    · exact ih
    · rfl

theorem ensure_tables_ne {j : Nat} (h : j ≠ i) : (s.ensure i).tables j = s.tables j := by
  unfold Stock.ensure
  split
  · rfl
  · split
    · exact update_of_ne h ..
    · rfl

theorem serve_tables (h : s.serve ts = some s') (hi : i ∉ ts) : s'.tables i = s.tables i := by
  induction ts generalizing s with
  | nil =>
    rw [← Option.some.inj h]
  | cons j ts ih =>
    rw [List.mem_cons, not_or] at hi
    rw [serve_cons] at h
    split at h
    · rw [ih h hi.2, ensure_tables_ne hi.1]
    · cases h

end Stock

def Mach.supply (m : Mach) (l : List Nat) : Supply := ⟨m.fails, m.calls, l.length⟩

/-- The supply of the machine and the tables of directory `d`. -/
def Mach.stock (m : Mach) (l : List Nat) (d : Nat) : Stock :=
  ⟨m.supply l, fun i => decide (present (m.word d i))⟩

theorem Mach.stock_of_words (hs : m'.supply l' = m.supply l)
    (hw : ∀ i, m'.word d i = m.word d i) : m'.stock l' d = m.stock l d := by
  unfold Mach.stock
  simp only [hs, hw]

/-- A page has been taken off the list. -/
theorem Mach.stock_take (hs : m'.supply l' = (m.supply l).next) (hpage : m'.page = m.page) :
    m'.stock l' d = (m.stock l d).take := by
  unfold Mach.stock Stock.take
  simp only [hs, Mach.word_page hpage]

/-- The entries in use. -/
def Mach.used (m : Mach) (d : Nat) : Finset Nat :=
  {i ∈ Finset.range 1024 | present (m.word d i)}

/-- No allocation fails, and the list has a page for every table that may be missing in `d`,
    and `n` more. -/
def Ample (n : Nat) (m : Mach) (l : List Nat) (d : Nat) : Prop :=
  (∀ k, m.calls ≤ k → m.fails k = false) ∧ 1024 + n ≤ l.length + (m.used d).card

theorem ample_iff : Ample n m l d ↔ (m.stock l d).Rich n := by
  unfold Ample Stock.Rich Mach.stock Mach.supply Mach.used
  simp only [decide_eq_true_eq]

theorem Ample.length (hA : Ample n m l d) : n ≤ l.length := by
  have h1 := hA.2
  have h2 : (m.used d).card ≤ 1024 :=
    (Finset.card_filter_le _ _).trans (Finset.card_range 1024).le
  omega

/-! ## kalloc and kfree -/

theorem kalloc_wp {E : Stop Empty → Mach → Prop} (h : Own L m l D H role) :
    wp kalloc (fun r m' => m'.page = m.page ∧
      match r with
      | none => (m.supply l).ok = false ∧ m'.supply l = (m.supply l).next ∧ Own L m' l D H role
      | some p => (m.supply l).ok = true ∧ ∃ l', l = p :: l' ∧
        m'.supply l' = (m.supply l).next ∧ Own L m' l' D (p :: H) (update role p .held))
      E m := by
  unfold kalloc
  rw [wp_gets_bind]
  have hsame : Own L { m with calls := m.calls + 1 } l D H role :=
    ⟨h.list.keep rfl (fun _ _ => rfl) fun _ _ hq => hq,
      fun d hd => (h.dirs d hd).keep (fun _ _ => rfl) fun _ _ => rfl, h.nodup, h.held⟩
  have hnext : (m.supply l).ok = false →
      Mach.supply { m with calls := m.calls + 1 } l = (m.supply l).next := by
    intro hok
    exact (Supply.next_of_not_ok hok).symm
  cases l with
  | nil =>
    have hf : m.freelist = 0 := by
      generalize hw : m.freelist = w
      have hc := h.list.chain
      rw [hw] at hc
      cases hc
      rfl
    have hok : (m.supply []).ok = false := by simp [Supply.ok, Mach.supply]
    apply wp_ite
    · intro hfinds
      simp [Mach.finds, hf] at hfinds
    · intro _
      exact ⟨rfl, hok, hnext hok, hsame⟩
  | cons p l =>
    obtain ⟨hf, hfinds, htake⟩ := h.take
    have hp : pageOf m.freelist = p := by
      rw [hf, (h.list.role p List.mem_cons_self).2.pageOf]
    have hok : (m.supply (p :: l)).ok = m.finds := by
      rw [hfinds]
      simp [Supply.ok, Mach.supply]
    apply wp_ite
    · intro hgo
      rw [wp_modify_bind, wp_pure]
      simp only [id, hp] at hgo ⊢
      rw [hgo] at hok
      exact ⟨rfl, hok, l, rfl, (Supply.next_of_ok hok).symm, htake⟩
    · intro hn
      simp only [id, Bool.not_eq_true] at hn
      rw [hn] at hok
      exact ⟨rfl, hok, hnext hok, hsame⟩

theorem kfree_ok (hp : Valid L p) : kfree L p m = .ok ⟨⟩ (m.free p) := by
  unfold kfree
  have h1 := hp.1
  have h2 := hp.2
  rw [if_neg (by omega)]
  rfl

/-! ## walkpgdir -/

theorem PDX_mul (hv : v < 2 ^ 20) : PDX (v * PGSIZE) = v / 1024 := by
  unfold PDX PGSIZE
  omega

theorem PTX_mul (v : Nat) : PTX (v * PGSIZE) = v % 1024 := by
  unfold PTX PGSIZE
  omega

/-- Without `alloc` nothing changes. -/
theorem walkpgdir_read (hv : v < 2 ^ 20) :
    walkpgdir d (v * PGSIZE) false m =
      .ok (if present (m.word d (v / 1024)) then some (m.tab d (v / 1024), v % 1024) else none)
        m := by
  unfold walkpgdir
  rw [Exec.gets_bind, PDX_mul hv, PTX_mul]
  split <;> rfl

/-- A walk followed by the rest. -/
theorem wp_walk {α : Type} {f : Option (Nat × Nat) → M α} {Q : α → Mach → Prop}
    {E : Stop Empty → Mach → Prop} (hv : v < 2 ^ 20)
    (h0 : ¬ present (m.word d (v / 1024)) → wp (f none) Q E m)
    (h1 : present (m.word d (v / 1024)) →
      wp (f (some (m.tab d (v / 1024), v % 1024))) Q E m) :
    wp (walkpgdir d (v * PGSIZE) false >>= f) Q E m := by
  refine wp_ok_bind (walkpgdir_read hv) ?_
  split
  · next ht => exact h1 ht
  · next ht => exact h0 ht

theorem Tab.entry {i : Nat} (hi : i < 1024) (h : present (m.word d i)) : Tab m d (m.tab d i) :=
  .inr ⟨i, hi, h, rfl⟩

/-- The entry found by `walkpgdir`. -/
def Found (m : Mach) (d v : Nat) (x : Nat × Nat) : Prop :=
  present (m.word d (v / 1024)) ∧ x = (m.tab d (v / 1024), v % 1024)

/-- A table from the pool is hung into the directory. -/
theorem Grows.hang {t i : Nat} {x : Page} (htd : t ≠ d) (hw : frame w = t) :
    Grows d m (t :: P) ((m.setPage t x).setWord d i w) P := by
  refine ⟨?_, fun _ hq => List.mem_cons_of_mem t hq, ?_⟩
  · intro q hq ht
    have h1 : q ≠ d := fun he => ht (.inl he)
    have h2 : q ≠ t := List.ne_of_not_mem_cons hq
    simp [Mach.setWord, Mach.setPage, h1, h2]
  · rintro q (rfl | ⟨j, hj, hp, rfl⟩)
    · exact .inr (.inl rfl)
    · by_cases hji : j = i
      · subst hji
        refine .inl ?_
        unfold Mach.tab
        rw [Mach.word_setWord, hw]
        exact List.mem_cons_self
      · have hj' : ((m.setPage t x).setWord d i w).word d j = m.word d j := by
          rw [Mach.word_setWord_ne _ _ _ hji, Mach.word_setPage_ne htd.symm]
        unfold Mach.tab
        rw [hj'] at hp ⊢
        exact .inr (.entry hj hp)

/-- A held page of zeroes becomes a table: what `walkpgdir` does with the page it allocates. -/
theorem Own.newTable {t i : Nat} (h : Own L m l D (t :: H) role) (hd : d ∈ D) (hi : i < 1024)
    (hn : ¬ present (m.word d i)) (hw : frame w = t) (hp : present w) :
    Own L ((m.setPage t fun _ => 0).setWord d i w) l D H (update role t (.table d i)) ∧
      Grows d m (t :: P) ((m.setPage t fun _ => 0).setWord d i w) P ∧
      (∀ u < 2 ^ 20, ((m.setPage t fun _ => 0).setWord d i w).look d u = m.look d u) ∧
      (∀ j, ((m.setPage t fun _ => 0).setWord d i w).word d j =
        if j = i then w else m.word d j) ∧
      Conserves d m (t :: P) ((m.setPage t fun _ => 0).setWord d i w) P := by
  have ht := h.held.role t List.mem_cons_self
  have hown := h.write (.inl ht.1) fun _ => 0
  have hok := hown.dirs d hd
  have hne : ∀ q, q = d ∨ (∃ i, role q = .table d i) → q ≠ t := by
    rintro q (rfl | ⟨i, hi⟩) rfl
    · have := hok.dir.1
      simp [ht.1] at this
    · simp [ht.1] at hi
  have htd : t ≠ d := (hne d (.inl rfl)).symm
  have h0 : ∀ j, (m.setPage t fun _ => 0).word t j = 0 := by
    intro j
    simp [Mach.word, Mach.setPage]
  have hdw : ∀ j, (m.setPage t fun _ => 0).word d j = m.word d j :=
    fun j => Mach.word_setPage_ne htd.symm j
  have hn' : ¬ present ((m.setPage t fun _ => 0).word d i) := by
    rw [hdw]
    exact hn
  have hlook : ∀ u < 2 ^ 20,
      ((m.setPage t fun _ => 0).setWord d i w).look d u = m.look d u := by
    intro u hu
    rw [hok.tables.look_hang hu hn' h0 htd hw]
    exact (h.dirs d hd).look_keep (fun q hq => update_of_ne (hne q hq) ..) hu
  have hword : ∀ j, ((m.setPage t fun _ => 0).setWord d i w).word d j =
      if j = i then w else m.word d j := by
    intro j
    split
    · next hj => rw [hj, Mach.word_setWord]
    · next hj => rw [Mach.word_setWord_ne _ _ _ hj, hdw]
  refine ⟨hown.hang hd hn' h0 hw, .hang htd hw, hlook, hword, .gain ?_⟩
  intro q
  rw [Foot.hang hi hn hp hword fun u hu => hlook u (by omega), hw]

/-- With `alloc` the table is there, and no entry has changed. -/
theorem walkpgdir_wp (h : Own L m l D H role) (hd : d ∈ D) (hv : v < 2 ^ 20) :
    wp (walkpgdir d (v * PGSIZE) true) (fun r m' => ∃ l' role',
      Own L m' l' D H role' ∧ Grows d m l m' l' ∧ Conserves d m l m' l' ∧
      (∀ u < 2 ^ 20, m'.look d u = m.look d u) ∧
      m'.stock l' d = (m.stock l d).ensure (v / 1024) ∧
      r.isSome = (m.stock l d).has (v / 1024) ∧ (r = none → ¬ present (m.look d v)) ∧
      ∀ x, r = some x → Found m' d v x)
      (fun _ _ => False) m := by
  unfold walkpgdir
  rw [wp_gets_bind, PDX_mul hv, PTX_mul]
  apply wp_ite
  · intro hp
    have ht : (m.stock l d).tables (v / 1024) = true := decide_eq_true hp
    refine ⟨l, role, h, .refl, .refl, fun _ _ => rfl, ?_, ?_, by simp, ?_⟩
    · rw [Stock.ensure, if_pos ht]
    · rw [Stock.has, ht]
      rfl
    · intro x hx
      exact ⟨hp, (Option.some.inj hx).symm⟩
  · intro hn
    rw [if_neg (by simp)]
    have hi : v / 1024 < 1024 := by omega
    have ht : (m.stock l d).tables (v / 1024) = false := decide_eq_false hn
    have hsup : (m.stock l d).supply = m.supply l := rfl
    unfold Stock.ensure Stock.has
    rw [ht, if_neg (by simp), Bool.false_or, hsup]
    refine (kalloc_wp h).bind ?_
    rintro (_ | t) m1 ⟨hpage, hok, hm⟩
    · refine ⟨l, role, hm.2, .of_page hpage fun _ hq => hq, .of_foot (Foot.of_page hpage),
        fun u _ => Mach.look_page hpage d u, ?_, hok.symm, fun _ => Mach.not_present_look hn,
        by simp⟩
      rw [hok, if_neg (by simp)]
      exact Mach.stock_take hm.1 hpage
    · obtain ⟨l1, rfl, hnext, hown⟩ := hm
      have hw : frame (pte (t * PGSIZE) (PTE_W ||| PTE_U)) = t :=
        frame_pte (hown.held.role t List.mem_cons_self).2.lt (by decide)
      rw [← Mach.word_page hpage] at hn
      obtain ⟨hown', hgrow, hlook, hword, hcons⟩ :=
        hown.newTable (P := l1) hd hi hn hw (present_pte _ _)
      simp only [memset, wp_modify_bind, wp_pure]
      refine ⟨l1, _, hown', (Grows.of_page hpage fun _ hq => hq).trans hgrow,
        (Conserves.of_foot (Foot.of_page hpage)).trans hcons, ?_, ?_, hok.symm, by simp, ?_⟩
      · intro u hu
        rw [← Mach.look_page hpage]
        exact hlook u hu
      · rw [hok, if_pos rfl]
        refine Stock.mk.injEq .. ▸ ⟨hnext, ?_⟩
        funext j
        rw [hword j]
        by_cases hj : j = v / 1024
        · simp [hj]
        · simp [hj, Mach.stock, Mach.word_page hpage]
      · intro x hx
        obtain rfl := (Option.some.inj hx).symm
        refine ⟨?_, ?_⟩
        · rw [Mach.word_setWord]
          exact present_pte _ _
        · unfold Mach.tab
          rw [Mach.word_setWord, hw]

/-! ## mappages -/

/-- Writing an entry of a table. -/
theorem DirOk.grows_entry (h : DirOk L m role d) (hv : v < 2 ^ 20)
    (ht : present (m.word d (v / 1024))) :
    Grows d m P (m.setWord (m.tab d (v / 1024)) (v % 1024) w) P := by
  have hdw := fun i => m.word_setWord_other (v % 1024) i w (h.tab_ne (by omega) ht).symm
  refine ⟨?_, fun _ hq => hq, ?_⟩
  · intro q _ hq
    apply update_of_ne
    rintro rfl
    exact hq (.entry (by omega) ht)
  · rintro q (rfl | ⟨i, hi, hp, rfl⟩)
    · exact .inr (.inl rfl)
    · rw [hdw] at hp
      exact .inr (.inr ⟨i, hi, hp, congrArg frame (hdw i)⟩)

theorem DirOk.word_entry (h : DirOk L m role d) (hv : v < 2 ^ 20)
    (ht : present (m.word d (v / 1024))) (i : Nat) :
    (m.setWord (m.tab d (v / 1024)) (v % 1024) w).word d i = m.word d i :=
  m.word_setWord_other (v % 1024) i w (h.tab_ne (by omega) ht).symm

theorem DirOk.stock_entry (h : DirOk L m role d) (hv : v < 2 ^ 20)
    (ht : present (m.word d (v / 1024))) :
    (m.setWord (m.tab d (v / 1024)) (v % 1024) w).stock l d = m.stock l d :=
  Mach.stock_of_words rfl (h.word_entry hv ht)

/-- One round of `mappages`: the table is found or made, then the entry is set. The machine
    stops only if the page is mapped already. -/
theorem mapPage_wp (h : Own L m l D H role) (hd : d ∈ D) (hv : v < 2 ^ 20) (pa : Nat)
    (perm : UInt32) :
    wp (mapPage d (v * PGSIZE) pa perm) (fun r m' => ∃ m1 l' role1,
      Own L m1 l' D H role1 ∧ Grows d m l m1 l' ∧ Conserves d m l m1 l' ∧
      (∀ u < 2 ^ 20, m1.look d u = m.look d u) ∧
      m1.stock l' d = (m.stock l d).ensure (v / 1024) ∧ r = (m.stock l d).has (v / 1024) ∧
      ¬ present (m.look d v) ∧ (r = false → m' = m1) ∧
      (r = true → present (m1.word d (v / 1024)) ∧
        m' = m1.setWord (m1.tab d (v / 1024)) (v % 1024) (pte pa perm)))
      (fun _ _ => present (m.look d v)) m := by
  unfold mapPage
  refine (walkpgdir_wp h hd hv).andThen ?_
  rintro (_ | ⟨t, j⟩) m1 ⟨l', role1, hown, hgrow, hcons, hlook, hstock, hhas, hnone, hfound⟩
  · exact ⟨m1, l', role1, hown, hgrow, hcons, hlook, hstock, hhas, hnone rfl, fun _ => rfl, nofun⟩
  · obtain ⟨hp, hx⟩ := hfound _ rfl
    obtain ⟨rfl, rfl⟩ := Prod.mk.inj hx
    rw [wp_gets_bind, ← Mach.look_of_present hp, hlook v hv]
    apply wp_ite
    · intro hw
      exact hw
    · intro hw
      exact ⟨m1, l', role1, hown, hgrow, hcons, hlook, hstock, hhas, hw, nofun,
        fun _ => ⟨hp, rfl⟩⟩

/-- What mapping pages `v` to `v + k` of the kernel half does. -/
structure Mapped (L : Link) (D H : List Nat) (d v k : Nat) (m : Mach) (l : List Nat)
    (r : Bool) (m' : Mach) (l' : List Nat) (role' : Nat → Role) : Prop where
  own : Own L m' l' D H role'
  grows : Grows d m l m' l'
  conserves : Conserves d m l m' l'
  other : ∀ u < 2 ^ 20, u < v ∨ v + k < u → m'.look d u = m.look d u
  mapped : r = true → ∀ u, v ≤ u → u ≤ v + k → present (m'.look d u)
  stock : (m.stock l d).serve ((List.range' v (k + 1)).map (· / 1024)) =
    if r then some (m'.stock l' d) else none

theorem mapPage_kernel (h : Own L m l D H role) (hd : d ∈ D) (hv : 2 ^ 19 ≤ v)
    (hv' : v < 2 ^ 20) (pa : Nat) (perm : UInt32) :
    wp (mapPage d (v * PGSIZE) pa perm)
      (fun r m' => ∃ l' role', Mapped L D H d v 0 m l r m' l' role')
      (fun _ _ => present (m.look d v)) m := by
  refine (mapPage_wp h hd hv' pa perm).post ?_
  rintro (_ | _) m'
    ⟨m1, l', role1, hown, hgrow, hcons, hlook, hstock, hhas, -, hfalse, htrue⟩
  · obtain rfl := hfalse rfl
    refine ⟨l', role1, hown, hgrow, hcons, fun u hu _ => hlook u hu, nofun, ?_⟩
    show Stock.serve _ [v / 1024] = none
    rw [Stock.serve_cons, ← hhas, if_neg (by simp)]
  · obtain ⟨hp, rfl⟩ := htrue rfl
    have hok := hown.dirs d hd
    have hset := fun u (hu : u < 2 ^ 20) => hok.look_set hv' hu hp (pte pa perm)
    refine ⟨l', role1, hown.mapKernel hd hv hv' hp _, hgrow.trans (hok.grows_entry hv' hp),
      hcons.trans (.of_foot (Foot.congr (hok.word_entry hv' hp) ?_)), ?_, ?_, ?_⟩
    · intro u hu
      rw [hset u (by omega), if_neg (by omega)]
    · intro u hu hne
      rw [hset u hu, if_neg (by omega)]
      exact hlook u hu
    · intro _ u h1 h2
      rw [hset u (by omega), if_pos (by omega)]
      exact present_pte _ _
    · show Stock.serve _ [v / 1024] = _
      rw [Stock.serve_cons, ← hhas, if_pos rfl, if_pos rfl, hok.stock_entry hv' hp, hstock]
      rfl

/-- The loop over the kernel half stops the machine only at a page that is mapped already. -/
theorem mapLoop_kernel (hd : d ∈ D) (perm : UInt32) (k : Nat) :
    ∀ {v pa : Nat} {m : Mach} {l : List Nat} {role : Nat → Role}, Own L m l D H role →
      2 ^ 19 ≤ v → v + k < 2 ^ 20 →
      wp (mapLoop d perm k (v * PGSIZE) pa)
        (fun r m' => ∃ l' role', Mapped L D H d v k m l r m' l' role')
        (fun _ _ => ∃ u, v ≤ u ∧ u ≤ v + k ∧ present (m.look d u)) m := by
  induction k with
  | zero =>
    intro v pa m l role h hv hk
    exact (mapPage_kernel h hd hv hk pa perm).mono (fun _ _ h => h)
      fun _ _ h => ⟨v, le_refl v, by omega, h⟩
  | succ k ih =>
    intro v pa m l role h hv hk
    unfold mapLoop
    refine ((mapPage_kernel h hd hv (by omega) pa perm).mono (fun _ _ h => h) ?_).bind ?_
    · intro _ _ h
      exact ⟨v, le_refl v, by omega, h⟩
    have hpages : (List.range' v (k + 1 + 1)).map (· / 1024) =
        (List.range' v (0 + 1)).map (· / 1024) ++ (List.range' (v + 1) (k + 1)).map (· / 1024) := by
      rw [List.range'_succ]
      rfl
    rintro (_ | _) m1 ⟨l1, role1, h1⟩
    · rw [if_neg (by simp)]
      refine ⟨l1, role1, h1.own, h1.grows, h1.conserves, ?_, nofun, ?_⟩
      · intro u hu hne
        exact h1.other u hu (by omega)
      · rw [hpages, Stock.serve_append, h1.stock]
        rfl
    · rw [if_pos rfl, show v * PGSIZE + PGSIZE = (v + 1) * PGSIZE by rw [Nat.succ_mul]]
      refine (ih h1.own (by omega) (by omega)).mono ?_ ?_
      · rintro r m2 ⟨l2, role2, h2⟩
        refine ⟨l2, role2, h2.own, h1.grows.trans h2.grows, h1.conserves.trans h2.conserves, ?_,
          ?_, ?_⟩
        · intro u hu hne
          rw [h2.other u hu (by omega)]
          exact h1.other u hu (by omega)
        · intro hr u hu1 hu2
          rcases Nat.eq_or_lt_of_le hu1 with rfl | hlt
          · rw [h2.other v (by omega) (by omega)]
            exact h1.mapped rfl v (le_refl v) (le_refl _)
          · exact h2.mapped hr u hlt (by omega)
        · rw [hpages, Stock.serve_append, h1.stock]
          exact h2.stock
      · rintro _ _ ⟨u, hu1, hu2, hp⟩
        refine ⟨u, by omega, by omega, ?_⟩
        rw [← h1.other u (by omega) (by omega)]
        exact hp

/-- A single page is mapped in one round. -/
theorem mappages_page (hv : v < 2 ^ 20) (pa : Nat) (perm : UInt32) :
    mappages d (v * PGSIZE) PGSIZE pa perm = mapPage d (v * PGSIZE) pa perm := by
  have h1 : PGROUNDDOWN (v * PGSIZE) = v * PGSIZE := by
    unfold PGROUNDDOWN PGSIZE
    omega
  have h2 : PGROUNDDOWN (v * PGSIZE + PGSIZE + (2 ^ 32 - 1)) = v * PGSIZE := by
    unfold PGROUNDDOWN PGSIZE
    omega
  have h3 : (v * PGSIZE + 2 ^ 32 - v * PGSIZE) % 2 ^ 32 / PGSIZE = 0 := by
    unfold PGSIZE
    omega
  unfold mappages
  simp only [h1, h2, h3]
  rfl

/-- A page that is mapped stops the machine. -/
theorem mapPage_remap (hv : v < 2 ^ 20) (hp : present (m.look d v)) (pa : Nat) (perm : UInt32) :
    mapPage d (v * PGSIZE) pa perm m = .panic "remap" m := by
  have ht : present (m.word d (v / 1024)) := by
    by_contra hn
    exact Mach.not_present_look hn hp
  have hw : walkpgdir d (v * PGSIZE) true m = .ok (some (m.tab d (v / 1024), v % 1024)) m := by
    unfold walkpgdir
    rw [Exec.gets_bind, PDX_mul hv, PTX_mul, if_pos ht]
    rfl
  unfold mapPage
  rw [Exec.bind_ok hw]
  dsimp only
  rw [Exec.gets_bind, ← Mach.look_of_present ht, if_pos hp]
  rfl

/-- A held page is none of a directory's. -/
theorem DirOk.held_ne (h : DirOk L m role d) (hp : role p = .held) : p ≠ d ∧ ¬ Tab m d p := by
  have hd : p ≠ d := by
    rintro rfl
    rw [h.dir.1] at hp
    cases hp
  refine ⟨hd, ?_⟩
  rintro (he | ⟨i, hi, hpi, rfl⟩)
  · exact hd he
  · have := (h.table i hi hpi).1
    unfold Mach.tab at hp
    rw [hp] at this
    cases this

/-- Mapping page `p` at user page `v`. -/
theorem mappages_user (h : Own L m l D (p :: H) role) (hd : d ∈ D) (hv : v < 2 ^ 19) :
    wp (mappages d (v * PGSIZE) PGSIZE (p * PGSIZE) (PTE_W ||| PTE_U)) (fun r m' => ∃ l' role',
      m'.page p = m.page p ∧ Grows d m (p :: l) m' l' ∧
      m'.stock l' d = (m.stock l d).ensure (v / 1024) ∧ r = (m.stock l d).has (v / 1024) ∧
      (r = false → Own L m' l' D (p :: H) role' ∧ ¬ present (m.look d v) ∧
        (∀ u < 2 ^ 20, m'.look d u = m.look d u) ∧ Conserves d m l m' l') ∧
      (r = true → Own L m' l' D H role' ∧ (∀ u < 2 ^ 20, m'.look d u =
        if u = v then pte (p * PGSIZE) (PTE_W ||| PTE_U) else m.look d u) ∧
        Conserves d m (p :: l) m' l'))
      (fun _ _ => present (m.look d v)) m := by
  have hv' : v < 2 ^ 20 := by omega
  have hp := h.held.role p List.mem_cons_self
  have hpage := fun {m1 : Mach} {l1 : List Nat} (hg : Grows d m l m1 l1) =>
    hg.page p (h.not_mem_list (by simp [hp.1])) ((h.dirs d hd).held_ne hp.1).2
  rw [mappages_page hv']
  refine (mapPage_wp h hd hv' _ _).post ?_
  rintro (_ | _) m'
    ⟨m1, l', role1, hown, hgrow, hcons, hlook, hstock, hhas, hnp, hfalse, htrue⟩
  · obtain rfl := hfalse rfl
    exact ⟨l', role1, hpage hgrow, (hgrow.hold p).drop, hstock, hhas,
      fun _ => ⟨hown, hnp, hlook, hcons⟩, nofun⟩
  · obtain ⟨ht, rfl⟩ := htrue rfl
    have hok := hown.dirs d hd
    have hg2 := hok.grows_entry (P := l') (w := pte (p * PGSIZE) (PTE_W ||| PTE_U)) hv' ht
    have hp1 := hown.held.role p List.mem_cons_self
    have hfr : frame (pte (p * PGSIZE) (PTE_W ||| PTE_U)) = p := frame_pte hp1.2.lt (by decide)
    have hset := fun u (hu : u < 2 ^ 20) =>
      hok.look_set hv' hu ht (pte (p * PGSIZE) (PTE_W ||| PTE_U))
    have hn1 : ¬ present (m1.look d v) := by
      rw [hlook v hv']
      exact hnp
    refine ⟨l', update role1 p (.user d v), ?_, ?_, ?_, hhas, nofun, fun _ => ⟨?_, ?_, ?_⟩⟩
    · rw [hg2.page p (hown.not_mem_list (by simp [hp1.1])) (hok.held_ne hp1.1).2]
      exact hpage hgrow
    · exact (hgrow.trans hg2).hold p |>.drop
    · rw [hok.stock_entry hv' ht, hstock]
    · exact hown.map hd hv ht hfr
    · intro u hu
      rw [hset u hu, hlook u hu]
    · refine (hcons.hold p).trans (.gain ?_)
      intro q
      rw [Foot.set hv hn1 (present_pte _ _) (hok.word_entry hv' ht)
        (fun u hu => hset u (by omega)), hfr]

/-! ## setupkvm -/

/-- The rows map whole pages of the kernel half from page `lo` on, one after the other. -/
def Rows : Nat → List Kmap → Prop
  | _, [] => True
  | lo, k :: ks => k.virt % PGSIZE = 0 ∧ lo * PGSIZE ≤ k.virt ∧ 0 < k.size ∧
      k.size % PGSIZE = 0 ∧ k.virt + k.size ≤ 2 ^ 32 ∧ Rows ((k.virt + k.size) / PGSIZE) ks

theorem rows_kmap (L : Link) : Rows (2 ^ 19) (kmap L) := by
  have h1 := L.data_aligned
  have h2 := L.data_after
  have h3 := L.end_after
  have h4 := L.end_below
  simp only [kmap, Rows, Kmap.size, KERNLINK, KERNBASE, EXTMEM, PHYSTOP, DEVSPACE, PGSIZE,
    true_and, and_true] at *
  omega

theorem mappages_row {va size : Nat} (ha : va % PGSIZE = 0) (h0 : 0 < size)
    (hs : size % PGSIZE = 0) (hle : va + size ≤ 2 ^ 32) (pa : Nat) (perm : UInt32) :
    mappages d va size pa perm =
      mapLoop d perm (size / PGSIZE - 1) (va / PGSIZE * PGSIZE) pa := by
  unfold PGSIZE at ha hs
  have h1 : PGROUNDDOWN va = va / PGSIZE * PGSIZE := by
    unfold PGROUNDDOWN PGSIZE
    omega
  have h2 : PGROUNDDOWN (va + size + (2 ^ 32 - 1)) = va + size - PGSIZE := by
    unfold PGROUNDDOWN PGSIZE
    omega
  have h3 : (va + size - PGSIZE + 2 ^ 32 - va / PGSIZE * PGSIZE) % 2 ^ 32 / PGSIZE =
      size / PGSIZE - 1 := by
    unfold PGSIZE
    omega
  unfold mappages
  simp only [h1, h2, h3]

/-- The tables of the pages a row maps. -/
def Kmap.tables (k : Kmap) : List Nat :=
  (List.range' (k.virt / PGSIZE) (k.size / PGSIZE)).map (· / 1024)

/-- The kernel's mappings go into a directory whose kernel half is empty from page `lo` on. -/
theorem kmapLoop_wp (hd : d ∈ D) : ∀ (ks : List Kmap) {lo : Nat} {m : Mach} {l : List Nat}
    {role : Nat → Role}, Own L m l D H role → Rows lo ks → 2 ^ 19 ≤ lo →
    (∀ u < 2 ^ 20, lo ≤ u → ¬ present (m.look d u)) →
    wp (kmapLoop d ks) (fun r m' => ∃ l' role', Own L m' l' D H role' ∧ Grows d m l m' l' ∧
      Conserves d m l m' l' ∧ (∀ u < 2 ^ 20, u < lo → m'.look d u = m.look d u) ∧
      (r = true → ∀ k ∈ ks, present (m'.look d (k.virt / PGSIZE))) ∧
      (m.stock l d).serve (ks.flatMap Kmap.tables) = if r then some (m'.stock l' d) else none)
      (fun _ _ => False) m := by
  intro ks
  induction ks with
  | nil =>
    intro lo m l role h _ _ _
    exact ⟨l, role, h, .refl, .refl, fun _ _ _ => rfl, fun _ _ hk => by simp at hk, rfl⟩
  | cons k ks ih =>
    rintro lo m l role h ⟨ha, hlo, h0, hs, hle, hrows⟩ hlo' hfree
    unfold kmapLoop
    rw [mappages_row ha h0 hs hle]
    have hlast : k.virt / PGSIZE + (k.size / PGSIZE - 1) + 1 = (k.virt + k.size) / PGSIZE := by
      unfold PGSIZE at *
      omega
    have hfirst : lo ≤ k.virt / PGSIZE := by
      unfold PGSIZE at *
      omega
    have htop : k.virt / PGSIZE + (k.size / PGSIZE - 1) < 2 ^ 20 := by
      unfold PGSIZE at *
      omega
    have hsize : k.size / PGSIZE - 1 + 1 = k.size / PGSIZE := by
      unfold PGSIZE at *
      omega
    have hmap : wp (mapLoop d k.perm (k.size / PGSIZE - 1) (k.virt / PGSIZE * PGSIZE)
        k.physStart) _ _ m := mapLoop_kernel hd k.perm _ h (hlo'.trans hfirst) htop
    refine (hmap.mono (fun _ _ h => h) ?_).bind ?_
    · rintro _ _ ⟨u, hu1, hu2, hp⟩
      exact hfree u (by omega) (by omega) hp
    rintro r m1 ⟨l1, role1, h1⟩
    have hrow : (m.stock l d).serve k.tables = if r then some (m1.stock l1 d) else none := by
      have := h1.stock
      rw [hsize] at this
      exact this
    rw [List.flatMap_cons, Stock.serve_append, hrow]
    cases r with
    | false =>
      rw [if_neg (by simp)]
      refine ⟨l1, role1, h1.own, h1.grows, h1.conserves, ?_, nofun, rfl⟩
      intro u hu hlt
      exact h1.other u hu (by omega)
    | true =>
      rw [if_pos rfl]
      have hrest := ih h1.own hrows (by omega) (by
        intro u hu hle
        rw [h1.other u hu (by omega)]
        exact hfree u hu (by omega))
      refine hrest.post ?_
      rintro r m2 ⟨l2, role2, hown, hgrow, hcons, hlook, hmapped, hstock⟩
      refine ⟨l2, role2, hown, h1.grows.trans hgrow, h1.conserves.trans hcons, ?_, ?_, hstock⟩
      · intro u hu hlt
        rw [hlook u hu (by omega)]
        exact h1.other u hu (by omega)
      · intro hr k' hk'
        rcases List.mem_cons.mp hk' with rfl | hk'
        · rw [hlook _ (by omega) (by omega)]
          exact h1.mapped rfl _ (le_refl _) (by omega)
        · exact hmapped hr k' hk'

theorem Rows.tables_mem {ks : List Kmap} : ∀ {lo : Nat}, Rows lo ks →
    ∀ i ∈ ks.flatMap Kmap.tables, lo / 1024 ≤ i ∧ i < 1024 := by
  induction ks with
  | nil =>
    intro lo _ i hi
    simp at hi
  | cons k ks ih =>
    rintro lo ⟨ha, hlo, -, -, hle, hrows⟩ i hi
    rw [List.flatMap_cons, List.mem_append] at hi
    unfold PGSIZE at ha hlo
    rcases hi with hi | hi
    · obtain ⟨v, hv, rfl⟩ := List.mem_map.mp hi
      have hv := List.mem_range'_1.mp hv
      unfold PGSIZE at hv
      omega
    · have := ih hrows i hi
      unfold PGSIZE at this
      omega

theorem kmap_tables (L : Link) : ∀ i ∈ (kmap L).flatMap Kmap.tables, 512 ≤ i ∧ i < 1024 :=
  (rows_kmap L).tables_mem

/-- The tables of a new directory are asked for after the directory itself. -/
def Supply.newDir (s : Supply) : Stock := ⟨s.next, fun _ => false⟩

theorem Supply.newDir_rich {s : Supply} (hf : ∀ k, s.calls ≤ k → s.fails k = false)
    (hl : 1025 + n ≤ s.left) : s.ok = true ∧ s.newDir.Rich n := by
  have hne : s.left ≠ 0 := by omega
  have hok : s.ok = true := by simp [Supply.ok, hf _ (le_refl _), hne]
  refine ⟨hok, ?_⟩
  unfold Supply.newDir
  rw [Supply.next_of_ok hok]
  refine ⟨fun k hk => hf k (Nat.le_of_succ_le hk), ?_⟩
  show 1024 + n ≤ s.left - 1 + _
  omega

/-- The new directory has an empty user half; nothing but free pages has been written. If a
    table cannot be had the directory is lost. -/
theorem setupkvm_wp (h : Own L m l D H role) :
    wp (setupkvm L) (fun r m' => ∃ l' role', (∀ q, q ∉ l → m'.page q = m.page q) ∧
      match r with
      | none => Own L m' l' D H role' ∧ (∀ q ∈ l', q ∈ l) ∧
        (((m.supply l).ok = false ∧ l' = l) ∨ ((m.supply l).ok = true ∧
          (m.supply l).newDir.serve ((kmap L).flatMap Kmap.tables) = none ∧
          ∃ d ∈ l, d ∉ l' ∧ role' d ≠ .held))
      | some d => Own L m' l' (d :: D) H role' ∧ (∀ q, q ∈ l ↔ q ∈ l' ∨ Foot m' d q) ∧
        (∀ u < 2 ^ 19, m'.look d u = 0) ∧ present (m'.look d (2 ^ 19)) ∧
        (m.supply l).ok = true ∧
        (m.supply l).newDir.serve ((kmap L).flatMap Kmap.tables) = some (m'.stock l' d))
      (fun _ _ => False) m := by
  unfold setupkvm
  refine (kalloc_wp h).andThen ?_
  rintro (_ | d) m1 ⟨hpage, hok, hm⟩
  · exact ⟨l, role, fun q _ => congrFun hpage q, hm.2, fun _ hq => hq, .inl ⟨hok, rfl⟩⟩
  · obtain ⟨l1, rfl, hnext, hown⟩ := hm
    have hd := hown.held.role d List.mem_cons_self
    have h0 : ∀ i, (m1.setPage d fun _ => 0).word d i = 0 := by
      intro i
      simp [Mach.word, Mach.setPage]
    have hown2 := (hown.write (.inl hd.1) fun _ => 0).newDir h0
    have hstock : (m1.setPage d fun _ => 0).stock l1 d = (m.supply (d :: l1)).newDir := by
      have ht : (fun i => decide (present ((m1.setPage d fun _ => 0).word d i))) =
          fun _ => false := by
        funext i
        rw [h0]
        rfl
      unfold Mach.stock Supply.newDir
      rw [ht, ← hnext]
      rfl
    simp only [memset, wp_modify_bind]
    refine (kmapLoop_wp List.mem_cons_self (kmap L) hown2 (rows_kmap L) (le_refl _) ?_).bind ?_
    · intro u _ _
      rw [Mach.look_of_zero h0]
      exact not_present_zero
    rintro r m2 ⟨l2, role2, hown3, hgrow, hcons, hlook, hmapped, hserve⟩
    rw [hstock] at hserve
    have hfoot : ∀ q, Foot (m1.setPage d fun _ => 0) d q ↔ q = d := by
      intro q
      constructor
      · rintro ((rfl | ⟨i, _, hp, -⟩) | ⟨u, _, hp, -⟩)
        · rfl
        · rw [h0] at hp
          exact absurd hp not_present_zero
        · rw [Mach.look_of_zero h0] at hp
          exact absurd hp not_present_zero
      · rintro rfl
        exact .inl (.inl rfl)
    have hall : ∀ q, q ∈ d :: l1 ↔ q ∈ l2 ∨ Foot m2 d q := by
      intro q
      rw [← hcons q, hfoot q, List.mem_cons, or_comm]
    have hpage2 : ∀ q, q ∉ d :: l1 → m2.page q = m.page q := by
      intro q hq
      have hqd : q ≠ d := fun he => hq (he ▸ List.mem_cons_self)
      rw [hgrow.page q (fun hc => hq (List.mem_cons_of_mem d hc))
        fun hc => hqd ((hfoot q).mp (.inl hc)), ← hpage]
      exact update_of_ne hqd ..
    cases r with
    | false =>
      have hdir := (hown3.dirs d List.mem_cons_self).dir.1
      rw [if_neg (by simp)]
      refine ⟨l2, role2, hpage2, hown3.leakDir, fun q hq => (hall q).mpr (.inl hq),
        .inr ⟨hok, hserve, d, List.mem_cons_self, hown3.not_mem_list ?_, ?_⟩⟩ <;>
      · rw [hdir]
        simp
    | true =>
      rw [if_pos rfl]
      refine ⟨l2, role2, hpage2, hown3, hall, ?_, ?_, hok, hserve⟩
      · intro u hu
        rw [hlook u (by omega) hu]
        exact Mach.look_of_zero h0 u
      · have h19 : KERNBASE / PGSIZE = 2 ^ 19 := by decide
        have := hmapped rfl ⟨KERNBASE, 0, EXTMEM, PTE_W⟩ (by simp [kmap])
        rw [← h19]
        exact this

theorem Mach.look_of_no_table (h : ∀ i < 512, ¬ present (m.word d i)) (hv : v < 2 ^ 19) :
    ¬ present (m.look d v) := Mach.not_present_look (h _ (by omega))

/-- With enough memory there is a directory, and what is left is ample. -/
theorem setupkvm_ample (h : Own L m l D H role) (hf : ∀ k, m.calls ≤ k → m.fails k = false)
    (hl : 1025 + n ≤ l.length) :
    wp (setupkvm L) (fun r m' => ∃ d l' role', r = some d ∧ (∀ q, q ∉ l → m'.page q = m.page q) ∧
      Own L m' l' (d :: D) H role' ∧ (∀ q, q ∈ l ↔ q ∈ l' ∨ Foot m' d q) ∧
      (∀ i < 512, ¬ present (m'.word d i)) ∧ present (m'.look d (2 ^ 19)) ∧ Ample n m' l' d)
      (fun _ _ => False) m := by
  have hok : (m.supply l).ok = true ∧ (m.supply l).newDir.Rich n := Supply.newDir_rich hf hl
  obtain ⟨s, hs, hrich⟩ := hok.2.serve fun i hi => (kmap_tables L i hi).2
  refine (setupkvm_wp h).post ?_
  rintro (_ | d) m' ⟨l', role', hpage, hown, hrest⟩
  · rcases hrest with ⟨-, ⟨hno, -⟩ | ⟨-, hno, -⟩⟩
    · rw [hok.1] at hno
      cases hno
    · rw [hs] at hno
      cases hno
  · obtain ⟨hall, -, hkern, -, hserve⟩ := hrest
    refine ⟨d, l', role', rfl, hpage, hown, hall, ?_, hkern, ample_iff.mpr ?_⟩
    · intro i hi
      have hout : i ∉ (kmap L).flatMap Kmap.tables := by
        intro hc
        have := (kmap_tables L i hc).1
        omega
      exact of_decide_eq_false (Stock.serve_tables hserve hout)
    · rw [hs] at hserve
      rw [← Option.some.inj hserve]
      exact hrich

end Zv6.Mem
