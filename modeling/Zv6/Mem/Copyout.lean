/-
  Copying to user memory (`uva2ka` and `copyout` of vm.c).

  `uva2ka` reads the entry that `walkpgdir` finds without asking whether it found one. Where the
  directory has no table it follows a null pointer, and what it reads there is up to the address
  space the kernel runs in: `null` stands for that read. It is the first word of the current
  process (`firstWord`), which the process may set as it likes, and `uva2ka` takes it for the
  entry.

  `copyout` is right for all such reads exactly if it makes none: if the first page of the range
  that user code may not access has a table (`copyout_exact_iff`).
-/
import Zv6.Mem.Flat

namespace Zv6.Mem

open Zv6.Lib Function

/-! ## The code -/

/-- The first word of the address space of `cur`. -/
def firstWord (cur : Nat) : M UInt32 := do
  let w ← Exec.gets fun m => m.look cur 0
  if present w then
    Exec.gets fun m => m.word (frame w) 0
  else
    Exec.panic "trap"

/-- The page of a user address; `null` is the read through a null pointer. -/
def uva2ka (null : M UInt32) (pgdir uva : Nat) : M (Option Nat) := do
  let w ← match ← walkpgdir pgdir uva false with
    | none => null
    | some (t, j) => Exec.gets fun m => m.word t j
  if w &&& PTE_P = 0 then
    pure none
  else if w &&& PTE_U = 0 then
    pure none
  else
    pure (some (frame w))

/-- `memmove` to offset `o` of page `p`. -/
def memmove (p o : Nat) (src : List UInt8) : M PUnit :=
  Exec.modify fun m => m.setPage p fun k =>
    if o ≤ k ∧ k < o + src.length then src.getD (k - o) 0 else m.page p k

/-- The loop of `copyout`, for at most `n` rounds; `false` is -1. -/
def copyoutLoop (null : M UInt32) (pgdir : Nat) : Nat → Nat → List UInt8 → M Bool
  | _, _, [] => pure true
  | 0, _, _ :: _ => fun m => .loops m
  | n + 1, va, b :: buf => do
    let va0 := PGROUNDDOWN va
    match ← uva2ka null pgdir va0 with
    | none => pure false
    | some pa0 => do
      let len := min (PGSIZE - (va - va0)) (b :: buf).length
      memmove pa0 (va - va0) ((b :: buf).take len)
      copyoutLoop null pgdir n ((va0 + PGSIZE) % 2 ^ 32) ((b :: buf).drop len)

def copyout (null : M UInt32) (pgdir va : Nat) (p : List UInt8) : M Bool :=
  copyoutLoop null pgdir p.length va p

/-! ## User memory -/

variable {m m' m1 : Mach} {d v va a n : Nat} {src : List UInt8} {null : M UInt32} {r : Bool}

/-- User code may access page `v`. -/
def Accessible (m : Mach) (d v : Nat) : Prop := present (m.look d v) ∧ m.look d v &&& PTE_U ≠ 0

instance Accessible.decidable (m : Mach) (d v : Nat) : Decidable (Accessible m d v) :=
  inferInstanceAs (Decidable (_ ∧ _))

/-- User pages are mapped once, and are no tables of the directory. -/
structure UserMap (m : Mach) (d : Nat) : Prop where
  inj : ∀ u < 2 ^ 20, ∀ v < 2 ^ 20, Accessible m d u → Accessible m d v →
    frame (m.look d u) = frame (m.look d v) → u = v
  apart : ∀ v < 2 ^ 20, Accessible m d v → ¬ Tab m d (frame (m.look d v))

/-- So is every directory the kernel owns, if its upper half is closed to user code. -/
theorem DirOk.userMap {L : Link} {role : Nat → Role} (h : DirOk L m role d)
    (hclosed : ∀ u < 2 ^ 20, 2 ^ 19 ≤ u → ¬ Accessible m d u) : UserMap m d := by
  have huser : ∀ v < 2 ^ 20, Accessible m d v → role (frame (m.look d v)) = .user d v := by
    intro v hv hacc
    have hlow : v < 2 ^ 19 := Nat.lt_of_not_le fun hge => hclosed v hv hge hacc
    exact (h.user v hlow hacc.1).1
  refine ⟨?_, ?_⟩
  · intro u hu v hv hau hav he
    have hr := huser u hu hau
    rw [he, huser v hv hav] at hr
    exact (Role.user.inj hr).2.symm
  · intro v hv hacc htab
    have hr := huser v hv hacc
    rcases htab with hd | ⟨i, hi, hp, ht⟩
    · rw [hd, h.dir.1] at hr
      cases hr
    · rw [ht, Mach.tab, (h.table i hi hp).1] at hr
      cases hr

theorem Accessible.table (h : Accessible m d v) : present (m.word d (v / 1024)) := by
  by_contra hn
  exact Mach.not_present_look hn h.1

theorem Accessible.congr (h : m'.look d v = m.look d v) : Accessible m' d v ↔ Accessible m d v := by
  unfold Accessible
  rw [h]

/-! ## One page -/

theorem uva2ka_table (hv : v < 2 ^ 20) (ht : present (m.word d (v / 1024))) :
    uva2ka null d (v * PGSIZE) m =
      .ok (if Accessible m d v then some (frame (m.look d v)) else none) m := by
  unfold uva2ka
  rw [Exec.bind_ok (walkpgdir_read hv), if_pos ht]
  simp only
  rw [Exec.gets_bind, ← Mach.look_of_present ht]
  have hif : (if m.look d v &&& PTE_P = 0 then pure none
      else if m.look d v &&& PTE_U = 0 then pure none
      else pure (some (frame (m.look d v))) : M (Option Nat)) =
      pure (if Accessible m d v then some (frame (m.look d v)) else none) := by
    by_cases hacc : Accessible m d v
    · rw [if_neg hacc.1, if_neg hacc.2, if_pos hacc]
    · rw [if_neg hacc]
      by_cases hp : m.look d v &&& PTE_P = 0
      · rw [if_pos hp]
      · rw [if_neg hp, if_pos (not_not.mp fun hu => hacc ⟨hp, hu⟩)]
  rw [hif]
  rfl

/-- Without a table the null pointer is followed. -/
theorem uva2ka_null (hv : v < 2 ^ 20) (ht : ¬ present (m.word d (v / 1024))) :
    uva2ka null d (v * PGSIZE) m = (null >>= fun w =>
      if w &&& PTE_P = 0 then pure none else if w &&& PTE_U = 0 then pure none
      else (pure (some (frame w)) : M (Option Nat))) m := by
  unfold uva2ka
  rw [Exec.bind_ok (walkpgdir_read hv), if_neg ht]

theorem PGROUNDDOWN_eq (hva : va < 2 ^ 32) : PGROUNDDOWN va = va / PGSIZE * PGSIZE := by
  unfold PGROUNDDOWN
  rw [Nat.mod_eq_of_lt hva]

theorem sub_page (va : Nat) : va - va / PGSIZE * PGSIZE = va % PGSIZE := by
  unfold PGSIZE
  omega

/-- How many bytes of `src` go to the page of `va`. -/
def onPage (va : Nat) (src : List UInt8) : Nat := min (PGSIZE - va % PGSIZE) src.length

/-- The machine after these bytes have been copied to page `p`. -/
def Mach.copied (m : Mach) (p va : Nat) (src : List UInt8) : Mach :=
  m.setPage p fun k =>
    if va % PGSIZE ≤ k ∧ k < va % PGSIZE + (src.take (onPage va src)).length then
      (src.take (onPage va src)).getD (k - va % PGSIZE) 0
    else m.page p k

@[simp] theorem copyoutLoop_nil (n va : Nat) : copyoutLoop null d n va [] m = .ok true m := by
  cases n <;> rfl

/-- One round of the loop. -/
theorem copyoutLoop_succ (hva : va < 2 ^ 32) (hne : src ≠ []) :
    copyoutLoop null d (n + 1) va src m = (uva2ka null d (va / PGSIZE * PGSIZE) >>= fun p =>
      match p with
      | none => pure false
      | some p => fun m => copyoutLoop null d n ((va / PGSIZE * PGSIZE + PGSIZE) % 2 ^ 32)
          (src.drop (onPage va src)) (m.copied p va src)) m := by
  cases src with
  | nil => exact absurd rfl hne
  | cons b buf =>
    conv_lhs => unfold copyoutLoop
    simp only [PGROUNDDOWN_eq hva, sub_page]
    rfl

theorem onPage_le : onPage va src ≤ src.length := Nat.min_le_right ..

theorem onPage_pos (hne : src ≠ []) : 0 < onPage va src := by
  have hlen : 0 < src.length := List.length_pos_iff.mpr hne
  unfold onPage PGSIZE
  omega

/-- Where the next page begins, if there are bytes left. -/
theorem next_page (hend : va + src.length ≤ 2 ^ 32) (hleft : src.drop (onPage va src) ≠ []) :
    (va / PGSIZE * PGSIZE + PGSIZE) % 2 ^ 32 = va + onPage va src := by
  have hlen : 0 < (src.drop (onPage va src)).length := List.length_pos_iff.mpr hleft
  rw [List.length_drop] at hlen
  unfold onPage PGSIZE at *
  omega

/-! ## Words of a directory and bytes of its pages -/

theorem UserMap.congr (h : UserMap m d) (hlook : ∀ v < 2 ^ 20, m'.look d v = m.look d v)
    (hword : ∀ i, m'.word d i = m.word d i) : UserMap m' d := by
  refine ⟨?_, ?_⟩
  · intro u hu v hv hau hav he
    rw [Accessible.congr (hlook u hu)] at hau
    rw [Accessible.congr (hlook v hv)] at hav
    rw [hlook u hu, hlook v hv] at he
    exact h.inj u hu v hv hau hav he
  · intro v hv hacc htab
    rw [Accessible.congr (hlook v hv)] at hacc
    rw [hlook v hv] at htab
    apply h.apart v hv hacc
    unfold Tab Mach.tab at htab ⊢
    simp only [hword] at htab
    exact htab

/-- Bytes of user pages have changed and nothing else. -/
def Touches (m : Mach) (d : Nat) (S : Nat → Prop) (m' : Mach) : Prop :=
  ∀ q k, m'.page q k ≠ m.page q k →
    ∃ a, S a ∧ Accessible m d (a / PGSIZE) ∧ q = frame (m.look d (a / PGSIZE)) ∧ k = a % PGSIZE

theorem Touches.tab {S : Nat → Prop} (h : Touches m d S m') (hu : UserMap m d)
    (hS : ∀ a, S a → a < 2 ^ 32) : ∀ q, Tab m d q → m'.page q = m.page q := by
  intro q hq
  funext k
  by_contra hne
  obtain ⟨a, ha, hacc, rfl, -⟩ := h q k hne
  have hlt := hS a ha
  exact hu.apart _ (by unfold PGSIZE; omega) hacc hq

theorem Touches.look {S : Nat → Prop} (h : Touches m d S m') (hu : UserMap m d)
    (hS : ∀ a, S a → a < 2 ^ 32) (hv : v < 2 ^ 20) : m'.look d v = m.look d v :=
  Mach.look_keep (h.tab hu hS) hv

theorem Touches.userMap {S : Nat → Prop} (h : Touches m d S m') (hu : UserMap m d)
    (hS : ∀ a, S a → a < 2 ^ 32) : UserMap m' d :=
  hu.congr (fun _ hv => h.look hu hS hv) (Mach.word_keep (h.tab hu hS d (.inl rfl)))

/-- A byte that is not touched keeps its value. -/
theorem Touches.byte {S : Nat → Prop} (h : Touches m d S m') (hu : UserMap m d)
    (hS : ∀ a, S a → a < 2 ^ 32) (ha : a < 2 ^ 32) (hacc : Accessible m d (a / PGSIZE))
    (hn : ¬ S a) : m'.byte d a = m.byte d a := by
  have h20 : a / PGSIZE < 2 ^ 20 := by
    unfold PGSIZE
    omega
  unfold Mach.byte
  rw [h.look hu hS h20]
  by_contra hne
  obtain ⟨b, hb, haccb, hf, hk⟩ := h _ _ hne
  have hlt := hS b hb
  have hpage := hu.inj _ h20 _ (by unfold PGSIZE; omega) hacc haccb hf
  have hab : a = b := by
    rw [← Nat.div_add_mod a PGSIZE, ← Nat.div_add_mod b PGSIZE, hpage, hk]
  exact hn (hab ▸ hb)

theorem Touches.trans {S T : Nat → Prop} (h : Touches m d S m1) (h' : Touches m1 d T m')
    (hu : UserMap m d) (hS : ∀ a, S a → a < 2 ^ 32) (hT : ∀ a, T a → a < 2 ^ 32) :
    Touches m d (fun a => S a ∨ T a) m' := by
  intro q k hne
  by_cases hmid : m'.page q k = m1.page q k
  · rw [hmid] at hne
    obtain ⟨a, ha, hrest⟩ := h q k hne
    exact ⟨a, .inl ha, hrest⟩
  · obtain ⟨a, ha, hacc, hf, hk⟩ := h' q k hmid
    have hlt := hT a ha
    have hlook := h.look hu hS (show a / PGSIZE < 2 ^ 20 by unfold PGSIZE; omega)
    rw [hlook] at hf
    rw [Accessible.congr hlook] at hacc
    exact ⟨a, .inr ha, hacc, hf, hk⟩

theorem Touches.mono {S T : Nat → Prop} (h : Touches m d S m') (hST : ∀ a, S a → T a) :
    Touches m d T m' := by
  intro q k hne
  obtain ⟨a, ha, hrest⟩ := h q k hne
  exact ⟨a, hST a ha, hrest⟩

/-- A chunk is copied to an accessible page. -/
theorem copied_touches (hacc : Accessible m d (va / PGSIZE)) :
    Touches m d (fun a => va ≤ a ∧ a < va + onPage va src)
      (m.copied (frame (m.look d (va / PGSIZE))) va src) := by
  intro q k hne
  unfold Mach.copied Mach.setPage at hne
  by_cases hq : q = frame (m.look d (va / PGSIZE))
  · subst hq
    simp only [update_self] at hne
    split at hne
    · next hin =>
      have hlen : (src.take (onPage va src)).length = onPage va src := by
        rw [List.length_take, Nat.min_eq_left onPage_le]
      rw [hlen] at hin
      have hle : onPage va src ≤ PGSIZE - va % PGSIZE := Nat.min_le_left ..
      have hdiv : (va / PGSIZE * PGSIZE + k) / PGSIZE = va / PGSIZE := by
        unfold PGSIZE at *
        omega
      refine ⟨va / PGSIZE * PGSIZE + k, ?_, ?_, ?_, ?_⟩
      · unfold PGSIZE at *
        omega
      · rw [hdiv]
        exact hacc
      · rw [hdiv]
      · unfold PGSIZE at *
        omega
    · exact absurd rfl hne
  · simp only [update_of_ne hq] at hne
    exact absurd rfl hne

theorem copied_byte {p k : Nat} (hk : k < onPage va src) :
    (m.copied p va src).page p (va % PGSIZE + k) = src.getD k 0 := by
  have hlen : (src.take (onPage va src)).length = onPage va src := by
    rw [List.length_take, Nat.min_eq_left onPage_le]
  unfold Mach.copied Mach.setPage
  simp only [update_self]
  rw [if_pos (by omega), Nat.add_sub_cancel_left]
  simp only [List.getD_eq_getElem?_getD]
  rw [List.getElem?_take_of_lt hk]

/-! ## The whole range -/

/-- What `copyout` is to do: it returns 0 if all pages are accessible, and then the bytes are in
    place; no other byte changes in any case. -/
structure CopiedOut (m : Mach) (d va : Nat) (src : List UInt8) (r : Bool) (m' : Mach) : Prop where
  result : r = true ↔ ∀ a, va ≤ a → a < va + src.length → Accessible m d (a / PGSIZE)
  bytes : r = true → ∀ k < src.length, m'.byte d (va + k) = src.getD k 0
  only : Touches m d (fun a => va ≤ a ∧ a < va + src.length) m'
  alloc : m' = { m with page := m'.page }

theorem CopiedOut.nil : CopiedOut m d va [] true m := by
  refine ⟨?_, ?_, ?_, rfl⟩
  · refine ⟨fun _ a h1 h2 => ?_, fun _ => rfl⟩
    rw [List.length_nil] at h2
    omega
  · intro _ k hk
    exact absurd hk (Nat.not_lt_zero k)
  · intro q k hne
    exact absurd rfl hne

/-- A chunk, then the rest. -/
theorem CopiedOut.cons (hu : UserMap m d) (hend : va + src.length ≤ 2 ^ 32)
    (hacc : Accessible m d (va / PGSIZE))
    (h : CopiedOut (m.copied (frame (m.look d (va / PGSIZE))) va src) d (va + onPage va src)
      (src.drop (onPage va src)) r m') : CopiedOut m d va src r m' := by
  have hle : onPage va src ≤ src.length := onPage_le
  have hpage : onPage va src ≤ PGSIZE - va % PGSIZE := Nat.min_le_left ..
  have hchunk := @copied_touches m d va src hacc
  have hlt : ∀ a, va ≤ a ∧ a < va + onPage va src → a < 2 ^ 32 := fun a ha => by omega
  have hlook : ∀ v < 2 ^ 20, (m.copied (frame (m.look d (va / PGSIZE))) va src).look d v =
      m.look d v := fun v hv => hchunk.look hu hlt hv
  have hu1 := hchunk.userMap hu hlt
  have hlen : va + onPage va src + (src.drop (onPage va src)).length = va + src.length := by
    rw [List.length_drop]
    omega
  have h20 : ∀ a, a < 2 ^ 32 → a / PGSIZE < 2 ^ 20 := by
    intro a ha
    unfold PGSIZE
    omega
  have hsame : ∀ a, va ≤ a → a < va + onPage va src → a / PGSIZE = va / PGSIZE := by
    intro a h1 h2
    unfold PGSIZE at *
    omega
  refine ⟨?_, ?_, ?_, ?_⟩
  · rw [h.result, hlen]
    constructor
    · intro hall a h1 h2
      by_cases hin : a < va + onPage va src
      · rw [hsame a h1 hin]
        exact hacc
      · exact (Accessible.congr (hlook _ (h20 a (by omega)))).mp (hall a (by omega) h2)
    · intro hall a h1 h2
      exact (Accessible.congr (hlook _ (h20 a (by omega)))).mpr (hall a (by omega) h2)
  · intro hr k hk
    by_cases hin : k < onPage va src
    · -- a byte of this page: the pages after it are others
      have hoff : (va + k) % PGSIZE = va % PGSIZE + k := by
        unfold PGSIZE at *
        omega
      have hpage1 : (va + k) / PGSIZE = va / PGSIZE := hsame (va + k) (by omega) (by omega)
      rw [h.only.byte hu1 (fun a ha => by omega) (by omega) _ (by omega)]
      · unfold Mach.byte
        rw [hpage1, hlook _ (h20 va (by omega)), hoff, copied_byte hin]
      · rw [hpage1, Accessible.congr (hlook _ (h20 va (by omega)))]
        exact hacc
    · have hbyte := h.bytes hr (k - onPage va src) (by rw [List.length_drop]; omega)
      rw [show va + onPage va src + (k - onPage va src) = va + k by omega] at hbyte
      rw [hbyte]
      simp only [List.getD_eq_getElem?_getD, List.getElem?_drop]
      rw [show onPage va src + (k - onPage va src) = k by omega]
  · apply (hchunk.trans h.only hu hlt fun a ha => by omega).mono
    intro a ha
    omega
  · rw [h.alloc]
    rfl

/-- The first page from `va` to `bound` that is not accessible has a table. -/
def Tabled (m : Mach) (d va bound : Nat) : Prop :=
  ∀ a, va ≤ a → a < bound → (∀ b, va ≤ b → b < a → Accessible m d (b / PGSIZE)) →
    present (m.word d (a / PGSIZE / 1024))

/-- Behind an accessible page the same can be said of the rest. -/
theorem Tabled.rest (h : Tabled m d va (va + src.length)) (hu : UserMap m d)
    (hend : va + src.length ≤ 2 ^ 32) (hacc : Accessible m d (va / PGSIZE)) :
    Tabled (m.copied (frame (m.look d (va / PGSIZE))) va src) d (va + onPage va src)
      (va + onPage va src + (src.drop (onPage va src)).length) := by
  have hle : onPage va src ≤ src.length := onPage_le
  have hpage : onPage va src ≤ PGSIZE - va % PGSIZE := Nat.min_le_left ..
  have hlt : ∀ a, va ≤ a ∧ a < va + onPage va src → a < 2 ^ 32 := fun a ha => by omega
  have hchunk := @copied_touches m d va src hacc
  intro a h1 h2 hbefore
  rw [List.length_drop] at h2
  rw [Mach.word_keep (hchunk.tab hu hlt d (.inl rfl))]
  apply h a (by omega) (by omega)
  intro b hb1 hb2
  by_cases hin : b < va + onPage va src
  · have hsame : b / PGSIZE = va / PGSIZE := by
      unfold PGSIZE at *
      omega
    rw [hsame]
    exact hacc
  · have hb := hbefore b (by omega) hb2
    exact (Accessible.congr (hchunk.look hu hlt (by unfold PGSIZE; omega))).mp hb

/-- Where no null pointer is followed the loop does what it is to do. -/
theorem copyoutLoop_wp (n : Nat) : ∀ {m : Mach} {va : Nat} {src : List UInt8}, UserMap m d →
    va + src.length ≤ 2 ^ 32 → src.length ≤ n → Tabled m d va (va + src.length) →
    wp (copyoutLoop null d n va src) (CopiedOut m d va src) (fun _ _ => False) m := by
  induction n with
  | zero =>
    intro m va src _ _ hn _
    obtain rfl := List.length_eq_zero_iff.mp (Nat.le_zero.mp hn)
    exact .nil
  | succ n ih =>
    intro m va src hu hend hn htab
    by_cases hne : src = []
    · subst hne
      exact .nil
    have hlen : 0 < src.length := List.length_pos_iff.mpr hne
    have hva : va < 2 ^ 32 := by omega
    have h20 : va / PGSIZE < 2 ^ 20 := by
      unfold PGSIZE
      omega
    have htable := htab va (Nat.le_refl va) (by omega) fun b h1 h2 => by omega
    rw [wp_congr (copyoutLoop_succ hva hne), wp_bind, wp_of_ok (uva2ka_table h20 htable)]
    by_cases hacc : Accessible m d (va / PGSIZE)
    · rw [if_pos hacc]
      have hdone : wp (copyoutLoop null d n ((va / PGSIZE * PGSIZE + PGSIZE) % 2 ^ 32)
          (src.drop (onPage va src)))
          (CopiedOut (m.copied (frame (m.look d (va / PGSIZE))) va src) d (va + onPage va src)
            (src.drop (onPage va src))) (fun _ _ => False)
          (m.copied (frame (m.look d (va / PGSIZE))) va src) := by
        by_cases hleft : src.drop (onPage va src) = []
        · rw [hleft, wp_of_ok (copyoutLoop_nil ..)]
          exact .nil
        · have hpos := @onPage_pos va src hne
          have hle := @onPage_le va src
          rw [next_page hend hleft]
          apply ih ((copied_touches hacc).userMap hu fun a ha => by omega)
          · rw [List.length_drop]
            omega
          · rw [List.length_drop]
            omega
          · exact htab.rest hu hend hacc
      exact hdone.post fun _ _ h => .cons hu hend hacc h
    · rw [if_neg hacc]
      refine ⟨?_, ?_, ?_, rfl⟩
      · constructor
        · intro hc
          cases hc
        · intro hall
          exact absurd (hall va (Nat.le_refl va) (by omega)) hacc
      · intro hc
        cases hc
      · intro q k hne
        exact absurd rfl hne

/-- Where the first page that is not accessible has no table, the null pointer is followed. -/
theorem copyoutLoop_null {e : String} (n : Nat) : ∀ {m : Mach} {va a : Nat} {src : List UInt8},
    UserMap m d → va + src.length ≤ 2 ^ 32 → src.length ≤ n → va ≤ a → a < va + src.length →
    (∀ b, va ≤ b → b < a → Accessible m d (b / PGSIZE)) →
    ¬ present (m.word d (a / PGSIZE / 1024)) →
    ∃ m', copyoutLoop (Exec.panic e) d n va src m = .panic e m' := by
  induction n with
  | zero =>
    intro m va a src _ _ hn h1 h2
    omega
  | succ n ih =>
    intro m va a src hu hend hn h1 h2 hbefore hnone
    have hne : src ≠ [] := by
      rintro rfl
      rw [List.length_nil] at h2
      omega
    have hva : va < 2 ^ 32 := by omega
    have h20 : va / PGSIZE < 2 ^ 20 := by
      unfold PGSIZE
      omega
    rw [copyoutLoop_succ hva hne]
    by_cases hpage : a / PGSIZE = va / PGSIZE
    · rw [hpage] at hnone
      refine ⟨m, ?_⟩
      rw [Exec.bind_panic]
      rw [uva2ka_null h20 hnone]
      rfl
    · have hacc : Accessible m d (va / PGSIZE) := by
        apply hbefore va (Nat.le_refl va)
        by_contra hge
        exact hpage (by rw [show a = va by omega])
      have hlt : ∀ a, va ≤ a ∧ a < va + onPage va src → a < 2 ^ 32 := by
        intro a ha
        have := @onPage_le va src
        omega
      have hchunk := @copied_touches m d va src hacc
      -- the page of `a` comes later, so this chunk ends at the end of its page
      have hfull : onPage va src = PGSIZE - va % PGSIZE ∧ va + onPage va src ≤ a := by
        unfold onPage PGSIZE at *
        omega
      have hpos := @onPage_pos va src hne
      have hleft : src.drop (onPage va src) ≠ [] := by
        intro hnil
        have hlen := congrArg List.length hnil
        rw [List.length_drop, List.length_nil] at hlen
        omega
      rw [Exec.bind_ok (uva2ka_table h20 hacc.table), if_pos hacc]
      simp only
      rw [next_page hend hleft]
      apply ih (hchunk.userMap hu hlt)
      · rw [List.length_drop]
        omega
      · rw [List.length_drop]
        omega
      · exact hfull.2
      · rw [List.length_drop]
        omega
      · intro b hb1 hb2
        exact (Accessible.congr (hchunk.look hu hlt (by unfold PGSIZE; omega))).mpr
          (hbefore b (by omega) hb2)
      · rw [Mach.word_keep (hchunk.tab hu hlt d (.inl rfl))]
        exact hnone

/-- `copyout` is right whatever the null pointer leads to, exactly if it never follows it. -/
theorem copyout_exact_iff (hu : UserMap m d) (hend : va + src.length ≤ 2 ^ 32) :
    (∀ null, ∃ r m', copyout null d va src m = .ok r m' ∧ CopiedOut m d va src r m') ↔
      Tabled m d va (va + src.length) := by
  constructor
  · intro hall a h1 h2 hbefore
    by_contra hnone
    obtain ⟨r, m', hr, -⟩ := hall (Exec.panic "null")
    obtain ⟨m'', hp⟩ := copyoutLoop_null (e := "null") src.length hu hend (Nat.le_refl _) h1 h2
      hbefore hnone
    unfold copyout at hr
    rw [hp] at hr
    cases hr
  · intro htab null
    exact (copyoutLoop_wp src.length hu hend (Nat.le_refl _) htab).returns

/-- A directory in page 0 whose only page, at user address 0, is page 2; its first word looks like
    an entry for page 5. Page 4 is a directory without tables. -/
def firstPage : Mach :=
  ((blank.setWord 0 0 (pte (1 * PGSIZE) (PTE_W ||| PTE_U))).setWord 1 0
    (pte (2 * PGSIZE) (PTE_W ||| PTE_U))).setWord 2 0 (pte (5 * PGSIZE) (PTE_W ||| PTE_U))

theorem firstPage_word (p i : Nat) : firstPage.word p i =
    if p = 0 ∧ i = 0 then pte (1 * PGSIZE) (PTE_W ||| PTE_U)
    else if p = 1 ∧ i = 0 then pte (2 * PGSIZE) (PTE_W ||| PTE_U)
    else if p = 2 ∧ i = 0 then pte (5 * PGSIZE) (PTE_W ||| PTE_U) else 0 := by
  have hset : ∀ (m : Mach) (q : Nat) (w : UInt32),
      (m.setWord q 0 w).word p i = if p = q ∧ i = 0 then w else m.word p i := by
    intro m q w
    by_cases hp : p = q
    · subst hp
      by_cases hi : i = 0
      · rw [hi, Mach.word_setWord, if_pos ⟨rfl, rfl⟩]
      · rw [Mach.word_setWord_ne _ _ _ hi, if_neg fun hc => hi hc.2]
    · rw [Mach.word_setWord_other _ _ _ _ hp, if_neg fun hc => hp hc.1]
  have hzero : blank.word p i = 0 := Page.word_zero i
  unfold firstPage
  rw [hset, hset, hset, hzero]
  by_cases h0 : p = 0
  · simp [h0]
  · by_cases h1 : p = 1
    · simp [h1]
    · simp [h0, h1]

theorem firstPage_accessible (hacc : Accessible firstPage 0 v) : v = 0 := by
  have htable := hacc.table
  rw [firstPage_word] at htable
  have hv : v / 1024 = 0 := by
    by_contra hne
    rw [if_neg (by omega), if_neg (by omega), if_neg (by omega)] at htable
    exact not_present_zero htable
  have htab : firstPage.tab 0 (v / 1024) = 1 := by
    rw [hv]
    unfold Mach.tab
    rw [firstPage_word]
    decide
  have hpres := hacc.1
  rw [Mach.look_of_present hacc.table, htab, firstPage_word] at hpres
  by_contra hne
  rw [if_neg (by omega), if_neg (by omega), if_neg (by omega)] at hpres
  exact not_present_zero hpres

theorem firstPage_userMap : UserMap firstPage 0 := by
  have hframe : frame (firstPage.look 0 0) = 2 := by
    unfold Mach.look
    simp only [firstPage_word]
    decide
  refine ⟨?_, ?_⟩
  · intro u _ v _ hu hv _
    rw [firstPage_accessible hu, firstPage_accessible hv]
  · intro v _ hacc htab
    rw [firstPage_accessible hacc, hframe] at htab
    rcases htab with hc | ⟨i, -, hp, he⟩
    · cases hc
    · unfold Mach.tab at he
      rw [firstPage_word] at hp he
      by_cases hi : i = 0
      · rw [if_pos ⟨rfl, hi⟩] at he
        exact absurd he (by decide)
      · rw [if_neg (by omega), if_neg (by omega), if_neg (by omega)] at hp
        exact not_present_zero hp

/-- Three bytes go to the end of the only page, and a fourth behind it is refused. -/
theorem copyout_exact_iff_page :
    (∀ null, ∃ r m', copyout null 0 4093 [7, 8, 9] firstPage = .ok r m' ∧
      CopiedOut firstPage 0 4093 [7, 8, 9] r m') ∧
    ∀ null, ∃ r m', copyout null 0 4093 [7, 8, 9, 10] firstPage = .ok r m' ∧
      CopiedOut firstPage 0 4093 [7, 8, 9, 10] r m' := by
  have htable : ∀ a < 0x400000, present (firstPage.word 0 (a / PGSIZE / 1024)) := by
    intro a ha
    have hzero : a / PGSIZE / 1024 = 0 := by
      unfold PGSIZE
      omega
    rw [hzero, firstPage_word]
    decide
  refine ⟨(copyout_exact_iff firstPage_userMap (by decide)).mpr ?_,
    (copyout_exact_iff firstPage_userMap (by decide)).mpr ?_⟩
  · intro a _ h2 _
    exact htable a (h2.trans (by decide))
  · intro a _ h2 _
    exact htable a (h2.trans (by decide))

/-- A directory without tables: the byte goes to the page that the first word of the current
    process names, and the result is 0. -/
theorem copyout_null_entry : (UserMap firstPage 4 ∧ ¬ Accessible firstPage 4 1) ∧
    ∃ m', copyout (firstWord 0) 4 0x1000 [9] firstPage = .ok true m' ∧
      firstPage.page 5 0 = 0 ∧ m'.page 5 0 = 9 := by
  have hzero : ∀ i, firstPage.word 4 i = 0 := by
    intro i
    rw [firstPage_word]
    simp
  have hnone : ∀ v, ¬ Accessible firstPage 4 v := by
    intro v hacc
    have hpres := hacc.1
    rw [Mach.look_of_zero hzero] at hpres
    exact not_present_zero hpres
  have hcheck : (copyout (firstWord 0) 4 0x1000 [9] firstPage).check (fun r m' =>
      r && (firstPage.page 5 0 == 0 && m'.page 5 0 == 9)) = true := by
    decide +kernel
  obtain ⟨r, m', hr, hb⟩ := Res.of_check hcheck
  obtain ⟨rfl, hb⟩ := Bool.and_eq_true_iff.mp hb
  obtain ⟨h0, h9⟩ := Bool.and_eq_true_iff.mp hb
  exact ⟨⟨⟨fun u _ v _ hu => absurd hu (hnone u), fun v _ hv => absurd hv (hnone v)⟩, hnone 1⟩,
    m', hr, eq_of_beq h0, eq_of_beq h9⟩

end Zv6.Mem
