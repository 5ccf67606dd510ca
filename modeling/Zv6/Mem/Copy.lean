/-
  `fork` and the address space.

  `copyuvm` gives the child pages of its own with the parent's bytes, and leaves the parent as
  it is. It does not copy permissions: every page of the child is mapped writable and for user
  code. So the child is a duplicate exactly when the parent's pages all are (`copyuvm_exact`),
  which they are not after `exec`: the page that `clearpteu` makes inaccessible below the user
  stack is accessible in every child.
-/
import Zv6.Mem.Pages

namespace Zv6.Mem

open Zv6.Lib

variable {L : Link} {m m' : Mach} {l D H : List Nat} {role : Nat → Role} {c d sz : Nat}

/-- Directory `d` in `m'` is a duplicate of `c` in `m`, up to size `sz`. -/
structure Duplicate (m : Mach) (c sz : Nat) (m' : Mach) (d : Nat) : Prop where
  bytes : ∀ u < pageCeil sz, present (m'.look d u) ∧
    m'.page (frame (m'.look d u)) = m.page (frame (m.look c u))
  perm : ∀ u < pageCeil sz, m'.look d u &&& (PTE_W ||| PTE_U) = m.look c u &&& (PTE_W ||| PTE_U)
  parent : ∀ u < pageCeil sz, frame (m'.look d u) ∉ m.pages c
  child : ∀ u < pageCeil sz, ∀ v < pageCeil sz, frame (m'.look d u) = frame (m'.look d v) → u = v
  above : ∀ u < 2 ^ 19, pageCeil sz ≤ u → ¬ present (m'.look d u)
  kept : ∀ q ∈ m.pages c, m'.page q = m.page q

theorem and_perm_eq_iff {w : UInt32} : w &&& (PTE_W ||| PTE_U) = PTE_W ||| PTE_U ↔
    w &&& PTE_W ≠ 0 ∧ w &&& PTE_U ≠ 0 := by
  have hW : PTE_W.toNat = 2 ^ 1 := rfl
  have hU : PTE_U.toNat = 2 ^ 2 := rfl
  rw [and_ne_zero_iff hW, and_ne_zero_iff hU, ← UInt32.toNat_inj, UInt32.toNat_and,
    UInt32.toNat_or, hW, hU, Nat.and_or_distrib_left, Nat.and_two_pow, Nat.and_two_pow]
  cases w.toNat.testBit 1 <;> cases w.toNat.testBit 2 <;> decide

theorem and_perm_pte (pa : Nat) :
    pte pa (PTE_W ||| PTE_U) &&& (PTE_W ||| PTE_U) = PTE_W ||| PTE_U := by
  apply UInt32.toNat_inj.mp
  apply Nat.eq_of_testBit_eq
  intro i
  unfold pte
  rw [UInt32.toNat_and, UInt32.toNat_or, UInt32.toNat_or, Nat.testBit_and, Nat.testBit_or,
    Nat.testBit_or]
  cases (PTE_W ||| PTE_U).toNat.testBit i <;> simp

theorem DirOk.not_free (h : DirOk L m role c) (hq : q ∈ m.pages c) : role q ≠ .free := by
  rcases h.mem_pages hq with ⟨-, hr⟩ | ⟨i, hr⟩ | ⟨v, hr⟩ <;> simp [hr]

/-- What `copyuvm` does when it succeeds. -/
theorem copyuvm_child (h : Owned L m D H) (hc : c ∈ D) (hr : copyuvm L c sz m = .ok (some d) m') :
    (∀ u < pageCeil sz, present (m'.look d u) ∧
      m'.page (frame (m'.look d u)) = m.page (frame (m.look c u)) ∧
      m'.look d u &&& (PTE_W ||| PTE_U) = PTE_W ||| PTE_U ∧ frame (m'.look d u) ∉ m.pages c) ∧
    (∀ u < pageCeil sz, ∀ v < pageCeil sz,
      frame (m'.look d u) = frame (m'.look d v) → u = v) ∧
    (∀ u < 2 ^ 19, pageCeil sz ≤ u → ¬ present (m'.look d u)) ∧
    ∀ q ∈ m.pages c, m'.page q = m.page q := by
  obtain ⟨l, role, hown⟩ := h
  obtain ⟨l', role', -, hch⟩ : ∃ l' role', _ ∧ Child L D H c sz m l d m' l' role' :=
    (copyuvm_wp hown hc sz).ok hr
  have hsize := hch.size
  have hokd := hch.own.dirs d List.mem_cons_self
  have hpage : ∀ u < pageCeil sz, present (m'.look d u) := by
    intro u hu
    obtain ⟨-, p, -, hlook, -⟩ := hch.page u hu
    rw [hlook]
    exact present_pte _ _
  refine ⟨?_, ?_, ?_, ?_⟩
  · intro u hu
    obtain ⟨hpu, p, hp, hlook, hbytes⟩ := hch.page u hu
    have hv := (hown.list.role p hp)
    refine ⟨hpage u hu, ?_, ?_, ?_⟩
    · rw [hlook, frame_user hv.2]
      exact hbytes
    · rw [hlook]
      exact and_perm_pte _
    · rw [hlook, frame_user hv.2]
      intro hm
      exact (hown.dirs c hc).not_free hm hv.1
  · intro u hu v hv he
    have h1 := (hokd.user u (by omega) (hpage u hu)).1
    have h2 := (hokd.user v (by omega) (hpage v hv)).1
    rw [he, h2] at h1
    exact (Role.user.inj h1).2.symm
  · intro u hu hle
    rw [hch.above u hu hle]
    exact not_present_zero
  · intro q hq
    exact hch.rest q (hown.not_mem_list ((hown.dirs c hc).not_free hq))

/-! ## Small machines -/

/-- A directory without user pages, and memory to spare. -/
theorem exists_empty : ∃ m l role d, Own linked m l [d] [] role ∧
    (∀ i < 512, ¬ present (m.word d i)) ∧ Ample 2000 m l d := by
  obtain ⟨m0, l0, role0, -, h0, hlen, hf⟩ := exists_kinit
  obtain ⟨_, m1, -, d, l1, role1, rfl, -, h1, -, hzero, -, hA⟩ :=
    (setupkvm_ample (n := 2000) h0 (fun k _ => hf k) (by omega)).returns
  exact ⟨m1, l1, role1, d, h1, hzero, hA⟩

/-- A directory with one page, at address 0, and memory to spare. -/
theorem exists_single : ∃ m l role d, Own linked m l [d] [] role ∧
    (∀ u < 2 ^ 19, present (m.look d u) ↔ u < 1) ∧
    (∃ p, m.look d 0 = pte (p * PGSIZE) (PTE_W ||| PTE_U)) ∧ Ample 1999 m l d := by
  obtain ⟨m, l, role, d, h, hzero, hA⟩ := exists_empty
  have hc : pageCeil 0 = 0 ∧ pageCeil PGSIZE = 1 := by decide
  obtain ⟨r, m', -, hal⟩ := allocuvm_returns h List.mem_cons_self (show 0 ≤ PGSIZE by decide)
    (by decide) fun u _ h2 => Mach.look_of_no_table hzero (by omega)
  rw [hc.1, hc.2] at hal
  obtain ⟨-, l', role', hal, hA', -⟩ := hal.rich (n := 1999) hA (by decide)
  have h0 := hal.full.mpr rfl 0 (le_refl _) (by decide)
  obtain ⟨p, -, hlook, -⟩ := hal.page 0 (le_refl _) (by decide) h0
  refine ⟨m', l', role', d, hal.own, ?_, ⟨p, hlook⟩, hA'⟩
  intro u hu
  by_cases hlt : u < 1
  · obtain rfl : u = 0 := by omega
    exact ⟨fun _ => hlt, fun _ => h0⟩
  · rw [hal.other u (by omega) (by omega)]
    exact ⟨fun hp => absurd hp (Mach.look_of_no_table hzero hu), fun h => absurd h hlt⟩

/-- The same with the page out of reach of user code. -/
theorem exists_guard : ∃ m l role c, Own linked m l [c] [] role ∧ 1026 ≤ l.length ∧
    (∀ k, m.calls ≤ k → m.fails k = false) ∧ present (m.look c 0) ∧ m.look c 0 &&& PTE_U = 0 := by
  obtain ⟨m, l, role, c, h, -, ⟨p, hp⟩, hA⟩ := exists_single
  have hlen := hA.length
  have hpres : present (m.look c 0) := by
    rw [hp]
    exact present_pte _ _
  have ht : present (m.word c (0 / 1024)) := by
    by_contra hn
    exact Mach.not_present_look hn hpres
  have hlook := (h.dirs c List.mem_cons_self).look_set (v := 0) (u := 0) (by omega) (by omega) ht
    (m.look c 0 &&& ~~~PTE_U)
  rw [if_pos rfl] at hlook
  refine ⟨_, l, role, c, h.reflag List.mem_cons_self (v := 0) (by omega) ht present_clear.mp
    (frame_clear _), by omega, hA.1, ?_, ?_⟩
  · rw [hlook, present_clear]
    exact hpres
  · rw [hlook, UInt32.and_assoc, UInt32.not_and_self, UInt32.and_zero]

/-- With room for it, one page is copied. -/
theorem copy_page {m : Mach} {l : List Nat} {role : Nat → Role} (h : Own L m l [c] [] role)
    (hlen : 1026 ≤ l.length) (hf : ∀ k, m.calls ≤ k → m.fails k = false)
    (hp : present (m.look c 0)) : ∃ d m', copyuvm L c PGSIZE m = .ok (some d) m' := by
  have h1 : pageCeil PGSIZE = 1 := by decide
  have hgo : ¬ ∃ u ≤ 2 ^ 19, u < pageCeil PGSIZE ∧ (¬ present (m.look c u) ∨ u = 2 ^ 19) := by
    rintro ⟨u, -, h2, h3⟩
    obtain rfl : u = 0 := by omega
    rcases h3 with h3 | h3
    · exact h3 hp
    · exact absurd h3 (by decide)
  have hno : copyRefused L (m.supply l) PGSIZE = none := by
    refine copyRefused_ample hf ?_ (by omega)
    show _ ≤ l.length
    omega
  obtain ⟨r, m', hr, l', role', hpost⟩ :=
    (copyuvm_wp h List.mem_cons_self PGSIZE).returns_of fun _ _ => hgo
  cases r with
  | none =>
    obtain ⟨-, -, x, hx, -⟩ := hpost
    rw [hno] at hx
    cases hx
  | some d => exact ⟨d, m', hr⟩

/-! ## The page below the stack -/

/-- `copyuvm` duplicates a directory if and only if every page below the size is writable and
    accessible to user code. -/
theorem copyuvm_exact (h : Owned L m D H) (hc : c ∈ D)
    (hr : copyuvm L c sz m = .ok (some d) m') :
    Duplicate m c sz m' d ↔
      ∀ u < pageCeil sz, m.look c u &&& PTE_W ≠ 0 ∧ m.look c u &&& PTE_U ≠ 0 := by
  obtain ⟨hpage, hchild, habove, hkept⟩ := copyuvm_child h hc hr
  constructor
  · intro hdup u hu
    rw [← and_perm_eq_iff, ← hdup.perm u hu]
    exact (hpage u hu).2.2.1
  · intro hperm
    refine ⟨fun u hu => ⟨(hpage u hu).1, (hpage u hu).2.1⟩, ?_, fun u hu => (hpage u hu).2.2.2,
      hchild, habove, hkept⟩
    intro u hu
    rw [(hpage u hu).2.2.1, and_perm_eq_iff.mpr (hperm u hu)]

/-- An ordinary page is duplicated. -/
theorem copyuvm_exact_page : ∃ (m m' : Mach) (c d : Nat), Owned linked m [c] [] ∧
    copyuvm linked c PGSIZE m = .ok (some d) m' ∧ Duplicate m c PGSIZE m' d := by
  obtain ⟨m, l, role, c, h, -, ⟨p, hp⟩, hA⟩ := exists_single
  have hlen := hA.length
  have hown : Owned linked m [c] [] := ⟨l, role, h⟩
  obtain ⟨d, m', hr⟩ := copy_page h (by omega) hA.1 (by rw [hp]; exact present_pte _ _)
  refine ⟨m, m', c, d, hown, hr, (copyuvm_exact hown List.mem_cons_self hr).mpr ?_⟩
  intro u hu
  have h1 : pageCeil PGSIZE = 1 := by decide
  obtain rfl : u = 0 := by omega
  rw [hp, ← and_perm_eq_iff]
  exact and_perm_pte _

/-- The child may touch the page its parent may not. -/
theorem guard_copied : ∃ (m m' : Mach) (c d : Nat), Owned linked m [c] [] ∧
    present (m.look c 0) ∧ m.look c 0 &&& PTE_U = 0 ∧
    copyuvm linked c PGSIZE m = .ok (some d) m' ∧
    m'.look d 0 &&& PTE_U ≠ 0 ∧ ¬ Duplicate m c PGSIZE m' d := by
  obtain ⟨m, l, role, c, h, hlen, hf, hp, hu⟩ := exists_guard
  have hown : Owned linked m [c] [] := ⟨l, role, h⟩
  obtain ⟨d, m', hr⟩ := copy_page h hlen hf hp
  have h0 : 0 < pageCeil PGSIZE := by decide
  have hperm := ((copyuvm_child hown List.mem_cons_self hr).1 0 h0).2.2.1
  refine ⟨m, m', c, d, hown, hp, hu, hr, (and_perm_eq_iff.mp hperm).2, ?_⟩
  intro hdup
  have := hdup.perm 0 h0
  rw [hperm] at this
  exact (and_perm_eq_iff.mp this.symm).2 hu

end Zv6.Mem
