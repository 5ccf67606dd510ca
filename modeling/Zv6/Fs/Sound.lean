/-
  Volumes in good order.

  `Sound sb X V D`: the blocks of every file are there and match its stored checksum, and every
  ditto hangs off one inode and has its contents. Inodes in `X`, dittos being made, are left
  out. With the ownership of blocks (`Own`) this is a volume on which nothing is corrupted; the
  lemmas say what becomes of it when a file is written.
-/
import Zv6.Fs.Writei

namespace Zv6

open Lib

structure Sound (sb : Superblock) (X : Set Nat) (V : Nat → Block) (D : Nat → Dinode) : Prop where
  mapped : ∀ k, Live sb D k → k ∉ X → Mapped V (D k)
  dev : ∀ k, Live sb D k → (D k).type = T_DEV → (D k).size = 0
  good : ∀ k, Live sb D k → k ∉ X → Good V D k
  child : ∀ k i, Live sb D k → (D k).child i ≠ 0 →
    Live sb D ((D k).child i) ∧ (D ((D k).child i)).type = T_DITTO
  childless : ∀ k, Live sb D k → (D k).type = T_DITTO → (D k).child1 = 0 ∧ (D k).child2 = 0
  parent : ∀ k k' i i', Live sb D k → Live sb D k' → (D k).child i ≠ 0 →
    (D k).child i = (D k').child i' → k = k' ∧ i = i'
  mirror : ∀ k i, Live sb D k → (D k).child i ≠ 0 → (D k).child i ∉ X →
    contents V (D ((D k).child i)) = contents V (D k)
  exempt : ∀ k, k ∈ X → (D k).type = T_DITTO

section Sound

variable {sb : Superblock} {X : Set Nat} {V V' : Nat → Block} {D D' : Nat → Dinode} {n c k : Nat}

theorem mem_kids {d : Dinode} : c ∈ d.kids ↔ ∃ i, d.child i ≠ 0 ∧ d.child i = c := by
  unfold Dinode.kids Dinode.kid
  rw [Bool.exists_bool, Set.mem_union, or_comm]
  rfl

theorem Sound.not_ditto (h : Sound sb X V D) (hn : Live sb D n) {i : Bool}
    (h0 : (D n).child i ≠ 0) : (D n).type ≠ T_DITTO := by
  intro ht
  obtain ⟨h1, h2⟩ := h.childless n hn ht
  apply h0
  unfold Dinode.child
  rw [h1, h2]
  cases i <;> rfl

theorem Sound.not_self (h : Sound sb X V D) (hn : Live sb D n) (hc : c ∈ (D n).kids) : c ≠ n := by
  rintro rfl
  obtain ⟨i, h0, hi⟩ := mem_kids.mp hc
  obtain ⟨hl, ht⟩ := h.child c i hn h0
  rw [hi] at ht
  exact h.not_ditto hn h0 ht

theorem Sound.kids (h : Sound sb X V D) (hn : Live sb D n) : Kids sb D n (D n) := by
  intro c hc
  have hne := h.not_self hn hc
  obtain ⟨i, h0, rfl⟩ := mem_kids.mp hc
  exact ⟨(h.child n i hn h0).1, (h.child n i hn h0).2, hne⟩

theorem Sound.mirrors (h : Sound sb X V D) (hn : Live sb D n) (hX : ∀ c ∈ (D n).kids, c ∉ X) :
    Mirrors sb D n where
  kids := h.kids hn
  apart := by
    intro h0 he
    have := (h.parent n n false true hn hn h0 he).2
    cases this
  childless := fun c hc => h.childless c (h.kids hn c hc).1 (h.kids hn c hc).2.1
  size := by
    intro c hc
    obtain ⟨i, h0, rfl⟩ := mem_kids.mp hc
    have := congrArg List.length (h.mirror n i hn h0 (hX _ hc))
    rw [length_contents, length_contents] at this
    exact UInt32.toNat_inj.mp this

/-- The files of a group are there and have the same contents. -/
theorem Sound.group (h : Sound sb X V D) (hn : Live sb D n)
    (hX : ∀ c ∈ (D n).group n, c ∉ X) (hk : k ∈ (D n).group n) :
    Mapped V (D k) ∧ contents V (D k) = contents V (D n) := by
  rcases hk with rfl | hk
  · exact ⟨h.mapped k hn (hX k (Set.mem_insert k _)), rfl⟩
  · refine ⟨h.mapped k (h.kids hn k hk).1 (hX k (Set.mem_insert_of_mem n hk)), ?_⟩
    have hkX := hX k (Set.mem_insert_of_mem n hk)
    obtain ⟨i, h0, rfl⟩ := mem_kids.mp hk
    exact h.mirror n i hn h0 hkX

/-- An inode with dittos and its dittos have nothing to do with another group. -/
theorem Sound.apart (h : Sound sb X V D) (hn : Live sb D n) (hT : (D n).type ≠ T_DITTO)
    (hkn : k ≠ n) (hk : Live sb D k) {i : Bool} (h0 : (D k).child i ≠ 0) :
    k ∉ (D n).group n ∧ (D k).child i ∉ (D n).group n := by
  constructor
  · rintro (e | hkk)
    · exact hkn e
    · exact h.not_ditto hk h0 (h.kids hn k hkk).2.1
  · rintro (e | hcc)
    · exact hT (e ▸ (h.child k i hk h0).2)
    · obtain ⟨i', -, he⟩ := mem_kids.mp hcc
      exact hkn (h.parent k n i i' hk hn h0 he.symm).1

/-- A file that is not touched stays in good order. -/
theorem Sound.untouched {M : Set Nat} (h : Sound sb X V D) (ht : Touch sb M V D V' D')
    (hk : k ∉ M) (hl : Live sb D k) (hX : k ∉ X) :
    Mapped V' (D' k) ∧ Good V' D' k ∧ contents V' (D' k) = contents V (D k) := by
  have hm := h.mapped k hl hX
  have hc := ht.contents hk hl hm
  refine ⟨ht.mapped hk hl hm, ?_, hc⟩
  unfold Good
  rw [hc, ht.table k hk]
  exact h.good k hl hX

/-! ## A write -/

/-- A write to inode `n` and its dittos. -/
theorem Sound.write (h : Sound sb ∅ V D) (hn : Live sb D n)
    (hT : (D n).type = T_DEV → (D' n).size = 0)
    (hT' : (D n).type ≠ T_DITTO) (ht : Touch sb ((D n).group n) V D V' D')
    (hfile : ∀ k, k ∈ (D n).group n → (D' k).type = (D k).type ∧ (D' k).child1 = (D k).child1 ∧
      (D' k).child2 = (D k).child2)
    (hmapped : ∀ k, k ∈ (D n).group n → Mapped V' (D' k))
    (hgood : ∀ k, k ∈ (D n).group n → Good V' D' k)
    (hdata : ∀ k, k ∈ (D n).group n → contents V' (D' k) = contents V' (D' n)) :
    Sound sb ∅ V' D' := by
  have hfields : ∀ k, (D' k).type = (D k).type ∧ (D' k).child1 = (D k).child1 ∧
      (D' k).child2 = (D k).child2 := by
    intro k
    by_cases hk : k ∈ (D n).group n
    · exact hfile k hk
    · rw [ht.table k hk]
      exact ⟨rfl, rfl, rfl⟩
  have hchild : ∀ k i, (D' k).child i = (D k).child i := by
    intro k i
    unfold Dinode.child
    rw [(hfields k).2.1, (hfields k).2.2]
  have hlive : ∀ k, Live sb D' k ↔ Live sb D k := by
    intro k
    unfold Live
    rw [(hfields k).1]
  refine ⟨?_, ?_, ?_, ?_, ?_, ?_, ?_, by simp⟩
  · intro k hl _
    by_cases hk : k ∈ (D n).group n
    · exact hmapped k hk
    · exact (h.untouched ht hk ((hlive k).mp hl) (by simp)).1
  · intro k hl hdev
    have hl := (hlive k).mp hl
    rw [(hfields k).1] at hdev
    by_cases hk : k ∈ (D n).group n
    · rcases hk with rfl | hk
      · exact hT hdev
      · rw [(h.kids hn k hk).2.1] at hdev
        exact absurd hdev (by decide)
    · rw [ht.table k hk]
      exact h.dev k hl hdev
  · intro k hl _
    by_cases hk : k ∈ (D n).group n
    · exact hgood k hk
    · exact (h.untouched ht hk ((hlive k).mp hl) (by simp)).2.1
  · intro k i hl h0
    rw [hchild] at h0 ⊢
    rw [hlive, (hfields _).1]
    exact h.child k i ((hlive k).mp hl) h0
  · intro k hl hd
    rw [(hfields k).1] at hd
    rw [(hfields k).2.1, (hfields k).2.2]
    exact h.childless k ((hlive k).mp hl) hd
  · intro k k' i i' hl hl' h0 he
    rw [hchild] at h0
    rw [hchild, hchild] at he
    exact h.parent k k' i i' ((hlive k).mp hl) ((hlive k').mp hl') h0 he
  · intro k i hl h0 _
    rw [hchild] at h0 ⊢
    have hl := (hlive k).mp hl
    obtain ⟨hcl, hcT⟩ := h.child k i hl h0
    by_cases hk : k = n
    · subst hk
      rw [hdata _ (Set.mem_insert_of_mem k (mem_kids.mpr ⟨i, h0, rfl⟩))]
    · obtain ⟨hkG, hcG⟩ := h.apart hn hT' hk hl h0
      rw [(h.untouched ht hkG hl (by simp)).2.2, (h.untouched ht hcG hcl (by simp)).2.2]
      exact h.mirror k i hl h0 (by simp)

end Sound

end Zv6
