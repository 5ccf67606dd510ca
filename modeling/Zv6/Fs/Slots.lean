/-
  The inode cache.

  `Cache sb D c`: the slots in use are for allocated inodes of the device, no two for the same
  inode, and a valid slot holds the inode's entry of the table `D`. `Grow s s'` is what most
  calls do to the slots: references are only added, and what was valid stays valid. `Got` says
  what `iget` does.
-/
import Mathlib.Data.Finset.Card
import Mathlib.Data.Fintype.Basic
import Zv6.Fs.Volume
import Zv6.Locks.Neutral

namespace Zv6

open Lib

/-! ## Slots -/

/-- A dinode with the stored checksum `w`. -/
def Dinode.withSum (d : Dinode) (w : UInt32) : Dinode := { d with checksum := w }

/-- The slot after `iupdate_ext` has recomputed the checksum `w`. -/
def Inode.summed (i : Inode) (w : UInt32) : Inode := { i with d := i.d.withSum w }

/-- Slot `j` is in use for inode `k`. -/
def Caches (c : Fin 100 → Inode) (j : Fin 100) (k : Nat) : Prop := 0 < (c j).ref ∧ (c j).inum = k

structure Cache (sb : Superblock) (D : Nat → Dinode) (c : Fin 100 → Inode) : Prop where
  uniq : ∀ i j k, Caches c i k → Caches c j k → i = j
  slot : ∀ j, 0 < (c j).ref → (c j).dev = 1 ∧ Live sb D (c j).inum
  load : ∀ j, 0 < (c j).ref → (c j).valid = true → (c j).d.core = D (c j).inum

/-- Only the inode cache differs. -/
def CacheOnly (s s' : State) : Prop := s' = { s with icache := s'.icache }

/-- References are only added and what was valid stays valid; files and processes are as they
    were. -/
structure Grow (s s' : State) : Prop where
  ftable : s'.ftable = s.ftable
  proc : s'.proc = s.proc
  slot : ∀ j, 0 < (s.icache j).ref → (s.icache j).ref ≤ (s'.icache j).ref ∧
    (s'.icache j).dev = (s.icache j).dev ∧ (s'.icache j).inum = (s.icache j).inum ∧
    ((s.icache j).valid = true → (s'.icache j).valid = true)

theorem Grow.trans {s s' s'' : State} (h : Grow s s') (h' : Grow s' s'') : Grow s s'' := by
  refine ⟨h'.ftable.trans h.ftable, h'.proc.trans h.proc, ?_⟩
  intro j hj
  obtain ⟨hr, hd, hi, hv⟩ := h.slot j hj
  obtain ⟨hr', hd', hi', hv'⟩ := h'.slot j (by omega)
  exact ⟨by omega, hd'.trans hd, hi'.trans hi, fun x => hv' (hv x)⟩

theorem Grow.caches {s s' : State} (h : Grow s s') {j : Fin 100} {k : Nat}
    (hj : Caches s.icache j k) : Caches s'.icache j k := by
  obtain ⟨hr, _, hi, _⟩ := h.slot j hj.1
  have := hj.1
  exact ⟨by omega, hi.trans hj.2⟩

theorem CacheOnly.trans {s s' s'' : State} (h : CacheOnly s s') (h' : CacheOnly s' s'') :
    CacheOnly s s'' := by
  unfold CacheOnly at *
  rw [h', h]

theorem CacheOnly.view {s s' : State} (h : CacheOnly s s') : s'.view = s.view := by
  rw [h]
  rfl

theorem setInode_self (s : State) (j : Fin 100) (i : Inode) : (s.setInode j i).icache j = i :=
  if_pos rfl

theorem setInode_ne (s : State) {j x : Fin 100} (i : Inode) (h : x ≠ j) :
    (s.setInode j i).icache x = s.icache x := if_neg h

theorem setInode_setInode (s : State) (j : Fin 100) (i i' : Inode) :
    (s.setInode j i).setInode j i' = s.setInode j i' := by
  unfold State.setInode
  congr 1
  funext x
  by_cases hx : x = j
  · rw [if_pos hx, if_pos hx]
  · rw [if_neg hx, if_neg hx]
    exact if_neg hx

theorem setInode_same (s : State) (ip : Fin 100) : s.setInode ip (s.icache ip) = s := by
  unfold State.setInode
  congr 1
  funext j
  by_cases hj : j = ip
  · rw [if_pos hj, hj]
  · rw [if_neg hj]

theorem updInode_apply (j : Fin 100) (f : Inode → Inode) (s : State) :
    updInode j f s = .ok () (s.setInode j (f (s.icache j))) := rfl

/-- A slot that keeps its inode and its references. -/
theorem grow_setInode {s : State} {j : Fin 100} {i : Inode} (hr : (s.icache j).ref ≤ i.ref)
    (hd : i.dev = (s.icache j).dev) (hi : i.inum = (s.icache j).inum)
    (hv : (s.icache j).valid = true → i.valid = true) : Grow s (s.setInode j i) := by
  refine ⟨rfl, rfl, ?_⟩
  intro x _
  by_cases hx : x = j
  · subst hx
    rw [setInode_self]
    exact ⟨hr, hd, hi, hv⟩
  · rw [setInode_ne s i hx]
    exact ⟨Int.le_refl _, rfl, rfl, id⟩

section Cache

variable {sb : Superblock} {D : Nat → Dinode} {s : State} {j : Fin 100}

/-- A slot in use changes but keeps its inode. -/
theorem Cache.set (h : Cache sb D s.icache) {i : Inode} (hr : 0 < (s.icache j).ref)
    (hd : i.dev = (s.icache j).dev) (hi : i.inum = (s.icache j).inum)
    (hl : i.valid = true → i.d.core = D (s.icache j).inum) :
    Cache sb D (s.setInode j i).icache := by
  refine ⟨?_, ?_, ?_⟩
  · intro x y k hx hy
    unfold Caches at hx hy
    rw [setInode_icache] at hx hy
    refine h.uniq x y k ?_ ?_
    · split at hx
      · next e => exact ⟨e ▸ hr, e ▸ hi ▸ hx.2⟩
      · exact hx
    · split at hy
      · next e => exact ⟨e ▸ hr, e ▸ hi ▸ hy.2⟩
      · exact hy
  · intro x hx
    rw [setInode_icache] at hx ⊢
    split
    · rw [hd, hi]
      exact h.slot j hr
    · next e =>
      rw [if_neg e] at hx
      exact h.slot x hx
  · intro x hx hv
    rw [setInode_icache] at hx hv ⊢
    split
    · next e =>
      rw [if_pos e] at hv
      rw [hi]
      exact hl hv
    · next e =>
      rw [if_neg e] at hx hv
      exact h.load x hx hv

/-- A free slot is taken for an inode that has none. -/
theorem Cache.take (h : Cache sb D s.icache) {k : Nat} {i : Inode} (hk : Live sb D k)
    (hno : ∀ x, ¬ Caches s.icache x k) (hd : i.dev = 1) (hi : i.inum = k)
    (hv : i.valid = false) : Cache sb D (s.setInode j i).icache := by
  have hother : ∀ x k', x ≠ j → Caches (s.setInode j i).icache x k' → Caches s.icache x k' := by
    intro x k' hx hc
    unfold Caches at hc ⊢
    rwa [setInode_ne s i hx] at hc
  have hself : ∀ k', Caches (s.setInode j i).icache j k' → k' = k := by
    intro k' hc
    have := hc.2
    rw [setInode_self, hi] at this
    exact this.symm
  refine ⟨?_, ?_, ?_⟩
  · intro x y k' hx hy
    by_cases ex : x = j
    · by_cases ey : y = j
      · rw [ex, ey]
      · have := hself k' (ex ▸ hx)
        exact absurd (this ▸ hother y k' ey hy) (hno y)
    · by_cases ey : y = j
      · have := hself k' (ey ▸ hy)
        exact absurd (this ▸ hother x k' ex hx) (hno x)
      · exact h.uniq x y k' (hother x k' ex hx) (hother y k' ey hy)
  · intro x hx
    by_cases ex : x = j
    · subst ex
      rw [setInode_self, hi]
      exact ⟨hd, hk⟩
    · rw [setInode_ne s i ex] at hx ⊢
      exact h.slot x hx
  · intro x hx hl
    by_cases ex : x = j
    · subst ex
      rw [setInode_self, hv] at hl
      cases hl
    · rw [setInode_ne s i ex] at hx hl ⊢
      exact h.load x hx hl

end Cache

/-! ## Taking a slot -/

/-- What `iget` of inode `k` did: one more reference to the slot in use for it, or a free slot
    taken. -/
def Got (k : Nat) (s : State) (j : Fin 100) (s' : State) : Prop :=
  (Caches s.icache j k ∧ s' = s.setInode j { s.icache j with ref := (s.icache j).ref + 1 }) ∨
  ((∀ x, ¬ Caches s.icache x k) ∧ (s.icache j).ref = 0 ∧ s' = s.setInode j { s.icache j with
    dev := 1, inum := k, ref := 1, busy := false, valid := false })

/-- The slots not in use. -/
def freeSlots (s : State) : Finset (Fin 100) := Finset.univ.filter fun j => (s.icache j).ref = 0

section Iget

variable {sb : Superblock} {D : Nat → Dinode} {s s' : State} {j : Fin 100} {k : Nat}

/-- `iget`, as far as all slots in use are for the device. -/
theorem iget_dev_wp (hdev : ∀ x, 0 < (s.icache x).ref → (s.icache x).dev = 1) (k : Nat) :
    wp (iget 1 k) (Got k s) (fun c _ => c = .panic "iget: no inodes" ∧ freeSlots s = ∅ ∧
      ∀ x, ¬ Caches s.icache x k) s := by
  unfold wp iget
  cases hhit : (List.finRange 100).find? fun i => decide (0 < (s.icache i).ref) &&
      decide ((s.icache i).dev = 1) && decide ((s.icache i).inum = k) with
  | some i =>
    have := List.find?_some hhit
    simp only [Bool.and_eq_true, decide_eq_true_eq] at this
    exact Or.inl ⟨⟨this.1.1, this.2⟩, rfl⟩
  | none =>
    have hno : ∀ x, ¬ Caches s.icache x k := by
      intro x hx
      have := List.find?_eq_none.mp hhit x (List.mem_finRange x)
      simp only [Bool.and_eq_true, decide_eq_true_eq] at this
      exact this ⟨⟨hx.1, hdev x hx.1⟩, hx.2⟩
    cases hfree : (List.finRange 100).find? fun i => decide ((s.icache i).ref = 0) with
    | some i =>
      have := List.find?_some hfree
      exact Or.inr ⟨hno, by simpa using this, rfl⟩
    | none =>
      refine ⟨rfl, Finset.filter_eq_empty_iff.mpr fun x _ => ?_, hno⟩
      have := List.find?_eq_none.mp hfree x (List.mem_finRange x)
      simpa using this

theorem iget_wp (h : Cache sb D s.icache) (k : Nat) :
    wp (iget 1 k) (Got k s) (fun _ _ => freeSlots s = ∅ ∧ ∀ x, ¬ Caches s.icache x k) s :=
  (iget_dev_wp (fun x hx => (h.slot x hx).1) k).mono (fun _ _ h => h) fun _ _ h => h.2

theorem Got.cacheOnly (h : Got k s j s') : CacheOnly s s' := by
  rcases h with ⟨_, rfl⟩ | ⟨_, _, rfl⟩ <;> rfl

theorem Got.grow (h : Got k s j s') : Grow s s' := by
  rcases h with ⟨_, rfl⟩ | ⟨_, h0, rfl⟩
  · exact grow_setInode (by show _ ≤ _ + 1; omega) rfl rfl id
  · refine ⟨rfl, rfl, ?_⟩
    intro x hx
    have hne : x ≠ j := by
      rintro rfl
      omega
    rw [setInode_ne s _ hne]
    exact ⟨Int.le_refl _, rfl, rfl, id⟩

theorem Got.cache (h : Got k s j s') (hc : Cache sb D s.icache) (hk : Live sb D k) :
    Cache sb D s'.icache := by
  rcases h with ⟨hj, rfl⟩ | ⟨hno, _, rfl⟩
  · exact hc.set hj.1 rfl rfl fun hv => hc.load j hj.1 hv
  · exact hc.take hk hno rfl rfl rfl

theorem Got.caches (h : Got k s j s') : Caches s'.icache j k := by
  unfold Caches
  rcases h with ⟨hj, rfl⟩ | ⟨_, _, rfl⟩
  · rw [setInode_self]
    have := hj.1
    exact ⟨by show 0 < _ + 1; omega, hj.2⟩
  · rw [setInode_self]
    exact ⟨Int.one_pos, rfl⟩

theorem Got.other (h : Got k s j s') {x : Fin 100} (hx : x ≠ j) : s'.icache x = s.icache x := by
  rcases h with ⟨_, rfl⟩ | ⟨_, _, rfl⟩ <;> exact setInode_ne s _ hx

/-- A slot for an inode is as valid as it was, and so is what it holds. -/
theorem Got.valid (h : Got k s j s') : (s'.icache j).valid = true ↔
    Caches s.icache j k ∧ (s.icache j).valid = true := by
  rcases h with ⟨hj, rfl⟩ | ⟨hno, _, rfl⟩
  · rw [setInode_self]
    exact ⟨fun hv => ⟨hj, hv⟩, fun hv => hv.2⟩
  · rw [setInode_self]
    refine ⟨?_, fun hv => absurd hv.1 (hno j)⟩
    intro hv
    cases hv

theorem Got.busy (h : Got k s j s') (hb : (s.icache j).busy = false) :
    (s'.icache j).busy = false := by
  rcases h with ⟨_, rfl⟩ | ⟨_, _, rfl⟩
  · rw [setInode_self]
    exact hb
  · rw [setInode_self]

theorem Got.freeSlots (h : Got k s j s') : (freeSlots s).card ≤ (freeSlots s').card + 1 := by
  have hsub : Zv6.freeSlots s ⊆ insert j (Zv6.freeSlots s') := by
    intro x hx
    rw [Finset.mem_insert]
    by_cases e : x = j
    · exact Or.inl e
    · refine Or.inr ?_
      unfold Zv6.freeSlots at hx ⊢
      rw [Finset.mem_filter] at hx ⊢
      rw [h.other e]
      exact hx
  exact (Finset.card_le_card hsub).trans (Finset.card_insert_le _ _)

end Iget

end Zv6
