/-
  Transactions and locks of `ilock_trans`.

  It opens a transaction of its own for each chunk that `irescue` copies back from a ditto, and
  has closed the last one when it returns.
-/
import Zv6.Locks.Neutral

namespace Zv6

open Lib Function

/-- No inode is locked. -/
def noLocks : Fin 100 → Bool := fun _ => false

/-! ## Transactions -/

section Trans

variable {l : Fin 100 → Bool} {ft : Fin 100 → File} {s : State}

theorem begin_trans_lk (h : Lk l ⟨false, ft⟩ s) :
    wp begin_trans (fun _ s' => Lk l ⟨true, ft⟩ s') NotLog s := by
  unfold wp begin_trans
  rw [if_neg (by rw [h.log]; exact Bool.false_ne_true)]
  exact ⟨h.busy, h.ref, rfl, h.files⟩

theorem Neutral.write_head : Neutral write_head :=
  (Neutral.gets _).bind fun _ => (Neutral.bread _ _).bind fun _ => Neutral.bwrite _ _ _

theorem Neutral.installLoop (k : Nat) : ∀ tail, Neutral (installLoop k tail) := by
  induction k with
  | zero => exact fun _ => Neutral.pure _
  | succ k ih =>
    intro tail
    refine (Neutral.gets _).bind fun log => (Neutral.bread _ _).bind fun b => ?_
    exact (Neutral.bwrite _ _ _).bind fun _ => ih _

theorem commit_trans_lk {b : Bool} (h : Lk l ⟨b, ft⟩ s) :
    wp commit_trans (fun _ s' => Lk l ⟨false, ft⟩ s') NotLog s := by
  refine wp.bind (Neutral.gets State.log l _ s h) fun log s1 h1 => ?_
  have hinstall : Neutral (Exec.when (0 < log.n) (do
      Zv6.write_head
      Zv6.install_trans
      Exec.modify fun s => { s with log := { s.log with n := 0 } }
      Zv6.write_head)) := by
    refine Neutral.when (Neutral.write_head.bind fun _ => ?_)
    refine Neutral.bind ((Neutral.gets _).bind fun _ => Neutral.installLoop _ _) fun _ => ?_
    refine (Neutral.modify (fun _ => by rfl) (fun _ => by rfl) fun _ => by rfl).bind fun _ => ?_
    exact Neutral.write_head
  refine wp.bind (hinstall l _ s1 h1) fun _ s2 h2 => ?_
  exact ⟨h2.busy, h2.ref, rfl, h2.files⟩

/-! ## Recovery -/

theorem irescueLoop_lk (ip rinode : Fin 100) (fuel : Nat) :
    ∀ (off n : Nat) (s : State), Lk l ⟨false, ft⟩ s →
      wp (irescueLoop ip rinode fuel off n) (fun _ s' => Lk l ⟨false, ft⟩ s') NotLog s := by
  induction fuel with
  | zero => exact fun _ _ _ h => h
  | succ fuel ih =>
    intro off n s h
    refine wp_ite (fun _ => h) fun _ => ?_
    refine (begin_trans_lk h).bind fun _ s1 h1 => ?_
    refine wp.bind (Neutral.iduplicate _ _ _ _ l _ s1 h1) fun _ s2 h2 => ?_
    refine (commit_trans_lk h2).bind fun _ s3 h3 => ?_
    exact ih _ _ s3 h3

theorem update_two_locks {i j : Fin 100} (hi : l i = false) (hj : l j = false) :
    update (update (update (update l j true) i true) j false)
      i false = l := by
  funext k
  by_cases hki : k = i
  · rw [hki, update_self, hi]
  · rw [update_of_ne hki]
    by_cases hkj : k = j
    · rw [hkj, update_self, hj]
    · rw [update_of_ne hkj, update_of_ne hki, update_of_ne hkj]

theorem irescue_lk (ip rinode : Fin 100) (h : Lk l ⟨false, ft⟩ s) :
    wp (irescue ip rinode) (fun _ s' => Lk l ⟨false, ft⟩ s') NotLog s := by
  refine (ilock_ext_false_lk rinode h).bind fun _ s1 h1 => ?_
  refine (ilock_ext_false_lk ip h1.2.2).bind fun _ s2 h2 => ?_
  refine wp.bind (Neutral.inode ip _ _ s2 h2.2.2) fun i s3 h3 => ?_
  refine (irescueLoop_lk ip rinode _ _ _ s3 h3).bind fun _ s4 h4 => ?_
  refine (iunlock_lk rinode h4).bind fun _ s5 h5 => ?_
  refine (iunlock_lk ip h5.2).post fun _ s6 h6 => ?_
  -- the two slots differ, or the second lock would not have been granted
  have hne : ip ≠ rinode := by
    intro e
    have := h2.2.1
    rw [e, update_self] at this
    cases this
  rw [update_of_ne hne] at h2
  rw [update_two_locks h2.2.1 h1.2.1] at h6
  exact h6.2

theorem ilock_trans_lk (ip : Fin 100) (h : Lk l ⟨false, ft⟩ s) :
    wp (ilock_trans ip) (fun r s' =>
      (r = 0 ∧ l ip = false ∧ Lk (update l ip true) ⟨false, ft⟩ s') ∨
      (r = E_CORRUPTED ∧ Lk l ⟨false, ft⟩ s')) NotLog s := by
  refine (ilock_lk ip h).bind fun r s1 h1 => ?_
  refine wp_ite (fun h0 => ?_) fun h0 => ?_
  · rcases h1 with ⟨_, hl, h1⟩ | ⟨hne, _⟩
    · exact Or.inl ⟨rfl, hl, h1⟩
    · exact absurd h0 hne
  · rcases h1 with ⟨hr, _, _⟩ | ⟨_, h1⟩
    · exact absurd hr h0
    · refine wp_ite (fun _ => Or.inr ⟨rfl, h1⟩) fun _ => ?_
      have hrescue : wp (Exec.when (0 < r) (do
          let i ← inode ip
          let ic ← iget i.dev r.toNat
          irescue ip ic)) (fun _ s' => Lk l ⟨false, ft⟩ s') NotLog s1 := by
        refine wp_when (fun _ => ?_) fun _ => h1
        refine wp.bind (Neutral.inode ip l _ s1 h1) fun i s2 h2 => ?_
        refine wp.bind (Neutral.iget _ _ l _ s2 h2) fun ic s3 h3 => ?_
        exact irescue_lk ip ic h3
      refine hrescue.bind fun _ s2 h2 => ?_
      refine (ilock_lk ip h2).bind fun r' s3 h3 => ?_
      refine wp_ite (fun h0' => ?_) fun _ => notLog_panic _ s3
      rcases h3 with ⟨_, hl, h3⟩ | ⟨hne, _⟩
      · exact Or.inl ⟨rfl, hl, h3⟩
      · exact absurd h0' hne

end Trans

end Zv6
