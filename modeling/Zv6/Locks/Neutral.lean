/-
  What each function does to the locks, from any state.

  `Lk l e s`: in `s` the inodes locked (I_BUSY) are those of `l`, and `e` says whether a
  transaction is open and what the file table is. A locked inode has a reference; without
  that `iget` could recycle its slot.

  `Neutral m`: whatever `m` locks it has given back when it returns, it leaves the
  transaction as it finds it, and it never waits for the log. Every function below the
  system calls is neutral except the ones whose purpose is to take or give a lock
  (`ilock_ext`, `ilock_trans`, `iunlock`, `begin_trans`, `commit_trans`) or that call
  `begin_trans` themselves.
-/
import Zv6.Lib.Wp
import Zv6.Model.Sysfile

namespace Zv6

open Lib Function

/-! ## Locks held -/

/-- What neutral code leaves as it is besides the locks. -/
structure Env where
  log : Bool
  files : Fin 100 → File

/-- The inodes locked are `l`; `e` is the transaction flag and the file table. -/
structure Lk (l : Fin 100 → Bool) (e : Env) (s : State) : Prop where
  busy : ∀ j, (s.icache j).busy = l j
  ref : ∀ j, l j = true → 1 ≤ (s.icache j).ref
  log : s.log.busy = e.log
  files : s.ftable = e.files

/-- The call did not stop to wait for the log. -/
def NotLog (c : Stop Chan) (_ : State) : Prop := c ≠ .blocked .log

/-- `m` returns with the locks it started with and never waits for the log. -/
def Neutral {α : Type} (m : K α) : Prop := ∀ l e, Keeps (Lk l e) NotLog m

variable {l : Fin 100 → Bool} {e : Env} {s s' : State}

section Closure

variable {α β : Type}

theorem notLog_panic (e : String) (s : State) : NotLog (.panic e) s := by
  unfold NotLog
  simp

theorem notLog_loops (s : State) : NotLog .loops s := by
  unfold NotLog
  simp

theorem Neutral.bind {x : K α} {f : α → K β} (hx : Neutral x) (hf : ∀ a, Neutral (f a)) :
    Neutral (x >>= f) :=
  fun l e => (hx l e).bind fun a => hf a l e

theorem Neutral.pure (a : α) : Neutral (pure a : K α) := fun _ _ => Keeps.pure a

theorem Neutral.panic (e : String) : Neutral (Exec.panic e : K α) :=
  fun _ _ => Keeps.panic e fun s _ => notLog_panic _ s

theorem Neutral.loops : Neutral (fun s => .loops s : K α) := fun _ _ s _ => notLog_loops s

theorem Neutral.sleep {c : Chan} (h : c ≠ .log) : Neutral (Exec.sleep c : K α) :=
  fun _ _ _ _ e => h (Stop.blocked.inj e)

theorem Neutral.gets (g : State → α) : Neutral (Exec.gets g) := fun _ _ => Keeps.gets g

theorem Neutral.ite {p : Prop} [Decidable p] {m m' : K α} (h : p → Neutral m)
    (h' : ¬ p → Neutral m') : Neutral (if p then m else m') :=
  fun l e => Keeps.ite (fun hp => h hp l e) fun hp => h' hp l e

theorem Neutral.when {p : Prop} [Decidable p] {m : K Unit} (h : Neutral m) :
    Neutral (Exec.when p m) :=
  fun l e => Keeps.when fun _ => h l e

/-- A state change that leaves the inode cache, the log's `busy` and the file table alone. -/
theorem Neutral.modify {g : State → State} (hi : ∀ s, (g s).icache = s.icache)
    (hb : ∀ s, (g s).log.busy = s.log.busy) (hf : ∀ s, (g s).ftable = s.ftable) :
    Neutral (Exec.modify g) := by
  intro l e s h
  refine ⟨?_, ?_, ?_, ?_⟩
  · intro j
    rw [hi]
    exact h.busy j
  · intro j
    rw [hi]
    exact h.ref j
  · rw [hb]
    exact h.log
  · rw [hf]
    exact h.files

theorem Neutral.inode (ip : Fin 100) : Neutral (inode ip) := fun _ _ _ h => h

theorem Neutral.bread (dev sec : Nat) : Neutral (bread dev sec) := fun _ _ _ h => h

theorem Neutral.bwrite (dev sec : Nat) (b : Block) : Neutral (bwrite dev sec b) :=
  fun _ _ _ h => ⟨h.busy, h.ref, h.log, h.files⟩

end Closure

/-! ## Slots -/

theorem setInode_icache (s : State) (ip : Fin 100) (i : Inode) (j : Fin 100) :
    (s.setInode ip i).icache j = if j = ip then i else s.icache j := rfl

/-- One slot changes; its lock becomes `x`. -/
theorem Lk.setInode (h : Lk l e s) (ip : Fin 100) (i : Inode) (hr : i.busy = true → 1 ≤ i.ref) :
    Lk (update l ip i.busy) e (s.setInode ip i) := by
  refine ⟨?_, ?_, h.log, h.files⟩
  · intro j
    rw [setInode_icache]
    by_cases hj : j = ip
    · rw [if_pos hj, hj, update_self]
    · rw [if_neg hj, update_of_ne hj]
      exact h.busy j
  · intro j hl
    rw [setInode_icache]
    by_cases hj : j = ip
    · rw [hj, update_self] at hl
      rw [if_pos hj]
      exact hr hl
    · rw [update_of_ne hj] at hl
      rw [if_neg hj]
      exact h.ref j hl

/-- One slot changes and keeps its lock. -/
theorem Lk.setInode_same (h : Lk l e s) (ip : Fin 100) (i : Inode) (hb : i.busy = l ip)
    (hr : l ip = true → 1 ≤ i.ref) : Lk l e (s.setInode ip i) := by
  have := h.setInode ip i (fun hi => hr (hb ▸ hi))
  rwa [hb, update_eq_self] at this

theorem Neutral.updInode {f : Inode → Inode} (ip : Fin 100) (hb : ∀ i, (f i).busy = i.busy)
    (hr : ∀ i, (f i).ref = i.ref) : Neutral (updInode ip f) := by
  intro l e s h
  refine h.setInode_same ip _ ?_ ?_
  · rw [hb]
    exact h.busy ip
  · intro hl
    rw [hr]
    exact h.ref ip hl

/-- The caller's reference to `j` is not the one that keeps a lock on it. -/
def Spare (j : Fin 100) (s : State) : Prop := (s.icache j).busy = true → 2 ≤ (s.icache j).ref

/-- `iget` takes a reference of its own. -/
theorem iget_lk (dev inum : Nat) (h : Lk l e s) :
    wp (iget dev inum) (fun j s' => Lk l e s' ∧ Spare j s') NotLog s := by
  unfold wp iget
  cases hf : (List.finRange 100).find? fun i => decide (0 < (s.icache i).ref) &&
      decide ((s.icache i).dev = dev) && decide ((s.icache i).inum = inum) with
  | some i =>
    have hi := List.find?_some hf
    simp only [Bool.and_eq_true, decide_eq_true_eq] at hi
    have hpos := hi.1.1
    refine ⟨h.setInode_same i _ (h.busy i) (fun _ => by simp only; omega), ?_⟩
    intro _
    rw [setInode_icache, if_pos rfl]
    simp only
    omega
  | none =>
    simp only
    cases he : (List.finRange 100).find? fun i => decide ((s.icache i).ref = 0) with
    | some i =>
      have hi := List.find?_some he
      simp only [decide_eq_true_eq] at hi
      have hl : l i = false := by
        by_contra hl
        have := h.ref i (by simpa using hl)
        omega
      refine ⟨h.setInode_same i _ hl.symm (fun hl' => by simp [hl] at hl'), ?_⟩
      intro hb
      rw [setInode_icache, if_pos rfl] at hb
      cases hb
    | none => exact notLog_panic _ s

theorem Neutral.iget (dev inum : Nat) : Neutral (iget dev inum) :=
  fun _ _ _ h => (iget_lk dev inum h).post fun _ _ h' => h'.1

/-- `iunlock` of a locked inode gives the lock back; of any other it panics. -/
theorem iunlock_lk (ip : Fin 100) (h : Lk l e s) :
    wp (iunlock ip) (fun _ s' => l ip = true ∧ Lk (update l ip false) e s') NotLog s := by
  unfold wp iunlock
  by_cases hc : (s.icache ip).busy = false ∨ (s.icache ip).ref < 1
  · rw [if_pos hc]
    exact notLog_panic _ s
  · rw [if_neg hc]
    rw [not_or, h.busy ip] at hc
    refine ⟨by simpa using hc.1, ?_⟩
    exact h.setInode ip { s.icache ip with busy := false } fun hi => by cases hi

theorem lockSlot_lk (ip : Fin 100) (h : Lk l e s) :
    wp (lockSlot ip) (fun _ s' => l ip = false ∧ Lk (update l ip true) e s') NotLog s := by
  unfold wp lockSlot
  by_cases hr : (s.icache ip).ref < 1
  · rw [if_pos hr]
    exact notLog_panic _ s
  · rw [if_neg hr]
    by_cases hb : (s.icache ip).busy = true
    · rw [if_pos hb]
      unfold NotLog
      simp
    · rw [if_neg hb]
      refine ⟨?_, h.setInode ip { s.icache ip with busy := true } fun _ => by simp only; omega⟩
      rw [h.busy ip] at hb
      simpa using hb

/-- Taking a lock and giving it back. -/
theorem update_update_lock {ip : Fin 100} (h : l ip = false) :
    update (update l ip true) ip false = l := by
  rw [update_idem, ← h, update_eq_self]

/-! ## Blocks and content -/

theorem Neutral.log_write (dev sec : Nat) (b : Block) : Neutral (log_write dev sec b) := by
  refine (Neutral.gets _).bind fun log => Neutral.ite (fun _ => Neutral.panic _) fun _ => ?_
  refine Neutral.ite (fun _ => Neutral.panic _) fun _ => ?_
  refine (Neutral.modify (fun _ => by rfl) (fun _ => by rfl) fun _ => by rfl).bind fun _ => ?_
  refine Neutral.ite (fun _ => Neutral.sleep nofun) fun _ => ?_
  refine (Neutral.bwrite _ _ _).bind fun _ => ?_
  refine (Neutral.when (Neutral.modify (fun _ => by rfl) (fun _ => by rfl) fun _ => by rfl)).bind
    fun _ => ?_
  exact Neutral.modify (fun _ => by rfl) (fun _ => by rfl) fun _ => by rfl

theorem Neutral.readsb (dev : Nat) : Neutral (readsb dev) :=
  (Neutral.bread _ _).bind fun _ => Neutral.pure _

theorem Neutral.ballocLoop (dev : Nat) (sb : Superblock) (k : Nat) :
    ∀ b, Neutral (ballocLoop dev sb k b) := by
  induction k with
  | zero => exact fun _ => Neutral.panic _
  | succ k ih =>
    intro b
    refine Neutral.ite (fun _ => ?_) fun _ => Neutral.panic _
    refine (Neutral.bread _ _).bind fun bp => ?_
    cases firstClear bp (min 4096 (sb.size - b)) with
    | none => exact ih _
    | some bi =>
      refine (Neutral.log_write _ _ _).bind fun _ => ?_
      exact (Neutral.log_write _ _ _).bind fun _ => Neutral.pure _

theorem Neutral.balloc (dev : Nat) : Neutral (balloc dev) :=
  (Neutral.readsb _).bind fun _ => Neutral.ballocLoop _ _ _ _

theorem Neutral.bmap (ip : Fin 100) (bn : Nat) : Neutral (bmap ip bn) := by
  refine (Neutral.inode _).bind fun i => ?_
  split
  · refine Neutral.ite (fun _ => ?_) fun _ => Neutral.pure _
    refine (Neutral.balloc _).bind fun addr => ?_
    exact (Neutral.updInode _ (fun _ => by rfl) fun _ => by rfl).bind fun _ => Neutral.pure _
  · refine Neutral.ite (fun _ => ?_) fun _ => Neutral.panic _
    refine Neutral.bind ?_ fun ind => (Neutral.bread _ _).bind fun bp => ?_
    · refine Neutral.ite (fun _ => ?_) fun _ => Neutral.pure _
      refine (Neutral.balloc _).bind fun addr => ?_
      exact (Neutral.updInode _ (fun _ => by rfl) fun _ => by rfl).bind fun _ => Neutral.pure _
    · refine Neutral.ite (fun _ => ?_) fun _ => Neutral.pure _
      refine (Neutral.balloc _).bind fun addr => ?_
      exact (Neutral.log_write _ _ _).bind fun _ => Neutral.pure _

theorem Neutral.readiLoop (ip : Fin 100) (fuel : Nat) :
    ∀ off n, Neutral (readiLoop ip fuel off n) := by
  induction fuel with
  | zero => exact fun _ _ => Neutral.pure _
  | succ fuel ih =>
    intro off n
    refine Neutral.ite (fun _ => Neutral.pure _) fun _ => ?_
    refine (Neutral.inode _).bind fun i => (Neutral.bmap _ _).bind fun sec => ?_
    exact (Neutral.bread _ _).bind fun bp => (ih _ _).bind fun _ => Neutral.pure _

theorem Neutral.readi (ip : Fin 100) (off n : Nat) : Neutral (readi ip off n) := by
  refine (Neutral.inode _).bind fun i => Neutral.ite (fun _ => ?_) fun _ => ?_
  · refine (Neutral.gets _).bind fun sw => Neutral.ite (fun _ => Neutral.pure _) fun _ => ?_
    cases (sw i.d.major.toNat).read <;> exact Neutral.pure _
  · refine Neutral.ite (fun _ => Neutral.pure _) fun _ => ?_
    exact (Neutral.readiLoop _ _ _ _).bind fun _ => Neutral.pure _

theorem Neutral.ichecksumLoop (ip : Fin 100) (fuel : Nat) :
    ∀ off c, Neutral (ichecksumLoop ip fuel off c) := by
  induction fuel with
  | zero => exact fun _ _ => Neutral.loops
  | succ fuel ih =>
    intro off c
    refine (Neutral.readi _ _ _).bind fun r => ?_
    exact Neutral.ite (fun _ => Neutral.pure _) fun _ => ih _ _

theorem Neutral.ichecksum (ip : Fin 100) : Neutral (ichecksum ip) := by
  refine (Neutral.inode _).bind fun i => Neutral.ite (fun _ => Neutral.pure _) fun _ => ?_
  exact Neutral.ichecksumLoop _ _ _ _

/-! ## Locking -/

theorem Neutral.loadInode (ip : Fin 100) : Neutral (loadInode ip) := by
  refine (Neutral.inode _).bind fun i => (Neutral.bread _ _).bind fun bp => ?_
  exact Neutral.updInode _ (fun _ => by rfl) fun _ => by rfl

theorem zcSuccess_lk (ip : Fin 100) (h : Lk l e s) :
    wp (zcSuccess ip) (fun r s' => r = 0 ∧ Lk l e s') NotLog s := by
  refine wp.bind (Neutral.updInode ip (fun _ => by rfl) (fun _ => by rfl) l e s h) fun _ s1 h1 => ?_
  refine wp.bind (Neutral.inode ip l e s1 h1) fun i s2 h2 => ?_
  exact wp_ite (fun _ => notLog_panic _ s2) fun _ => ⟨rfl, h2⟩

/-- A lock attempt on `ip`: it returns 0 with the lock, or something else without it. -/
def Locked (ip : Fin 100) (l : Fin 100 → Bool) (e : Env) (r : Int) (s : State) : Prop :=
  (r = 0 ∧ l ip = false ∧ Lk (update l ip true) e s) ∨ (r ≠ 0 ∧ Lk l e s)

/-- The verification loop ends with the lock and 0, or without both. -/
theorem zcVerify_lk {lock : Fin 100 → K Int} (ip : Fin 100) (hl : l ip = false)
    (hlock : ∀ (r : Fin 100) (l : Fin 100 → Bool) (s : State), Lk l e s →
      wp (lock r) (Locked r l e) NotLog s)
    (left : Nat) : ∀ (replica : Nat) (s : State), Lk (update l ip true) e s →
      wp (zcVerify lock ip left replica) (Locked ip l e) NotLog s := by
  have hcorrupted : ∀ s, Lk (update l ip true) e s →
      wp (iunlock ip >>= fun _ => pure E_CORRUPTED : K Int) (Locked ip l e) NotLog s := by
    intro s h
    refine (iunlock_lk ip h).bind fun _ s' h' => Or.inr ⟨by decide, ?_⟩
    rw [update_update_lock hl] at h'
    exact h'.2
  have hsuccess : ∀ s, Lk (update l ip true) e s →
      wp (zcSuccess ip) (Locked ip l e) NotLog s := fun s h =>
    (zcSuccess_lk ip h).post fun r s' h' => Or.inl ⟨h'.1, hl, h'.2⟩
  induction left with
  | zero =>
    intro replica s h
    refine wp.bind (Neutral.inode ip _ e s h) fun i s1 h1 => ?_
    refine wp.bind (Neutral.ichecksum ip _ e s1 h1) fun c s2 h2 => ?_
    exact wp_ite (fun _ => hsuccess s2 h2) fun _ => hcorrupted s2 h2
  | succ left ih =>
    intro replica s h
    refine wp.bind (Neutral.inode ip _ e s h) fun i s1 h1 => ?_
    refine wp.bind (Neutral.ichecksum ip _ e s1 h1) fun c s2 h2 => ?_
    refine wp_ite (fun _ => hsuccess s2 h2) fun _ => ?_
    refine wp_ite (fun _ => hcorrupted s2 h2) fun hr => ?_
    refine wp.bind (Neutral.iget _ _ _ e s2 h2) fun rinode s3 h3 => ?_
    refine (hlock rinode _ s3 h3).bind fun r s4 h4 => ?_
    rcases h4 with ⟨h0, hfree, h4⟩ | ⟨h0, h4⟩
    · -- the replica verified: both locks are given back
      rw [if_pos h0]
      refine (iunlock_lk rinode h4).bind fun _ s5 h5 => ?_
      rw [update_update_lock hfree] at h5
      refine (iunlock_lk ip h5.2).bind fun _ s6 h6 => Or.inr ⟨?_, ?_⟩
      · exact_mod_cast hr
      · rw [update_update_lock hl] at h6
        exact h6.2
    · rw [if_neg h0]
      exact ih _ s4 h4

theorem ilockExt_lk (depth : Nat) : ∀ (ip : Fin 100) (checksum : Bool) (l : Fin 100 → Bool)
    (e : Env) (s : State), Lk l e s →
    wp (ilockExt depth ip checksum) (Locked ip l e) NotLog s := by
  induction depth with
  | zero => exact fun _ _ _ _ s _ => notLog_loops s
  | succ depth ih =>
    intro ip checksum l e s h
    refine (lockSlot_lk ip h).bind fun _ s1 h1 => ?_
    refine wp.bind (Neutral.inode ip _ e s1 h1.2) fun i s2 h2 => ?_
    refine wp_ite (fun _ => Or.inl ⟨rfl, h1.1, h2⟩) fun _ => ?_
    refine wp.bind (Neutral.loadInode ip _ e s2 h2) fun _ s3 h3 => ?_
    refine wp_ite (fun _ => ?_) fun _ => ?_
    · exact zcVerify_lk ip h1.1 (fun r l' s' hs' => ih r true l' e s' hs') 2 0 s3 h3
    · exact (zcSuccess_lk ip h3).post fun r s' h' => Or.inl ⟨h'.1, h1.1, h'.2⟩

theorem ilock_lk (ip : Fin 100) (h : Lk l e s) : wp (ilock ip) (Locked ip l e) NotLog s :=
  ilockExt_lk 101 ip true l e s h

/-- Without verification a lock attempt that returns has the lock. -/
theorem ilock_ext_false_lk (ip : Fin 100) (h : Lk l e s) : wp (ilock_ext ip false)
      (fun r s' => r = 0 ∧ l ip = false ∧ Lk (update l ip true) e s') NotLog s := by
  unfold ilock_ext ilockExt
  refine (lockSlot_lk ip h).bind fun _ s1 h1 => ?_
  refine wp.bind (Neutral.inode ip _ e s1 h1.2) fun i s2 h2 => ?_
  refine wp_ite (fun _ => ⟨rfl, h1.1, h2⟩) fun _ => ?_
  refine wp.bind (Neutral.loadInode ip _ e s2 h2) fun _ s3 h3 => ?_
  exact (zcSuccess_lk ip h3).post fun r s' h' => ⟨h'.1, h1.1, h'.2⟩

/-- A section between `ilock_ext(ip, 0)` and `iunlock(ip)`. -/
theorem Neutral.section_ext {α : Type} (ip : Fin 100) {m : K α} (hm : Neutral m) :
    Neutral (ilock_ext ip false >>= fun _ => m >>= fun _ => iunlock ip) := by
  intro l e s h
  refine (ilock_ext_false_lk ip h).bind fun r s1 h1 => ?_
  refine wp.bind (hm _ e s1 h1.2.2) fun _ s2 h2 => ?_
  refine (iunlock_lk ip h2).post fun _ s3 h3 => ?_
  rw [update_update_lock h1.2.1] at h3
  exact h3.2

/-! ## Updating and freeing -/

theorem Neutral.cupdate (ip ic : Fin 100) : Neutral (cupdate ip ic) := by
  intro l e s h
  refine (ilock_ext_false_lk ic h).bind fun r s1 h1 => ?_
  refine wp.bind (Neutral.inode ic _ e s1 h1.2.2) fun c s2 h2 => ?_
  refine wp_ite (fun _ => notLog_panic _ s2) fun _ => ?_
  refine wp.bind (Neutral.inode ip _ e s2 h2) fun i s3 h3 => ?_
  refine wp.bind (Neutral.bread _ _ _ e s3 h3) fun bp s4 h4 => ?_
  refine wp.bind (Neutral.updInode ic (fun _ => by rfl) (fun _ => by rfl) _ e s4 h4)
    fun _ s5 h5 => ?_
  refine wp.bind (Neutral.log_write _ _ _ _ e s5 h5) fun _ s6 h6 => ?_
  refine (iunlock_lk ic h6).post fun _ s7 h7 => ?_
  rw [update_update_lock h1.2.1] at h7
  exact h7.2

theorem Neutral.iupdate_ext (ip : Fin 100) (skip : Bool) : Neutral (iupdate_ext ip skip) := by
  refine (Neutral.inode _).bind fun i => (Neutral.bread _ _).bind fun bp => ?_
  refine (Neutral.ichecksum _).bind fun c => ?_
  refine (Neutral.updInode _ (fun _ => by rfl) fun _ => by rfl).bind fun _ => ?_
  refine (Neutral.inode _).bind fun i => (Neutral.log_write _ _ _).bind fun _ => ?_
  refine Neutral.when (Neutral.bind ?_ fun _ => ?_)
  · exact Neutral.when ((Neutral.iget _ _).bind fun _ => Neutral.cupdate _ _)
  · exact Neutral.when ((Neutral.iget _ _).bind fun _ => Neutral.cupdate _ _)

/-! ## Writing -/

theorem Neutral.writeiLoop (ip : Fin 100) (fuel : Nat) :
    ∀ off src, Neutral (writeiLoop ip fuel off src) := by
  induction fuel with
  | zero => exact fun _ _ => Neutral.pure _
  | succ fuel ih =>
    intro off src
    refine Neutral.ite (fun _ => Neutral.pure _) fun _ => ?_
    refine (Neutral.inode _).bind fun i => (Neutral.bmap _ _).bind fun sec => ?_
    refine (Neutral.bread _ _).bind fun bp => (Neutral.log_write _ _ _).bind fun _ => ?_
    exact ih _ _

theorem Neutral.writeChild {write : Fin 100 → K Int} (hw : ∀ ci, Neutral (write ci)) (dev : Nat)
    (child : UInt16) : Neutral (writeChild write dev child) :=
  Neutral.when ((Neutral.iget _ _).bind fun ci => Neutral.section_ext ci (hw ci))

theorem Neutral.writeiExt (depth : Nat) : ∀ (ip : Fin 100) (src : List UInt8) (off : Nat)
    (skip : Bool), Neutral (writeiExt depth ip src off skip) := by
  induction depth with
  | zero => exact fun _ _ _ _ => Neutral.loops
  | succ depth ih =>
    intro ip src off skip
    refine (Neutral.inode _).bind fun i => Neutral.ite (fun _ => ?_) fun _ => ?_
    · refine (Neutral.gets _).bind fun sw => Neutral.ite (fun _ => Neutral.pure _) fun _ => ?_
      cases (sw i.d.major.toNat).write <;> exact Neutral.pure _
    · refine Neutral.ite (fun _ => Neutral.pure _) fun _ => ?_
      refine Neutral.ite (fun _ => Neutral.pure _) fun _ => ?_
      refine (Neutral.writeiLoop _ _ _ _).bind fun _ => ?_
      refine Neutral.bind (Neutral.when ?_) fun _ => ?_
      · refine (Neutral.writeChild (fun ci => ih ci src off false) _ _).bind fun _ => ?_
        exact Neutral.writeChild (fun ci => ih ci src off false) _ _
      · refine Neutral.ite (fun _ => Neutral.pure _) fun _ => ?_
        refine (Neutral.updInode _ (fun _ => by rfl) fun _ => by rfl).bind fun _ => ?_
        exact (Neutral.iupdate_ext _ _).bind fun _ => Neutral.pure _

theorem Neutral.writei_ext (ip : Fin 100) (src : List UInt8) (off : Nat) (skip : Bool) :
    Neutral (writei_ext ip src off skip) := Neutral.writeiExt 101 ip src off skip

theorem Neutral.writei (ip : Fin 100) (src : List UInt8) (off : Nat) :
    Neutral (writei ip src off) := Neutral.writei_ext ip src off false

theorem Neutral.iduplicateLoop (src dst : Fin 100) (lim : Nat) (fuel : Nat) :
    ∀ off, Neutral (iduplicateLoop src dst lim fuel off) := by
  induction fuel with
  | zero => exact fun _ => Neutral.loops
  | succ fuel ih =>
    intro off
    refine (Neutral.readi _ _ _).bind fun r => Neutral.ite (fun _ => ?_) fun _ => Neutral.pure _
    exact (Neutral.writei_ext _ _ _ _).bind fun _ => ih _

theorem Neutral.iduplicate (src dst : Fin 100) (off ntotal : Nat) :
    Neutral (iduplicate src dst off ntotal) := by
  refine (Neutral.inode _).bind fun i => ?_
  refine (Neutral.updInode _ (fun _ => by rfl) fun _ => by rfl).bind fun _ => ?_
  exact Neutral.iduplicateLoop _ _ _ _ _

end Zv6
