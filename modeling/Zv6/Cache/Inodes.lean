/-
  The inode cache (`iget`, `idup`, `ilock`, `iunlock`, `iput`) under interleaving.

  Every step is one critical section of `icache.lock`, or one of the tests that `ilock` and
  `iunlock` make before they take it, so the lock is free in every state. `iput` has two critical
  sections when it frees the inode, and other processes run between them (`putting`). A process
  that waits in `ilock` does not look at `ref` again when it goes on.

  Whatever processes do, entries in use keep their names, and no two have the same. That a locked
  entry is in use needs a rule of the callers: no process drops the last reference to an inode
  that is locked or that a process is waiting to lock (`Careful`). Without it `iput` between
  `ilock` and `iunlock` leaves a locked entry without references (`locked_without_reference`).
-/
import Mathlib.Logic.Relation
import Zv6.Log.Crash
import Zv6.Model.Inode

namespace Zv6.Icache

open Lib

/-- Where a process is. -/
inductive Pc where
  | run
  /-- In `ilock`, after its test and before it sets I_BUSY. -/
  | locking (i : Fin 100)
  /-- In `iunlock`, after its test. -/
  | unlocking (i : Fin 100)
  /-- In `iput`, freeing the inode. -/
  | putting (i : Fin 100)

structure Sys (P : Type) where
  fs : State
  pc : P → Pc

variable {P : Type}

/-- An entry of the cache. -/
def Sys.slot (m : Sys P) (i : Fin 100) : Inode := m.fs.icache i

/-- Entry `i` becomes `x`, and process `p` goes to `k`. -/
def Sys.set [DecidableEq P] (m : Sys P) (p : P) (i : Fin 100) (x : Inode) (k : Pc) : Sys P :=
  ⟨m.fs.setInode i x, fun q => if q = p then k else m.pc q⟩

/-- The test of `iput` for an inode that is to be freed. -/
def Unlinked (x : Inode) : Prop := x.ref = 1 ∧ x.valid = true ∧ x.d.nlink = 0

/-- One step of process `p`. -/
inductive Step [DecidableEq P] (p : P) (m : Sys P) : Sys P → Prop where
  | iget (dev inum : Nat) {i : Fin 100} {s : State} (hp : m.pc p = .run)
      (h : iget dev inum m.fs = .ok i s) : Step p m ⟨s, m.pc⟩
  /-- A process has a pointer to an inode that is in use. -/
  | idup (i : Fin 100) {s : State} (hp : m.pc p = .run) (hr : 1 ≤ (m.slot i).ref)
      (h : idup i m.fs = .ok i s) : Step p m ⟨s, m.pc⟩
  | ilock (i : Fin 100) (hp : m.pc p = .run) (hr : ¬ (m.slot i).ref < 1) :
      Step p m (m.set p i (m.slot i) (.locking i))
  | lock {i : Fin 100} (hp : m.pc p = .locking i) (hb : (m.slot i).busy = false) :
      Step p m (m.set p i { m.slot i with busy := true } .run)
  /-- What is done to an inode while it is locked: it is read from the disk, changed, truncated. -/
  | fill (i : Fin 100) (v : Bool) (d : Dinode) (hb : (m.slot i).busy = true) :
      Step p m (m.set p i { m.slot i with valid := v, d := d } (m.pc p))
  | iunlock (i : Fin 100) (hp : m.pc p = .run)
      (hr : ¬ ((m.slot i).busy = false ∨ (m.slot i).ref < 1)) :
      Step p m (m.set p i (m.slot i) (.unlocking i))
  | unlock {i : Fin 100} (hp : m.pc p = .unlocking i) :
      Step p m (m.set p i { m.slot i with busy := false } .run)
  | iput (i : Fin 100) (hp : m.pc p = .run) (hu : ¬ Unlinked (m.slot i)) :
      Step p m (m.set p i { m.slot i with ref := (m.slot i).ref - 1 } .run)
  | free (i : Fin 100) (hp : m.pc p = .run) (hu : Unlinked (m.slot i))
      (hb : (m.slot i).busy = false) :
      Step p m (m.set p i { m.slot i with busy := true } (.putting i))
  | freed {i : Fin 100} (hp : m.pc p = .putting i) :
      Step p m (m.set p i { m.slot i with
        busy := false, valid := false, ref := (m.slot i).ref - 1 } .run)

/-- The step drops no last reference to an inode that a process is waiting to lock, or that
    another one has locked. -/
def Careful (p : P) (m m' : Sys P) : Prop :=
  ∀ i, 0 < (m.slot i).ref → (m'.slot i).ref ≤ 0 →
    (∀ q, m.pc q ≠ .locking i) ∧ (m.pc p = .putting i ∨ (m.slot i).busy = false)

section Steps

variable [DecidableEq P] {p : P} {m m' m0 : Sys P} {i : Fin 100}

/-- All processes take steps, in any order. -/
def Steps (m m' : Sys P) : Prop := Relation.ReflTransGen (fun a b => ∃ p, Step p a b) m m'

/-- The same, and all steps are careful. -/
def CarefulSteps (m m' : Sys P) : Prop :=
  Relation.ReflTransGen (fun a b => ∃ p, Step p a b ∧ Careful p a b) m m'

/-- The cache after `iinit`. -/
structure Boots (m : Sys P) : Prop where
  ref : ∀ i, (m.slot i).ref = 0
  busy : ∀ i, (m.slot i).busy = false
  pc : ∀ p, m.pc p = .run

/-! ## What a step does -/

@[simp] theorem set_slot (x : Inode) (k : Pc) : (m.set p i x k).slot i = x := by
  simp [Sys.set, Sys.slot, State.setInode]

theorem set_other (x : Inode) (k : Pc) {j : Fin 100} (hj : j ≠ i) :
    (m.set p i x k).slot j = m.slot j := by
  simp [Sys.set, Sys.slot, State.setInode, hj]

/-- Entry `i` was empty and has been taken for an inode that no entry in use has. -/
structure Recycled (m m' : Sys P) (i : Fin 100) : Prop where
  empty : (m.slot i).ref = 0
  fresh : ∀ j, 0 < (m.slot j).ref →
    ¬ ((m.slot j).dev = (m'.slot i).dev ∧ (m.slot j).inum = (m'.slot i).inum)
  ref : (m'.slot i).ref = 1
  busy : (m'.slot i).busy = false
  valid : (m'.slot i).valid = false

/-- Entry `i` keeps its name, and is in use only if it was before. -/
structure Kept (m m' : Sys P) (i : Fin 100) : Prop where
  dev : (m'.slot i).dev = (m.slot i).dev
  inum : (m'.slot i).inum = (m.slot i).inum
  ref : 0 < (m'.slot i).ref → 0 < (m.slot i).ref

omit [DecidableEq P] in
/-- `iget` finds the entry of the inode or recycles one. -/
theorem iget_cases {dev inum : Nat} {s : State} (h : iget dev inum m.fs = .ok i s) :
    (∀ j, j ≠ i → s.icache j = m.slot j) ∧
    ((0 < (m.slot i).ref ∧ s.icache i = { m.slot i with ref := (m.slot i).ref + 1 }) ∨
      Recycled m ⟨s, m.pc⟩ i) := by
  unfold Zv6.iget at h
  split at h
  · rename_i j hj
    cases h
    refine ⟨fun j hj => by simp [State.setInode, hj, Sys.slot], .inl ⟨?_, ?_⟩⟩
    · have := List.find?_some hj
      simp only [Bool.and_eq_true, decide_eq_true_eq] at this
      exact this.1.1
    · simp [State.setInode, Sys.slot]
  · rename_i hno
    split at h
    · rename_i j hj
      cases h
      refine ⟨fun j hj => by simp [State.setInode, hj, Sys.slot], .inr ?_⟩
      have hempty : (m.fs.icache i).ref = 0 := by simpa using List.find?_some hj
      refine ⟨hempty, fun k hk => ?_, ?_, ?_, ?_⟩
      · have := List.find?_eq_none.mp hno k (List.mem_finRange k)
        simp only [Bool.and_eq_true, decide_eq_true_eq, not_and, and_imp] at this
        rintro ⟨hd, hi⟩
        simp only [Sys.slot, State.setInode, if_pos] at hd hi
        exact this hk hd hi
      · simp [Sys.slot, State.setInode]
      · simp [Sys.slot, State.setInode]
      · simp [Sys.slot, State.setInode]
    · cases h

omit [DecidableEq P] in
theorem idup_slot {s : State} (h : idup i m.fs = .ok i s) :
    s.icache i = { m.slot i with ref := (m.slot i).ref + 1 } ∧
      ∀ j, j ≠ i → s.icache j = m.slot j := by
  unfold Zv6.idup at h
  cases h
  exact ⟨by simp [State.setInode, Sys.slot], fun j hj => by simp [State.setInode, Sys.slot, hj]⟩

/-- A step changes one entry at most: it keeps its name, or is recycled. -/
theorem Step.cases (hs : Step p m m') : ∃ i, (∀ j, j ≠ i → m'.slot j = m.slot j) ∧
    (Kept m m' i ∨ Recycled m m' i) := by
  cases hs with
  | iget dev inum hp h =>
    rename_i i s
    obtain ⟨hother, ⟨hr, hi⟩ | hrec⟩ := iget_cases h
    · exact ⟨i, hother, .inl ⟨by simp [Sys.slot, hi], by simp [Sys.slot, hi], fun _ => hr⟩⟩
    · exact ⟨i, hother, .inr hrec⟩
  | idup i hp hr h =>
    obtain ⟨hi, hother⟩ := idup_slot h
    exact ⟨i, hother, .inl ⟨by simp [Sys.slot, hi], by simp [Sys.slot, hi], fun _ => by omega⟩⟩
  | ilock i | fill i | iunlock i | free i =>
    exact ⟨i, fun _ => set_other _ _, .inl ⟨by simp, by simp, by simp⟩⟩
  | lock | unlock => exact ⟨_, fun _ => set_other _ _, .inl ⟨by simp, by simp, by simp⟩⟩
  | iput i hp hu =>
    refine ⟨i, fun _ => set_other _ _, .inl ⟨by simp, by simp, fun h => ?_⟩⟩
    simp only [set_slot] at h
    omega
  | freed hp =>
    refine ⟨_, fun _ => set_other _ _, .inl ⟨by simp, by simp, fun h => ?_⟩⟩
    simp only [set_slot] at h
    omega

/-! ## Names -/

/-- No two entries in use have the same inode. -/
def Unique (m : Sys P) : Prop := ∀ i j, 0 < (m.slot i).ref → 0 < (m.slot j).ref →
  (m.slot i).dev = (m.slot j).dev → (m.slot i).inum = (m.slot j).inum → i = j

theorem Unique.step (h : Unique m) (hs : Step p m m') : Unique m' := by
  obtain ⟨k, hother, hk | hk⟩ := hs.cases
  · -- all names are as before, and all entries in use were in use
    have hdev : ∀ j, (m'.slot j).dev = (m.slot j).dev ∧ (m'.slot j).inum = (m.slot j).inum ∧
        (0 < (m'.slot j).ref → 0 < (m.slot j).ref) := by
      intro j
      by_cases hj : j = k
      · rw [hj]
        exact ⟨hk.dev, hk.inum, hk.ref⟩
      · rw [hother j hj]
        exact ⟨rfl, rfl, fun h => h⟩
    intro i j hi hj hd hn
    rw [(hdev i).1, (hdev j).1] at hd
    rw [(hdev i).2.1, (hdev j).2.1] at hn
    exact h i j ((hdev i).2.2 hi) ((hdev j).2.2 hj) hd hn
  · intro i j hi hj hd hn
    by_cases hik : i = k
    · by_cases hjk : j = k
      · rw [hik, hjk]
      · rw [hik, hother j hjk] at hd hn
        rw [hother j hjk] at hj
        exact absurd ⟨hd.symm, hn.symm⟩ (hk.fresh j hj)
    · by_cases hjk : j = k
      · rw [hjk, hother i hik] at hd hn
        rw [hother i hik] at hi
        exact absurd ⟨hd, hn⟩ (hk.fresh i hi)
      · rw [hother i hik] at hi hd hn
        rw [hother j hjk] at hj hd hn
        exact h i j hi hj hd hn

/-- An entry in use keeps its name. -/
theorem Step.name (hs : Step p m m') (hr : 0 < (m.slot i).ref) :
    (m'.slot i).dev = (m.slot i).dev ∧ (m'.slot i).inum = (m.slot i).inum := by
  obtain ⟨k, hother, hk⟩ := hs.cases
  by_cases hik : i = k
  · rcases hk with hk | hk
    · rw [hik]
      exact ⟨hk.dev, hk.inum⟩
    · have := hk.empty
      rw [← hik] at this
      omega
  · rw [hother i hik]
    exact ⟨rfl, rfl⟩

/-! ## Locked entries -/

/-- An entry that is locked, or that a process is waiting to lock, is in use. -/
structure Live (m : Sys P) : Prop where
  busy : ∀ i, (m.slot i).busy = true → 0 < (m.slot i).ref
  locking : ∀ q i, m.pc q = .locking i → 0 < (m.slot i).ref

/-- Process `p` changes entry `i`, whose reference count does not drop to 0 if it is locked
    afterwards or a process waits for it. -/
theorem Live.set (h : Live m) {x : Inode} {k : Pc} (hb : x.busy = true → 0 < x.ref)
    (hk : ∀ j, k = .locking j → j = i ∨ 0 < (m.slot j).ref) (hki : k = .locking i → 0 < x.ref)
    (hq : ∀ q, q ≠ p → m.pc q = .locking i → 0 < x.ref) : Live (m.set p i x k) := by
  constructor
  · intro j hj
    by_cases hji : j = i
    · rw [hji, set_slot] at hj ⊢
      exact hb hj
    · rw [set_other _ _ hji] at hj ⊢
      exact h.busy j hj
  · intro q j hqj
    change (if q = p then k else m.pc q) = .locking j at hqj
    by_cases hji : j = i
    · subst hji
      rw [set_slot]
      by_cases e : q = p
      · rw [if_pos e] at hqj
        exact hki hqj
      · rw [if_neg e] at hqj
        exact hq q e hqj
    · rw [set_other _ _ hji]
      by_cases e : q = p
      · rw [if_pos e] at hqj
        exact (hk j hqj).resolve_left hji
      · rw [if_neg e] at hqj
        exact h.locking q j hqj

omit [DecidableEq P] in
/-- Entry `i` gets a reference. -/
theorem Live.gain (h : Live m) (hpc : m'.pc = m.pc)
    (hother : ∀ j, j ≠ i → m'.slot j = m.slot j) (hi : 0 < (m'.slot i).ref) : Live m' := by
  constructor
  · intro j hj
    by_cases hji : j = i
    · rw [hji]
      exact hi
    · rw [hother j hji] at hj ⊢
      exact h.busy j hj
  · intro q j hq
    rw [hpc] at hq
    by_cases hji : j = i
    · rw [hji]
      exact hi
    · rw [hother j hji]
      exact h.locking q j hq

theorem Live.step (h : Live m) (hs : Step p m m') (hc : Careful p m m') : Live m' := by
  cases hs with
  | iget dev inum hp hrun =>
    obtain ⟨hother, ⟨hr, hi⟩ | hrec⟩ := iget_cases hrun
    · refine h.gain rfl hother ?_
      simp only [Sys.slot, hi]
      exact Int.lt_add_one_of_le (Int.le_of_lt hr)
    · refine h.gain rfl hother ?_
      rw [hrec.ref]
      decide
  | idup i hp hr hrun =>
    obtain ⟨hi, hother⟩ := idup_slot hrun
    refine h.gain rfl hother ?_
    simp only [Sys.slot, hi] at hr ⊢
    omega
  | ilock i hp hr =>
    exact h.set (h.busy i) (fun j e => .inl (Pc.locking.inj e).symm) (fun _ => by omega)
      fun _ _ _ => by omega
  | @lock i hp hb =>
    have hr := h.locking p i hp
    exact h.set (fun _ => hr) (fun _ e => nomatch e) (fun _ => hr) fun _ _ _ => hr
  | fill i v d hb =>
    have hr := h.busy i hb
    exact h.set (fun _ => hr) (fun j e => .inr (h.locking p j e)) (fun _ => hr) fun _ _ _ => hr
  | iunlock i hp hr =>
    exact h.set (h.busy i) (fun _ e => nomatch e) (fun _ => by omega) fun q _ hq => h.locking q i hq
  | unlock hp =>
    exact h.set (fun e => nomatch e) (fun _ e => nomatch e) (fun e => nomatch e)
      fun q _ hq => h.locking q _ hq
  | iput i hp hu =>
    have hdrop := hc i
    rw [set_slot] at hdrop
    change 0 < (m.slot i).ref → (m.slot i).ref - 1 ≤ 0 → _ at hdrop
    refine h.set (fun hb => ?_) (fun _ e => nomatch e) (fun e => nomatch e) fun q _ hq => ?_
    · by_contra hle
      change ¬ 0 < (m.slot i).ref - 1 at hle
      rcases (hdrop (h.busy i hb) (by omega)).2 with hput | hfree
      · rw [hp] at hput
        cases hput
      · rw [hfree] at hb
        cases hb
    · by_contra hle
      change ¬ 0 < (m.slot i).ref - 1 at hle
      exact (hdrop (h.locking q i hq) (by omega)).1 q hq
  | free i hp hu hb =>
    have hr : 0 < (m.slot i).ref := by
      rw [hu.1]
      decide
    exact h.set (fun _ => hr) (fun _ e => nomatch e) (fun _ => hr) fun _ _ _ => hr
  | @freed i hp =>
    have hdrop := hc i
    rw [set_slot] at hdrop
    change 0 < (m.slot i).ref → (m.slot i).ref - 1 ≤ 0 → _ at hdrop
    refine h.set (fun e => nomatch e) (fun _ e => nomatch e) (fun e => nomatch e)
      fun q _ hq => ?_
    by_contra hle
    change ¬ 0 < (m.slot i).ref - 1 at hle
    exact (hdrop (h.locking q i hq) (by omega)).1 q hq

/-! ## Runs -/

omit [DecidableEq P] in
theorem Boots.unique (h : Boots m) : Unique m := by
  intro i j hi
  rw [h.ref i] at hi
  omega

omit [DecidableEq P] in
theorem Boots.live (h : Boots m) : Live m := by
  constructor
  · intro i hi
    rw [h.busy i] at hi
    cases hi
  · intro q i hq
    rw [h.pc q] at hq
    cases hq

theorem Steps.unique (h0 : Boots m0) (h : Steps m0 m) : Unique m := by
  induction h with
  | refl => exact h0.unique
  | tail _ hs ih =>
    obtain ⟨p, hs⟩ := hs
    exact ih.step hs

theorem CarefulSteps.live (h0 : Boots m0) (h : CarefulSteps m0 m) : Live m := by
  induction h with
  | refl => exact h0.live
  | tail _ hs ih =>
    obtain ⟨p, hs, hc⟩ := hs
    exact ih.step hs hc

/-- In every run: no two entries in use have the same inode, an entry in use keeps its name in
    every step, and an entry that `iget` recycles starts neither valid nor locked. If all steps are
    careful, a locked entry is in use. -/
theorem icache_unique {m0 m : Sys P} (h0 : Boots m0) (h : Steps m0 m) :
    (∀ i j, 0 < (m.slot i).ref → 0 < (m.slot j).ref → (m.slot i).dev = (m.slot j).dev →
      (m.slot i).inum = (m.slot j).inum → i = j) ∧
    (∀ p m', Step p m m' → ∀ i, 0 < (m.slot i).ref →
      (m'.slot i).dev = (m.slot i).dev ∧ (m'.slot i).inum = (m.slot i).inum) ∧
    (∀ dev inum i s, iget dev inum m.fs = .ok i s → (m.slot i).ref = 0 →
      (s.icache i).valid = false ∧ (s.icache i).busy = false) ∧
    (CarefulSteps m0 m → ∀ i, (m.slot i).busy = true → 0 < (m.slot i).ref) := by
  refine ⟨h.unique h0, fun p m' hs i hr => hs.name hr, ?_, fun hc => (hc.live h0).busy⟩
  intro dev inum i s hrun hempty
  obtain ⟨-, ⟨hr, -⟩ | hrec⟩ := iget_cases hrun
  · omega
  · exact ⟨hrec.valid, hrec.busy⟩

end Steps

/-- Two processes and an empty cache. -/
def booted : Sys (Fin 2) := ⟨State.blank ⟨0, 0, false, 1, 0, fun _ => 0⟩, fun _ => .run⟩

theorem booted_boots : Boots booted := ⟨fun _ => rfl, fun _ => rfl, fun _ => rfl⟩

theorem Careful.of_le {p : P} {m m' : Sys P} (h : ∀ i, (m.slot i).ref ≤ (m'.slot i).ref) :
    Careful p m m' := by
  intro i hr hr'
  have := h i
  omega

theorem set_ref_le [DecidableEq P] {m : Sys P} {p : P} {i : Fin 100} {x : Inode} {k : Pc}
    (h : (m.slot i).ref ≤ x.ref) (j : Fin 100) :
    (m.slot j).ref ≤ ((m.set p i x k).slot j).ref := by
  by_cases hj : j = i
  · rw [hj, set_slot]
    exact h
  · exact Int.le_of_eq (congrArg Inode.ref (set_other x k hj).symm)

/-- Process 0 calls `iget` and `ilock`, and has entry 0 locked. -/
theorem booted_locks : ∃ m1 m2 m3 : Sys (Fin 2), (∃ s, iget 1 5 booted.fs = .ok 0 s ∧
      m1 = ⟨s, booted.pc⟩) ∧ Step 0 booted m1 ∧ Step 0 m1 m2 ∧ Step 0 m2 m3 ∧
    CarefulSteps booted m3 ∧ (m3.slot 0).busy = true ∧ (m3.slot 0).ref = 1 ∧
    (m3.slot 0).valid = false ∧ m3.pc 0 = .run := by
  have hget : (iget 1 5 booted.fs).check (fun i _ => i == 0) = true := by decide +kernel
  obtain ⟨i, s, hrun, hi⟩ := Res.of_check hget
  obtain rfl : i = 0 := by simpa using hi
  obtain ⟨hother, ⟨hr, -⟩ | hrec⟩ := iget_cases hrun
  · exact absurd hr (by decide)
  generalize hm1 : (⟨s, booted.pc⟩ : Sys (Fin 2)) = m1 at hrec
  have hpc : m1.pc 0 = .run := by rw [← hm1]; rfl
  have h1 : Step 0 booted m1 := hm1 ▸ .iget 1 5 rfl hrun
  have h2 : Step 0 m1 (m1.set 0 0 (m1.slot 0) (.locking 0)) :=
    .ilock 0 hpc (by rw [hrec.ref]; decide)
  have h3 : Step 0 (m1.set 0 0 (m1.slot 0) (.locking 0))
      ((m1.set 0 0 (m1.slot 0) (.locking 0)).set 0 0
        { (m1.set 0 0 (m1.slot 0) (.locking 0)).slot 0 with busy := true } .run) :=
    .lock rfl (by rw [set_slot]; exact hrec.busy)
  have hc1 : Careful 0 booted m1 := fun i hr => absurd hr (Int.lt_irrefl 0)
  refine ⟨m1, _, _, ⟨s, hrun, hm1.symm⟩, h1, h2, h3, ?_, ?_, ?_, ?_, ?_⟩
  · exact ((Relation.ReflTransGen.single ⟨0, h1, hc1⟩).tail
      ⟨0, h2, Careful.of_le (set_ref_le (Int.le_refl _))⟩).tail
      ⟨0, h3, Careful.of_le (set_ref_le (Int.le_refl _))⟩
  · rw [set_slot]
  · rw [set_slot, set_slot]
    exact hrec.ref
  · rw [set_slot, set_slot]
    exact hrec.valid
  · rfl

/-- `iget` and `ilock` of inode 5. -/
theorem icache_unique_locked : ∃ m : Sys (Fin 2), Boots booted ∧ Steps booted m ∧
    (m.slot 0).busy = true ∧ 0 < (m.slot 0).ref := by
  obtain ⟨m1, m2, m3, -, h1, h2, h3, hc, hb, -⟩ := booted_locks
  have hs : Steps booted m3 :=
    ((Relation.ReflTransGen.single ⟨0, h1⟩).tail ⟨0, h2⟩).tail ⟨0, h3⟩
  exact ⟨m3, booted_boots, hs, hb, (icache_unique booted_boots hs).2.2.2 hc 0 hb⟩

/-- `iget`, `ilock` and `iput`, one after the other by the same process: the entry is locked and
    has no reference. -/
theorem locked_without_reference : Boots booted ∧ ∃ m1 m2 m3 m4 : Sys (Fin 2),
    (∃ s, iget 1 5 booted.fs = .ok 0 s ∧ m1 = ⟨s, booted.pc⟩) ∧ Step 0 booted m1 ∧
    Step 0 m1 m2 ∧ Step 0 m2 m3 ∧ (m3.slot 0).busy = true ∧ m3.pc 0 = .run ∧
    Step 0 m3 m4 ∧ (m4.slot 0).busy = true ∧ (m4.slot 0).ref = 0 := by
  obtain ⟨m1, m2, m3, hget, h1, h2, h3, -, hb, hr, hv, hpc⟩ := booted_locks
  have hu : ¬ Unlinked (m3.slot 0) := by
    intro hu
    rw [Unlinked, hv] at hu
    exact Bool.false_ne_true hu.2.1
  refine ⟨booted_boots, m1, m2, m3, _, hget, h1, h2, h3, hb, hpc, .iput 0 hpc hu, ?_, ?_⟩
  · rw [set_slot]
    exact hb
  · rw [set_slot]
    show (m3.slot 0).ref - 1 = 0
    rw [hr]
    rfl

end Zv6.Icache
