/-
  Locking and verifying an inode (`ilock_ext`).

  `LockPost` is what a whole `ilock` does, with its three results: the inode is locked and
  passed the check or was valid before; it is corrupted; or the number of the first ditto that
  passes (`First`, `verdict`). `Trying` is the invariant of the labels `zc_verify` and
  `zc_failure`, `Onward` a step to the next ditto. `ForcePost` is what `ilock_ext(ip, 0)` does.

  Everything is said for an outcome `E` of the runs that do not return: with `Escape E` nothing
  is claimed of them, otherwise no slot may be locked and two have to be free.
-/
import Zv6.Fs.Slots

namespace Zv6

open Lib

/-- Nothing can be said about a run that does not return. -/
def Escape (E : Stop Chan → State → Prop) : Prop := ∀ c s, E c s

/-- The dittos still to be tried when `replica` of them have been. -/
def Dinode.tries (d : Dinode) : (replica : Nat) → List Nat
  | 0 => if d.child1 = 0 then [] else
      d.child1.toNat :: if d.child2 = 0 then [] else [d.child2.toNat]
  | 1 => if d.child2 = 0 then [] else [d.child2.toNat]
  | _ => []

/-- `ilock` of inode `k` would return 0: it is valid in the cache, or its contents match. -/
def Passes (s : State) (D : Nat → Dinode) (k : Nat) : Prop :=
  (∃ j, Caches s.icache j k ∧ (s.icache j).valid = true) ∨ Good (s.view 1) D k

section Verify

variable {sb : Superblock} {D : Nat → Dinode} {s : State} {j : Fin 100} {k : Nat}
  {E : Stop Chan → State → Prop} {s' : State} {l : List Nat} {o : Option Nat} {p : Nat → Prop}
  {i : Inode} {depth : Nat}

/-- `ichecksum` of a mapped inode in the table, devices included. -/
theorem ichecksum_table (hm : Mapped (s.view 1) (D k)) (ht : (D k).type = T_DEV → (D k).size = 0)
    (hdev : (s.icache j).dev = 1) (hd : (s.icache j).d.core = D k) :
    ichecksum j s = .ok (checksumOf (contents (s.view 1) (D k))) s := by
  have htype : (s.icache j).d.type = (D k).type := by
    rw [← hd]
    rfl
  by_cases hT : (D k).type = T_DEV
  · have h0 : contents (s.view 1) (D k) = [] := by
      apply List.eq_nil_of_length_eq_zero
      rw [length_contents, ht hT]
      rfl
    unfold ichecksum
    rw [Exec.bind_ok (inode_apply j s), htype, if_pos hT, h0]
    rfl
  · rw [← hd] at hm
    have := ichecksum_mapped (s := s) (by rw [hdev]) rfl (by rw [htype]; exact hT)
      (⟨hm.size_le, hm.block⟩ : Mapped (s.view 1) (s.icache j).d)
    rw [this, ← hd]
    rfl

theorem ichecksum_live (hfs : Fs sb (s.view 1) D) (hk : Live sb D k)
    (hdev : (s.icache j).dev = 1) (hd : (s.icache j).d.core = D k) :
    ichecksum j s = .ok (checksumOf (contents (s.view 1) (D k))) s :=
  ichecksum_table (hfs.mapped k hk) (hfs.dev k hk) hdev hd

theorem lockSlot_wp (href : 0 < (s.icache j).ref) :
    wp (lockSlot j) (fun _ s' => (s.icache j).busy = false ∧
      s' = s.setInode j { s.icache j with busy := true })
      (fun _ _ => (s.icache j).busy = true) s := by
  unfold wp lockSlot
  rw [if_neg (by omega)]
  by_cases hb : (s.icache j).busy = true
  · rw [if_pos hb]
    exact hb
  · rw [if_neg hb]
    exact ⟨by simpa using hb, rfl⟩

/-- The slot locked and loaded from disk. -/
def State.opened (s : State) (j : Fin 100) : State :=
  s.setInode j { s.icache j with
    busy := true
    d := (s.view (s.icache j).dev (IBLOCK (s.icache j).inum)).dinode ((s.icache j).inum % 8) }

/-- The three ways of `ilock_ext`: it sleeps, finds the slot valid, or loads the inode. -/
theorem ilockExt_wp {Q : Int → State → Prop} {checksum : Bool} (href : 0 < (s.icache j).ref)
    (hbusy : (s.icache j).busy = true → ∀ c s', E c s')
    (hvalid : (s.icache j).busy = false → (s.icache j).valid = true →
      Q 0 (s.setInode j { s.icache j with busy := true }))
    (hload : (s.icache j).busy = false → (s.icache j).valid = false →
      wp (if checksum then zcVerify (fun r => ilockExt depth r true) j 2 0 else zcSuccess j) Q E
        (s.opened j)) :
    wp (ilockExt (depth + 1) j checksum) Q E s := by
  unfold ilockExt
  refine wp.bind ((lockSlot_wp href).mono (fun _ _ h => h) fun c s' h => hbusy h c s') ?_
  rintro _ s' ⟨hb, rfl⟩
  refine wp_ok_bind (inode_apply _ _) ?_
  rw [setInode_self]
  refine wp_ite (fun hv => hvalid hb hv) fun hv => ?_
  have hopen : loadInode j (s.setInode j { s.icache j with busy := true }) =
      .ok () (s.opened j) := by
    unfold loadInode State.opened
    rw [Exec.bind_ok (inode_apply _ _), Exec.bind_ok (bread_apply _ _ _), updInode_apply,
      setInode_setInode, setInode_self]
    rfl
  exact wp_ok_bind hopen (hload hb (by simpa using hv))

theorem zcSuccess_wp {Q : Int → State → Prop} (ht : (s.icache j).d.type ≠ 0)
    (hQ : Q 0 (s.setInode j { s.icache j with valid := true })) : wp (zcSuccess j) Q E s := by
  unfold zcSuccess
  refine wp_bind.mpr ?_
  show wp _ Q E (s.setInode j { s.icache j with valid := true })
  refine wp_ok_bind (inode_apply _ _) ?_
  rw [setInode_self]
  exact wp_ite (fun h0 => absurd h0 ht) fun _ => hQ

theorem iunlock_apply (hb : (s.icache j).busy = true) (hr : 0 < (s.icache j).ref) :
    iunlock j s = .ok () (s.setInode j { s.icache j with busy := false }) := by
  unfold iunlock
  rw [if_neg]
  rw [not_or]
  exact ⟨by simp [hb], by omega⟩

/-- A slot with a ditto was locked, or its ditto is corrupted. -/
def DittoPost (D : Nat → Dinode) (s : State) (j : Fin 100) (k : Nat) (r : Int) (s' : State) :
    Prop :=
  ∃ i : Inode, s' = s.setInode j i ∧ i.ref = (s.icache j).ref ∧ i.dev = (s.icache j).dev ∧
    i.inum = (s.icache j).inum ∧ (i.valid = true → i.d.core = D k) ∧
    ((r = 0 ∧ i.busy = true ∧ i.valid = true ∧ Passes s D k) ∨
      (r = E_CORRUPTED ∧ i.busy = false ∧ i.valid = false ∧ (s.icache j).valid = false ∧
        ¬ Passes s D k))

theorem passes_iff (hc : Cache sb D s.icache) (hj : Caches s.icache j k)
    (hv : (s.icache j).valid = false) : Passes s D k ↔ Good (s.view 1) D k := by
  refine ⟨?_, Or.inr⟩
  rintro (⟨x, hx, hxv⟩ | h)
  · rw [hc.uniq x j k hx hj, hv] at hxv
    cases hxv
  · exact h

/-- The lock of an inode without dittos. -/
theorem ditto_lock_wp (hfs : Fs sb (s.view 1) D) (hc : Cache sb D s.icache)
    (hj : Caches s.icache j k) (hnone : (D k).child1 = 0) (htab : table (s.view 1) k = D k)
    (hbusy : (s.icache j).busy = true → Escape E) :
    wp (ilockExt (depth + 1) j true) (DittoPost D s j k) E s := by
  obtain ⟨hdev, hlive⟩ := hc.slot j hj.1
  rw [hj.2] at hlive
  refine ilockExt_wp hj.1 hbusy ?_ ?_
  · intro _ hv
    have hd := hc.load j hj.1 hv
    rw [hj.2] at hd
    exact ⟨_, rfl, rfl, rfl, rfl, fun _ => hd, Or.inl ⟨rfl, rfl, hv, Or.inl ⟨j, hj, hv⟩⟩⟩
  · intro _ hv
    have hview : (s.opened j).view = s.view := rfl
    have hslot : (s.opened j).icache j = { s.icache j with
        busy := true
        d := (s.view (s.icache j).dev (IBLOCK (s.icache j).inum)).dinode
          ((s.icache j).inum % 8) } := setInode_self ..
    have hd : ((s.opened j).icache j).d.core = D k := by
      rw [hslot, ← htab, hdev, hj.2]
      rfl
    have hdev' : ((s.opened j).icache j).dev = 1 := by
      rw [hslot]
      exact hdev
    have hsum := ichecksum_live (s := s.opened j) hfs hlive hdev' hd
    have hchk : ((s.opened j).icache j).d.checksum = (D k).checksum := by
      rw [← hd]
      rfl
    have hchild : ((s.opened j).icache j).d.child1 = 0 := by
      rw [← hnone, ← hd]
      rfl
    have hpass := passes_iff (k := k) hc hj hv
    rw [if_pos rfl]
    unfold zcVerify
    refine wp_ok_bind (inode_apply _ _) ?_
    refine wp_ok_bind hsum ?_
    refine wp_ite ?_ ?_
    · intro hgood
      rw [hchk] at hgood
      refine zcSuccess_wp ?_ ?_
      · have := hlive.2.2
        rw [← hd] at this
        exact this
      · refine ⟨_, setInode_setInode .., ?_⟩
        rw [hslot] at hd ⊢
        exact ⟨rfl, rfl, rfl, fun _ => hd, Or.inl ⟨rfl, rfl, rfl, hpass.mpr hgood⟩⟩
    · intro hbad
      rw [hchk] at hbad
      rw [if_pos rfl, hchild]
      refine wp_ite (fun _ => ?_) fun h => absurd rfl h
      have hunlock := iunlock_apply (s := s.opened j) (j := j) (by rw [hslot])
        (by rw [hslot]; exact hj.1)
      refine wp_ok_bind hunlock ?_
      refine ⟨_, setInode_setInode .., ?_⟩
      rw [hslot] at hd ⊢
      exact ⟨rfl, rfl, rfl, fun _ => hd, Or.inr ⟨rfl, rfl, hv, hv, fun h => hbad (hpass.mp h)⟩⟩

/-- What is valid in `s'` was valid in `s`, or matches its checksum. -/
def Fresh (D : Nat → Dinode) (s s' : State) : Prop :=
  ∀ x, 0 < (s'.icache x).ref → (s'.icache x).valid = true →
    (0 < (s.icache x).ref ∧ (s.icache x).valid = true) ∨ Good (s.view 1) D (s'.icache x).inum

theorem passes_congr (hview : s'.view = s.view) (hg : Grow s s') (hf : Fresh D s s') (k : Nat) :
    Passes s' D k ↔ Passes s D k := by
  unfold Passes
  rw [hview]
  constructor
  · rintro (⟨x, hx, hv⟩ | h)
    · rcases hf x hx.1 hv with ⟨hr, hv'⟩ | h
      · refine Or.inl ⟨x, ⟨hr, ?_⟩, hv'⟩
        rw [← (hg.slot x hr).2.2.1]
        exact hx.2
      · rw [hx.2] at h
        exact Or.inr h
    · exact Or.inr h
  · rintro (⟨x, hx, hv⟩ | h)
    · exact Or.inl ⟨x, hg.caches hx, (hg.slot x hx.1).2.2.2 hv⟩
    · exact Or.inr h

theorem Fresh.trans {s' s'' : State} (hview : s'.view = s.view) (h : Fresh D s s')
    (h' : Fresh D s' s'') (hg' : Grow s' s'') : Fresh D s s'' := by
  intro x hr hv
  rcases h' x hr hv with ⟨hr', hv'⟩ | hgood
  · rcases h x hr' hv' with h | hgood
    · exact Or.inl h
    · rw [(hg'.slot x hr').2.2.1]
      exact Or.inr hgood
  · rw [hview] at hgood
    exact Or.inr hgood

/-- The first of a list that satisfies `p`. -/
def First (p : Nat → Prop) (l : List Nat) : Option Nat → Prop
  | none => ∀ c ∈ l, ¬ p c
  | some c => ∃ pre post, l = pre ++ c :: post ∧ (∀ x ∈ pre, ¬ p x) ∧ p c

theorem First.cons {a : Nat} (ha : ¬ p a) (h : First p l o) : First p (a :: l) o := by
  cases o with
  | none =>
    intro c hc
    rcases List.mem_cons.mp hc with rfl | hc
    · exact ha
    · exact h c hc
  | some c =>
    obtain ⟨pre, post, rfl, hpre, hp⟩ := h
    refine ⟨a :: pre, post, rfl, ?_, hp⟩
    intro x hx
    rcases List.mem_cons.mp hx with rfl | hx
    · exact ha
    · exact hpre x hx

theorem First.nil_eq (h : First p [] o) : o = none := by
  cases o with
  | none => rfl
  | some c =>
    obtain ⟨pre, post, he, -⟩ := h
    cases pre <;> cases he

theorem First.cases_cons {a : Nat} (h : First p (a :: l) o) :
    (p a ∧ o = some a) ∨ (¬ p a ∧ First p l o) := by
  cases o with
  | none =>
    exact Or.inr ⟨h a List.mem_cons_self, fun c hc => h c (List.mem_cons_of_mem _ hc)⟩
  | some c =>
    obtain ⟨pre, post, he, hpre, hp⟩ := h
    cases pre with
    | nil =>
      cases he
      exact Or.inl ⟨hp, rfl⟩
    | cons x pre =>
      cases he
      exact Or.inr ⟨hpre _ List.mem_cons_self, pre, post, rfl,
        fun y hy => hpre y (List.mem_cons_of_mem _ hy), hp⟩

/-- The result of a verification: `o` is the ditto to recover from. -/
def verdict : Option Nat → Int
  | none => E_CORRUPTED
  | some c => c

/-- The slot of inode `n` is locked and loaded, and its verification is under way. -/
structure Trying (sb : Superblock) (D : Nat → Dinode) (n : Nat) (ip : Fin 100) (s : State) :
    Prop where
  fs : Fs sb (s.view 1) D
  cache : Cache sb D s.icache
  slot : Caches s.icache ip n
  busy : (s.icache ip).busy = true
  valid : (s.icache ip).valid = false
  d : (s.icache ip).d.core = D n
  tab : ∀ i, (D n).child i ≠ 0 → table (s.view 1) ((D n).child i) = D ((D n).child i)

/-- The end of a verification that tried the dittos in `l`. -/
structure VerifyPost (sb : Superblock) (D : Nat → Dinode) (n : Nat) (ip : Fin 100) (l : List Nat)
    (s : State) (r : Int) (s' : State) : Prop where
  only : CacheOnly s s'
  grow : Grow s s'
  cache : Cache sb D s'.icache
  fresh : Fresh D s s'
  d : (s'.icache ip).d.core = D n
  result : (r = 0 ∧ (s'.icache ip).valid = true ∧ Good (s.view 1) D n) ∨
    ((s'.icache ip).valid = false ∧ ¬ Good (s.view 1) D n ∧ ∃ o, First (Passes s D) l o ∧
      r = verdict o ∧ ∀ c, o = some c → ∃ j, Caches s'.icache j c ∧ (s'.icache j).valid = true)

/-- No other slot is locked, and `m` slots are free. -/
def Unheld (ip : Fin 100) (m : Nat) (s : State) : Prop :=
  (∀ x, x ≠ ip → (s.icache x).busy = false) ∧ m ≤ (freeSlots s).card

theorem fresh_setInode (hi : i.inum = (s.icache j).inum) (hr : 0 < i.ref → 0 < (s.icache j).ref)
    (hv : i.valid = true → (s.icache j).valid = true ∨ Good (s.view 1) D (s.icache j).inum) :
    Fresh D s (s.setInode j i) := by
  intro x hxr hxv
  by_cases hx : x = j
  · subst hx
    rw [setInode_self] at hxr hxv ⊢
    rcases hv hxv with h | h
    · exact Or.inl ⟨hr hxr, h⟩
    · rw [hi]
      exact Or.inr h
  · rw [setInode_ne s i hx] at hxr hxv ⊢
    exact Or.inl ⟨hxr, hxv⟩

section Trying

variable {n : Nat} {ip : Fin 100}

theorem Trying.live (h : Trying sb D n ip s) : (s.icache ip).dev = 1 ∧ Live sb D n := by
  obtain ⟨hdev, hlive⟩ := h.cache.slot ip h.slot.1
  rw [h.slot.2] at hlive
  exact ⟨hdev, hlive⟩

theorem Trying.checksum (h : Trying sb D n ip s) :
    ichecksum ip s = .ok (checksumOf (contents (s.view 1) (D n))) s :=
  ichecksum_live h.fs h.live.2 h.live.1 h.d

/-- The check passes. -/
theorem Trying.success (h : Trying sb D n ip s) (hgood : Good (s.view 1) D n) (l : List Nat) :
    wp (zcSuccess ip) (VerifyPost sb D n ip l s) E s := by
  have ht : (s.icache ip).d.type ≠ 0 := by
    have := h.live.2.2.2
    rw [← h.d] at this
    exact this
  refine zcSuccess_wp ht ?_
  have hv : (s.icache ip).valid = true → (true : Bool) = true := fun _ => rfl
  refine ⟨rfl, grow_setInode (Int.le_refl _) rfl rfl hv,
    h.cache.set h.slot.1 rfl rfl fun _ => by rw [h.slot.2]; exact h.d, ?_, ?_,
    Or.inl ⟨rfl, ?_, hgood⟩⟩
  · refine fresh_setInode rfl id fun _ => Or.inr ?_
    rw [h.slot.2]
    exact hgood
  · rw [setInode_self]
    exact h.d
  · rw [setInode_self]

/-- The check failed and there is no ditto to try. -/
theorem Trying.give_up (h : Trying sb D n ip s) (hbad : ¬ Good (s.view 1) D n) :
    wp (do iunlock ip; pure E_CORRUPTED) (VerifyPost sb D n ip [] s) E s := by
  refine wp_ok_bind (iunlock_apply h.busy h.slot.1) ?_
  refine ⟨rfl, grow_setInode (Int.le_refl _) rfl rfl id,
    h.cache.set h.slot.1 rfl rfl fun hv => ?_, fresh_setInode rfl id Or.inl, ?_, Or.inr ⟨?_, hbad,
      none, by simp [First], rfl, by simp⟩⟩
  · rw [h.valid] at hv
    cases hv
  · rw [setInode_self]
    exact h.d
  · rw [setInode_self]
    exact h.valid

theorem tries_step (d : Dinode) {replica : Nat} (h : replica < 2) :
    d.tries replica = if d.child (decide (replica ≠ 0)) = 0 then []
      else d.child (decide (replica ≠ 0)) :: d.tries (replica + 1) := by
  have hz : ∀ w : UInt16, w = 0 ↔ w.toNat = 0 := fun w => by
    rw [← UInt16.toNat_inj]
    rfl
  match replica, h with
  | 0, _ => simp only [Dinode.tries, Dinode.child, hz]; rfl
  | 1, _ => simp only [Dinode.tries, Dinode.child, hz]; rfl

/-- An inode with dittos is none, so its dittos are other inodes without dittos. -/
theorem Trying.ditto (h : Trying sb D n ip s) {i : Bool} (hi : (D n).child i ≠ 0) :
    Live sb D ((D n).child i) ∧ (D ((D n).child i)).child1 = 0 ∧ (D n).child i ≠ n := by
  obtain ⟨hlive, htype⟩ := h.fs.child n i h.live.2 hi
  exact ⟨hlive, (h.fs.childless _ hlive htype).1, (h.fs.has_ditto h.live.2 hi).2⟩

/-- A state reached without touching the slot of `n`, and locking nothing. -/
structure Onward (D : Nat → Dinode) (ip : Fin 100) (s s' : State) : Prop where
  only : CacheOnly s s'
  grow : Grow s s'
  fresh : Fresh D s s'
  slot : s'.icache ip = s.icache ip

theorem Onward.trying (ho : Onward D ip s s') (h : Trying sb D n ip s) (hc : Cache sb D s'.icache) :
    Trying sb D n ip s' where
  fs := by rw [ho.only.view]; exact h.fs
  cache := hc
  slot := ho.grow.caches h.slot
  busy := by rw [ho.slot]; exact h.busy
  valid := by rw [ho.slot]; exact h.valid
  d := by rw [ho.slot]; exact h.d
  tab := by rw [ho.only.view]; exact h.tab

/-- A ditto that does not pass is left behind. -/
theorem VerifyPost.after {s1 s' : State} {r : Int} {c : Nat} (ho : Onward D ip s s1)
    (hc : ¬ Passes s D c) (h : VerifyPost sb D n ip l s1 r s') :
    VerifyPost sb D n ip (c :: l) s r s' := by
  have hview := ho.only.view
  refine ⟨ho.only.trans h.only, ho.grow.trans h.grow, h.cache,
    ho.fresh.trans hview h.fresh h.grow, h.d, ?_⟩
  have hresult := h.result
  rw [hview] at hresult
  rcases hresult with h0 | ⟨hv, hbad, o, ho1, hr, hj⟩
  · exact Or.inl h0
  · refine Or.inr ⟨hv, hbad, o, First.cons hc ?_, hr, hj⟩
    have hp : Passes s1 D = Passes s D :=
      funext fun k => propext (passes_congr hview ho.grow ho.fresh k)
    rwa [hp] at ho1

/-- A slot other than that of `n` changes and keeps its inode. -/
theorem onward_setInode (hj : j ≠ ip) (hr : i.ref = (s.icache j).ref)
    (hd : i.dev = (s.icache j).dev) (hi : i.inum = (s.icache j).inum)
    (hv : (s.icache j).valid = true → i.valid = true)
    (hv' : i.valid = true → (s.icache j).valid = true ∨ Good (s.view 1) D (s.icache j).inum) :
    Onward D ip s (s.setInode j i) :=
  ⟨rfl, grow_setInode (by omega) hd hi hv, fresh_setInode hi (by omega) hv',
    setInode_ne s i hj.symm⟩

theorem Onward.trans {s1 s2 : State} (h : Onward D ip s s1) (h' : Onward D ip s1 s2) :
    Onward D ip s s2 :=
  ⟨h.only.trans h'.only, h.grow.trans h'.grow, h.fresh.trans h.only.view h'.fresh h'.grow,
    h'.slot.trans h.slot⟩

theorem Got.onward (h : Got k s j s') (hj : j ≠ ip) : Onward D ip s s' := by
  refine ⟨h.cacheOnly, h.grow, ?_, h.other hj.symm⟩
  intro x hr hv
  by_cases hx : x = j
  · subst hx
    obtain ⟨hc, hv'⟩ := h.valid.mp hv
    exact Or.inl ⟨hc.1, hv'⟩
  · rw [h.other hx] at hr hv
    exact Or.inl ⟨hr, hv⟩

/-- The slots that are not in use are those of before, when a slot keeps its references. -/
theorem freeSlots_setInode (hr : i.ref = (s.icache j).ref) :
    freeSlots (s.setInode j i) = freeSlots s := by
  unfold freeSlots
  congr 1
  funext x
  by_cases hx : x = j
  · subst hx
    rw [setInode_self, hr]
  · rw [setInode_ne s i hx]

/-- One ditto is tried: it passes and is the verdict, or the search goes on. -/
theorem Trying.try_ditto {depth left c : Nat} {next : K Int} (h : Trying sb D n ip s)
    (hbad : ¬ Good (s.view 1) D n) (hlive : Live sb D c) (hnone : (D c).child1 = 0) (hne : c ≠ n)
    (htab : table (s.view 1) c = D c) (hE : Escape E ∨ Unheld ip (left + 1) s)
    (hnext : ∀ s1, Onward D ip s s1 → Cache sb D s1.icache → ¬ Passes s D c →
      (Escape E ∨ Unheld ip left s1) → wp next (VerifyPost sb D n ip (c :: l) s) E s1) :
    wp (do
      let rinode ← iget 1 c
      let r ← ilockExt (depth + 1) rinode true
      if r = 0 then do
        iunlock rinode
        iunlock ip
        pure (c : Int)
      else next) (VerifyPost sb D n ip (c :: l) s) E s := by
  have higet : wp (iget 1 c) (Got c s) E s := by
    refine (iget_wp h.cache c).mono (fun _ _ h => h) ?_
    rintro o s' ⟨hfull, -⟩
    rcases hE with hE | hE
    · exact hE o s'
    · have := hE.2
      rw [hfull, Finset.card_empty] at this
      omega
  refine higet.bind fun j s1 hgot => ?_
  have hjc := hgot.caches
  have hji : j ≠ ip := by
    rintro rfl
    exact hne (hjc.2.symm.trans (hgot.grow.caches h.slot).2)
  have ho1 : Onward D ip s s1 := hgot.onward hji
  have hc1 := hgot.cache h.cache hlive
  have hview1 := ho1.only.view
  have hbusy : (s1.icache j).busy = true → Escape E := by
    intro hb
    rcases hE with hE | hE
    · exact hE
    · rw [hgot.busy (hE.1 j hji)] at hb
      cases hb
  have hpass1 : Passes s1 D c ↔ Passes s D c := passes_congr hview1 ho1.grow ho1.fresh c
  refine (ditto_lock_wp (by rw [hview1]; exact h.fs) hc1 hjc hnone (by rw [hview1]; exact htab)
    hbusy).bind ?_
  rintro r s2 ⟨i, rfl, hir, hid, hii, hload, hres⟩
  have hc2 : Cache sb D (s1.setInode j i).icache :=
    hc1.set hjc.1 hid hii fun hv => by rw [hjc.2]; exact hload hv
  have hfresh : i.valid = true →
      (s1.icache j).valid = true ∨ Good (s1.view 1) D (s1.icache j).inum := by
    intro hv
    rw [hjc.2]
    rcases hres with ⟨_, _, _, ⟨x, hx, hxv⟩ | hg⟩ | ⟨_, _, hv', _⟩
    · rw [hc1.uniq x j c hx hjc] at hxv
      exact Or.inl hxv
    · exact Or.inr hg
    · rw [hv'] at hv
      cases hv
  have hkeep : (s1.icache j).valid = true → i.valid = true := by
    intro hv
    rcases hres with ⟨_, _, hv', _⟩ | ⟨_, _, _, hv', _⟩
    · exact hv'
    · rw [hv'] at hv
      cases hv
  have ho2 : Onward D ip s (s1.setInode j i) :=
    ho1.trans (onward_setInode hji hir hid hii hkeep hfresh)
  have hr2 : 0 < ((s1.setInode j i).icache j).ref := by
    rw [setInode_self, hir]
    exact hjc.1
  rcases hres with ⟨rfl, hb, hv, hp⟩ | ⟨rfl, hb, hv, hv1, hp⟩
  · -- the ditto passes: unlock both
    rw [if_pos rfl]
    have hu1 := iunlock_apply (s := s1.setInode j i) (j := j) (by rw [setInode_self]; exact hb) hr2
    refine wp_ok_bind hu1 ?_
    rw [setInode_setInode, setInode_self]
    have ho3 : Onward D ip s (s1.setInode j { i with busy := false }) :=
      ho1.trans (onward_setInode hji hir hid hii hkeep hfresh)
    have hc3 : Cache sb D (s1.setInode j { i with busy := false }).icache :=
      hc1.set hjc.1 hid hii fun hv => by rw [hjc.2]; exact hload hv
    have ht := ho3.trying h hc3
    have hu2 := iunlock_apply ht.busy ht.slot.1
    refine wp_ok_bind hu2 ?_
    refine ⟨ho3.only.trans rfl, ho3.grow.trans (grow_setInode (Int.le_refl _) rfl rfl id),
      hc3.set ht.slot.1 rfl rfl fun hv => ?_, ho3.fresh.trans ho3.only.view
        (fresh_setInode rfl id Or.inl) (grow_setInode (Int.le_refl _) rfl rfl id), ?_,
      Or.inr ⟨?_, hbad, some c, ⟨[], l, rfl, by simp, hpass1.mp hp⟩, rfl, ?_⟩⟩
    · rw [ht.valid] at hv
      cases hv
    · rw [setInode_self]
      exact ht.d
    · rw [setInode_self]
      exact ht.valid
    · rintro _ ⟨⟩
      refine ⟨j, ?_, ?_⟩
      · unfold Caches
        rw [setInode_ne _ _ hji, setInode_self]
        exact ⟨by rw [hir]; exact hjc.1, hii.trans hjc.2⟩
      · rw [setInode_ne _ _ hji, setInode_self]
        exact hv
  · rw [if_neg (by decide)]
    refine hnext _ ho2 hc2 (fun hp' => hp (hpass1.mpr hp')) ?_
    rcases hE with hE | hE
    · exact Or.inl hE
    · refine Or.inr ⟨?_, ?_⟩
      · intro x hx
        by_cases hxj : x = j
        · rw [hxj, setInode_self]
          exact hb
        · rw [setInode_ne _ _ hxj, hgot.other hxj]
          exact hE.1 x hx
      · rw [freeSlots_setInode hir]
        have := hgot.freeSlots
        have := hE.2
        omega

/-- The labels `zc_verify` and `zc_failure`: the dittos are tried one after the other. -/
theorem zcVerify_wp (left : Nat) : ∀ (replica : Nat) (s : State),
    replica + left = 2 → Trying sb D n ip s → (Escape E ∨ Unheld ip left s) →
    wp (zcVerify (fun r => ilockExt (depth + 1) r true) ip left replica)
      (VerifyPost sb D n ip ((D n).tries replica) s) E s := by
  induction left with
  | zero =>
    intro replica s hrep h _
    obtain rfl : replica = 2 := by omega
    unfold zcVerify
    refine wp_ok_bind (inode_apply _ _) ?_
    refine wp_ok_bind h.checksum ?_
    have hchk : (s.icache ip).d.checksum = (D n).checksum := by
      rw [← h.d]
      rfl
    rw [hchk]
    exact wp_ite (fun hg => h.success hg _) fun hb => h.give_up hb
  | succ left ih =>
    intro replica s hrep h hE
    have hchk : (s.icache ip).d.checksum = (D n).checksum := by
      rw [← h.d]
      rfl
    have hrinum : (if replica = 0 then (s.icache ip).d.child1.toNat
        else (s.icache ip).d.child2.toNat) = (D n).child (decide (replica ≠ 0)) := by
      rw [← h.d]
      unfold Dinode.child Dinode.core
      by_cases h0 : replica = 0
      · rw [if_pos h0, if_neg (by simp [h0])]
      · rw [if_neg h0, if_pos (by simp [h0])]
    rw [tries_step _ (by omega)]
    unfold zcVerify
    refine wp_ok_bind (inode_apply _ _) ?_
    refine wp_ok_bind h.checksum ?_
    rw [hchk, hrinum, h.live.1]
    refine wp_ite (fun hg => h.success hg _) fun hb => ?_
    refine wp_ite (fun h0 => ?_) fun h0 => ?_
    · rw [if_pos h0]
      exact h.give_up hb
    · rw [if_neg h0]
      obtain ⟨hlive, hnone, hne⟩ := h.ditto h0
      refine h.try_ditto hb hlive hnone hne (h.tab _ h0) hE ?_
      intro s1 ho hc hp hE1
      exact (ih (replica + 1) s1 (by omega) (ho.trying h hc) hE1).post fun r s' h' =>
        h'.after ho hp

end Trying

/-- What `ilock` of the slot of inode `n` did. -/
structure LockPost (sb : Superblock) (D : Nat → Dinode) (n : Nat) (ip : Fin 100)
    (s : State) (r : Int) (s' : State) : Prop where
  only : CacheOnly s s'
  grow : Grow s s'
  cache : Cache sb D s'.icache
  fresh : Fresh D s s'
  d : (s'.icache ip).d.core = D n
  result : (r = 0 ∧ (s'.icache ip).valid = true ∧
      ((s.icache ip).valid = true ∨ Good (s.view 1) D n)) ∨
    ((s.icache ip).valid = false ∧ (s'.icache ip).valid = false ∧ ¬ Good (s.view 1) D n ∧
      ∃ o, First (Passes s D) ((D n).tries 0) o ∧ r = verdict o ∧
        ∀ c, o = some c → ∃ j, Caches s'.icache j c ∧ (s'.icache j).valid = true)

section Lock

variable {n : Nat} {ip : Fin 100}

theorem opened_self : (s.opened ip).icache ip = { s.icache ip with
    busy := true
    d := (s.view (s.icache ip).dev (IBLOCK (s.icache ip).inum)).dinode
      ((s.icache ip).inum % 8) } :=
  setInode_self ..

/-- The slot locked and loaded holds the inode's entry of the table. -/
theorem opened_core (hdev : (s.icache ip).dev = 1) (hip : (s.icache ip).inum = n)
    (htab : table (s.view 1) n = D n) : ((s.opened ip).icache ip).d.core = D n := by
  rw [opened_self, hdev, hip, ← htab]
  rfl

theorem ilock_wp (hfs : Fs sb (s.view 1) D) (hc : Cache sb D s.icache)
    (hip : Caches s.icache ip n) (htab : (s.icache ip).valid = false → table (s.view 1) n = D n)
    (hditto : ∀ i, (D n).child i ≠ 0 → table (s.view 1) ((D n).child i) = D ((D n).child i))
    (hE : Escape E ∨ (∀ x, (s.icache x).busy = false) ∧ 2 ≤ (freeSlots s).card) :
    wp (ilock ip) (LockPost sb D n ip s) E s := by
  obtain ⟨hdev, hlive⟩ := hc.slot ip hip.1
  rw [hip.2] at hlive
  refine ilockExt_wp hip.1 ?_ ?_ ?_
  · intro hb
    rcases hE with hE | hE
    · exact hE
    · rw [hE.1 ip] at hb
      cases hb
  · intro _ hv
    have hd := hc.load ip hip.1 hv
    refine ⟨rfl, grow_setInode (Int.le_refl _) rfl rfl id, hc.set hip.1 rfl rfl fun _ => hd,
      fresh_setInode rfl id Or.inl, ?_, Or.inl ⟨rfl, ?_, Or.inl hv⟩⟩
    · rw [setInode_self, ← hip.2]
      exact hd
    · rw [setInode_self]
      exact hv
  · intro _ hv
    have hd := opened_core hdev hip.2 (htab hv)
    have hgrow : Grow s (s.opened ip) := grow_setInode (Int.le_refl _) rfl rfl id
    have hfresh : Fresh D s (s.opened ip) := fresh_setInode rfl id Or.inl
    have hview : (s.opened ip).view = s.view := rfl
    have hvo : ((s.opened ip).icache ip).valid = false := by
      rw [opened_self]
      exact hv
    have hcache : Cache sb D (s.opened ip).icache := by
      refine hc.set hip.1 rfl rfl fun h => ?_
      rw [hv] at h
      cases h
    have ht : Trying sb D n ip (s.opened ip) :=
      ⟨hfs, hcache, hgrow.caches hip, by rw [opened_self], hvo, hd, hditto⟩
    have hE' : Escape E ∨ Unheld ip 2 (s.opened ip) := by
      rcases hE with hE | hE
      · exact Or.inl hE
      · refine Or.inr ⟨fun x hx => ?_, ?_⟩
        · unfold State.opened
          rw [setInode_ne s _ hx]
          exact hE.1 x
        · have hfree : freeSlots (s.opened ip) = freeSlots s := freeSlots_setInode rfl
          rw [hfree]
          exact hE.2
    rw [if_pos rfl]
    refine (zcVerify_wp 2 0 (s.opened ip) rfl ht hE').post fun r s' h => ?_
    refine ⟨h.only, hgrow.trans h.grow, h.cache, hfresh.trans hview h.fresh h.grow, h.d, ?_⟩
    rcases h.result with ⟨hr, hv', hg⟩ | ⟨hv', hb, o, ho, hr, hj⟩
    · exact Or.inl ⟨hr, hv', Or.inr hg⟩
    · have hp : Passes (s.opened ip) D = Passes s D :=
        funext fun k => propext (passes_congr hview hgrow hfresh k)
      rw [hp] at ho
      exact Or.inr ⟨hv, hv', hb, o, ho, hr, hj⟩

/-- A valid slot is locked at once. -/
theorem ilock_valid (href : 0 < (s.icache ip).ref) (hb : (s.icache ip).busy = false)
    (hv : (s.icache ip).valid = true) :
    ilock ip s = .ok 0 (s.setInode ip { s.icache ip with busy := true }) := by
  have hwp : wp (ilockExt (100 + 1) ip true) (fun r s' => r = 0 ∧
      s' = s.setInode ip { s.icache ip with busy := true }) (fun _ _ => False) s := by
    refine ilockExt_wp href ?_ (fun _ _ => ⟨rfl, rfl⟩) ?_
    · intro h
      rw [hb] at h
      cases h
    · intro _ h
      rw [hv] at h
      cases h
  obtain ⟨_, _, hrun, rfl, rfl⟩ := hwp.returns
  exact hrun

/-- What `ilock_ext(ip, 0)` did: the slot is locked and valid, checked or not. -/
def ForcePost (D : Nat → Dinode) (n : Nat) (ip : Fin 100) (s : State) (r : Int) (s' : State) :
    Prop :=
  r = 0 ∧ (s.icache ip).busy = false ∧ ∃ i : Inode, s' = s.setInode ip i ∧
    i.ref = (s.icache ip).ref ∧ i.dev = (s.icache ip).dev ∧ i.inum = (s.icache ip).inum ∧
    i.busy = true ∧ i.valid = true ∧ i.d.core = D n ∧ ((s.icache ip).valid = true →
      i.d = (s.icache ip).d)

theorem ilock_ext_false_wp (hc : Cache sb D s.icache) (hip : Caches s.icache ip n)
    (htab : (s.icache ip).valid = false → table (s.view 1) n = D n)
    (hE : (s.icache ip).busy = true → Escape E) :
    wp (ilock_ext ip false) (ForcePost D n ip s) E s := by
  obtain ⟨hdev, hlive⟩ := hc.slot ip hip.1
  rw [hip.2] at hlive
  refine ilockExt_wp hip.1 hE ?_ ?_
  · intro hb hv
    have hd := hc.load ip hip.1 hv
    rw [hip.2] at hd
    exact ⟨rfl, hb, _, rfl, rfl, rfl, rfl, rfl, hv, hd, fun _ => rfl⟩
  · intro hb hv
    have hd := opened_core hdev hip.2 (htab hv)
    rw [if_neg Bool.false_ne_true]
    refine zcSuccess_wp ?_ ⟨rfl, hb, _, setInode_setInode .., ?_⟩
    · have := hlive.2.2
      rw [← hd] at this
      exact this
    · rw [opened_self] at hd ⊢
      refine ⟨rfl, rfl, rfl, rfl, rfl, hd, ?_⟩
      intro h
      rw [hv] at h
      cases h

end Lock

end Verify

end Zv6
