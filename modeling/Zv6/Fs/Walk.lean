/-
  The walk of `namex` along a path.

  `target` says where a walk ends: at the inode of the last element, or one level early with the
  last element left over. `Trip e l s0 s` is what a walk that started in `s0` has done to the
  inode cache on its way: `e` counts the references it holds, `l` is the inode it has locked, and
  nothing else in use has changed. On an undamaged volume whose directories are in order (`Tree`)
  the loop of `namex` ends at its target and holds one reference to it, or none
  (`namexLoop_wp`). It stops on the way only where an inode is locked already or the inode cache
  is full, and not at all if nothing is locked and two slots are free (`Calm`).
-/
import Zv6.Fs.DirMap

namespace Zv6

open Lib

/-! ## Where a walk ends -/

/-- The inode of `name` in directory `k`. -/
def child (V : Nat → Block) (D : Nat → Dinode) (k : Nat) (name : Name) : Option Nat :=
  if (D k).type = T_DIR then (lookup (contents V (D k)) name).map Prod.fst else none

/-- Where the loop of `namex` ends from inode `k`, with the last element if it stops early. -/
def target (V : Nat → Block) (D : Nat → Dinode) (parent : Bool) : Nat → List Name →
    Option (Nat × Name)
  | k, [] => if parent then none else some (k, [])
  | k, name :: rest =>
    if (D k).type = T_DIR then
      if parent = true ∧ rest = [] then some (k, name)
      else (child V D k name).bind fun k' => target V D parent k' rest
    else none

/-- A name that is not the last one wanted is looked up. -/
theorem target_cons {V : Nat → Block} {D : Nat → Dinode} {parent : Bool} {rest : List Name}
    (h : ¬ (parent = true ∧ rest = [])) (k : Nat) (name : Name) :
    target V D parent k (name :: rest) =
      (child V D k name).bind fun k' => target V D parent k' rest := by
  conv => lhs; unfold target
  by_cases ht : (D k).type = T_DIR
  · rw [if_pos ht, if_neg h]
  · have hno : child V D k name = none := if_neg ht
    rw [if_neg ht, hno]
    rfl

theorem target_false (V : Nat → Block) (D : Nat → Dinode) (names : List Name) : ∀ k,
    target V D false k names = (names.foldlM (child V D) k).map fun k' => (k', []) := by
  induction names with
  | nil => intro k; rfl
  | cons name rest ih =>
    intro k
    rw [List.foldlM_cons, target_cons (by simp)]
    cases child V D k name with
    | none => rfl
    | some k' => exact ih k'

theorem target_true (V : Nat → Block) (D : Nat → Dinode) (last : Name) (names : List Name) : ∀ k,
    target V D true k (names ++ [last]) = ((names.foldlM (child V D) k).filter
      fun k' => (D k').type = T_DIR).map fun k' => (k', last) := by
  induction names with
  | nil =>
    intro k
    have hstop : true = true ∧ ([] : List Name) = [] := ⟨rfl, rfl⟩
    have hnil : ([] : List Name).foldlM (child V D) k = some k := rfl
    show (if (D k).type = T_DIR then if _ then _ else _ else none) = _
    rw [if_pos hstop, hnil, Option.filter_some]
    by_cases ht : (D k).type = T_DIR
    · rw [if_pos ht, if_pos (decide_eq_true ht)]
      rfl
    · rw [if_neg ht, if_neg (by simpa using ht)]
      rfl
  | cons name rest ih =>
    intro k
    rw [List.cons_append, List.foldlM_cons, target_cons (by simp)]
    cases child V D k name with
    | none => rfl
    | some k' => exact ih k'

/-! ## Directories in order -/

/-- There is a root, and the entries of every directory are of allocated inodes that have links,
    or of itself. -/
structure Tree (sb : Superblock) (V : Nat → Block) (D : Nat → Dinode) (N : Nat → UInt16) :
    Prop where
  root : Live sb D 1 ∧ (D 1).type = T_DIR ∧ N 1 ≠ 0
  whole : ∀ k, Live sb D k → (D k).type = T_DIR → (D k).size.toNat % 16 = 0
  entry : ∀ k, Live sb D k → (D k).type = T_DIR → ∀ i < dirCount (contents V (D k)),
    (entryAt (contents V (D k)) i).inum ≠ 0 →
      Live sb D (entryAt (contents V (D k)) i).inum.toNat ∧
      (D (entryAt (contents V (D k)) i).inum.toNat).type ≠ T_DITTO ∧
      (N (entryAt (contents V (D k)) i).inum.toNat ≠ 0 ∨
        (entryAt (contents V (D k)) i).inum.toNat = k)

section Tree

variable {sb : Superblock} {V : Nat → Block} {D : Nat → Dinode} {N : Nat → UInt16} {k k' off : Nat}
  {name : Name}

theorem Tree.child (h : Tree sb V D N) (hk : Live sb D k) (ht : (D k).type = T_DIR)
    (hl : lookup (contents V (D k)) name = some (k', off)) :
    Live sb D k' ∧ (D k').type ≠ T_DITTO ∧ (N k' ≠ 0 ∨ k' = k) := by
  obtain ⟨i, hf, -, rfl⟩ := lookup_some hl
  obtain ⟨hi, hsome⟩ := findName_some hf
  refine h.entry k hk ht i hi fun h0 => hsome ?_
  unfold dirSlot
  exact if_pos h0

end Tree

/-! ## What a walk does to the inode cache -/

/-- `e` counts the references held since `s0`, `l` is the inode locked since; what was in use is
    as it was, or loaded. -/
structure Trip (e : Fin 100 → Nat) (l : Option (Fin 100)) (s0 s : State) : Prop where
  only : s = { s0 with icache := s.icache }
  ref : ∀ j, (s.icache j).ref = (s0.icache j).ref + e j
  lock : ∀ j, l = some j → (s.icache j).busy = true
  busy : Referred s0 → ∀ j, l ≠ some j → (s.icache j).busy = (s0.icache j).busy
  slot : ∀ j, 0 < (s0.icache j).ref → (s.icache j).dev = (s0.icache j).dev ∧
    (s.icache j).inum = (s0.icache j).inum ∧
    ((s0.icache j).valid = true → (s.icache j).valid = true ∧ (s.icache j).d = (s0.icache j).d)

/-- One more reference to slot `ip`. -/
def more (ip : Fin 100) (e : Fin 100 → Nat) (j : Fin 100) : Nat := if j = ip then e j + 1 else e j

/-- One reference to slot `ip`, none to others. -/
def one (ip : Fin 100) : Fin 100 → Nat := more ip fun _ => 0

theorem more_self (ip : Fin 100) (e : Fin 100 → Nat) : more ip e ip = e ip + 1 := if_pos rfl

theorem more_ne {ip j : Fin 100} (e : Fin 100 → Nat) (h : j ≠ ip) : more ip e j = e j := if_neg h

theorem more_comm (i j : Fin 100) (e : Fin 100 → Nat) : more i (more j e) = more j (more i e) := by
  funext x
  unfold more
  split <;> split <;> rfl

section Trip

variable {e : Fin 100 → Nat} {l : Option (Fin 100)} {s0 s s' : State} {ip j : Fin 100} {k : Nat}

theorem Trip.refl (s : State) : Trip (fun _ => 0) none s s :=
  ⟨rfl, fun _ => (Int.add_zero _).symm, fun _ h => (nomatch h), fun _ _ _ => rfl,
    fun _ _ => ⟨rfl, rfl, fun hv => ⟨hv, rfl⟩⟩⟩

theorem Trip.view (h : Trip e l s0 s) : s.view = s0.view := by
  rw [h.only]
  rfl

/-- A slot changes its references, its lock or its load. -/
theorem Trip.set {e' : Fin 100 → Nat} {l' : Option (Fin 100)} (h : Trip e l s0 s) {i : Inode}
    (hr : i.ref = (s0.icache ip).ref + e' ip) (he : ∀ j, j ≠ ip → e' j = e j)
    (hlock : l' = some ip → i.busy = true)
    (hbusy : Referred s0 → l' ≠ some ip → i.busy = (s0.icache ip).busy)
    (hl : ∀ j, j ≠ ip → (l' = some j ↔ l = some j))
    (hslot : 0 < (s0.icache ip).ref → i.dev = (s.icache ip).dev ∧ i.inum = (s.icache ip).inum ∧
      ((s.icache ip).valid = true → i.valid = true ∧ i.d = (s.icache ip).d)) :
    Trip e' l' s0 (s.setInode ip i) := by
  refine ⟨?_, fun j => ?_, fun j hj => ?_, fun hr0 j hj => ?_, fun j hj => ?_⟩
  · unfold State.setInode
    rw [h.only]
  all_goals by_cases ej : j = ip
  · subst ej
    rw [setInode_self]
    exact hr
  · rw [setInode_ne s i ej, h.ref j, he j ej]
  · subst ej
    rw [setInode_self]
    exact hlock hj
  · rw [setInode_ne s i ej]
    exact h.lock j ((hl j ej).mp hj)
  · subst ej
    rw [setInode_self]
    exact hbusy hr0 hj
  · rw [setInode_ne s i ej]
    exact h.busy hr0 j fun hc => hj ((hl j ej).mpr hc)
  · subst ej
    rw [setInode_self]
    obtain ⟨h1, h2, h3⟩ := h.slot j hj
    obtain ⟨g1, g2, g3⟩ := hslot hj
    refine ⟨g1.trans h1, g2.trans h2, fun hv => ?_⟩
    exact ⟨(g3 (h3 hv).1).1, (g3 (h3 hv).1).2.trans (h3 hv).2⟩
  · rw [setInode_ne s i ej]
    exact h.slot j hj

/-- A reference is taken; the slot of a locked inode is not a free one. -/
theorem Trip.got (h : Trip e l s0 s) (hl : ∀ i, l = some i → 0 < (s.icache i).ref)
    (hg : Got k s j s') : Trip (more j e) l s0 s' := by
  have href := h.ref j
  have hother : ∀ x, x ≠ j → more j e x = e x := fun x hx => more_ne e hx
  rcases hg with ⟨hj, rfl⟩ | ⟨-, hz, rfl⟩
  · refine h.set ?_ hother (h.lock j) (fun hr => h.busy hr j) (fun _ _ => Iff.rfl)
      fun _ => ⟨rfl, rfl, fun hv => ⟨hv, rfl⟩⟩
    rw [more_self]
    show (s.icache j).ref + 1 = _
    push_cast
    omega
  · refine h.set ?_ hother (fun hlj => ?_) (fun hr _ => ?_)
      (fun _ _ => Iff.rfl) fun hpos => by omega
    · rw [more_self]
      show (1 : Int) = _
      push_cast
      omega
    · have := hl j hlj
      omega
    · -- a slot without references was not locked
      by_contra hb
      have := hr j (by simpa using Ne.symm hb)
      omega

theorem Trip.locked (h : Trip e none s0 s) (ip : Fin 100) : Trip e (some ip) s0 (s.locked ip) := by
  obtain ⟨hr, hdev, hi, hb, hv⟩ := Inode.locked_meta (s.icache ip) (s.view 1)
  refine h.set (hr.trans (h.ref ip)) (fun _ _ => rfl) (fun _ => hb) (fun _ hne => absurd rfl hne) ?_
    fun _ => ⟨hdev, hi, fun hval => ⟨hv, ?_⟩⟩
  · intro j hj
    simp [Ne.symm hj]
  · unfold Inode.locked
    rw [if_pos hval]

theorem Trip.unlocked (h : Trip e (some ip) s0 s)
    (hb : Referred s0 → (s0.icache ip).busy = false) :
    Trip e none s0 (s.setInode ip { s.icache ip with busy := false }) := by
  refine h.set (h.ref ip) (fun _ _ => rfl) (fun hl => nomatch hl) (fun hr _ => (hb hr).symm) ?_
    fun _ => ⟨rfl, rfl, fun hv => ⟨hv, rfl⟩⟩
  intro j hj
  simp [Ne.symm hj]

theorem Trip.put (h : Trip (more ip e) l s0 s) :
    Trip e l s0 (s.setInode ip { s.icache ip with ref := (s.icache ip).ref - 1 }) := by
  have href := h.ref ip
  rw [more_self] at href
  refine h.set ?_ (fun j hj => (more_ne e hj).symm) (h.lock ip) (fun hr => h.busy hr ip)
    (fun _ _ => Iff.rfl) fun _ => ⟨rfl, rfl, fun hv => ⟨hv, rfl⟩⟩
  show (s.icache ip).ref - 1 = _
  push_cast at href
  omega

theorem Trip.nonneg (h : Trip (one ip) l s0 s) (hpos : 0 < (s.icache ip).ref) :
    0 ≤ (s0.icache ip).ref := by
  have := h.ref ip
  rw [one, more_self] at this
  push_cast at this
  omega

/-- Of two free slots one stays free. -/
theorem Trip.free (h : Trip (one ip) l s0 s) (h2 : 2 ≤ (freeSlots s0).card) :
    (freeSlots s).Nonempty := by
  obtain ⟨j, hj, hne⟩ := Finset.exists_mem_ne h2 ip
  refine ⟨j, ?_⟩
  unfold freeSlots at hj ⊢
  rw [Finset.mem_filter] at hj ⊢
  have hj0 : one ip j = 0 := more_ne _ hne
  refine ⟨hj.1, ?_⟩
  rw [h.ref j, hj.2, hj0]
  rfl

end Trip

/-! ## The steps of a walk -/

/-- A run may sleep for an inode, or find the inode cache full. -/
def MayWait (E : Stop Chan → State → Prop) : Prop :=
  ∀ s, E (.panic "iget: no inodes") s ∧ ∀ j, E (.blocked (.inode j)) s

/-- Nothing is locked, and two slots are free. -/
def Calm (s : State) : Prop := (∀ j, (s.icache j).busy = false) ∧ 2 ≤ (freeSlots s).card

theorem Calm.referred {s : State} (h : Calm s) : Referred s := by
  intro j hb
  rw [h.1 j] at hb
  cases hb

/-- Inode `k` of slot `ip` is not freed when a reference is dropped: it has a slot since before, or
    a link. -/
structure Stays (D : Nat → Dinode) (N : Nat → UInt16) (s0 : State) (ip : Fin 100) (k : Nat) :
    Prop where
  type : (D k).type ≠ T_DITTO
  kept : 0 < (s0.icache ip).ref ∨ N k ≠ 0

section Steps

variable {E : Stop Chan → State → Prop} {sb : Superblock} {L : Set Nat} {D : Nat → Dinode}
  {N : Nat → UInt16} {e : Fin 100 → Nat} {l : Option (Fin 100)} {s0 s s' : State} {ip j : Fin 100}
  {k n : Nat} {name : Name}

theorem walkLock_wp (hE : MayWait E ∨ Calm s0) (hv : Vol sb L D N ∅ ∅ s)
    (hs : Sound sb ∅ (s.view 1) D) (ht : Trip e none s0 s) (hip : Caches s.icache ip k)
    (trans : Bool) :
    wp (walkLock trans ip) (fun r s' => r = 0 ∧ (Referred s0 → (s0.icache ip).busy = false) ∧
      Trip e (some ip) s0 s' ∧ Vol sb L D N ∅ ∅ s' ∧ Loaded s' ip k) E s := by
  have hwait : (s.icache ip).busy = true → E (.blocked (.inode ip)) s := by
    intro hb
    rcases hE with hE | hE
    · exact (hE s).2 ip
    · rw [ht.busy hE.referred ip (by simp), hE.1 ip] at hb
      cases hb
  have hlive := (hv.live hip).2
  have hlock : wp (ilock ip) (fun r s' => r = 0 ∧ (s.icache ip).busy = false ∧ s' = s.locked ip)
      E s := by
    by_cases hb : (s.icache ip).busy = true
    · exact ilock_ext_busy hip.1 hb (hwait hb) true
    · refine (hv.ilock_ext hwait hip true fun _ => ?_).post fun r s' h =>
        ⟨h.1, by simpa using hb, h.2⟩
      exact ⟨hs.mapped k hlive (by simp), hs.dev k hlive, hs.good k hlive (by simp)⟩
  have hboth : wp (if trans then ilock_trans ip else ilock ip : K Int)
      (fun r s' => r = 0 ∧ (s.icache ip).busy = false ∧ s' = s.locked ip) E s := by
    refine wp_ite (fun _ => ?_) fun _ => hlock
    unfold ilock_trans
    refine wp.bind hlock ?_
    rintro r s' ⟨rfl, hb, rfl⟩
    exact ⟨rfl, hb, rfl⟩
  unfold walkLock
  refine hboth.post ?_
  rintro r s' ⟨rfl, hb, rfl⟩
  obtain ⟨hv', hl'⟩ := hv.locked hip
  refine ⟨rfl, fun hr => ?_, ht.locked ip, hv', hl'⟩
  rw [← ht.busy hr ip (by simp), hb]

/-- The walk goes on to the entry it has found, or ends. -/
theorem dirlookup_step (hE : MayWait E ∨ Calm s0) (hv : Vol sb L D N ∅ ∅ s)
    (hs : Sound sb ∅ (s.view 1) D) (htree : Tree sb (s.view 1) D N)
    (ht : Trip (one ip) (some ip) s0 s) (hip : Loaded s ip k) (hd : (D k).type = T_DIR) :
    wp (dirlookup ip name) (fun r s' => match child (s.view 1) D k name with
      | none => r = none ∧ s' = s
      | some k' => ∃ j off, r = some (j, off) ∧ Trip (more j (one ip)) (some ip) s0 s' ∧
          Vol sb L D N ∅ ∅ s' ∧ Loaded s' ip k ∧ Caches s'.icache j k' ∧
          (D k').type ≠ T_DITTO ∧ (N k' ≠ 0 ∨ k' = k)) E s := by
  have hlive := (hv.live hip.1).2
  have hdir := hv.dirAt hip hd (hs.mapped k hlive (by simp)) (by
    rw [length_contents]
    exact htree.whole k hlive hd)
  have hchild : child (s.view 1) D k name =
      (lookup (contents (s.view 1) (D k)) name).map Prod.fst := if_pos hd
  rw [hchild]
  have hrun := hdir.dirlookup name
  cases hl : lookup (contents (s.view 1) (D k)) name with
  | none =>
    rw [hl] at hrun
    exact (wp_of_ok hrun).mpr ⟨rfl, rfl⟩
  | some r =>
    obtain ⟨k', off⟩ := r
    rw [hl] at hrun
    have hrun : dirlookup ip name s =
        (do let ip ← iget 1 k'; pure (some (ip, off)) : K (Option (Fin 100 × Nat))) s := hrun
    rw [wp_congr hrun]
    obtain ⟨hlive', htype, hN⟩ := htree.child hlive hd hl
    refine wp.bind ((iget_dev_wp (fun x hx => (hv.slot x hx).1) k').mono (fun _ _ h => h) ?_) ?_
    · rintro c s' ⟨rfl, hfull, -⟩
      rcases hE with hE | hE
      · exact (hE s').1
      · have := ht.free hE.2
        rw [hfull] at this
        exact absurd this Finset.not_nonempty_empty
    · intro j s' hg
      refine ⟨j, off, rfl, ht.got ?_ hg, hv.got hg hlive', ?_, hg.caches, htype, hN⟩
      · intro i hi
        cases hi
        exact hip.1.1
      · exact ⟨hg.grow.caches hip.1, (hg.grow.slot ip hip.1.1).2.2.2 hip.2⟩

/-- A reference is dropped. -/
theorem iput_step (ht : Trip (more ip e) l s0 s) (hv : Vol sb L D N ∅ ∅ s)
    (hip : Caches s.icache ip k) (hk : Stays D N s0 ip k) :
    ∃ s', iput ip s = .ok () s' ∧ Trip e l s0 s' ∧ Vol sb L D N ∅ ∅ s' ∧
      ∀ j, (s'.icache j).inum = (s.icache j).inum := by
  have hstay : ¬ ((s.icache ip).ref = 1 ∧ (s.icache ip).valid = true ∧
      (s.icache ip).d.nlink = 0) := by
    rintro ⟨h1, hval, h0⟩
    rcases hk.kept with hpos | hN
    · have := ht.ref ip
      rw [more_self] at this
      omega
    · exact hN (((hv.has ⟨hip, hval⟩ (by simp)).2 hk.type).symm.trans h0)
  refine ⟨_, iput_keep hstay, ht.put, hv.drop hip (by simp), fun j => ?_⟩
  by_cases ej : j = ip
  · subst ej
    rw [setInode_self]
  · rw [setInode_ne _ _ ej]

theorem iunlock_step (ht : Trip e (some ip) s0 s) (hv : Vol sb L D N ∅ ∅ s)
    (hip : Caches s.icache ip k) (hb : Referred s0 → (s0.icache ip).busy = false) :
    ∃ s', iunlock ip s = .ok () s' ∧ Trip e none s0 s' ∧ Vol sb L D N ∅ ∅ s' ∧
      ∀ j n, Caches s.icache j n → Caches s'.icache j n := by
  exact ⟨_, iunlock_apply (ht.lock ip rfl) hip.1, ht.unlocked hb, hv.keep hip hip.1 rfl rfl rfl rfl,
    fun j n hj => hj.set rfl hip.1 rfl⟩

/-- The walk leaves slot `ip`. -/
theorem iunlockput_step (ht : Trip (more ip e) (some ip) s0 s) (hv : Vol sb L D N ∅ ∅ s)
    (hip : Caches s.icache ip k) (hk : Stays D N s0 ip k)
    (hb : Referred s0 → (s0.icache ip).busy = false) :
    ∃ s', iunlockput ip s = .ok () s' ∧ Trip e none s0 s' ∧ Vol sb L D N ∅ ∅ s' ∧
      ∀ j n, Caches s.icache j n → 0 < (s'.icache j).ref → Caches s'.icache j n := by
  obtain ⟨s1, hrun1, ht1, hv1, hc1⟩ := iunlock_step ht hv hip hb
  obtain ⟨s2, hrun2, ht2, hv2, hi2⟩ := iput_step ht1 hv1 (hc1 ip k hip) hk
  refine ⟨s2, ?_, ht2, hv2, fun j n hj hpos => ⟨hpos, (hi2 j).trans (hc1 j n hj).2⟩⟩
  unfold iunlockput
  rw [Exec.bind_ok hrun1, hrun2]

/-- The walk leaves slot `ip` for the one it has found. -/
theorem leave_step (ht : Trip (more j (one ip)) (some ip) s0 s) (hv : Vol sb L D N ∅ ∅ s)
    (hip : Caches s.icache ip k) (hk : Stays D N s0 ip k)
    (hb : Referred s0 → (s0.icache ip).busy = false) (h0 : 0 ≤ (s0.icache ip).ref)
    (hj : Caches s.icache j n) (htype : (D n).type ≠ T_DITTO) (hN : N n ≠ 0 ∨ n = k) :
    ∃ s', iunlockput ip s = .ok () s' ∧ Trip (one j) none s0 s' ∧ Vol sb L D N ∅ ∅ s' ∧
      Caches s'.icache j n ∧ Stays D N s0 j n := by
  have ht' : Trip (more ip (one j)) (some ip) s0 s := by
    unfold one
    rw [more_comm]
    exact ht
  obtain ⟨s', hrun, ht1, hv1, hc1⟩ := iunlockput_step ht' hv hip hk hb
  have hpos : 0 < (s'.icache j).ref := by
    have h1 := ht1.ref j
    by_cases ej : j = ip
    · subst ej
      rw [one, more_self] at h1
      push_cast at h1
      omega
    · have h2 := ht'.ref j
      rw [more_ne _ ej] at h2
      have := hj.1
      omega
  refine ⟨s', hrun, ht1, hv1, hc1 j n hj hpos, htype, ?_⟩
  rcases hN with hN | rfl
  · exact Or.inr hN
  · rw [hv.uniq j ip n hj hip]
    exact hk.kept

end Steps

/-! ## The loop of `namex` -/

/-- What a walk with this target returns: one reference to its inode, or nothing. -/
def Arrives (sb : Superblock) (L : Set Nat) (D : Nat → Dinode) (N : Nat → UInt16) (s0 : State) :
    Option (Nat × Name) → Option (Fin 100) × Name → State → Prop
  | none, r, s => r.1 = none ∧ Trip (fun _ => 0) none s0 s ∧ Vol sb L D N ∅ ∅ s
  | some (k, name), r, s => ∃ ip, r = (some ip, name) ∧ Caches s.icache ip k ∧
      Stays D N s0 ip k ∧ Trip (one ip) none s0 s ∧ Vol sb L D N ∅ ∅ s

section Loop

variable {E : Stop Chan → State → Prop} {sb : Superblock} {L : Set Nat} {D : Nat → Dinode}
  {N : Nat → UInt16} {s0 : State}

theorem namexLoop_wp (hE : MayWait E ∨ Calm s0) (hs : Sound sb ∅ (s0.view 1) D)
    (htree : Tree sb (s0.view 1) D N) (parent trans : Bool) (names : List Name) :
    ∀ (ip : Fin 100) (k : Nat) (s : State), Trip (one ip) none s0 s → Vol sb L D N ∅ ∅ s →
      Caches s.icache ip k → Stays D N s0 ip k →
      wp (namexLoop parent trans ip names)
        (Arrives sb L D N s0 (target (s0.view 1) D parent k names)) E s := by
  induction names with
  | nil =>
    intro ip k s ht hv hip hk
    unfold namexLoop target
    cases parent with
    | false => exact ⟨ip, rfl, hip, hk, ht, hv⟩
    | true =>
      obtain ⟨s1, hrun, ht1, hv1, -⟩ := iput_step ht hv hip hk
      exact wp_ok_bind hrun ⟨rfl, ht1, hv1⟩
  | cons name rest ih =>
    intro ip k s ht hv hip hk
    have hview := ht.view
    unfold namexLoop target
    refine wp.bind (walkLock_wp hE hv (by rw [hview]; exact hs) ht hip trans) ?_
    rintro r s1 ⟨rfl, hb, ht1, hv1, hl1⟩
    have hview1 := ht1.view
    have hcore := (hv1.has hl1 (by simp)).1
    have htype : (s1.icache ip).d.type = (D k).type := by
      rw [← hcore]
      rfl
    refine wp_ite (fun h => absurd rfl h) fun _ => ?_
    refine wp_ok_bind (inode_apply ip s1) ?_
    rw [htype]
    -- the walk ends here
    have hleave : ∀ r : Option (Fin 100) × Name, r.1 = none →
        wp (do iunlockput ip; pure r : K _) (Arrives sb L D N s0 none) E s1 := by
      intro r hr0
      obtain ⟨s2, hrun, ht2, hv2, -⟩ := iunlockput_step ht1 hv1 hl1.1 hk hb
      exact wp_ok_bind hrun ⟨hr0, ht2, hv2⟩
    by_cases hd : (D k).type = T_DIR
    · rw [if_neg (fun h => h hd), if_pos hd]
      by_cases hstop : parent = true ∧ rest = []
      · rw [if_pos hstop, if_pos hstop]
        obtain ⟨s2, hrun, ht2, hv2, hc2⟩ := iunlock_step ht1 hv1 hl1.1 hb
        exact wp_ok_bind hrun ⟨ip, rfl, hc2 ip k hl1.1, hk, ht2, hv2⟩
      · rw [if_neg hstop, if_neg hstop]
        refine wp.bind (dirlookup_step hE hv1 (by rw [hview1]; exact hs)
          (by rw [hview1]; exact htree) ht1 hl1 hd) ?_
        intro r s2 h2
        rw [hview1] at h2
        cases hch : child (s0.view 1) D k name with
        | none =>
          rw [hch] at h2
          obtain ⟨rfl, rfl⟩ := h2
          exact hleave _ rfl
        | some k' =>
          rw [hch] at h2
          obtain ⟨j, off, rfl, ht2, hv2, hl2, hj, htype', hN⟩ := h2
          obtain ⟨s3, hrun, ht3, hv3, hc3, hk3⟩ :=
            leave_step ht2 hv2 hl2.1 hk hb (ht.nonneg hip.1) hj htype' hN
          exact wp_ok_bind hrun (ih j k' s3 ht3 hv3 hc3 hk3)
    · rw [if_pos hd, if_neg hd]
      exact hleave _ rfl

end Loop

end Zv6
