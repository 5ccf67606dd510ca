/-
  Storing an inode and its dittos (`cupdate`, `iupdate_ext`).

  `Stores l s s'` says that the dinodes of `l` were logged one after the other. `Pins K s s'` is
  what the file system code does to the inode cache besides changing dinodes: slots of inodes in
  `K` get references that are never dropped, all others keep theirs. `Able E K s` says that the
  dittos `K` can be taken and locked, or that a run may stop where they cannot.

  `iupdate_wp`: the inode gets the checksum of its contents, its dittos its size and checksum,
  and all of them are stored.
-/
import Zv6.Fs.Vol

namespace Zv6

open Lib Function

/-- The dinodes of the inodes `l` were logged. The log had room for the last of them. -/
structure Stores (sb : Superblock) (l : List Nat) (s s' : State) : Prop where
  busy : s'.log.busy = true
  free : freeList sb (s'.view 1) = freeList sb (s.view 1)
  room : l ≠ [] → (secs s ∪ (l.dropLast.map IBLOCK).toFinset).card < min 20 (sb.nlog - 1)
  secs : secs s' = secs s ∪ (l.map IBLOCK).toFinset

/-- References are added to slots of inodes in `K`, and no others. -/
structure Pins (K : Set Nat) (s s' : State) : Prop where
  outside : Outside s s'
  ref : ∀ j, (s.icache j).ref ≤ (s'.icache j).ref
  slot : ∀ j, 0 < (s.icache j).ref → (s'.icache j).inum = (s.icache j).inum ∧
    ((s.icache j).valid = true → (s'.icache j).valid = true)
  exact : ∀ j, 0 < (s'.icache j).ref → (s'.icache j).inum ∉ K →
    (s'.icache j).ref = (s.icache j).ref

/-- A dinode with the size and the checksum of `d`. -/
def Dinode.stamped (c d : Dinode) : Dinode := { c with size := d.size, checksum := d.checksum }

/-- The table in which the inodes in `M` have the size and the checksum of `d`. -/
noncomputable def stamp (M : Set Nat) (d : Dinode) (D : Nat → Dinode) : Nat → Dinode :=
  open Classical in fun k => if k ∈ M then (D k).stamped d else D k

/-- The first or second ditto of the inode with dinode `d`, if there is one. -/
def Dinode.kid (d : Dinode) (i : Bool) : Set Nat := { c | d.child i ≠ 0 ∧ d.child i = c }

/-- The same as a list. -/
def Dinode.kidList (d : Dinode) (i : Bool) : List Nat := if d.child i = 0 then [] else [d.child i]

/-- The dittos of the inode with dinode `d`. -/
def Dinode.kids (d : Dinode) : Set Nat := d.kid true ∪ d.kid false

/-- The children inode `n` has by its dinode `d` are dittos of others than itself. -/
def Kids (sb : Superblock) (D : Nat → Dinode) (n : Nat) (d : Dinode) : Prop :=
  ∀ c, c ∈ d.kids → Live sb D c ∧ (D c).type = T_DITTO ∧ c ≠ n

section Pins

variable {K K' : Set Nat} {s s' s'' : State} {ip j : Fin 100} {n k : Nat}

theorem Pins.refl (K : Set Nat) (s : State) : Pins K s s :=
  ⟨rfl, fun _ => Int.le_refl _, fun _ _ => ⟨rfl, id⟩, fun _ _ _ => rfl⟩

theorem Pins.mono (h : Pins K s s') (hK : K ⊆ K') : Pins K' s s' :=
  ⟨h.outside, h.ref, h.slot, fun j hr hj => h.exact j hr fun hm => hj (hK hm)⟩

theorem Pins.trans (h : Pins K s s') (h' : Pins K s' s'') : Pins K s s'' := by
  refine ⟨h.outside.trans h'.outside, fun j => (h.ref j).trans (h'.ref j), ?_, ?_⟩
  · intro j hj
    have h1 := h.ref j
    obtain ⟨hi, hv⟩ := h.slot j hj
    obtain ⟨hi', hv'⟩ := h'.slot j (by omega)
    exact ⟨hi'.trans hi, fun hval => hv' (hv hval)⟩
  · intro j hr hj
    have h2 := h'.exact j hr hj
    rw [h2] at hr ⊢
    rw [(h'.slot j hr).1] at hj
    exact h.exact j hr hj

theorem Pins.caches (h : Pins K s s') (hj : Caches s.icache j k) : Caches s'.icache j k := by
  have h1 := h.ref j
  have h2 := hj.1
  exact ⟨by omega, (h.slot j hj.1).1.trans hj.2⟩

theorem Pins.loaded (h : Pins K s s') (hj : Loaded s j k) : Loaded s' j k :=
  ⟨h.caches hj.1, (h.slot j hj.1.1).2 hj.2⟩

/-- A slot that keeps its inode and its references. -/
theorem pins_setInode {i : Inode} (hr : i.ref = (s.icache j).ref)
    (hi : i.inum = (s.icache j).inum) (hv : (s.icache j).valid = true → i.valid = true) :
    Pins ∅ s (s.setInode j i) := by
  have hall : ∀ x, ((s.setInode j i).icache x).ref = (s.icache x).ref ∧
      ((s.setInode j i).icache x).inum = (s.icache x).inum ∧
      ((s.icache x).valid = true → ((s.setInode j i).icache x).valid = true) := by
    intro x
    by_cases e : x = j
    · subst e
      rw [setInode_self]
      exact ⟨hr, hi, hv⟩
    · rw [setInode_ne s i e]
      exact ⟨rfl, rfl, id⟩
  exact ⟨rfl, fun x => (hall x).1.ge, fun x _ => (hall x).2, fun x _ _ => (hall x).1⟩

theorem DiskOnly.pins (h : DiskOnly s s') (K : Set Nat) : Pins K s s' := by
  have hi := h.icache
  refine ⟨h.outside, ?_, ?_, ?_⟩
  · intro j
    rw [hi]
  · intro j _
    rw [hi]
    exact ⟨rfl, id⟩
  · intro j _ _
    rw [hi]

theorem Got.pins (h : Got k s j s') : Pins {k} s s' := by
  refine ⟨?_, ?_, ?_, ?_⟩
  · rw [h.cacheOnly]
    rfl
  · intro x
    by_cases e : x = j
    · subst e
      rcases h with ⟨_, rfl⟩ | ⟨_, h0, rfl⟩
      · rw [setInode_self]
        show _ ≤ _ + 1
        omega
      · rw [setInode_self, h0]
        exact Int.zero_le_ofNat 1
    · rw [h.other e]
  · intro x hx
    have := h.grow.slot x hx
    exact ⟨this.2.2.1, this.2.2.2⟩
  · intro x _ hne
    by_cases e : x = j
    · subst e
      exact absurd h.caches.2 hne
    · rw [h.other e]

/-- Slots not in use stay so. -/
theorem Pins.freeSlots (h : Pins ∅ s s') : freeSlots s ⊆ freeSlots s' := by
  intro j hj
  unfold Zv6.freeSlots at hj ⊢
  rw [Finset.mem_filter] at hj ⊢
  refine ⟨hj.1, ?_⟩
  have h1 := h.ref j
  by_contra hne
  exact hne ((h.exact j (by omega) (Set.notMem_empty _)).trans hj.2)

end Pins

/-! ## Taking and locking dittos -/

/-- The dittos `K` can be taken and locked: free slots are left for those without one, and none
    of them is locked. -/
structure Vacant (K : Set Nat) (s : State) : Prop where
  free : ∃ F : Finset Nat, (∀ k ∈ K, (∃ j, Caches s.icache j k) ∨ k ∈ F) ∧
    F.card ≤ (freeSlots s).card
  lock : ∀ j, (s.icache j).busy = true → 0 < (s.icache j).ref ∧ (s.icache j).inum ∉ K

/-- The dittos `K` can be taken and locked, or the run may stop there. -/
def Able (E : Stop Chan → State → Prop) (K : Set Nat) (s : State) : Prop :=
  Lenient E ∨ Vacant K s

section Able

variable {E : Stop Chan → State → Prop} {sb : Superblock} {L : Set Nat} {D : Nat → Dinode}
  {N : Nat → UInt16} {A Z K : Set Nat} {s s' : State} {j : Fin 100} {k : Nat}

/-- One of the dittos is taken. -/
theorem Vacant.got (h : Vacant K s) (hg : Got k s j s') (hk : k ∈ K) : Vacant K s' := by
  obtain ⟨F, hF, hcard⟩ := h.free
  have hcached : ∀ x, (∃ i, Caches s.icache i x) → ∃ i, Caches s'.icache i x :=
    fun x hx => hx.imp fun i hi => hg.grow.caches hi
  have hlock : ∀ x, x ≠ j → (s'.icache x).busy = true →
      0 < (s'.icache x).ref ∧ (s'.icache x).inum ∉ K := by
    intro x hx hb
    rw [hg.other hx] at hb ⊢
    exact h.lock x hb
  have hfree := hg.freeSlots
  rcases hg with ⟨hj, rfl⟩ | ⟨hno, h0, rfl⟩
  · have hr := hj.1
    refine ⟨⟨F, fun x hx => (hF x hx).imp_left (hcached x), hcard.trans (Finset.card_le_card ?_)⟩,
      fun x hb => ?_⟩
    · intro x hx
      unfold freeSlots at hx ⊢
      rw [Finset.mem_filter] at hx ⊢
      have hxj : x ≠ j := by
        rintro rfl
        omega
      rw [setInode_ne s _ hxj]
      exact hx
    · by_cases e : x = j
      · subst e
        rw [setInode_self] at hb ⊢
        have := h.lock x hb
        exact ⟨by show 0 < _ + 1; omega, this.2⟩
      · exact hlock x e hb
  · have hkF : k ∈ F := (hF k hk).resolve_left fun hc => hc.elim hno
    have hself : ∃ i, Caches (s.setInode j { s.icache j with
        dev := 1, inum := k, ref := 1, busy := false, valid := false }).icache i k :=
      ⟨j, by unfold Caches; rw [setInode_self]; exact ⟨Int.one_pos, rfl⟩⟩
    refine ⟨⟨F.erase k, fun x hx => ?_, ?_⟩, fun x hb => ?_⟩
    · by_cases e : x = k
      · exact Or.inl (e ▸ hself)
      · exact (hF x hx).imp (hcached x) fun hm => Finset.mem_erase.mpr ⟨e, hm⟩
    · rw [Finset.card_erase_of_mem hkF]
      omega
    · by_cases e : x = j
      · subst e
        rw [setInode_self] at hb
        cases hb
      · exact hlock x e hb

/-- Nothing is taken, and nothing stays locked. -/
theorem Vacant.pins (h : Vacant K s) (hp : Pins ∅ s s')
    (hb : ∀ x, (s'.icache x).busy = true → (s.icache x).busy = true) : Vacant K s' := by
  obtain ⟨F, hF, hcard⟩ := h.free
  refine ⟨⟨F, fun x hx => (hF x hx).imp_left fun hc => hc.imp fun i hi => hp.caches hi,
    hcard.trans (Finset.card_le_card hp.freeSlots)⟩, fun x hx => ?_⟩
  obtain ⟨hpos, hK⟩ := h.lock x (hb x hx)
  have := hp.ref x
  exact ⟨by omega, by rw [(hp.slot x hpos).1]; exact hK⟩

theorem Able.pins (h : Able E K s) (hp : Pins ∅ s s')
    (hb : ∀ x, (s'.icache x).busy = true → (s.icache x).busy = true) : Able E K s' :=
  h.imp_right fun hv => hv.pins hp hb

theorem Able.iget (hA : Able E K s) (h : Vol sb L D N A Z s) (hk : k ∈ K) :
    wp (Zv6.iget 1 k) (fun j s' => Got k s j s' ∧ Able E K s') E s := by
  rcases hA with hE | hv
  · exact (h.iget hE k).post fun _ _ hg => ⟨hg, Or.inl hE⟩
  · refine (iget_dev_wp (fun x hx => (h.slot x hx).1) k).mono
      (fun _ _ hg => ⟨hg, Or.inr (hv.got hg hk)⟩) ?_
    rintro c s' ⟨-, hfree, hno⟩
    -- an inode without a slot counts against the free ones
    obtain ⟨F, hF, hcard⟩ := hv.free
    have hkF : k ∈ F := (hF k hk).resolve_left fun hc => hc.elim hno
    rw [hfree, Finset.card_empty, Nat.le_zero, Finset.card_eq_zero] at hcard
    rw [hcard] at hkF
    exact absurd hkF (Finset.notMem_empty k)

/-- A ditto's slot is not found locked. -/
theorem Able.busy (hA : Able E K s) (hc : Caches s.icache j k) (hk : k ∈ K)
    (hb : (s.icache j).busy = true) : E (.blocked (.inode j)) s := by
  rcases hA with hE | hv
  · exact hE.blocked _ s
  · exact absurd hk (hc.2 ▸ (hv.lock j hb).2)

/-- Every locked inode has a reference. -/
def Referred (s : State) : Prop := ∀ j, (s.icache j).busy = true → 0 < (s.icache j).ref

/-- The locks are the same. -/
def SameLocks (s s' : State) : Prop := ∀ j, (s'.icache j).busy = (s.icache j).busy

theorem Vacant.referred (h : Vacant K s) : Referred s := fun j hb => (h.lock j hb).1

theorem Referred.locked (h : Referred s) (hc : Caches s.icache j k) : Referred (s.locked j) := by
  intro x hb
  by_cases e : x = j
  · subst e
    rw [locked_self, (Inode.locked_meta _ _).1]
    exact hc.1
  · rw [locked_ne s e] at hb ⊢
    exact h x hb

/-- Code that gives back what it locks. -/
theorem Neutral.locks {α : Type} {m : Zv6.K α} {Q : α → State → Prop} (hn : Neutral m)
    (h : wp m Q E s) : wp m (fun a s' => Q a s' ∧ (Referred s → SameLocks s s')) E s := by
  by_cases hr : Referred s
  · have hlk : Lk (fun j => (s.icache j).busy) ⟨s.log.busy, s.ftable⟩ s :=
      ⟨fun _ => rfl, fun j hb => hr j hb, rfl, rfl⟩
    exact (h.and (hn _ _ s hlk)).mono (fun _ _ hq => ⟨hq.1, fun _ => hq.2.busy⟩) fun _ _ hs => hs.1
  · exact h.post fun _ _ hq => ⟨hq, fun hr' => absurd hr' hr⟩

/-- The same for code that takes no slot. -/
theorem Able.call {α : Type} {m : Zv6.K α} {Q : α → State → Prop} (hA : Able E K s)
    (hn : Neutral m) (h : wp m Q E s) (hp : ∀ a s', Q a s' → Pins ∅ s s') :
    wp m (fun a s' => Q a s' ∧ Able E K s') E s := by
  refine (hn.locks h).post fun a s' hq => ⟨hq.1, hA.imp_right fun hv => ?_⟩
  exact hv.pins (hp a s' hq.1) fun x hx => (hq.2 hv.referred x).symm.trans hx

end Able

/-! ## Dittos -/

section Kids

variable {D : Nat → Dinode} {M : Set Nat} {d : Dinode} {k c : Nat}

theorem stamp_of_mem (h : k ∈ M) : stamp M d D k = (D k).stamped d := if_pos h

theorem stamp_of_not_mem (h : k ∉ M) : stamp M d D k = D k := if_neg h

@[simp] theorem stamp_empty : stamp ∅ d D = D := funext fun _ => stamp_of_not_mem (by simp)

theorem stamp_type : (stamp M d D k).type = (D k).type := by
  by_cases h : k ∈ M
  · rw [stamp_of_mem h]; rfl
  · rw [stamp_of_not_mem h]

theorem stamp_addrs : (stamp M d D k).addrs = (D k).addrs := by
  by_cases h : k ∈ M
  · rw [stamp_of_mem h]; rfl
  · rw [stamp_of_not_mem h]

theorem live_stamp {sb : Superblock} : Live sb (stamp M d D) k ↔ Live sb D k := by
  unfold Live
  rw [stamp_type]

theorem stamp_stamp (M' : Set Nat) : stamp M' d (stamp M d D) = stamp (M' ∪ M) d D := by
  funext k
  by_cases hk : k ∈ M' <;> by_cases hm : k ∈ M
  · rw [stamp_of_mem hk, stamp_of_mem hm, stamp_of_mem (Or.inl hk)]
    rfl
  · rw [stamp_of_mem hk, stamp_of_not_mem hm, stamp_of_mem (Or.inl hk)]
  · rw [stamp_of_not_mem hk, stamp_of_mem hm, stamp_of_mem (Or.inr hm)]
  · rw [stamp_of_not_mem hk, stamp_of_not_mem hm, stamp_of_not_mem (by simp [hk, hm])]

theorem kids_nil {d : Dinode} (h1 : d.child1 = 0) (h2 : d.child2 = 0) : d.kids = ∅ := by
  ext c
  simp [Dinode.kids, Dinode.kid, Dinode.child, h1, h2]

/-- The children do not depend on the inode itself. -/
theorem Kids.set {sb : Superblock} {D' : Nat → Dinode} {n : Nat} {d' : Dinode}
    (h : Kids sb D n d) (hk : d'.kids = d.kids) (hD : ∀ k, k ≠ n → D' k = D k) :
    Kids sb D' n d' := by
  intro c hc
  rw [hk] at hc
  obtain ⟨hl, ht, hne⟩ := h c hc
  unfold Live
  rw [hD c hne]
  exact ⟨hl, ht, hne⟩

theorem toNat_ne_zero {w : UInt16} : w.toNat ≠ 0 ↔ w ≠ 0 := by
  rw [Ne, Ne, ← UInt16.toNat_inj]
  rfl

theorem sext_of_lt {w : UInt16} (h : w.toNat < 32768) : sext w = w.toNat := if_pos h

end Kids

/-! ## cupdate -/

section Update

variable {E : Stop Chan → State → Prop} {sb : Superblock} {L : Set Nat} {D : Nat → Dinode}
  {N : Nat → UInt16} {A Z K : Set Nat} {B : Finset Nat} {s s' : State} {ip ic : Fin 100} {n c : Nat}
  {d : Dinode} {l : List Nat} {w : UInt16} {s0 : State} {j : Fin 100}

theorem Stores.fits (h : Stores sb l s s') (hf : Fits E sb B s) (hB : ∀ c ∈ l, IBLOCK c ∈ B) :
    Fits E sb B s' := by
  refine hf.step (fun hs => ?_) fun h1 h2 => ⟨h1, h2⟩
  rw [h.secs]
  refine Finset.union_subset hs fun x hx => ?_
  obtain ⟨c, hc, rfl⟩ := List.mem_map.mp (List.mem_toFinset.mp hx)
  exact hB c hc

theorem Stores.nil (hb : s.log.busy = true) : Stores sb [] s s :=
  ⟨hb, rfl, fun h => absurd rfl h, (Finset.union_empty _).symm⟩

theorem Stores.append {s'' : State} {l l' : List Nat} (h : Stores sb l s s')
    (h' : Stores sb l' s' s'') : Stores sb (l ++ l') s s'' := by
  refine ⟨h'.busy, h'.free.trans h.free, fun hne => ?_, ?_⟩
  · by_cases hl' : l' = []
    · subst hl'
      rw [List.append_nil] at hne ⊢
      exact h.room hne
    · have hroom := h'.room hl'
      rw [h.secs, Finset.union_assoc, ← List.toFinset_append, ← List.map_append] at hroom
      rw [List.dropLast_append_of_ne_nil hl']
      exact hroom
  · rw [h'.secs, h.secs, List.map_append, List.toFinset_append, Finset.union_assoc]

theorem Got.secs {k : Nat} (hg : Got k s j s') : Zv6.secs s' = Zv6.secs s := by
  rcases hg with ⟨_, rfl⟩ | ⟨_, _, rfl⟩ <;> rfl

theorem Txn.got {k f : Nat} (h : Txn E sb B f s) (hg : Got k s j s') : Txn E sb B f s' := by
  rcases hg with ⟨_, rfl⟩ | ⟨_, _, rfl⟩
  · exact h.setInode j _
  · exact h.setInode j _

/-- Nothing that is logged depends on the inode cache. -/
theorem Stores.got {k : Nat} (h : Stores sb l s0 s) (hg : Got k s j s') : Stores sb l s0 s' := by
  rcases hg with ⟨_, rfl⟩ | ⟨_, _, rfl⟩
  · exact ⟨h.busy, h.free, h.room, h.secs⟩
  · exact ⟨h.busy, h.free, h.room, h.secs⟩

/-- Fields of the slot of inode `n` were assigned to, and its dinode is stored. -/
theorem Vol.save_wp (h : Vol sb L D N A Z s) (d d' : Dinode) (hb : s.log.busy = true)
    (hf : Fits E sb B s) (hip : Loaded s ip n) (htype : d.type = (D n).type)
    (haddr : d.addrs = (D n).addrs) (hcore : d'.core = d.core)
    (hlink : d.type ≠ T_DITTO → d'.nlink = d.nlink) :
    wp (log_write 1 (IBLOCK n) ((s.view 1 (IBLOCK n)).setDinode (n % 8) d')) (fun _ s' =>
        Vol sb L (setD D n d) (setN N n d) (A \ {n}) Z s' ∧ Stores sb [n] s s' ∧
        DiskOnly (s.setInode ip { s.icache ip with d := d }) s' ∧
        KeepsHeld sb (s.view 1) D (s'.view 1) ∧
        ∀ k, k < sb.ninodes → k ≠ n → onDisk (s'.view 1) k = onDisk (s.view 1) k) E
      (s.setInode ip { s.icache ip with d := d }) := by
  have hlive := (h.live hip.1).2
  have hlt := Nat.lt_of_lt_of_le (IBLOCK_lt hlive.2.1) h.own.area
  have h1 := h.edit hip htype haddr
  have hf1 : Fits E sb B (s.setInode ip { s.icache ip with d := d }) := hf
  have hhas : Has (setD D n d) (setN N n d) n d' := by
    refine ⟨hcore.trans (has_set D N n d).1, fun hT => ?_⟩
    rw [setD_self] at hT
    exact (hlink hT).trans (setN_self N n d).symm
  refine (log_write_wp h1.jrn hlt (.of_busy hb) hf1).post fun _ s' hl => ?_
  obtain ⟨h2, hheld⟩ := h1.store (hip.d).1 hhas hl
  have hA : insert n A \ {n} = A \ {n} := by simp
  rw [hA] at h2
  have hstores : Stores sb [n] s s' := by
    refine ⟨hl.busy, freeList_same h.own.area hl.same (IBLOCK_not_bitmap hlive.2.1),
      fun _ => ?_, ?_⟩
    · rw [List.dropLast_singleton, List.map_nil, List.toFinset_nil, Finset.union_empty]
      exact hl.room
    · rw [hl.secs, Finset.insert_eq, Finset.union_comm]
      rfl
  refine ⟨h2, hstores, hl.only, fun p hp => ?_, hl.onDisk rfl h.own.area⟩
  have hadr : adr sb (s.view 1) (setD D n d) p = adr sb (s.view 1) D p := adr_setD htype haddr p
  have := hheld p (hadr.trans_ne hp)
  rwa [show (s.setInode ip { s.icache ip with d := d }).view = s.view from rfl, hadr] at this

/-- What an update of the dittos `M` from the inode in slot `ip` did. -/
structure KidPost (sb : Superblock) (L : Set Nat) (D : Nat → Dinode) (N : Nat → UInt16)
    (A Z : Set Nat) (ip : Fin 100) (M : Set Nat) (l : List Nat) (s s' : State) : Prop where
  vol : Vol sb L (stamp M (s.icache ip).d D) N (A \ M) Z s'
  stores : Stores sb l s s'
  pins : Pins M s s'
  held : KeepsHeld sb (s.view 1) D (s'.view 1)
  self : s'.icache ip = s.icache ip
  disk : ∀ k, k < sb.ninodes → k ∉ M → onDisk (s'.view 1) k = onDisk (s.view 1) k

theorem cupdate_wp (hE : Able E K s) (hK : c ∈ K) (h : Vol sb L D N A Z s)
    (hb : s.log.busy = true) (hf : Fits E sb B s) (hic : Caches s.icache ic c) (hZ : c ∉ Z)
    (hditto : (D c).type = T_DITTO) (hne : ip ≠ ic) :
    wp (cupdate ip ic) (fun _ s' => KidPost sb L D N A Z ip {c} [c] s s' ∧ Able E K s') E s := by
  obtain ⟨h1, hl1⟩ := h.locked hic
  have hh := h1.has hl1 hZ
  have htype : ((s.locked ic).icache ic).d.type = T_DITTO := by
    rw [← hditto, ← hh.1]
    rfl
  have hf1 : Fits E sb B (s.locked ic) := hf
  unfold cupdate
  refine (h.ilock_ext (hE.busy hic hK) hic false (by simp)).bind ?_
  rintro _ _ ⟨-, rfl⟩
  refine wp_ok_bind (inode_apply _ _) ?_
  refine wp_ite (fun hn => absurd htype hn) fun _ => ?_
  refine wp_ok_bind (inode_apply _ _) ?_
  refine wp_ok_bind (bread_apply _ _ _) ?_
  rw [locked_ne s hne, (h1.live hl1.1).1, hl1.1.2]
  refine wp_ok_bind (updInode_apply _ _ _) ?_
  have hsave := h1.save_wp (((s.locked ic).icache ic).d.stamped (s.icache ip).d)
    { ((s.locked ic).icache ic).d.stamped (s.icache ip).d with nlink := 1 } hb hf1 hl1
    (by rw [← hh.1]; rfl) (by rw [← hh.1]; rfl) rfl (fun hT => absurd htype hT)
  refine hsave.bind ?_
  rintro _ s3 ⟨h3, ⟨hb3, hfree3, hroom3, hsecs3⟩, hd3, hheld, hdisk⟩
  have hic3 : Caches s3.icache ic c := by
    rw [hd3.icache]
    exact (hl1.d).1
  have hN : ∀ k, (setD D c (((s.locked ic).icache ic).d.stamped (s.icache ip).d) k).type ≠ T_DITTO →
      N k = setN N c (((s.locked ic).icache ic).d.stamped (s.icache ip).d) k := by
    intro k hk
    have hkc : k ≠ c := by
      rintro rfl
      rw [setD_self] at hk
      exact hk htype
    rw [setN_of_ne N _ hkc]
  have h3' := h3.links hN
  have hstamp : setD D c (((s.locked ic).icache ic).d.stamped (s.icache ip).d) =
      stamp {c} (s.icache ip).d D := by
    funext k
    by_cases hk : k = c
    · subst hk
      rw [setD_self, stamp_of_mem (Set.mem_singleton k), ← hh.1]
      rfl
    · rw [setD_of_ne D _ hk, stamp_of_not_mem (by simpa using hk)]
  obtain ⟨hr, -, hi, hbusy, hv⟩ := Inode.locked_meta (s.icache ic) (s.view 1)
  have hself3 : (s3.icache ic).busy = true := by
    rw [hd3.icache, setInode_self, locked_self]
    exact hbusy
  refine (h3'.iunlock (fun hb => absurd hself3 (by simp [hb])) hic3).post ?_
  rintro _ _ ⟨rfl, h4⟩
  rw [hstamp] at h4
  have hpins : Pins ∅ s (s3.setInode ic { s3.icache ic with busy := false }) := by
    have p1 : Pins ∅ s (s.locked ic) := pins_setInode hr hi fun _ => hv
    have p2 : Pins ∅ (s.locked ic) ((s.locked ic).setInode ic { (s.locked ic).icache ic with
        d := ((s.locked ic).icache ic).d.stamped (s.icache ip).d }) := pins_setInode rfl rfl id
    have p3 : Pins ∅ s3 (s3.setInode ic { s3.icache ic with busy := false }) :=
      pins_setInode rfl rfl id
    exact ((p1.trans p2).trans (hd3.pins ∅)).trans p3
  have hother : ∀ x, x ≠ ic → s3.icache x = s.icache x := by
    intro x hx
    rw [hd3.icache, setInode_ne _ _ hx, locked_ne s hx]
  refine ⟨⟨h4, ⟨hb3, hfree3, hroom3, hsecs3⟩, hpins.mono (Set.empty_subset _), hheld, ?_, hdisk⟩,
    hE.pins hpins fun x hb => ?_⟩
  · rw [setInode_ne _ _ hne, hother ip hne]
  · by_cases e : x = ic
    · subst e
      rw [setInode_self] at hb
      cases hb
    · rw [setInode_ne _ _ e, hother x e] at hb
      exact hb

/-- One ditto's share of `iupdate_ext`. -/
theorem childUpdate_wp {M : Set Nat} (hE : Able E K s) (hK : c ∈ K)
    (h : KidPost sb L D N A Z ip M l s0 s) (hf : Fits E sb B s) (hip : Caches s0.icache ip n)
    (hnc : c ≠ n) (hZ : c ∉ Z) (hlive : Live sb D c) (hditto : (D c).type = T_DITTO) :
    wp (do let ic ← iget 1 c; cupdate ip ic)
      (fun _ s' => KidPost sb L D N A Z ip ({c} ∪ M) (l ++ [c]) s0 s' ∧ Able E K s') E s := by
  refine (hE.iget h.vol hK).bind ?_
  rintro ic s1 ⟨hg, hE1⟩
  have hne : ip ≠ ic := by
    rintro rfl
    exact hnc (hg.caches.2.symm.trans (hg.pins.caches (h.pins.caches hip)).2)
  have hself : s1.icache ip = s0.icache ip := by rw [hg.other hne, h.self]
  have hst := h.stores.got hg
  have hf1 : Fits E sb B s1 := by
    refine hf.step (fun hs => ?_) fun h1 h2 => ⟨h1, h2⟩
    rwa [hst.secs, ← h.stores.secs]
  refine (cupdate_wp hE1 hK (h.vol.got hg (live_stamp.mpr hlive)) hst.busy hf1 hg.caches hZ
    (by rw [stamp_type]; exact hditto) hne).post ?_
  rintro _ s2 ⟨h2, hE2⟩
  have hvol := h2.vol
  rw [hself, stamp_stamp, Set.sdiff_sdiff, Set.union_comm M] at hvol
  have hv1 : s1.view 1 = s.view 1 := by rw [hg.cacheOnly.view]
  refine ⟨⟨hvol, hst.append h2.stores, ?_, ?_, h2.self.trans hself, fun k hk hM => ?_⟩, hE2⟩
  · exact ((h.pins.mono Set.subset_union_right).trans (hg.pins.mono Set.subset_union_left)).trans
      (h2.pins.mono Set.subset_union_left)
  · intro p hp
    have hadr : adr sb (s.view 1) (stamp M (s0.icache ip).d D) p = adr sb (s0.view 1) D p := by
      rw [← h.held.addr p]
      exact adr_fields stamp_type stamp_addrs
    have := h2.held p (by rw [hv1, hadr]; exact hp)
    rw [hv1, hadr] at this
    rw [this, h.held p hp]
  · rw [h2.disk k hk fun hc => hM (Or.inl hc), hv1, h.disk k hk fun hm => hM (Or.inr hm)]

/-- The share of the first or the second ditto, if there is one. -/
theorem kidUpdate_wp {M : Set Nat} {i : Bool} (hE : Able E d.kids s)
    (h : KidPost sb L D N A Z ip M l s0 s) (hip : Caches s0.icache ip n)
    (hf : d.kidList i ≠ [] → Fits E sb B s) (hd : Kids sb D n d) (hZ : ∀ c ∈ d.kids, c ∉ Z)
    (hw : d.child i = w.toNat) (hi : d.kid i ⊆ d.kids) :
    wp (Exec.when (w ≠ 0) do let ic ← iget 1 (sext w); cupdate ip ic)
      (fun _ s' => KidPost sb L D N A Z ip (d.kid i ∪ M) (l ++ d.kidList i) s0 s' ∧
        Able E d.kids s') E s := by
  refine wp_when (fun h0 => ?_) fun h0 => ?_
  · have h0' := toNat_ne_zero.mpr h0
    have hself : d.kid i = {w.toNat} := by
      ext c
      simp [Dinode.kid, hw, h0', eq_comm]
    have hm : w.toNat ∈ d.kids := hi (by rw [hself]; rfl)
    obtain ⟨hlive, hditto, hne⟩ := hd _ hm
    have := h.vol.own.ninodes
    have := hlive.2.1
    have hlist : d.kidList i = [w.toNat] := by
      unfold Dinode.kidList
      rw [hw, if_neg h0']
    rw [hlist] at hf ⊢
    rw [hself, sext_of_lt (by omega)]
    exact childUpdate_wp hE hm h (hf (by simp)) hip hne (hZ _ hm) hlive hditto
  · rw [not_not] at h0
    have hself : d.kid i = ∅ := by
      ext c
      simp [Dinode.kid, hw, h0]
    have hlist : d.kidList i = [] := by
      unfold Dinode.kidList
      rw [hw, h0]
      rfl
    rw [hself, hlist, Set.empty_union, List.append_nil]
    exact ⟨h, hE⟩

/-- The dittos of the inode in slot `ip` get its size and checksum. -/
theorem kidsUpdate_wp (hE : Able E d.kids s) (h : Vol sb L D N A Z s) (hb : s.log.busy = true)
    (hf : d.kidList false ++ d.kidList true ≠ [] → Fits E sb B s)
    (hB : d.kidList true ≠ [] → ∀ c ∈ d.kidList false, IBLOCK c ∈ B) (hip : Caches s.icache ip n)
    (hd : Kids sb D n d) (hZ : ∀ c ∈ d.kids, c ∉ Z) : wp (do
      Exec.when (d.child1 ≠ 0) do
        let c1 ← iget 1 (sext d.child1)
        cupdate ip c1
      Exec.when (d.child2 ≠ 0) do
        let c2 ← iget 1 (sext d.child2)
        cupdate ip c2)
      (fun _ s' => KidPost sb L D N A Z ip d.kids (d.kidList false ++ d.kidList true) s s' ∧
        Able E d.kids s') E s := by
  have h0 : KidPost sb L D N A Z ip ∅ [] s s := by
    refine ⟨?_, Stores.nil hb, Pins.refl _ _, fun _ _ => rfl, rfl, fun _ _ _ => rfl⟩
    rw [stamp_empty, Set.sdiff_empty]
    exact h
  refine (kidUpdate_wp hE h0 hip (fun hne => hf (by simp [hne])) hd hZ (i := false) rfl
    Set.subset_union_right).bind ?_
  rintro _ s1 ⟨h1, hE1⟩
  rw [Set.union_empty, List.nil_append] at h1
  exact kidUpdate_wp hE1 h1 hip (fun hne => h1.stores.fits (hf (by simp [hne])) (hB hne)) hd hZ
    (i := true) rfl Set.subset_union_left

/-! ## iupdate -/

/-- The tables after `iupdate` of inode `n`, whose dinode is `d` by then. -/
noncomputable def stored (D : Nat → Dinode) (n : Nat) (d : Dinode) : Nat → Dinode :=
  stamp d.kids d (update D n d)

theorem stored_self (h : n ∉ d.kids) : stored D n d n = d := by
  unfold stored
  rw [stamp_of_not_mem h, update_self]

theorem stored_kid (h : n ∉ d.kids) (hc : c ∈ d.kids) : stored D n d c = (D c).stamped d := by
  unfold stored
  rw [stamp_of_mem hc, update_of_ne]
  rintro rfl
  exact h hc

theorem stored_other {k : Nat} (hn : k ≠ n) (hk : k ∉ d.kids) : stored D n d k = D k := by
  unfold stored
  rw [stamp_of_not_mem hk, update_of_ne hn]

/-- A dinode with the checksum of its contents. -/
def Dinode.summed (d : Dinode) (V : Nat → Block) : Dinode :=
  d.withSum (checksumOf (contents V d))

/-- An inode and its dittos, in the order in which they are written. -/
def Dinode.members (d : Dinode) (n : Nat) : List Nat := n :: (d.kidList false ++ d.kidList true)

structure StorePost (sb : Superblock) (L : Set Nat) (D : Nat → Dinode) (N : Nat → UInt16)
    (A Z : Set Nat) (n : Nat) (s s' : State) : Prop where
  vol : Vol sb L (stored D n ((D n).summed (s.view 1))) N (A \ insert n (D n).kids) Z s'
  stores : Stores sb ((D n).members n) s s'
  pins : Pins (D n).kids s s'
  held : KeepsHeld sb (s.view 1) D (s'.view 1)

theorem iupdate_wp (hE : Able E (D n).kids s) (h : Vol sb L D N A Z s)
    (hb : s.log.busy = true) (hf : Fits E sb B s)
    (hB : ∀ c ∈ ((D n).members n).dropLast, IBLOCK c ∈ B) (hip : Loaded s ip n)
    (hm : Mapped (s.view 1) (D n)) (hdev : (D n).type = T_DEV → (D n).size = 0)
    (hd : Kids sb D n (D n)) (hZ : ∀ c ∈ insert n (D n).kids, c ∉ Z) :
    wp (iupdate ip) (fun _ s' => StorePost sb L D N A Z n s s' ∧ Able E (D n).kids s') E s := by
  have hnZ := hZ n (Set.mem_insert n _)
  have hh := h.has hip hnZ
  obtain ⟨hdev1, hlive⟩ := h.live hip.1
  have hsum := ichecksum_table hm hdev hdev1 hh.1
  have hset : ∀ w, updInode ip (fun i => { i with d := { i.d with checksum := w } }) s =
      .ok () (s.setInode ip ((s.icache ip).summed w)) := fun _ => rfl
  have hcore : ∀ w, ((s.icache ip).d.withSum w).core = (D n).withSum w := by
    intro w
    rw [← hh.1]
    rfl
  unfold iupdate iupdate_ext
  refine wp_ok_bind (inode_apply _ _) ?_
  refine wp_ok_bind (bread_apply _ _ _) ?_
  refine wp_ok_bind hsum ?_
  refine wp_ok_bind (hset _) ?_
  refine wp_ok_bind (inode_apply _ _) ?_
  generalize hw : checksumOf (contents (s.view 1) (D n)) = w
  have hi1 : ((s.icache ip).summed w).dev = 1 := hdev1
  have hi2 : ((s.icache ip).summed w).inum = n := hip.1.2
  rw [setInode_self, hi1, hi2, hdev1, hip.1.2]
  refine (h.save_wp ((s.icache ip).d.withSum w) ((s.icache ip).d.withSum w) hb hf hip
    (by rw [← hh.1]; rfl) (by rw [← hh.1]; rfl) rfl fun _ => rfl).bind ?_
  rintro _ s1 ⟨h1, hst1, hd1, hheld1, -⟩
  have hslot : s1.icache ip = (s.icache ip).summed w := by
    rw [hd1.icache, setInode_self]
    rfl
  have hkids : ((s.icache ip).summed w).d.kids = (D n).kids := by
    rw [← hh.1]
    rfl
  have hpins : Pins ∅ s s1 :=
    (pins_setInode rfl rfl id : Pins ∅ s (s.setInode ip ((s.icache ip).summed w))).trans
      (hd1.pins ∅)
  have hN : ∀ k, (setD D n ((s.icache ip).d.withSum w) k).type ≠ T_DITTO →
      N k = setN N n ((s.icache ip).d.withSum w) k := by
    intro k hk
    by_cases e : k = n
    · subst e
      rw [setD_self, hcore] at hk
      rw [setN_self]
      exact (hh.2 hk).symm
    · rw [setN_of_ne N _ e]
  have h1' := h1.links hN
  have hd1' : Kids sb (setD D n ((s.icache ip).d.withSum w)) n ((s.icache ip).summed w).d :=
    hd.set hkids fun _ hk => setD_of_ne D _ hk
  have hE1 : Able E ((s.icache ip).summed w).d.kids s1 := by
    rw [hkids]
    refine hE.pins hpins fun x hb => ?_
    by_cases e : x = ip
    · subst e
      rw [hslot] at hb
      exact hb
    · rwa [hd1.icache, setInode_ne _ _ e] at hb
  refine wp_when (fun _ => ?_) fun hne => absurd rfl hne
  -- a ditto is stored next: this was not the last dinode
  have hlist : ∀ i, ((s.icache ip).summed w).d.kidList i = (D n).kidList i := by
    intro i
    rw [← hh.1]
    cases i <;> rfl
  have hkidB : ∀ l' l, (D n).members n = n :: (l' ++ l) → l ≠ [] →
      ∀ c ∈ n :: l', IBLOCK c ∈ B := by
    intro l' l he hne c hc
    refine hB c ?_
    rw [he, ← List.cons_append, List.dropLast_append_of_ne_nil hne]
    exact List.mem_append_left _ hc
  refine (kidsUpdate_wp (B := B) hE1 h1' hst1.busy (fun hne => ?_) (fun hne c hc => ?_)
    (hpins.caches hip.1) hd1' fun c hc => ?_).post ?_
  · rw [hlist, hlist] at hne
    exact hst1.fits hf (hkidB [] _ rfl hne)
  · rw [hlist] at hne hc
    exact hkidB _ _ rfl hne c (List.mem_cons_of_mem n hc)
  · exact hZ c (Set.mem_insert_of_mem n (hkids ▸ hc))
  rintro _ s2 ⟨h2, hE2⟩
  rw [hkids] at hE2
  have hvol := h2.vol
  rw [hslot, hkids, Set.sdiff_sdiff, Set.singleton_union] at hvol
  have hstored : stored D n ((D n).summed (s.view 1)) =
      stamp (D n).kids ((s.icache ip).summed w).d (setD D n ((s.icache ip).d.withSum w)) := by
    unfold stored Dinode.summed setD
    rw [hw, hcore]
    show stamp (D n).kids ((D n).withSum w) _ = _
    rw [← hcore]
    rfl
  have hst2 := h2.stores
  rw [hlist, hlist] at hst2
  refine ⟨⟨by rw [hstored]; exact hvol, hst1.append hst2, ?_, ?_⟩, hE2⟩
  · have := h2.pins
    rw [hkids] at this
    exact (hpins.mono (Set.empty_subset _)).trans this
  · intro p hp
    have hadr : adr sb (s1.view 1) (setD D n ((s.icache ip).d.withSum w)) p =
        adr sb (s.view 1) D p := by
      rw [adr_setD (by rw [← hh.1]; rfl) (by rw [← hh.1]; rfl), hheld1.addr]
    have := h2.held p (by rw [hadr]; exact hp)
    rw [hadr] at this
    rw [this, hheld1 p hp]

end Update

end Zv6
