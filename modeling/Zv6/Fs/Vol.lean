/-
  The volume a running kernel holds.

  `Vol sb L D N A Z s`: the sectors of `s`, seen through the buffer cache, hold their blocks in
  order (`Own`); the valid slots of the inode cache hold the dinodes `D` and the link counts
  `N`, and so does the disk. Inodes in `A` are ahead of the disk, and slots of inodes in `Z` hold
  anything. Link counts of dittos are not followed: `cupdate` stores 1 on disk and leaves the
  slot alone.

  The lemmas say what the elementary steps do to it: taking, locking and dropping a slot
  (`Vol.got`, `Vol.locked`, `Vol.drop`), and changing one inode (`Vol.update`): giving it blocks,
  assigning to fields of its slot, storing its dinode.
-/
import Zv6.Fs.Verify
import Zv6.Fs.Writer

namespace Zv6

open Lib Function

/-- The dinode on disk. -/
def onDisk (V : Nat → Block) (k : Nat) : Dinode := (V (IBLOCK k)).dinode (k % 8)

/-- `d` is what the tables have for inode `k`. -/
def Has (D : Nat → Dinode) (N : Nat → UInt16) (k : Nat) (d : Dinode) : Prop :=
  d.core = D k ∧ ((D k).type ≠ T_DITTO → d.nlink = N k)

/-- Slot `ip` is in use for inode `n` and valid. -/
def Loaded (s : State) (ip : Fin 100) (n : Nat) : Prop :=
  Caches s.icache ip n ∧ (s.icache ip).valid = true

structure Vol (sb : Superblock) (L : Set Nat) (D : Nat → Dinode) (N : Nat → UInt16)
    (A Z : Set Nat) (s : State) : Prop where
  jrn : Jrn sb s
  own : Own sb L (s.view 1) D
  uniq : ∀ i j k, Caches s.icache i k → Caches s.icache j k → i = j
  slot : ∀ j, 0 < (s.icache j).ref → (s.icache j).dev = 1 ∧ Live sb D (s.icache j).inum
  load : ∀ j, 0 < (s.icache j).ref → (s.icache j).valid = true → (s.icache j).inum ∉ Z →
    Has D N (s.icache j).inum (s.icache j).d
  disk : ∀ k, k < sb.ninodes → k ∉ A → Has D N k (onDisk (s.view 1) k)
  ahead : ∀ k, k ∈ A → ∃ j, Loaded s j k

/-- The panics of a broken file system, and the one of a full log. -/
def fatal : List String :=
  ["write outside of trans", "freeing free block", "ilock: no type", "too big a transaction"]

/-- A run may stop anyhow but with one of these panics. -/
def Lenient (E : Stop Chan → State → Prop) : Prop :=
  ∀ c s, (∀ e ∈ fatal, c ≠ .panic e) → E c s

theorem Lenient.blocked {E : Stop Chan → State → Prop} (h : Lenient E) (c : Chan) (s : State) :
    E (.blocked c) s := h _ s (by simp)

theorem Lenient.panic {E : Stop Chan → State → Prop} (h : Lenient E) {e : String} (he : e ∉ fatal)
    (s : State) : E (.panic e) s :=
  h _ s fun e' hm h' => he (by cases h'; exact hm)

theorem Lenient.iunlock {E : Stop Chan → State → Prop} (h : Lenient E) (s : State) :
    E (.panic "iunlock") s := h.panic (by simp [fatal]) s

section Vol

variable {E : Stop Chan → State → Prop} {sb : Superblock} {L L' : Set Nat} {D D' : Nat → Dinode}
  {N N' : Nat → UInt16} {A A' Z Z' : Set Nat} {s s' : State} {ip j : Fin 100} {n k : Nat}

theorem Has.congr {d : Dinode} (h : Has D N k d) (hD : D' k = D k) (hN : N' k = N k) :
    Has D' N' k d := by
  unfold Has
  rw [hD, hN]
  exact h

namespace Vol

/-- Only disk, buffers, log and inode cache count. -/
theorem congr (h : Vol sb L D N A Z s) (hd : s'.disk = s.disk) (hb : s'.dirty = s.dirty)
    (hl : s'.log = s.log) (hi : s'.icache = s.icache) : Vol sb L D N A Z s' := by
  have hv : s'.view = s.view := by
    funext v c
    unfold State.view
    rw [hd, hb]
  refine ⟨h.jrn.congr hd hb hl, ?_, ?_, ?_, ?_, ?_, ?_⟩
  · rw [hv]; exact h.own
  · rw [hi]; exact h.uniq
  · rw [hi]; exact h.slot
  · rw [hi]; exact h.load
  · rw [hv]; exact h.disk
  · unfold Loaded; rw [hi]; exact h.ahead

theorem live (h : Vol sb L D N A Z s) (hip : Caches s.icache ip n) :
    (s.icache ip).dev = 1 ∧ Live sb D n := by
  have := h.slot ip hip.1
  rwa [hip.2] at this

theorem has (h : Vol sb L D N A Z s) (hip : Loaded s ip n) (hZ : n ∉ Z) :
    Has D N n (s.icache ip).d := by
  have := h.load ip hip.1.1 hip.2
  rw [hip.1.2] at this
  exact this hZ

theorem holding (h : Vol sb L D N A Z s) (hip : Loaded s ip n) (hZ : n ∉ Z) :
    Holding sb D n ip s :=
  ⟨(h.live hip.1).1, (h.has hip hZ).1, (h.live hip.1).2⟩

/-- The disk has what a slot that is not valid will load. -/
theorem synced (h : Vol sb L D N A Z s) (hip : Caches s.icache ip n)
    (hv : (s.icache ip).valid = false) : n ∉ A := by
  intro hA
  obtain ⟨j, hj, hjv⟩ := h.ahead n hA
  rw [h.uniq j ip n hj hip, hv] at hjv
  cases hjv

end Vol

theorem Caches.set {i : Inode} {c : Fin 100 → Inode} (hc : c = (s.setInode ip i).icache)
    (hr : 0 < i.ref) (hi : i.inum = (s.icache ip).inum) (hj : Caches s.icache j k) :
    Caches c j k := by
  unfold Caches at hj ⊢
  rw [hc]
  by_cases e : j = ip
  · subst e
    rw [setInode_self]
    exact ⟨hr, hi.trans hj.2⟩
  · rw [setInode_ne s i e]
    exact hj

/-- Inode `n` and its slot change: its dinode, its link count, its sector on disk. -/
theorem Vol.update (h : Vol sb L D N A Z s) {i : Inode} (hip : Caches s.icache ip n)
    (hc : s'.icache = (s.setInode ip i).icache) (hr : 0 < i.ref)
    (hdev : i.dev = (s.icache ip).dev) (hi : i.inum = (s.icache ip).inum)
    (hjrn : Jrn sb s') (hown : Own sb L' (s'.view 1) D')
    (hD : ∀ k, k ≠ n → D' k = D k ∧ N' k = N k) (hlive : (D' n).type ≠ 0)
    (hA : ∀ k, k ≠ n → (k ∈ A' ↔ k ∈ A)) (hZ : ∀ k, k ≠ n → (k ∈ Z' ↔ k ∈ Z))
    (hvalid : n ∈ A' → i.valid = true) (hself : i.valid = true → n ∉ Z' → Has D' N' n i.d)
    (hdisk : ∀ k, k < sb.ninodes → k ≠ n → onDisk (s'.view 1) k = onDisk (s.view 1) k)
    (hn : n ∉ A' → Has D' N' n (onDisk (s'.view 1) n)) : Vol sb L' D' N' A' Z' s' := by
  have hslot : s'.icache ip = i := by rw [hc, setInode_self]
  have hother : ∀ j, j ≠ ip → s'.icache j = s.icache j := by
    intro j hj
    rw [hc, setInode_ne s i hj]
  -- no other slot is for inode `n`
  have hne : ∀ j, j ≠ ip → 0 < (s.icache j).ref → (s.icache j).inum ≠ n :=
    fun j hj hr he => hj (h.uniq j ip n ⟨hr, he⟩ hip)
  have hback : ∀ x k, Caches s'.icache x k → Caches s.icache x k := by
    intro x k hx
    unfold Caches at hx ⊢
    by_cases e : x = ip
    · subst e
      rw [hslot, hi] at hx
      exact ⟨hip.1, hx.2⟩
    · rwa [hother x e] at hx
  have hlive' : ∀ k, Live sb D k → Live sb D' k := by
    intro k hk
    by_cases e : k = n
    · subst e
      exact ⟨hk.1, hk.2.1, hlive⟩
    · unfold Live
      rw [(hD k e).1]
      exact hk
  refine ⟨hjrn, hown, ?_, ?_, ?_, ?_, ?_⟩
  · intro x y k hx hy
    exact h.uniq x y k (hback x k hx) (hback y k hy)
  · intro x hx
    by_cases e : x = ip
    · subst e
      rw [hslot, hdev, hi]
      exact ⟨(h.slot x hip.1).1, hlive' _ (h.slot x hip.1).2⟩
    · rw [hother x e] at hx ⊢
      exact ⟨(h.slot x hx).1, hlive' _ (h.slot x hx).2⟩
  · intro x hx hv hxZ
    by_cases e : x = ip
    · subst e
      rw [hslot] at hv hxZ ⊢
      rw [hi, hip.2] at hxZ ⊢
      exact hself hv hxZ
    · rw [hother x e] at hx hv hxZ ⊢
      have hk := hne x e hx
      exact (h.load x hx hv fun hm => hxZ ((hZ _ hk).mpr hm)).congr (hD _ hk).1 (hD _ hk).2
  · intro k hk hkA
    by_cases e : k = n
    · subst e
      exact hn hkA
    · rw [hdisk k hk e]
      exact (h.disk k hk fun hm => hkA ((hA k e).mpr hm)).congr (hD k e).1 (hD k e).2
  · intro k hk
    by_cases e : k = n
    · subst e
      exact ⟨ip, hip.set hc hr hi, by rw [hslot]; exact hvalid hk⟩
    · obtain ⟨x, hx, hxv⟩ := h.ahead k ((hA k e).mp hk)
      refine ⟨x, hx.set hc hr hi, ?_⟩
      rw [hother x]
      · exact hxv
      · rintro rfl
        exact e (hx.2.symm.trans hip.2)

/-- A slot changes that stays in use for its inode and holds the same dinode, if it is valid. -/
theorem Vol.set (h : Vol sb L D N A Z s) {i : Inode} (hip : Caches s.icache ip n) (hr : 0 < i.ref)
    (hdev : i.dev = (s.icache ip).dev) (hi : i.inum = (s.icache ip).inum)
    (hv : (s.icache ip).valid = true → i.valid = true)
    (hd : i.valid = true → n ∉ Z → Has D N n i.d) : Vol sb L D N A Z (s.setInode ip i) := by
  refine h.update hip rfl hr hdev hi (h.jrn.setInode ip i) h.own (fun _ _ => ⟨rfl, rfl⟩)
    (h.live hip).2.2.2 (fun _ _ => Iff.rfl) (fun _ _ => Iff.rfl) ?_ hd (fun _ _ _ => rfl)
    (h.disk n (h.live hip).2.2.1)
  intro hA
  obtain ⟨x, hx, hxv⟩ := h.ahead n hA
  rw [h.uniq x ip n hx hip] at hxv
  exact hv hxv

/-- A valid slot keeps its dinode. -/
theorem Vol.keep (h : Vol sb L D N A Z s) {i : Inode} (hip : Caches s.icache ip n) (hr : 0 < i.ref)
    (hdev : i.dev = (s.icache ip).dev) (hi : i.inum = (s.icache ip).inum)
    (hv : i.valid = (s.icache ip).valid) (hd : i.d = (s.icache ip).d) :
    Vol sb L D N A Z (s.setInode ip i) := by
  refine h.set hip hr hdev hi (fun e => hv.trans e) fun e hZ => ?_
  rw [hd]
  exact h.has ⟨hip, hv.symm.trans e⟩ hZ

/-- A slot that is not in use changes and stays so, or is taken for an inode that has none. -/
theorem Vol.refill (h : Vol sb L D N A Z s) {i : Inode}
    (hfree : ∀ k, Caches s.icache ip k → (∀ j, j ≠ ip → ¬ Caches s.icache j k) → k ∉ A)
    (hi : 0 < i.ref → i.dev = 1 ∧ Live sb D i.inum ∧ i.valid = false ∧
      ∀ j, j ≠ ip → ¬ Caches s.icache j i.inum) : Vol sb L D N A Z (s.setInode ip i) := by
  have hback : ∀ x k, x ≠ ip → Caches (s.setInode ip i).icache x k → Caches s.icache x k := by
    intro x k hx hc
    unfold Caches at hc ⊢
    rwa [setInode_ne s i hx] at hc
  have hself : ∀ k, Caches (s.setInode ip i).icache ip k → 0 < i.ref ∧ i.inum = k := by
    intro k hc
    unfold Caches at hc
    rwa [setInode_self] at hc
  refine ⟨h.jrn.setInode ip i, h.own, ?_, ?_, ?_, h.disk, ?_⟩
  · intro x y k hx hy
    by_cases ex : x = ip <;> by_cases ey : y = ip
    · rw [ex, ey]
    · subst ex
      obtain ⟨hr, rfl⟩ := hself k hx
      exact absurd (hback y _ ey hy) ((hi hr).2.2.2 y ey)
    · subst ey
      obtain ⟨hr, rfl⟩ := hself k hy
      exact absurd (hback x _ ex hx) ((hi hr).2.2.2 x ex)
    · exact h.uniq x y k (hback x k ex hx) (hback y k ey hy)
  · intro x hx
    by_cases e : x = ip
    · subst e
      rw [setInode_self] at hx ⊢
      exact ⟨(hi hx).1, (hi hx).2.1⟩
    · rw [setInode_ne s i e] at hx ⊢
      exact h.slot x hx
  · intro x hx hv
    by_cases e : x = ip
    · subst e
      rw [setInode_self] at hx hv
      rw [(hi hx).2.2.1] at hv
      cases hv
    · rw [setInode_ne s i e] at hx hv ⊢
      exact h.load x hx hv
  · intro k hk
    obtain ⟨x, hx, hxv⟩ := h.ahead k hk
    by_cases e : x = ip
    · subst e
      exact absurd hk (hfree k hx fun j hj hc => hj (h.uniq j x k hc hx))
    · unfold Loaded Caches
      exact ⟨x, by rw [setInode_ne s i e]; exact hx, by rw [setInode_ne s i e]; exact hxv⟩

/-- A transaction begins. -/
theorem Vol.begun (h : Vol sb L D N A Z s) : Vol sb L D N A Z s.begun :=
  ⟨h.jrn.begun, h.own, h.uniq, h.slot, h.load, h.disk, h.ahead⟩

/-- Only sectors of the log changed. -/
theorem Vol.same (h : Vol sb L D N A Z s) (hj : Jrn sb s') (hi : s'.icache = s.icache)
    (hv : SameAll sb (s.view 1) (s'.view 1)) : Vol sb L D N A Z s' := by
  refine ⟨hj, (h.own.log_sectors hv).1, ?_, ?_, ?_, ?_, ?_⟩
  · rw [hi]; exact h.uniq
  · rw [hi]; exact h.slot
  · rw [hi]; exact h.load
  · intro k hk hA
    have := IBLOCK_lt hk
    have := h.own.area
    unfold onDisk
    rw [hv _ (by omega)]
    exact h.disk k hk hA
  · unfold Loaded; rw [hi]; exact h.ahead

/-- The link counts of dittos are not followed. -/
theorem Vol.links (h : Vol sb L D N A Z s) (hN : ∀ k, (D k).type ≠ T_DITTO → N' k = N k) :
    Vol sb L D N' A Z s := by
  have hhas : ∀ k d, Has D N k d → Has D N' k d := fun k d hd =>
    ⟨hd.1, fun ht => (hd.2 ht).trans (hN k ht).symm⟩
  exact ⟨h.jrn, h.own, h.uniq, h.slot, fun j hj hv hZ => hhas _ _ (h.load j hj hv hZ),
    fun k hk hA => hhas _ _ (h.disk k hk hA), h.ahead⟩

/-! ## Taking, locking and dropping a slot -/

theorem Vol.iget (h : Vol sb L D N A Z s) (hE : Lenient E) (k : Nat) :
    wp (Zv6.iget 1 k) (Got k s) E s := by
  refine (iget_dev_wp (fun x hx => (h.slot x hx).1) k).mono (fun _ _ h => h) ?_
  rintro c s' ⟨rfl, -⟩
  exact hE.panic (by simp [fatal]) s'

theorem Vol.got (h : Vol sb L D N A Z s) (hg : Got n s j s') (hn : Live sb D n) :
    Vol sb L D N A Z s' := by
  rcases hg with ⟨hj, rfl⟩ | ⟨hno, h0, rfl⟩
  · have := hj.1
    exact h.keep hj (by show 0 < _ + 1; omega) rfl rfl rfl rfl
  · refine h.refill (fun k hk _ => ?_) fun _ => ⟨rfl, hn, rfl, fun x _ => hno x⟩
    have := hk.1
    omega

/-- A reference is dropped and the inode stays. -/
theorem Vol.drop (h : Vol sb L D N A Z s) (hip : Caches s.icache ip n)
    (hA : (s.icache ip).ref = 1 → n ∉ A) :
    Vol sb L D N A Z (s.setInode ip { s.icache ip with ref := (s.icache ip).ref - 1 }) := by
  by_cases h1 : (s.icache ip).ref = 1
  · refine h.refill (fun k hk _ => ?_) fun hr => ?_
    · rw [← hk.2, hip.2]
      exact hA h1
    · have hr : 0 < (s.icache ip).ref - 1 := hr
      omega
  · have := hip.1
    exact h.keep hip (by show 0 < _ - 1; omega) rfl rfl rfl rfl

/-- The slot `ilock` leaves when it succeeds: locked, and loaded from disk if it was not valid. -/
def Inode.locked (i : Inode) (V : Nat → Block) : Inode :=
  if i.valid then { i with busy := true }
  else { i with busy := true, valid := true, d := onDisk V i.inum }

/-- The state after a lock that succeeds. -/
def State.locked (s : State) (ip : Fin 100) : State :=
  s.setInode ip ((s.icache ip).locked (s.view 1))

theorem locked_self (s : State) (ip : Fin 100) :
    (s.locked ip).icache ip = (s.icache ip).locked (s.view 1) := setInode_self ..

theorem locked_ne (s : State) {ip j : Fin 100} (h : j ≠ ip) :
    (s.locked ip).icache j = s.icache j := setInode_ne s _ h

theorem Inode.locked_meta (i : Inode) (V : Nat → Block) : (i.locked V).ref = i.ref ∧
    (i.locked V).dev = i.dev ∧ (i.locked V).inum = i.inum ∧ (i.locked V).busy = true ∧
    (i.locked V).valid = true := by
  unfold Inode.locked
  split
  · next h => exact ⟨rfl, rfl, rfl, rfl, h⟩
  · exact ⟨rfl, rfl, rfl, rfl, rfl⟩

theorem Vol.locked (h : Vol sb L D N A Z s) (hip : Caches s.icache ip n) :
    Vol sb L D N A Z (s.locked ip) ∧ Loaded (s.locked ip) ip n := by
  obtain ⟨hr, hdev, hi, -, hv⟩ := Inode.locked_meta (s.icache ip) (s.view 1)
  have hpos : 0 < ((s.icache ip).locked (s.view 1)).ref := by rw [hr]; exact hip.1
  refine ⟨h.set hip hpos hdev hi (fun _ => hv) fun _ hZ => ?_, hip.set rfl hpos hi, ?_⟩
  · unfold Inode.locked
    split
    · next hval => exact h.has ⟨hip, hval⟩ hZ
    · next hval =>
      have hA := h.synced hip (by simpa using hval)
      rw [hip.2]
      exact h.disk n (h.live hip).2.2.1 hA
  · rw [locked_self]
    exact hv

/-- A slot that was not valid is loaded and found good. -/
theorem opened_valid (hdev : (s.icache ip).dev = 1) (hv : (s.icache ip).valid = false) :
    (s.opened ip).setInode ip { (s.opened ip).icache ip with valid := true } = s.locked ip := by
  have hl : (s.icache ip).locked (s.view 1) = { s.icache ip with
      busy := true, valid := true, d := onDisk (s.view 1) (s.icache ip).inum } :=
    if_neg (by simp [hv])
  unfold State.locked
  rw [hl, opened_self, hdev]
  unfold State.opened
  rw [setInode_setInode]
  rfl

theorem locked_of_valid (hv : (s.icache ip).valid = true) :
    s.setInode ip { s.icache ip with busy := true } = s.locked ip := by
  unfold State.locked Inode.locked
  rw [if_pos hv]

/-- `ilock_ext` of a slot whose inode is loaded from disk, and matches its checksum if it is
    looked at. -/
theorem ilock_ext_disk (hip : Caches s.icache ip n) (hdev : (s.icache ip).dev = 1)
    (hb : (s.icache ip).busy = false) (hv : (s.icache ip).valid = false)
    (hd : (onDisk (s.view 1) n).core = D n) (ht : (D n).type ≠ 0) (checksum : Bool)
    (hg : checksum = true → Mapped (s.view 1) (D n) ∧ ((D n).type = T_DEV → (D n).size = 0) ∧
      Good (s.view 1) D n) :
    wp (Zv6.ilock_ext ip checksum) (fun r s' => r = 0 ∧ s' = s.locked ip) E s := by
  refine ilockExt_wp hip.1 (fun hb' => absurd hb' (by simp [hb]))
    (fun _ hv' => absurd hv' (by simp [hv])) fun _ _ => ?_
  have hd1 := opened_core hdev hip.2 hd
  have ht1 : ((s.opened ip).icache ip).d.type ≠ 0 := by
    rw [← hd1] at ht
    exact ht
  have hdone : wp (zcSuccess ip) (fun r s' => r = 0 ∧ s' = s.locked ip) E (s.opened ip) :=
    zcSuccess_wp ht1 ⟨rfl, opened_valid hdev hv⟩
  refine wp_ite (fun hc => ?_) fun _ => hdone
  obtain ⟨hm, hdev0, hgood⟩ := hg hc
  have hsum := ichecksum_table (s := s.opened ip) (j := ip) hm hdev0 (by
    rw [opened_self]
    exact hdev) hd1
  unfold zcVerify
  refine wp_ok_bind (inode_apply _ _) ?_
  refine wp_ok_bind hsum ?_
  have hsumd : ((s.opened ip).icache ip).d.checksum = (D n).checksum := by
    rw [← hd1]
    rfl
  exact wp_ite (fun _ => hdone) fun hne => absurd (hgood.trans hsumd.symm) hne

/-- `ilock_ext` sleeps for a locked slot. -/
theorem ilock_ext_busy {Q : Int → State → Prop} (hr : 0 < (s.icache ip).ref)
    (hb : (s.icache ip).busy = true) (hE : E (.blocked (.inode ip)) s) (checksum : Bool) :
    wp (Zv6.ilock_ext ip checksum) Q E s := by
  unfold wp Zv6.ilock_ext ilockExt
  have hlock : lockSlot ip s = .blocked (.inode ip) s := by
    unfold lockSlot
    rw [if_neg (by omega), if_pos hb]
  rw [Exec.bind_apply, hlock]
  exact hE

/-- `ilock_ext` of a slot in use, of an inode that matches its checksum if it is looked at. -/
theorem Vol.ilock_ext (h : Vol sb L D N A Z s)
    (hE : (s.icache ip).busy = true → E (.blocked (.inode ip)) s)
    (hip : Caches s.icache ip n) (checksum : Bool)
    (hg : checksum = true → Mapped (s.view 1) (D n) ∧ ((D n).type = T_DEV → (D n).size = 0) ∧
      Good (s.view 1) D n) :
    wp (Zv6.ilock_ext ip checksum) (fun r s' => r = 0 ∧ s' = s.locked ip) E s := by
  obtain ⟨hdev, hlive⟩ := h.live hip
  by_cases hb : (s.icache ip).busy = true
  · exact ilock_ext_busy hip.1 hb (hE hb) checksum
  · by_cases hv : (s.icache ip).valid = true
    · exact ilockExt_wp hip.1 (fun hb' => absurd hb' hb) (fun _ _ => ⟨rfl, locked_of_valid hv⟩)
        fun _ hv' => absurd hv (by simp [hv'])
    · have hv : (s.icache ip).valid = false := by simpa using hv
      exact ilock_ext_disk hip hdev (by simpa using hb) hv
        (h.disk n hlive.2.1 (h.synced hip hv)).1 hlive.2.2 checksum hg

/-- `iunlock` of a slot in use. -/
theorem Vol.iunlock (h : Vol sb L D N A Z s)
    (hE : (s.icache ip).busy = false → E (.panic "iunlock") s) (hip : Caches s.icache ip n) :
    wp (Zv6.iunlock ip) (fun _ s' => s' = s.setInode ip { s.icache ip with busy := false } ∧
      Vol sb L D N A Z s') E s := by
  unfold wp Zv6.iunlock
  by_cases hb : (s.icache ip).busy = false ∨ (s.icache ip).ref < 1
  · rw [if_pos hb]
    have := hip.1
    exact hE (hb.resolve_right (by omega))
  · rw [if_neg hb]
    exact ⟨rfl, h.keep hip hip.1 rfl rfl rfl rfl⟩

/-! ## Changing an inode -/

theorem Loaded.d (h : Loaded s ip n) {d : Dinode} :
    Loaded (s.setInode ip { s.icache ip with d := d }) ip n :=
  ⟨h.1.set rfl h.1.1 rfl, by rw [setInode_self]; exact h.2⟩

/-- Only addresses of inode `n` changed. -/
theorem Vol.wrote {a : Fin 11 → UInt32} (h : Vol sb L D N A Z s) (hip : Loaded s ip n)
    (hw : Wrote sb L D n ip a s s') (hZ : n ∉ Z) :
    Vol sb L (withAddrs D n a) N (insert n A) Z s' ∧ Loaded s' ip n := by
  have hl : Loaded s' ip n := by
    unfold Loaded
    rw [hw.only.icache]
    exact hip.d
  have hh := h.has hip hZ
  refine ⟨h.update hip.1 hw.only.icache hip.1.1 rfl rfl hw.jrn hw.own
    (fun k hk => ⟨withAddrs_of_ne D a hk, rfl⟩) ?_ (fun k hk => by simp [hk])
    (fun _ _ => Iff.rfl) (fun _ => hip.2) (fun _ _ => ?_) ?_ (fun hA => ?_), hl⟩
  · rw [withAddrs_self]
    exact (h.live hip.1).2.2.2
  · unfold Has
    rw [withAddrs_self, ← hh.1]
    refine ⟨rfl, fun ht => hh.2 ?_⟩
    rw [← hh.1]
    exact ht
  · intro k hk _
    unfold onDisk
    rw [hw.inodes k hk]
  · exact absurd (Set.mem_insert n A) hA

/-- The tables in which inode `n` is `d`. -/
def setD (D : Nat → Dinode) (n : Nat) (d : Dinode) : Nat → Dinode := update D n d.core

def setN (N : Nat → UInt16) (n : Nat) (d : Dinode) : Nat → UInt16 := update N n d.nlink

@[simp] theorem setD_self (D : Nat → Dinode) (n : Nat) (d : Dinode) : setD D n d n = d.core :=
  update_self ..

@[simp] theorem setD_of_ne (D : Nat → Dinode) {n k : Nat} (d : Dinode) (h : k ≠ n) :
    setD D n d k = D k := update_of_ne h ..

@[simp] theorem setN_self (N : Nat → UInt16) (n : Nat) (d : Dinode) : setN N n d n = d.nlink :=
  update_self ..

@[simp] theorem setN_of_ne (N : Nat → UInt16) {n k : Nat} (d : Dinode) (h : k ≠ n) :
    setN N n d k = N k := update_of_ne h ..

theorem has_set (D : Nat → Dinode) (N : Nat → UInt16) (n : Nat) (d : Dinode) :
    Has (setD D n d) (setN N n d) n d := by
  unfold Has
  simp

/-- A dinode with the same blocks. -/
theorem adr_setD {d : Dinode} {V : Nat → Block} (ht : d.type = (D n).type)
    (ha : d.addrs = (D n).addrs) (p : Pos) : adr sb V (setD D n d) p = adr sb V D p := by
  by_cases hp : p.ino = n
  · refine adr_fields ?_ ?_
    · rw [hp, setD_self]
      exact ht
    · rw [hp, setD_self]
      exact ha
  · exact adr_table (setD_of_ne D d hp)

theorem Own.setD {d : Dinode} {V : Nat → Block} (h : Own sb L V D) (ht : d.type = (D n).type)
    (ha : d.addrs = (D n).addrs) : Own sb L V (setD D n d) :=
  ⟨h.super, h.area, h.ninodes, h.reserved, h.owner.congr (adr_setD ht ha) fun _ _ _ => rfl⟩

/-- Fields of inode `n` other than its type and its blocks are assigned to. -/
theorem Vol.edit {d : Dinode} (h : Vol sb L D N A Z s) (hip : Loaded s ip n)
    (ht : d.type = (D n).type) (ha : d.addrs = (D n).addrs) :
    Vol sb L (setD D n d) (setN N n d) (insert n A) Z
      (s.setInode ip { s.icache ip with d := d }) := by
  refine h.update hip.1 rfl hip.1.1 rfl rfl (h.jrn.setInode ip _) (h.own.setD ht ha)
    (fun k hk => ⟨setD_of_ne D d hk, setN_of_ne N d hk⟩) ?_ (fun k hk => by simp [hk])
    (fun _ _ => Iff.rfl) (fun _ => hip.2) (fun _ _ => has_set D N n d) (fun _ _ _ => rfl) ?_
  · rw [setD_self]
    exact ht.trans_ne (h.live hip.1).2.2.2
  · intro hA
    exact absurd (Set.mem_insert n A) hA

/-- The same, with the link count kept. -/
theorem Vol.edit_meta {d : Dinode} (h : Vol sb L D N A Z s) (hip : Loaded s ip n) (hZ : n ∉ Z)
    (ht : d.type = (D n).type) (ha : d.addrs = (D n).addrs) (hn : d.nlink = (s.icache ip).d.nlink) :
    Vol sb L (setD D n d) N (insert n A) Z (s.setInode ip { s.icache ip with d := d }) := by
  refine (h.edit hip ht ha).links fun k hk => ?_
  by_cases e : k = n
  · subst e
    rw [setD_self] at hk
    rw [setN_self, hn]
    exact ((h.has hip hZ).2 (ht ▸ hk)).symm
  · rw [setN_of_ne N d e]

/-- A dinode is stored, and no other changes. -/
theorem Logs.onDisk {d : Dinode} {B : Block} (hl : Logs sb (IBLOCK n) (B.setDinode (n % 8) d) s s')
    (hB : s.view 1 (IBLOCK n) = B) (harea : dstart sb ≤ lstart sb) (k : Nat)
    (hk : k < sb.ninodes) (hne : k ≠ n) : onDisk (s'.view 1) k = onDisk (s.view 1) k := by
  have := IBLOCK_lt hk
  unfold Zv6.onDisk
  by_cases hb : IBLOCK k = IBLOCK n
  · rw [hb, hl.self, hB, dinode_setDinode_ne]
    unfold IBLOCK at hb
    omega
  · rw [hl.same _ (by omega) hb]

theorem Logs.onDisk_self {d : Dinode} {B : Block}
    (hl : Logs sb (IBLOCK n) (B.setDinode (n % 8) d) s s') :
    Zv6.onDisk (s'.view 1) n = d := by
  unfold Zv6.onDisk
  rw [hl.self, dinode_setDinode _ _ _ (by omega)]

/-- The dinode of `n` is stored. -/
theorem Vol.store {d : Dinode} (h : Vol sb L D N A Z s) (hip : Caches s.icache ip n)
    (hd : Has D N n d) (hl : Logs sb (IBLOCK n) ((s.view 1 (IBLOCK n)).setDinode (n % 8) d) s s') :
    Vol sb L D N (A \ {n}) Z s' ∧ KeepsHeld sb (s.view 1) D (s'.view 1) := by
  obtain ⟨-, hlive⟩ := h.live hip
  obtain ⟨hown, hheld⟩ := h.own.inode_sector hlive.2.1 hl.same
  have hic := hl.only.icache
  refine ⟨h.update hip (by rw [hic]; exact (congrArg State.icache (setInode_same s ip)).symm) hip.1
    rfl rfl hl.jrn hown (fun _ _ => ⟨rfl, rfl⟩) hlive.2.2 (fun k hk => by simp [hk])
    (fun _ _ => Iff.rfl) (fun hA => absurd rfl hA.2) (fun hv hZ => ?_) ?_ (fun _ => ?_), hheld⟩
  · exact h.has ⟨hip, hv⟩ hZ
  · exact hl.onDisk rfl h.own.area
  · rw [hl.onDisk_self]
    exact hd

end Vol

end Zv6
