/-
  Runs of writes.

  Transactions are begun and committed, inodes looked up by number, locked, unlocked and dropped,
  and files written (`FileStep`), in any order. On a volume in good order no run of such steps
  damages anything (`file_run_sound`): the checksums keep matching, so no lock reports a
  corrupted inode; the dittos keep the contents of their inodes; and a file reads as what it held
  with the writes to it put over it in turn.

  A write is only made with blocks for it in the data area: on a full one `balloc` hands out
  blocks of the log.
-/
import Zv6.Fs.Walk

namespace Zv6

open Lib

/-- A write to inode `n`. -/
structure Edit where
  n : Nat
  off : Nat
  src : List UInt8

/-- One step, with the write it makes. -/
inductive FileStep (sb : Superblock) (s : State) : List Edit → State → Prop
  | begin {s'} (hrun : begin_trans s = .ok () s') : FileStep sb s [] s'
  | commit {s'} (hrun : commit_trans s = .ok () s') : FileStep sb s [] s'
  | get {s' k ip} (hk : 1 ≤ k ∧ k < sb.ninodes ∧ (onDisk (s.view 1) k).type ≠ 0)
      (hrun : iget 1 k s = .ok ip s') : FileStep sb s [] s'
  | put {s' ip} (hip : 0 < (s.icache ip).ref)
      (hstay : ¬ ((s.icache ip).ref = 1 ∧ (s.icache ip).valid = true ∧ (s.icache ip).d.nlink = 0))
      (hrun : iput ip s = .ok () s') : FileStep sb s [] s'
  | lock {s' r ip} (hip : 0 < (s.icache ip).ref) (hrun : ilock ip s = .ok r s') :
      FileStep sb s [] s'
  | unlock {s' ip} (hrun : iunlock ip s = .ok () s') : FileStep sb s [] s'
  | write {s' r ip n off src} (hip : Loaded s ip n)
      (htype : (s.icache ip).d.type = T_FILE ∨ (s.icache ip).d.type = T_DIR)
      (hbusy : s.log.busy = true)
      (hfree : (1 + (s.icache ip).d.ndittos) * ((span off src.length).card + 1) ≤
        (freeBlocks sb (s.view 1)).card)
      (hrun : writei ip src off s = .ok r s') :
      FileStep sb s (if r = -1 then [] else [⟨n, off, src⟩]) s'

/-- Any number of steps from `s`, with the writes they make. -/
inductive FileRun (sb : Superblock) (s : State) : List Edit → State → Prop
  | start : FileRun sb s [] s
  | step {ws w s1 s2} (h : FileRun sb s ws s1) (hs : FileStep sb s1 w s2) :
      FileRun sb s (ws ++ w) s2

/-- The bytes `c` of inode `k` after the writes `ws`. -/
def edited (ws : List Edit) (k : Nat) (c : List UInt8) : List UInt8 :=
  ws.foldl (fun c w => if w.n = k then overwrite c w.off w.src else c) c

section FileRun

variable {sb : Superblock} {L : Set Nat} {D D' : Nat → Dinode} {N : Nat → UInt16} {s s' : State}
  {V V' : Nat → Block} {ip : Fin 100} {n : Nat} {ws : List Edit} {t : State}

/-- No block of a file changes. -/
theorem Sound.same (h : Sound sb ∅ V D) (ht : Touch sb ∅ V D V' D) : Sound sb ∅ V' D := by
  have hk := fun k (hl : Live sb D k) => h.untouched ht (Set.notMem_empty k) hl (by simp)
  refine ⟨fun k hl _ => (hk k hl).1, h.dev, fun k hl _ => (hk k hl).2.1, h.child, h.childless,
    h.parent, fun k i hl h0 _ => ?_, h.exempt⟩
  rw [(hk _ (h.child k i hl h0).1).2.2, (hk k hl).2.2]
  exact h.mirror k i hl h0 (by simp)

/-- The volume of `s'` is in good order and holds that of `s` with the writes `ws`. -/
structure Edited (sb : Superblock) (L : Set Nat) (N : Nat → UInt16) (D : Nat → Dinode) (s : State)
    (ws : List Edit) (D' : Nat → Dinode) (s' : State) : Prop where
  vol : Vol sb L D' N ∅ ∅ s'
  sound : Sound sb ∅ (s'.view 1) D'
  type : ∀ k, (D' k).type = (D k).type
  data : ∀ k, Live sb D k → (D k).type ≠ T_DITTO →
    contents (s'.view 1) (D' k) = edited ws k (contents (s.view 1) (D k))

theorem Edited.live (h : Edited sb L N D s ws D' s') : Live sb D' n ↔ Live sb D n := by
  unfold Live
  rw [h.type]

/-- Nothing changes outside the log. -/
theorem Edited.same (h : Edited sb L N D s ws D' s') (hv : Vol sb L D' N ∅ ∅ t)
    (hsame : SameAll sb (s'.view 1) (t.view 1)) : Edited sb L N D s ws D' t := by
  have ht := (h.vol.own.log_sectors hsame).2.touch ∅
  refine ⟨hv, h.sound.same ht, h.type, fun k hl hk => ?_⟩
  rw [(h.sound.untouched ht (Set.notMem_empty k) (h.live.mpr hl) (by simp)).2.2]
  exact h.data k hl hk

/-- Nothing changes that `bread` returns. -/
theorem Edited.moved (h : Edited sb L N D s ws D' s') (hv : Vol sb L D' N ∅ ∅ t)
    (hview : t.view = s'.view) : ∃ D'', Edited sb L N D s (ws ++ []) D'' t := by
  rw [List.append_nil]
  exact ⟨D', h.same hv fun _ _ => by rw [hview]⟩

theorem Edited.lock (h : Edited sb L N D s ws D' s') (hip : 0 < (s'.icache ip).ref) {r : Int}
    (hrun : ilock ip s' = .ok r t) : r = 0 ∧ t = s'.locked ip := by
  have hc : Caches s'.icache ip (s'.icache ip).inum := ⟨hip, rfl⟩
  have hl := (h.vol.live hc).2
  have hwp : wp (ilock_ext ip true) (fun r t => r = 0 ∧ t = s'.locked ip) (fun _ _ => True) s' :=
    h.vol.ilock_ext (fun _ => trivial) hc true fun _ =>
      ⟨h.sound.mapped _ hl (by simp), h.sound.dev _ hl, h.sound.good _ hl (by simp)⟩
  exact hwp.ok hrun

theorem Edited.commit (h : Edited sb L N D s ws D' s') (hrun : commit_trans s' = .ok () t) :
    ∃ D'', Edited sb L N D s (ws ++ []) D'' t := by
  obtain ⟨t', hrun', hj, -, honly, hsame⟩ := h.vol.jrn.commit
  cases hrun.symm.trans hrun'
  rw [List.append_nil]
  exact ⟨D', h.same (h.vol.same hj honly.icache hsame) hsame⟩

theorem length_members (d : Dinode) (n : Nat) : (d.members n).length = 1 + d.ndittos := by
  have hz : ∀ w : UInt16, w.toNat = 0 ↔ w = 0 := fun w => not_iff_not.mp toNat_ne_zero
  unfold Dinode.members Dinode.kidList Dinode.child Dinode.ndittos
  by_cases h1 : d.child1 = 0 <;> by_cases h2 : d.child2 = 0 <;> simp [h1, h2, hz]

/-- A write allocates at most its blocks and an indirect block for each file. -/
theorem needs_le (V : Nat → Block) (D : Nat → Dinode) (bns : Finset Nat) (l : List Nat) :
    needs V D bns l ≤ l.length * (bns.card + 1) := by
  induction l with
  | nil => exact Nat.zero_le _
  | cons k l ih =>
    have := lack_le V (D k) bns
    unfold needs at ih ⊢
    rw [List.map_cons, List.sum_cons, List.length_cons, Nat.succ_mul]
    omega

theorem Edited.write (h : Edited sb L N D s ws D' s') {off : Nat} {src : List UInt8} {r : Int}
    (hip : Loaded s' ip n) (htype : (s'.icache ip).d.type = T_FILE ∨ (s'.icache ip).d.type = T_DIR)
    (hbusy : s'.log.busy = true)
    (hfree : (1 + (s'.icache ip).d.ndittos) * ((span off src.length).card + 1) ≤
      (freeBlocks sb (s'.view 1)).card)
    (hrun : writei ip src off s' = .ok r t) :
    ∃ D'', Edited sb L N D s (ws ++ if r = -1 then [] else [⟨n, off, src⟩]) D'' t := by
  have hd : (s'.icache ip).d.core = D' n := (h.vol.has hip (by simp)).1
  have hl := (h.vol.live hip.1).2
  have htype : (D' n).type ≠ T_DEV ∧ (D' n).type ≠ T_DITTO := by
    rw [← hd]
    rcases htype with e | e <;> rw [Dinode.core, e] <;> decide
  have hfree : needs (s'.view 1) D' (span off src.length) ((D' n).members n) ≤
      (freeBlocks sb (s'.view 1)).card := by
    refine (needs_le _ _ _ _).trans ?_
    rw [length_members, ← hd]
    exact hfree
  -- the log may overflow and slots may be wanting: then the write does not return
  obtain ⟨-, rfl, rfl⟩ | ⟨-, rfl, D'', hw⟩ := (writei_wp (E := fun _ _ => True)
    (Or.inl fun _ _ _ => trivial) h.vol (write_txn hbusy (Or.inl fun _ => trivial) hfree)
    Finset.subset_union_right hip (by simp) (h.sound.mirrors hl (by simp))
    (fun k hk => (h.sound.group hl (by simp) hk).1) htype).ok hrun
  · exact ⟨D', by rw [if_pos rfl, List.append_nil]; exact h⟩
  have hfile : ∀ k, k ∈ (D' n).group n → (D'' k).type = (D' k).type ∧
      (D'' k).child1 = (D' k).child1 ∧ (D'' k).child2 = (D' k).child2 := by
    intro k hk
    obtain ⟨a, z, w, e⟩ := hw.file k hk
    rw [e]
    exact ⟨rfl, rfl, rfl⟩
  have hgood := hw.good fun k hk => (h.sound.group hl (by simp) hk).2
  have hsound := h.sound.write hl (fun hT => absurd hT htype.1) htype.2 hw.touch hfile hw.mapped
    (fun k hk => (hgood k hk).1) fun k hk =>
      (hgood k hk).2.trans (hgood n (Set.mem_insert n _)).2.symm
  refine ⟨D'', by simpa using hw.vol, hsound, fun k => ?_, fun k hk hT => ?_⟩
  · by_cases hk : k ∈ (D' n).group n
    · exact (hfile k hk).1.trans (h.type k)
    · rw [hw.touch.table k hk, h.type]
  · rw [if_neg (by omega)]
    unfold edited
    rw [List.foldl_append, List.foldl_cons, List.foldl_nil]
    by_cases hkn : n = k
    · subst hkn
      rw [if_pos rfl, hw.data n (Set.mem_insert n _), h.data n hk hT]
      rfl
    · -- another group of files
      have hnot : k ∉ (D' n).group n := by
        rintro (e | e)
        · exact hkn e.symm
        · exact hT (h.type k ▸ (h.sound.kids hl k e).2.1)
      rw [if_neg hkn, (h.sound.untouched hw.touch hnot (h.live.mpr hk) (by simp)).2.2]
      exact h.data k hk hT

theorem FileStep.edited {w : List Edit} (hs : FileStep sb s' w t) (h : Edited sb L N D s ws D' s') :
    ∃ D'', Edited sb L N D s (ws ++ w) D'' t := by
  cases hs with
  | begin hrun =>
    unfold begin_trans at hrun
    split at hrun <;> cases hrun
    exact h.moved h.vol.begun rfl
  | commit hrun => exact h.commit hrun
  | get hk hrun =>
    have hl : Live sb D' _ := ⟨hk.1, hk.2.1, (h.vol.disk _ hk.2.1 (by simp)).1 ▸ hk.2.2⟩
    have hg := (h.vol.iget (E := fun _ _ => True) (fun _ _ _ => trivial) _).ok hrun
    refine h.moved (h.vol.got hg hl) ?_
    rcases hg with ⟨-, rfl⟩ | ⟨-, -, rfl⟩ <;> rfl
  | put hip hstay hrun =>
    cases hrun.symm.trans (iput_keep hstay)
    exact h.moved (h.vol.drop ⟨hip, rfl⟩ (by simp)) rfl
  | lock hip hrun =>
    rw [(h.lock hip hrun).2]
    exact h.moved (h.vol.locked ⟨hip, rfl⟩).1 rfl
  | @unlock _ ip hrun =>
    unfold iunlock at hrun
    split at hrun
    · cases hrun
    · next hno =>
      cases hrun
      have hc : Caches s'.icache ip (s'.icache ip).inum := ⟨by omega, rfl⟩
      exact h.moved (h.vol.keep hc hc.1 rfl rfl rfl rfl) rfl
  | write hip htype hbusy hfree hrun => exact h.write hip htype hbusy hfree hrun

theorem FileRun.edited (hv : Vol sb L D N ∅ ∅ s) (hs : Sound sb ∅ (s.view 1) D)
    (h : FileRun sb s ws s') : ∃ D', Edited sb L N D s ws D' s' := by
  induction h with
  | start => exact ⟨D, hv, hs, fun _ => rfl, fun _ _ _ => rfl⟩
  | step _ hs ih =>
    obtain ⟨D', h⟩ := ih
    exact hs.edited h

end FileRun

/-- At every point of every run the volume is in good order, a file reads as its first contents
    with its writes put over them in turn, and a lock that returns returns 0. -/
theorem file_run_sound (sb : Superblock) (L : Set Nat) (D : Nat → Dinode) (N : Nat → UInt16)
    (s s' : State) (ws : List Edit) (hv : Vol sb L D N ∅ ∅ s)
    (hs : Sound sb ∅ (s.view 1) D) (h : FileRun sb s ws s') :
    (∃ D', Vol sb L D' N ∅ ∅ s' ∧ Sound sb ∅ (s'.view 1) D') ∧
    (∀ ip n, Loaded s' ip n → (D n).type ≠ T_DEV → (D n).type ≠ T_DITTO →
      Reads ip (edited ws n (contents (s.view 1) (D n))) s') ∧
    ∀ ip r t, 0 < (s'.icache ip).ref → ilock ip s' = .ok r t → r = 0 := by
  obtain ⟨D', h⟩ := h.edited hv hs
  refine ⟨⟨D', h.vol, h.sound⟩, fun ip n hip hdev hT => ?_, fun ip r t hip hrun =>
    (h.lock hip hrun).1⟩
  have hl := (h.vol.live hip.1).2
  rw [← h.data n (h.live.mp hl) hT]
  exact reads_table (h.vol.live hip.1).1 (h.vol.has hip (by simp)).1 (h.type n ▸ hdev)
    (h.sound.mapped n hl (by simp))

/-- Three bytes written behind the byte of a file with a ditto. -/
theorem oneByte_run : ∃ L D N, Vol imageSb L D N ∅ ∅ ((machine 36 oneByte 2).locked 0) ∧
    Sound imageSb ∅ (image 36 oneByte) D ∧ (D 2).type = T_FILE ∧
    contents (image 36 oneByte) (D 2) = [0] ∧
    ∃ s', FileRun imageSb ((machine 36 oneByte 2).locked 0) [⟨2, 1, [7, 8, 9]⟩] s' ∧
      Loaded s' 0 2 := by
  obtain ⟨hv, hl⟩ := oneByte_locked
  refine ⟨_, _, _, hv, image_sound oneByte_ok (by decide +kernel) (by decide),
    by rw [oneByte_file]; rfl, (contents_live oneByte_ok oneByte_live).trans rfl, ?_⟩
  obtain ⟨r, s', hrun, hr⟩ : ∃ r s', writei 0 [7, 8, 9] 1 oneByteOpen = .ok r s' ∧
      (r == 3 && decide (0 < (s'.icache 0).ref ∧ (s'.icache 0).inum = 2) &&
        (s'.icache 0).valid) = true := Res.of_check (by decide +kernel)
  simp only [Bool.and_eq_true, beq_iff_eq, decide_eq_true_eq] at hr
  obtain ⟨⟨rfl, hc'⟩, hval⟩ := hr
  have hfree : (1 + (oneByteOpen.icache 0).d.ndittos) * ((span 1 3).card + 1) ≤
      (freeBlocks imageSb (oneByteOpen.view 1)).card := by
    decide +kernel
  have hl : Loaded oneByteOpen 0 2 := hl
  have htype : (oneByteOpen.icache 0).d.type = T_FILE := by decide +kernel
  have hbusy : oneByteOpen.log.busy = true := rfl
  have hopen : FileRun imageSb ((machine 36 oneByte 2).locked 0) [] oneByteOpen :=
    FileRun.start.step (.begin rfl)
  have hwrite := hopen.step (.write hl (Or.inl htype) hbusy hfree hrun)
  rw [if_neg (by decide), List.nil_append] at hwrite
  exact ⟨s', hwrite, hc', hval⟩

theorem file_run_sound_oneByte : ∃ s', FileRun imageSb ((machine 36 oneByte 2).locked 0)
    [⟨2, 1, [7, 8, 9]⟩] s' ∧ Loaded s' 0 2 ∧ Reads 0 [0, 7, 8, 9] s' := by
  obtain ⟨L, D, N, hv, hs, htype, hcont, s', hrun, hl⟩ := oneByte_run
  have hmain := (file_run_sound imageSb L D N _ s' _ hv hs hrun).2.1 0 2 hl
    (by rw [htype]; decide) (by rw [htype]; decide)
  have hview : ((machine 36 oneByte 2).locked 0).view 1 = image 36 oneByte := rfl
  rw [hview, hcont] at hmain
  exact ⟨s', hrun, hl, hmain⟩

end Zv6
