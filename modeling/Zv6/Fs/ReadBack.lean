/-
  Reads return what was written.

  A write to a file of a consistent volume, in a transaction with room in the log and blocks in
  the data area (`Enough`) and with slots for the file's dittos (`Vacant`), puts its bytes over
  the contents of the file. `Reads ip c s` says that `readi` returns the parts of `c`; it holds
  after the write through the slot written to, and through any slot the inode is loaded into
  later (`Reloads`), the log committed or not.
-/
import Zv6.Fs.Crowd
import Zv6.Fs.LogRoom

namespace Zv6

open Lib

/-- A read from slot `ip` returns the bytes of `c` that it asks for. -/
def Reads (ip : Fin 100) (c : List UInt8) (s : State) : Prop :=
  ∀ off n, off ≤ c.length → off + n < 4294967296 →
    readi ip off n s = .ok ((((c.drop off).take n).length : Int), (c.drop off).take n) s

/-- Slot `ip` is in use for inode `n`, unlocked and not loaded. -/
structure Unloaded (s : State) (ip : Fin 100) (n : Nat) : Prop where
  caches : Caches s.icache ip n
  dev : (s.icache ip).dev = 1
  busy : (s.icache ip).busy = false
  valid : (s.icache ip).valid = false

/-- Wherever inode `n` is loaded again from the sectors of `s`, it passes its check and reads of
    it return the bytes of `c`. -/
def Reloads (sb : Superblock) (n : Nat) (c : List UInt8) (s : State) : Prop :=
  ∀ t ip, SameAll sb (s.view 1) (t.view 1) → Unloaded t ip n →
    ∃ t', ilock ip t = .ok 0 t' ∧ Reads ip c t'

section ReadBack

variable {sb : Superblock} {L : Set Nat} {D : Nat → Dinode} {N : Nat → UInt16} {A : Set Nat}
  {s : State} {ip : Fin 100} {n : Nat}

/-- A mapped file reads as its contents. -/
theorem reads_table (hdev : (s.icache ip).dev = 1) (hd : (s.icache ip).d.core = D n)
    (ht : (D n).type ≠ T_DEV) (hm : Mapped (s.view 1) (D n)) :
    Reads ip (contents (s.view 1) (D n)) s := by
  intro off m hoff hwrap
  rw [← hd] at hm ht hoff ⊢
  have hread := readi_mapped (s := s) (by rw [hdev]) rfl ht
    (⟨hm.size_le, hm.block⟩ : Mapped (s.view 1) (s.icache ip).d) off m
  have hoff' : off ≤ (s.icache ip).d.size.toNat := by rwa [length_contents] at hoff
  rw [hread, readResult_le off m hoff' hwrap]
  have hslice : slice (s.view 1) (s.icache ip).d off (min m ((s.icache ip).d.size.toNat - off)) =
      ((contents (s.view 1) (s.icache ip).d.core).drop off).take m := by
    show _ = ((slice (s.view 1) (s.icache ip).d 0 (s.icache ip).d.size.toNat).drop off).take m
    rw [drop_slice, take_slice, Nat.zero_add]
  rw [← hslice, length_slice]

/-- A good file of the volume is loaded again as it is. -/
theorem Vol.reloads (h : Vol sb L D N A ∅ s) (hn : Live sb D n) (hA : n ∉ A)
    (ht : (D n).type ≠ T_DEV) (hm : Mapped (s.view 1) (D n)) (hg : Good (s.view 1) D n) :
    Reloads sb n (contents (s.view 1) (D n)) s := by
  intro t ip hV hip
  obtain ⟨hm', hc⟩ := (h.own.log_sectors hV).2.file hn rfl hm
  have hdisk : (onDisk (t.view 1) n).core = D n := by
    have := IBLOCK_lt hn.2.1
    have := h.own.area
    unfold onDisk
    rw [hV _ (by omega)]
    exact (h.disk n hn.2.1 hA).1
  have hgood : Good (t.view 1) D n := by
    unfold Good
    rw [hc]
    exact hg
  have hlock := ilock_ext_disk (E := fun _ _ => False) hip.caches hip.dev hip.busy hip.valid hdisk
    hn.2.2 true fun _ => ⟨hm', fun hT => absurd hT ht, hgood⟩
  obtain ⟨r, t', hrun, rfl, rfl⟩ := hlock.returns
  refine ⟨_, hrun, ?_⟩
  obtain ⟨-, hdev, -⟩ := Inode.locked_meta (t.icache ip) (t.view 1)
  have hd : ((t.icache ip).locked (t.view 1)).d = onDisk (t.view 1) n := by
    unfold Inode.locked
    rw [if_neg (by simp [hip.valid]), hip.caches.2]
  rw [← hc]
  refine reads_table (s := t.locked ip) ?_ ?_ ht hm'
  · rw [locked_self, hdev]
    exact hip.dev
  · rw [locked_self, hd]
    exact hdisk

/-- The dittos of an inode of a consistent volume. -/
theorem Fs.mirrors {V : Nat → Block} (h : Fs sb V D) (hp : Paired sb D) (hn : Live sb D n) :
    Mirrors sb D n := by
  have hkid : ∀ c, c ∈ (D n).kids → ∃ i, (D n).child i ≠ 0 ∧ (D n).child i = c :=
    fun c hc => mem_kids.mp hc
  refine ⟨?_, ?_, ?_, ?_⟩
  · intro c hc
    obtain ⟨i, h0, rfl⟩ := hkid c hc
    exact ⟨(h.child n i hn h0).1, (h.child n i hn h0).2, (h.has_ditto hn h0).2⟩
  · intro h0 he
    cases (h.parent n n false true hn hn h0 he).2
  · intro c hc
    obtain ⟨i, h0, rfl⟩ := hkid c hc
    exact h.childless _ (h.child n i hn h0).1 (h.child n i hn h0).2
  · intro c hc
    obtain ⟨i, h0, rfl⟩ := hkid c hc
    exact (hp n i hn h0).1

/-- In a transaction with room for it, a write that `writei` does not refuse puts its bytes over
    those of the file. -/
theorem writei_returns {off : Nat} {src : List UInt8} (h : Vol sb L D N A ∅ s)
    (hfs : Fs sb (s.view 1) D) (hp : Paired sb D) (hip : Loaded s ip n)
    (htype : (D n).type ≠ T_DEV ∧ (D n).type ≠ T_DITTO) (hr : ¬ Refused (D n) off src.length)
    (he : Enough sb D n off src.length s) (hv : Vacant (D n).kids s) :
    ∃ s' D', writei ip src off s = .ok src.length s' ∧
      SpreadPost sb L D N A ∅ n off src s D' s' := by
  have hlive := (h.live hip.1).2
  have hmir := hfs.mirrors hp hlive
  have hm : ∀ k ∈ (D n).group n, Mapped (s.view 1) (D k) := by
    rintro k (rfl | hk)
    · exact hfs.mapped k hlive
    · exact hfs.mapped k (hmir.kids k hk).1
  have hrun := (writei_wp (E := fun _ _ => False) (Or.inr hv) h he.txn Finset.subset_union_right
    hip (by simp) hmir hm htype).returns
  obtain ⟨r, s', hrun, ⟨href, -⟩ | ⟨-, rfl, D', hs⟩⟩ := hrun
  · exact absurd href hr
  · exact ⟨s', D', hrun, hs⟩

end ReadBack

/-- `writei` refuses a write that does not fit and changes nothing then. Any other write returns
    its length and puts its bytes over the file's, which is what reads return from then on,
    through any slot and after the commit too. No other file changes. -/
theorem writei_read_back (sb : Superblock) (L : Set Nat) (D : Nat → Dinode) (N : Nat → UInt16)
    (A : Set Nat) (s : State) (ip : Fin 100) (n : Nat) (off : UInt32) (src : List UInt8)
    (h : Vol sb L D N A ∅ s) (hfs : Fs sb (s.view 1) D) (hp : Paired sb D) (hip : Loaded s ip n)
    (htype : (D n).type = T_FILE ∨ (D n).type = T_DIR) (hlen : src.length < 4294967296) :
    ((D n).size < off ∨ 4294967296 ≤ off.toNat + src.length ∨ 70656 < off.toNat + src.length →
      writei ip src off.toNat s = .ok (-1) s) ∧
    (off ≤ (D n).size → off.toNat + src.length ≤ 70656 →
      Enough sb D n off.toNat src.length s → Vacant (D n).kids s →
      ∃ s' D' c, writei ip src off.toNat s = .ok src.length s' ∧
        c = overwrite (contents (s.view 1) (D n)) off.toNat src ∧
        Vol sb L D' N (A \ (D n).group n) ∅ s' ∧ contents (s'.view 1) (D' n) = c ∧
        Reads ip c s' ∧ Reloads sb n c s' ∧
        (∃ s'', commit_trans s' = .ok () s'' ∧ Reloads sb n c s'') ∧
        ∀ k, k ≠ n → Live sb D k → (D k).type ≠ T_DITTO →
          contents (s'.view 1) (D' k) = contents (s.view 1) (D k)) := by
  have hh := h.has hip (by simp)
  have hlive := (h.live hip.1).2
  have htype' : (D n).type ≠ T_DEV ∧ (D n).type ≠ T_DITTO := by
    rcases htype with e | e <;> rw [e] <;> decide
  constructor
  · intro hr
    have hsize : (s.icache ip).d.size = (D n).size := by rw [← hh.1]; rfl
    have htd : (s.icache ip).d.type = (D n).type := by rw [← hh.1]; rfl
    refine writei_refused (by rw [htd]; exact htype'.1) ?_
    unfold Refused
    rw [hsize]
    have := off.toNat_lt
    rcases hr with hr | hr | hr
    · exact Or.inl hr
    · exact Or.inr (Or.inl (by omega))
    · exact Or.inr (Or.inr hr)
  · intro hoff hmax he hv
    have hoff : off.toNat ≤ (D n).size.toNat := hoff
    have hr : ¬ Refused (D n) off.toNat src.length := by
      unfold Refused
      omega
    obtain ⟨s', D', hrun, hs⟩ := writei_returns h hfs hp hip htype' hr he hv
    have hnG : n ∈ (D n).group n := Set.mem_insert n _
    obtain ⟨a, z, w, hD'⟩ := hs.file n hnG
    have hlive' : Live sb D' n := by
      unfold Live
      rw [hD']
      exact hlive
    have hdev' : (D' n).type ≠ T_DEV := by
      rw [hD']
      exact htype'.1
    have hgood : Good (s'.view 1) D' n := by
      unfold Good
      rw [hs.data n hnG, hs.sum n hnG]
    have hl' := hs.pins.loaded hip
    have hreload := hs.vol.reloads hlive' (fun hA => hA.2 hnG) hdev' (hs.mapped n hnG) hgood
    rw [hs.data n hnG] at hreload
    refine ⟨s', D', _, hrun, rfl, hs.vol, hs.data n hnG, ?_, hreload, ?_, fun k hk hl ht => ?_⟩
    · rw [← hs.data n hnG]
      exact reads_table (hs.vol.live hl'.1).1 (hs.vol.has hl' (by simp)).1 hdev' (hs.mapped n hnG)
    · obtain ⟨s'', hc, -, -, -, hsame⟩ := hs.vol.jrn.commit
      exact ⟨s'', hc, fun t j ht => hreload t j fun c hlt => (ht c hlt).trans (hsame c hlt)⟩
    · refine hs.touch.contents ?_ hl (hfs.mapped k hl)
      rintro (rfl | hkid)
      · exact hk rfl
      · exact ht ((hfs.mirrors hp hlive).kids k hkid).2.1

theorem writei_read_back_oneByte : oneByteOpen.log.busy = true ∧
    ∃ s', writei 0 [7, 8, 9] 1 oneByteOpen = .ok 3 s' ∧ Reads 0 [0, 7, 8, 9] s' := by
  obtain ⟨hv, hl⟩ := oneByte_locked
  have hview : oneByteOpen.view 1 = image 36 oneByte := rfl
  have hcont : contents (oneByteOpen.view 1) (table (image 36 oneByte) 2) = [0] := by
    rw [hview, contents_live oneByte_ok oneByte_live]
    rfl
  have henough : Enough imageSb (table (image 36 oneByte)) 2 1 3 oneByteOpen :=
    ⟨rfl, by decide +kernel, by decide +kernel⟩
  have hvacant : Vacant (table (image 36 oneByte) 2).kids oneByteOpen := by
    have hkid : ∀ k ∈ (table (image 36 oneByte) 2).kids, k = 3 := by
      intro k hk
      obtain ⟨i, h0, rfl⟩ := mem_kids.mp hk
      rw [oneByte_file] at h0 ⊢
      cases i
      · rfl
      · exact absurd rfl h0
    have hfree : (1 : Fin 100) ∈ freeSlots oneByteOpen :=
      Finset.mem_filter.mpr ⟨Finset.mem_univ _, rfl⟩
    refine ⟨⟨{3}, fun k hk => Or.inr (Finset.mem_singleton.mpr (hkid k hk)), ?_⟩, fun j hj => ?_⟩
    · rw [Finset.card_singleton]
      exact Finset.card_pos.mpr ⟨1, hfree⟩
    · by_cases h0 : j = 0
      · subst h0
        exact ⟨by decide, fun hk => absurd (hkid _ hk) (by decide)⟩
      · have hslot : oneByteOpen.icache j = Inode.unused :=
          (locked_ne _ h0).trans (if_neg h0)
        rw [hslot] at hj
        cases hj
  obtain ⟨s', D', c, hrun, rfl, -, -, hread, -⟩ :=
    (writei_read_back imageSb _ _ _ ∅ oneByteOpen 0 2 1
    [7, 8, 9] hv.begun (image_fs oneByte_ok (by decide))
    (image_paired oneByte_ok (by decide +kernel))
    hl (Or.inl (by rw [oneByte_file]; rfl)) (by decide)).2 (by rw [oneByte_file]; decide)
    (by decide) henough hvacant
  refine ⟨rfl, s', hrun, ?_⟩
  rw [hcont] at hread
  exact hread

/-- The file with the ditto in slot 0, other files in all other slots. -/
def crowdFile : Fin 100 → Nat := seats 2 3

/-- The file of `crowded crowdFile` locked in a transaction. -/
def crowdOpen : State := ((crowded crowdFile).locked 0).begun

theorem writei_read_back_crowded :
    (Vol crowdSb (leaked crowdSb crowd (table crowd)) (table crowd) crowdLinks ∅ ∅ crowdOpen ∧
      Fs crowdSb (crowdOpen.view 1) (table crowd) ∧ Paired crowdSb (table crowd) ∧
      Loaded crowdOpen 0 2 ∧ (table crowd 2).type = T_FILE ∧
      Enough crowdSb (table crowd) 2 0 1 crowdOpen) ∧
    ∃ s', writei 0 [7] 0 crowdOpen = .panic "iget: no inodes" s' := by
  have htab : table crowd 2 = (crowdInode 2).core := table_crowd (by decide)
  have hc : Caches (crowded crowdFile).icache 0 2 := ⟨by decide, rfl⟩
  obtain ⟨hv, hl⟩ := (crowded_vol (f := crowdFile) rfl (by decide) (by decide) (by decide)).locked
    hc
  refine ⟨⟨hv.begun, crowd_fs, crowd_paired, hl, by rw [htab]; rfl, rfl, by decide +kernel,
    by decide +kernel⟩, Res.of_panic (by decide +kernel)⟩

end Zv6
