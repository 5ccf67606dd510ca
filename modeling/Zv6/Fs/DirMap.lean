/-
  `dirlookup`, `dirlink` and the entry `unlink` zeroes, on a directory of a consistent volume.

  `Maps s dp data`: slot `dp` holds a directory with the entries `data`, and `dirlookup` from it
  is the search in them. `dirlink` of a new name and the zeroing of an entry leave a slot that
  `Maps` the changed entries; `dirlink` of a name that is there changes nothing but slots of the
  inode cache that are not in use.
-/
import Zv6.Fs.Dirs
import Zv6.Fs.ReadBack

namespace Zv6

open Lib

/-- A slot can be had for inode `k`: it has one, or one is free. -/
def HasRoom (s : State) (k : Nat) : Prop :=
  (∃ j, Caches s.icache j k) ∨ (freeSlots s).Nonempty

/-- `dirlookup` of `name` from slot `dp` yields the inode number and the offset `r`. -/
def Yields (s : State) (dp : Fin 100) (name : Name) : Option (Nat × Nat) → Prop
  | none => dirlookup dp name s = .ok none s
  | some (inum, off) => HasRoom s inum →
      ∃ j s', dirlookup dp name s = .ok (some (j, off)) s' ∧ Got inum s j s'

structure Maps (s : State) (dp : Fin 100) (data : List UInt8) : Prop where
  at_dir : DirAt s dp data
  yields : ∀ name, Yields s dp name (lookup data name)

/-- Only slots of the inode cache that are not in use differ. -/
structure SameInUse (s s' : State) : Prop where
  only : CacheOnly s s'
  ref : ∀ j, (s'.icache j).ref = (s.icache j).ref
  slot : ∀ j, 0 < (s.icache j).ref → s'.icache j = s.icache j

section DirMap

variable {sb : Superblock} {L : Set Nat} {D : Nat → Dinode} {N : Nat → UInt16} {A : Set Nat}
  {s s' : State} {dp j : Fin 100} {n k off : Nat} {data src : List UInt8} {name : Name}

theorem iget_room (hdev : ∀ x, 0 < (s.icache x).ref → (s.icache x).dev = 1)
    (h : HasRoom s k) : ∃ j s', iget 1 k s = .ok j s' ∧ Got k s j s' := by
  refine (iget_dev_wp hdev k).returns_of ?_
  rintro c s' ⟨-, hfree, hno⟩
  rcases h with ⟨j, hj⟩ | ⟨j, hj⟩
  · exact hno j hj
  · rw [hfree] at hj
    exact Finset.notMem_empty j hj

theorem DirAt.maps (h : DirAt s dp data) (hdev : ∀ x, 0 < (s.icache x).ref → (s.icache x).dev = 1) :
    Maps s dp data := by
  refine ⟨h, fun name => ?_⟩
  have hrun := h.dirlookup name
  cases hl : lookup data name with
  | none =>
    rw [hl] at hrun
    exact hrun
  | some r =>
    obtain ⟨inum, off⟩ := r
    rw [hl] at hrun
    intro hroom
    obtain ⟨j, s', hget, hg⟩ := iget_room hdev hroom
    refine ⟨j, s', ?_, hg⟩
    rw [hrun]
    show ((do let ip ← iget 1 inum; pure (some (ip, off)) : K _) s) = _
    rw [Exec.bind_ok hget]
    rfl

/-- A directory of the volume. -/
theorem Vol.dirAt (h : Vol sb L D N A ∅ s) (hdp : Loaded s dp n) (ht : (D n).type = T_DIR)
    (hm : Mapped (s.view 1) (D n)) (hw : (contents (s.view 1) (D n)).length % 16 = 0) :
    DirAt s dp (contents (s.view 1) (D n)) := by
  have hh := (h.has hdp (by simp)).1
  rw [← hh] at hm ht hw ⊢
  exact ⟨(h.live hdp.1).1, ht, ⟨hm.size_le, hm.block⟩, rfl, hw⟩

/-- `iput` of an inode that stays. -/
theorem iput_keep (h : ¬ ((s.icache j).ref = 1 ∧ (s.icache j).valid = true ∧
    (s.icache j).d.nlink = 0)) :
    iput j s = .ok () (s.setInode j { s.icache j with ref := (s.icache j).ref - 1 }) := by
  unfold iput
  rw [Exec.bind_ok (inode_apply j s), if_neg h]
  rfl

/-- A reference just taken is dropped again. -/
theorem Got.iput (h : Got k s j s') : ∃ s'', Zv6.iput j s' = .ok () s'' ∧ SameInUse s s'' := by
  rcases h with ⟨hj, rfl⟩ | ⟨-, h0, rfl⟩
  · refine ⟨_, iput_keep ?_, ?_⟩
    · rw [setInode_self]
      have := hj.1
      rintro ⟨hr, -⟩
      have hr : (s.icache j).ref + 1 = 1 := hr
      omega
    · rw [setInode_self, setInode_setInode]
      have hsame : ({ s.icache j with ref := (s.icache j).ref + 1 - 1 } : Inode) = s.icache j := by
        rw [Int.add_sub_cancel]
      show SameInUse s (s.setInode j { s.icache j with ref := (s.icache j).ref + 1 - 1 })
      rw [hsame, setInode_same]
      exact ⟨rfl, fun _ => rfl, fun _ _ => rfl⟩
  · refine ⟨_, iput_keep ?_, ?_⟩
    · rw [setInode_self]
      rintro ⟨-, hv, -⟩
      cases hv
    · rw [setInode_self, setInode_setInode]
      refine ⟨rfl, fun x => ?_, fun x hx => ?_⟩
      · by_cases e : x = j
        · subst e
          rw [setInode_self, h0]
          rfl
        · rw [setInode_ne s _ e]
      · rw [setInode_ne]
        rintro rfl
        omega

theorem Maps.dirlink_present (h : Maps s dp data) (hl : lookup data name = some (k, off))
    (hroom : HasRoom s k) (inum : Nat) :
    ∃ s', dirlink dp name inum s = .ok (-1) s' ∧ SameInUse s s' := by
  have hy := h.yields name
  rw [hl] at hy
  obtain ⟨j, s1, hrun, hg⟩ := hy hroom
  obtain ⟨s2, hput, hsame⟩ := hg.iput
  refine ⟨s2, ?_, hsame⟩
  unfold dirlink
  rw [Exec.bind_ok hrun]
  show (do Zv6.iput j; pure (-1) : K Int) s1 = _
  rw [Exec.bind_ok hput]
  rfl

variable (h : Vol sb L D N A ∅ s) (hfs : Fs sb (s.view 1) D)
    (hp : Paired sb D) (hdp : Loaded s dp n) (ht : (D n).type = T_DIR)
    (hd : contents (s.view 1) (D n) = data) (hw : data.length % 16 = 0)
    (hmax : data.length < 70656)

include h hfs hp hdp ht hd hw hmax

/-- A directory entry is written. -/
theorem write_entry {i : Nat} (hi : i ≤ dirCount data) (hs : src.length = 16)
    (he : Enough sb D n (16 * i) 16 s) (hv : Vacant (D n).kids s) :
    ∃ s' D', writei dp src (16 * i) s = .ok 16 s' ∧
      Vol sb L D' N (A \ (D n).group n) ∅ s' ∧
      contents (s'.view 1) (D' n) = overwrite data (16 * i) src ∧
      Maps s' dp (overwrite data (16 * i) src) := by
  have hlen : data.length = (D n).size.toNat := by rw [← hd, length_contents]
  have hi' : 16 * i ≤ data.length := by
    unfold dirCount at hi
    omega
  have hr : ¬ Refused (D n) (16 * i) src.length := by
    unfold Refused
    omega
  obtain ⟨s', D', hrun, hsp⟩ := writei_returns h hfs hp hdp (by rw [ht]; decide) hr
    (hs ▸ he) hv
  rw [hs] at hrun
  have hnG : n ∈ (D n).group n := Set.mem_insert n _
  have hdata := hsp.data n hnG
  rw [hd] at hdata
  obtain ⟨a, z, w, hD'⟩ := hsp.file n hnG
  have hdir := hsp.vol.dirAt (hsp.pins.loaded hdp) (by rw [hD']; exact ht) (hsp.mapped n hnG) (by
    rw [hdata, (dirCount_overwrite hw hi hs).1]
    omega)
  rw [hdata] at hdir
  exact ⟨s', D', hrun, hsp.vol, hdata, hdir.maps fun x hx => (hsp.vol.slot x hx).1⟩

theorem dirlink_absent {inum : Nat} (hno : lookup data name = none)
    (he : Enough sb D n (16 * dirVacancy data) 16 s) (hv : Vacant (D n).kids s) :
    ∃ s' D', dirlink dp name inum s = .ok 0 s' ∧ Vol sb L D' N (A \ (D n).group n) ∅ s' ∧
      contents (s'.view 1) (D' n) = linked data name inum ∧ Maps s' dp (linked data name inum) := by
  have hmap : DirAt s dp data := by
    have := h.dirAt hdp ht (hfs.mapped n (h.live hdp.1).2) (by rw [hd]; exact hw)
    rwa [hd] at this
  have hfind := hmap.dirlookup name
  rw [hno] at hfind
  have hfind : dirlookup dp name s = .ok none s := hfind
  obtain ⟨s', D', hrun, hvol, hdata, hmaps⟩ := write_entry h hfs hp hdp ht hd hw hmax
    (dirVacancy_spec data).1 (length_bytes { inum := UInt16.ofNat inum, name := name }) he hv
  refine ⟨s', D', ?_, hvol, hdata, hmaps⟩
  unfold dirlink
  rw [Exec.bind_ok hfind]
  show (do
    let i ← inode dp
    let off ← emptySlotLoop dp (i.d.size.toNat / 16 + 1) 0
    let de : Dirent := { inum := UInt16.ofNat inum, name := name }
    let r ← writei dp de.bytes off
    if r ≠ 16 then Exec.panic "dirlink" else pure 0 : K Int) s = _
  rw [Exec.bind_ok (inode_apply dp s), Exec.bind_ok hmap.emptySlot]
  show (do
    let r ← writei dp _ (16 * dirVacancy data)
    if r ≠ 16 then Exec.panic "dirlink" else pure 0 : K Int) s = _
  rw [Exec.bind_ok hrun]
  rfl

end DirMap

/-- A directory is a finite map from names to inodes: `dirlookup` looks a name up, `dirlink` adds
    a new name at the first vacant entry and refuses one that is there, and zeroing an entry
    removes its name. -/
theorem directory_finite_map (sb : Superblock) (L : Set Nat) (D : Nat → Dinode) (N : Nat → UInt16)
    (A : Set Nat) (s : State) (dp : Fin 100) (n : Nat) (data : List UInt8) (name : Name)
    (inum : Nat) (h : Vol sb L D N A ∅ s) (hfs : Fs sb (s.view 1) D) (hp : Paired sb D)
    (hdp : Loaded s dp n) (ht : (D n).type = T_DIR) (hd : contents (s.view 1) (D n) = data)
    (hw : data.length % 16 = 0) (hmax : data.length < 70656) (hdist : DistinctNames data)
    (h0 : 1 ≤ inum) (hlt : inum ≤ 65535) :
    -- lookup
    (Yields s dp name (lookup data name) ∧ (∀ r, lookup data name = some r ↔
      ∃ i, Named data name i ∧ r = ((entryAt data i).inum.toNat, 16 * i)) ∧
      ∀ i j, Named data name i → Named data name j → i = j) ∧
    -- the name is there
    (∀ k off, lookup data name = some (k, off) → HasRoom s k →
      ∃ s', dirlink dp name inum s = .ok (-1) s' ∧ SameInUse s s') ∧
    -- the name is new
    (lookup data name = none → Enough sb D n (16 * dirVacancy data) 16 s →
      Vacant (D n).kids s → ∃ s' D' data', dirlink dp name inum s = .ok 0 s' ∧
        Vol sb L D' N (A \ (D n).group n) ∅ s' ∧ contents (s'.view 1) (D' n) = data' ∧
        Maps s' dp data' ∧ DistinctNames data' ∧
        lookup data' name = some (inum, 16 * dirVacancy data) ∧
        (∀ name', namecmp name' name = false → lookup data' name' = lookup data name') ∧
        (∀ i < dirVacancy data, (entryAt data i).inum ≠ 0) ∧
        ((∃ i < dirCount data, (entryAt data i).inum = 0) →
          (entryAt data (dirVacancy data)).inum = 0 ∧ data'.length = data.length) ∧
        ((∀ i < dirCount data, (entryAt data i).inum ≠ 0) →
          data'.length = data.length + 16)) ∧
    -- the entry is zeroed
    ∀ k off, lookup data name = some (k, off) → Enough sb D n off 16 s →
      Vacant (D n).kids s → ∃ s' D' data', writei dp (List.replicate 16 0) off s = .ok 16 s' ∧
        Vol sb L D' N (A \ (D n).group n) ∅ s' ∧ contents (s'.view 1) (D' n) = data' ∧
        Maps s' dp data' ∧ DistinctNames data' ∧ lookup data' name = none ∧
        ∀ name', namecmp name' name = false → lookup data' name' = lookup data name' := by
  have hmaps : Maps s dp data := by
    have := h.dirAt hdp ht (hfs.mapped n (h.live hdp.1).2) (by rw [hd]; exact hw)
    rw [hd] at this
    exact this.maps fun x hx => (h.slot x hx).1
  have hne : ∀ name', namecmp name' name = false → cname name' ≠ cname name := by
    intro name' hn he
    rw [namecmp_iff.mpr he] at hn
    cases hn
  have hslot : ∀ i, dirSlot data i = none ↔ (entryAt data i).inum = 0 := by
    intro i
    unfold dirSlot
    by_cases hz : (entryAt data i).inum = 0 <;> simp [hz]
  obtain ⟨hle, hfree, hfirst⟩ := dirVacancy_spec data
  refine ⟨⟨hmaps.yields name, hdist.lookup_eq_some name, fun i j hi hj => ?_⟩,
    fun k off hl hr => hmaps.dirlink_present hl hr inum, fun hno he hv => ?_,
    fun k off hl he hv => ?_⟩
  · exact hdist i hi.1 j hj.1 hi.2.1 hj.2.1 (namecmp_iff.mpr
      ((namecmp_iff.mp hi.2.2).symm.trans (namecmp_iff.mp hj.2.2)))
  · obtain ⟨s', D', hrun, hvol, hdata, hm⟩ :=
      dirlink_absent h hfs hp hdp ht hd hw hmax hno he hv
    have hlen := (@dirCount_linked data name inum hw).1
    have hcount : data.length = 16 * dirCount data := by
      unfold dirCount
      omega
    refine ⟨s', D', _, hrun, hvol, hdata, hm, hdist.linked hw hno h0 (by omega),
      hdist.lookup_linked_self hw hno h0 (by omega),
      fun name' hn => hdist.lookup_linked_ne hw hno h0 (by omega) (hne name' hn),
      fun i hi => fun hz => hfirst i hi ((hslot i).mpr hz), ?_, ?_⟩
    · rintro ⟨i, hi, hz⟩
      have hlt : dirVacancy data < dirCount data := by
        by_contra hge
        exact hfirst i (by omega) ((hslot i).mpr hz)
      refine ⟨(hslot _).mp (hfree hlt), ?_⟩
      rw [hlen]
      omega
    · intro hall
      have hend : dirVacancy data = dirCount data := by
        by_contra hneq
        exact hall _ (by omega) ((hslot _).mp (hfree (by omega)))
      rw [hlen]
      omega
  · obtain ⟨i, hf, rfl, -⟩ := lookup_some hl
    have hi := (findName_some hf).1
    obtain ⟨s', D', hrun, hvol, hdata, hm⟩ := write_entry h hfs hp hdp
      ht hd hw hmax hi.le (@List.length_replicate UInt8 16 0) he hv
    exact ⟨s', D', _, hrun, hvol, hdata, hm, hdist.unlinked hw hi, hdist.lookup_unlinked_self hw hf,
      fun name' hn => hdist.lookup_unlinked_ne hw hf (hne name' hn)⟩

/-- A root directory with "." and ".." only. -/
def bareRoot : List Spec :=
  [{ type := T_DIR, checksum := 0, data :=
      { inum := 1, name := dot : Dirent }.bytes ++ { inum := 1, name := dotdot : Dirent }.bytes }]

/-- The root of `bareRoot` locked in a transaction. -/
def bareOpen : State := ((machine 16 bareRoot 1).locked 0).begun

theorem directory_finite_map_bareRoot : bareOpen.log.busy = true ∧
    ∃ s', dirlink 0 [98] 7 bareOpen = .ok 0 s' ∧
      ∃ data', Maps s' 0 data' ∧ lookup data' [98] = some (7, 32) := by
  have hok : SpecsOk bareRoot := by decide +kernel
  have htab : table (image 16 bareRoot) 1 = (dinodeAt bareRoot 1).core :=
    table_image _ _ (by decide)
  have hlive : Live imageSb (table (image 16 bareRoot)) 1 :=
    ⟨by decide, by decide, by rw [htab]; decide⟩
  have hc : Caches (machine 16 bareRoot 1).icache 0 1 := (machine_caches _ _ _).mpr ⟨rfl, rfl⟩
  obtain ⟨hv, hl⟩ := (machine_vol hok (by decide) hlive).locked hc
  have hcont : contents (bareOpen.view 1) (table (image 16 bareRoot) 1) = dataAt bareRoot 1 :=
    contents_live hok hlive
  have henough : Enough imageSb (table (image 16 bareRoot)) 1 32 16 bareOpen :=
    ⟨rfl, by decide +kernel, by decide +kernel⟩
  have hvacant : Vacant (table (image 16 bareRoot) 1).kids bareOpen := by
    have hkids : (table (image 16 bareRoot) 1).kids = ∅ := by
      rw [htab]
      exact kids_nil rfl rfl
    rw [hkids]
    refine ⟨⟨∅, by simp, Nat.zero_le _⟩, fun j hj => ⟨?_, by simp⟩⟩
    by_cases hj0 : j = 0
    · subst hj0
      decide
    · have hslot : bareOpen.icache j = Inode.unused := (locked_ne _ hj0).trans (if_neg hj0)
      rw [hslot] at hj
      cases hj
  have hmain := directory_finite_map imageSb _ _ _ ∅ bareOpen 0 1 (dataAt bareRoot 1) [98] 7
    hv.begun (image_fs hok (by decide)) (image_paired hok (by decide +kernel)) hl
    (by rw [htab]; rfl) hcont (by decide) (by decide) (by unfold DistinctNames; decide +kernel)
    (by decide) (by decide)
  obtain ⟨s', D', data', hrun, -, -, hm, -, hl, -⟩ :=
    hmain.2.2.1 (by decide +kernel) henough hvacant
  exact ⟨rfl, s', hrun, data', hm, hl⟩

/-- The root in slot 0, other inodes than that of "a" in all other slots. -/
def crowdDir : Fin 100 → Nat := seats 1 3

theorem directory_finite_map_crowded :
    (Vol crowdSb (leaked crowdSb crowd (table crowd)) (table crowd) crowdLinks ∅ ∅
        ((crowded crowdDir).locked 0) ∧
      Fs crowdSb (((crowded crowdDir).locked 0).view 1) (table crowd) ∧
      Paired crowdSb (table crowd) ∧ Loaded ((crowded crowdDir).locked 0) 0 1 ∧
      (table crowd 1).type = T_DIR ∧
      contents (((crowded crowdDir).locked 0).view 1) (table crowd 1) = crowdRoot ∧
      crowdRoot.length % 16 = 0 ∧ crowdRoot.length < 70656 ∧ DistinctNames crowdRoot ∧
      Named crowdRoot [97] 2) ∧
    ∃ s', dirlookup 0 [97] ((crowded crowdDir).locked 0) = .panic "iget: no inodes" s' := by
  have hc : Caches (crowded crowdDir).icache 0 1 := ⟨by decide, rfl⟩
  obtain ⟨hv, hl⟩ := (crowded_vol (f := crowdDir) rfl (by decide) (by decide) (by decide)).locked hc
  refine ⟨⟨hv, crowd_fs, crowd_paired, hl, by rw [table_crowd (by decide)]; rfl,
    contents_crowd_root, by decide, by decide, by unfold DistinctNames; decide +kernel, ?_⟩,
    Res.of_panic (by decide +kernel)⟩
  unfold Named
  decide +kernel

end Zv6
