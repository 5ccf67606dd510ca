/-
  Directories as finite maps.

  The data of a directory is a table of 16-byte slots (`dirSlot`): a slot whose inode number is 0
  is empty, any other holds a name, as far as `namecmp` looks at it (`cname`), and an inode
  number. On a directory whose blocks are there (`DirAt`) the scans of `dirlookup` and `dirlink`
  are the search and the vacancy of that table.

  `linked` and `unlinked` are the data after an entry was written or zeroed; the map they hold is
  the old one with that entry added or removed.
-/
import Zv6.Fs.Content
import Zv6.Lib.SlotMap
import Zv6.Model.Sysfile

namespace Zv6

open Lib Function

/-! ## Names -/

/-- A name as far as `namecmp` looks at it: up to its first NUL, at most 14 bytes. -/
def cname (name : Name) : List UInt8 := (name.take 14).takeWhile (· != 0)

theorem strncmpEq_iff (n : Nat) : ∀ p q : List UInt8, strncmpEq n p q = true ↔
    (p.take n).takeWhile (· != 0) = (q.take n).takeWhile (· != 0) := by
  induction n with
  | zero => simp [strncmpEq]
  | succ n ih =>
    intro p q
    unfold strncmpEq
    cases p with
    | nil =>
      cases q with
      | nil => simp
      | cons b q =>
        by_cases hb : b = 0
        · simp [hb]
        · simp [hb, Ne.symm hb]
    | cons a p =>
      cases q with
      | nil => by_cases ha : a = 0 <;> simp [ha]
      | cons b q =>
        by_cases ha : a = 0
        · by_cases hb : b = 0
          · simp [ha, hb]
          · simp [ha, hb, Ne.symm hb]
        · by_cases hab : a = b
          · subst hab
            simp [ha, ih]
          · by_cases hb : b = 0 <;> simp [ha, hb, hab]

theorem namecmp_iff {p q : Name} : namecmp p q = true ↔ cname p = cname q := strncmpEq_iff 14 p q

/-! ## Slots -/

/-- Entry `i` of a directory. -/
def entryAt (data : List UInt8) (i : Nat) : Dirent :=
  Dirent.ofBytes ((data.drop (16 * i)).take 16)

/-- How many entries a directory has, empty ones included. -/
def dirCount (data : List UInt8) : Nat := data.length / 16

/-- Slot `i` of a directory: empty, or a name and an inode number. -/
def dirSlot (data : List UInt8) (i : Nat) : Option (List UInt8 × Nat) :=
  if (entryAt data i).inum = 0 then none
  else some (cname (entryAt data i).name, (entryAt data i).inum.toNat)

/-- The slot of a name. -/
def findName (data : List UInt8) (name : Name) : Option Nat :=
  SlotMap.find (dirCount data) (dirSlot data) (cname name)

/-- The inode number of a name and the offset of its entry. -/
def lookup (data : List UInt8) (name : Name) : Option (Nat × Nat) :=
  (findName data name).map fun i => ((entryAt data i).inum.toNat, 16 * i)

/-- The first empty slot, or the end of the directory. -/
def dirVacancy (data : List UInt8) : Nat := SlotMap.vacancy (dirCount data) (dirSlot data)

theorem dirVacancy_spec (data : List UInt8) : dirVacancy data ≤ dirCount data ∧
    (dirVacancy data < dirCount data → dirSlot data (dirVacancy data) = none) ∧
    ∀ j < dirVacancy data, dirSlot data j ≠ none := SlotMap.vacancy_spec

/-- Entry `i` is live and `namecmp` finds its name equal to `name`. -/
def Named (data : List UInt8) (name : Name) (i : Nat) : Prop :=
  i < dirCount data ∧ (entryAt data i).inum ≠ 0 ∧ namecmp name (entryAt data i).name = true

/-- No two live entries have one name. -/
def DistinctNames (data : List UInt8) : Prop :=
  ∀ i < dirCount data, ∀ j < dirCount data, (entryAt data i).inum ≠ 0 →
    (entryAt data j).inum ≠ 0 → namecmp (entryAt data i).name (entryAt data j).name = true → i = j

theorem key_dirSlot (data : List UInt8) (i : Nat) (name : Name) :
    SlotMap.key (dirSlot data) i = some (cname name) ↔
      (entryAt data i).inum ≠ 0 ∧ namecmp name (entryAt data i).name = true := by
  unfold SlotMap.key dirSlot
  rw [namecmp_iff]
  by_cases h0 : (entryAt data i).inum = 0
  · simp [h0]
  · simp [h0, eq_comm]

theorem distinctNames_iff {data : List UInt8} :
    DistinctNames data ↔ SlotMap.Distinct (dirCount data) (dirSlot data) := by
  have hkey : ∀ i k, SlotMap.key (dirSlot data) i = some k ↔
      (entryAt data i).inum ≠ 0 ∧ cname (entryAt data i).name = k := by
    intro i k
    unfold SlotMap.key dirSlot
    by_cases h0 : (entryAt data i).inum = 0
    · simp [h0]
    · simp [h0]
  constructor
  · intro h i hi j hj k hik hjk
    obtain ⟨hi0, hik⟩ := (hkey i k).mp hik
    obtain ⟨hj0, hjk⟩ := (hkey j k).mp hjk
    exact h i hi j hj hi0 hj0 (namecmp_iff.mpr (hik.trans hjk.symm))
  · intro h i hi j hj hi0 hj0 hn
    exact h i hi j hj _ ((hkey i _).mpr ⟨hi0, rfl⟩) ((hkey j _).mpr ⟨hj0, (namecmp_iff.mp hn).symm⟩)

/-- The lookup of a name is the entry of that name. -/
theorem DistinctNames.lookup_eq_some {data : List UInt8} (h : DistinctNames data) (name : Name)
    (r : Nat × Nat) : lookup data name = some r ↔
      ∃ i, Named data name i ∧ r = ((entryAt data i).inum.toNat, 16 * i) := by
  unfold lookup findName
  rw [Option.map_eq_some_iff]
  constructor
  · rintro ⟨i, hi, rfl⟩
    obtain ⟨hlt, hk⟩ := SlotMap.find_some hi
    exact ⟨i, ⟨hlt, (key_dirSlot data i name).mp hk⟩, rfl⟩
  · rintro ⟨i, ⟨hlt, hk⟩, rfl⟩
    exact ⟨i, (distinctNames_iff.mp h).find_eq_some.mpr ⟨hlt, (key_dirSlot data i name).mpr hk⟩,
      rfl⟩

/-! ## The scans -/

/-- Slot `dp` of the inode cache holds a directory with the entries `data`, all its blocks
    there. -/
structure DirAt (s : State) (dp : Fin 100) (data : List UInt8) : Prop where
  dev : (s.icache dp).dev = 1
  type : (s.icache dp).d.type = T_DIR
  mapped : Mapped (s.view 1) (s.icache dp).d
  holds : contents (s.view 1) (s.icache dp).d = data
  whole : data.length % 16 = 0

section Scans

variable {s : State} {dp : Fin 100} {data : List UInt8}

theorem DirAt.size (h : DirAt s dp data) : (s.icache dp).d.size.toNat = 16 * dirCount data := by
  have := h.whole
  unfold dirCount
  rw [← length_contents (s.view 1), h.holds]
  omega

/-- The scans read entry by entry. -/
theorem DirAt.read (h : DirAt s dp data) {i : Nat} (hi : i < dirCount data) :
    readi dp (16 * i) 16 s = .ok (16, (data.drop (16 * i)).take 16) s := by
  have hsize := h.size
  have hle := h.mapped.size_le
  have hread := readi_mapped (s := s) (by rw [h.dev]) rfl (by rw [h.type]; decide) h.mapped
    (16 * i) 16
  rw [hread, readResult_le _ _ (by omega) (by omega), Nat.min_eq_left (by omega)]
  have hslice : slice (s.view 1) (s.icache dp).d (16 * i) 16 = (data.drop (16 * i)).take 16 := by
    rw [← h.holds]
    unfold contents
    rw [drop_slice, take_slice, Nat.zero_add, Nat.min_eq_left (by omega)]
  rw [hslice]
  rfl

theorem DirAt.dirlookupLoop (h : DirAt s dp data) (name : Name) (k : Nat) : ∀ i,
    dirCount data ≤ i + k → Zv6.dirlookupLoop dp name k (16 * i) s =
      .ok (((List.range' i (dirCount data - i)).find? fun i =>
        decide (SlotMap.key (dirSlot data) i = some (cname name))).map fun i =>
          ((entryAt data i).inum.toNat, 16 * i)) s := by
  have hsize := h.size
  induction k with
  | zero =>
    intro i hi
    rw [Nat.sub_eq_zero_of_le (by omega)]
    rfl
  | succ k ih =>
    intro i hi
    by_cases hlt : i < dirCount data
    · have hstep : Zv6.dirlookupLoop dp name (k + 1) (16 * i) s =
          (if (entryAt data i).inum = 0 then Zv6.dirlookupLoop dp name k (16 * (i + 1))
            else if namecmp name (entryAt data i).name then
              pure (some ((entryAt data i).inum.toNat, 16 * i))
            else Zv6.dirlookupLoop dp name k (16 * (i + 1))) s := by
        conv => lhs; unfold Zv6.dirlookupLoop
        rw [Exec.bind_ok (inode_apply dp s), if_pos (by omega), Exec.bind_ok (h.read hlt)]
        exact congrFun (if_neg (by decide)) s
      have hrest : dirCount data - i = dirCount data - (i + 1) + 1 := by omega
      have hnext := ih (i + 1) (by omega)
      rw [hstep, hrest, List.range'_succ, List.find?_cons]
      have hkey := key_dirSlot data i name
      by_cases h0 : (entryAt data i).inum = 0
      · have hno : ¬ SlotMap.key (dirSlot data) i = some (cname name) := fun hk =>
          (hkey.mp hk).1 h0
        simp only [decide_eq_false hno]
        rw [if_pos h0]
        exact hnext
      · by_cases hn : namecmp name (entryAt data i).name = true
        · simp only [decide_eq_true (hkey.mpr ⟨h0, hn⟩)]
          rw [if_neg h0, if_pos hn]
          rfl
        · have hno : ¬ SlotMap.key (dirSlot data) i = some (cname name) := fun hk =>
            hn (hkey.mp hk).2
          simp only [decide_eq_false hno]
          rw [if_neg h0, if_neg hn]
          exact hnext
    · unfold Zv6.dirlookupLoop
      rw [Exec.bind_ok (inode_apply dp s), if_neg (by omega), Nat.sub_eq_zero_of_le (by omega)]
      rfl

/-- `dirlookup` finds the entry of the name and takes its inode. -/
theorem DirAt.dirlookup (h : DirAt s dp data) (name : Name) : Zv6.dirlookup dp name s =
    match lookup data name with
    | none => .ok none s
    | some (inum, off) => (do let ip ← iget 1 inum; pure (some (ip, off)) : K _) s := by
  have hloop := h.dirlookupLoop name ((s.icache dp).d.size.toNat / 16 + 1) 0 (by
    have := h.size
    omega)
  rw [Nat.sub_zero, ← List.range_eq_range'] at hloop
  have hloop : Zv6.dirlookupLoop dp name ((s.icache dp).d.size.toNat / 16 + 1) 0 s =
      .ok (lookup data name) s := hloop
  unfold Zv6.dirlookup
  rw [Exec.bind_ok (inode_apply dp s), if_neg (by rw [h.type]; simp), Exec.bind_ok hloop, h.dev]
  cases lookup data name with
  | none => rfl
  | some r => rfl

theorem DirAt.emptySlotLoop (h : DirAt s dp data) (k : Nat) : ∀ i, i ≤ dirCount data →
    dirCount data ≤ i + k → Zv6.emptySlotLoop dp k (16 * i) s =
      .ok (16 * ((List.range' i (dirCount data - i)).find? fun i =>
        (dirSlot data i).isNone).getD (dirCount data)) s := by
  have hsize := h.size
  induction k with
  | zero =>
    intro i hle hi
    have : i = dirCount data := by omega
    rw [Nat.sub_eq_zero_of_le (by omega), this]
    rfl
  | succ k ih =>
    intro i hle hi
    by_cases hlt : i < dirCount data
    · have hstep : Zv6.emptySlotLoop dp (k + 1) (16 * i) s =
          (if (entryAt data i).inum = 0 then pure (16 * i)
            else Zv6.emptySlotLoop dp k (16 * (i + 1))) s := by
        conv => lhs; unfold Zv6.emptySlotLoop
        rw [Exec.bind_ok (inode_apply dp s), if_pos (by omega), Exec.bind_ok (h.read hlt)]
        exact congrFun (if_neg (by decide)) s
      have hrest : dirCount data - i = dirCount data - (i + 1) + 1 := by omega
      have hnext := ih (i + 1) (by omega) (by omega)
      rw [hstep, hrest, List.range'_succ, List.find?_cons]
      by_cases h0 : (entryAt data i).inum = 0
      · have hnone : (dirSlot data i).isNone = true := by
          unfold dirSlot
          rw [if_pos h0]
          rfl
        simp only [hnone]
        rw [if_pos h0]
        rfl
      · have hsome : (dirSlot data i).isNone = false := by
          unfold dirSlot
          rw [if_neg h0]
          rfl
        simp only [hsome]
        rw [if_neg h0]
        exact hnext
    · have : i = dirCount data := by omega
      unfold Zv6.emptySlotLoop
      rw [Exec.bind_ok (inode_apply dp s), if_neg (by omega), Nat.sub_eq_zero_of_le (by omega),
        this]
      rfl

/-- The scan of `dirlink` ends at the first empty slot. -/
theorem DirAt.emptySlot (h : DirAt s dp data) :
    Zv6.emptySlotLoop dp ((s.icache dp).d.size.toNat / 16 + 1) 0 s =
      .ok (16 * dirVacancy data) s := by
  have hloop := h.emptySlotLoop ((s.icache dp).d.size.toNat / 16 + 1) 0 (Nat.zero_le _) (by
    have := h.size
    omega)
  rw [Nat.sub_zero, ← List.range_eq_range'] at hloop
  exact hloop

end Scans

/-! ## Changing an entry -/

/-- The data after an entry for `name` was written to the first empty slot. -/
def linked (data : List UInt8) (name : Name) (inum : Nat) : List UInt8 :=
  overwrite data (16 * dirVacancy data) { inum := UInt16.ofNat inum, name := name : Dirent }.bytes

/-- The data after the entry in slot `i` was zeroed. -/
def unlinked (data : List UInt8) (i : Nat) : List UInt8 :=
  overwrite data (16 * i) (List.replicate 16 0)

@[simp] theorem length_bytes (de : Dirent) : de.bytes.length = 16 := by
  simp [Dirent.bytes]

/-- Padding a name with NULs does not change it. -/
theorem takeWhile_pad (n : Nat) : ∀ l : List UInt8,
    ((List.range n).map fun k => l.getD k 0).takeWhile (· != 0) =
      (l.take n).takeWhile (· != 0) := by
  induction n with
  | zero => simp
  | succ n ih =>
    intro l
    rw [List.range_succ_eq_map, List.map_cons, List.map_map]
    cases l with
    | nil => simp
    | cons a l =>
      have htail : ((fun k => (a :: l).getD k 0) ∘ Nat.succ) = fun k => l.getD k 0 := rfl
      rw [htail, List.take_succ_cons]
      by_cases ha : a = 0
      · simp [ha]
      · have hhead : (a :: l).getD 0 0 = a := rfl
        rw [hhead, List.takeWhile_cons_of_pos (by simpa using ha),
          List.takeWhile_cons_of_pos (by simpa using ha), ih]

theorem ofBytes_bytes (de : Dirent) : (Dirent.ofBytes de.bytes).inum = de.inum ∧
    cname (Dirent.ofBytes de.bytes).name = cname de.name := by
  have hname : (Dirent.ofBytes de.bytes).name = (List.range 14).map fun k => de.name.getD k 0 := by
    show (List.drop 2 (le16 de.inum ++ _)).take 14 = _
    rw [List.drop_left' (length_le16 _), List.take_of_length_le (by simp)]
  constructor
  · show getU16 (fun k => de.bytes.getD k 0) 0 = de.inum
    refine getU16_le16 de.inum _ 0 fun k hk => ?_
    have hk : k = 0 ∨ k = 1 := by omega
    rcases hk with rfl | rfl <;> rfl
  · rw [hname]
    unfold cname
    rw [List.take_of_length_le (by simp), takeWhile_pad]

section Change

variable {data src : List UInt8} {i j : Nat}

theorem entryAt_overwrite_self (hi : 16 * i ≤ data.length) (hs : src.length = 16) :
    entryAt (overwrite data (16 * i) src) i = Dirent.ofBytes src := by
  unfold entryAt
  congr 1
  apply List.ext_getElem?
  intro k
  rw [List.getElem?_take, List.getElem?_drop, getElem?_overwrite hi]
  by_cases hk : k < 16
  · rw [if_pos hk, if_pos (by omega), Nat.add_sub_cancel_left]
  · rw [if_neg hk, List.getElem?_eq_none (by omega)]

theorem entryAt_overwrite_ne (hi : 16 * i ≤ data.length) (hs : src.length = 16) (hj : j ≠ i) :
    entryAt (overwrite data (16 * i) src) j = entryAt data j := by
  unfold entryAt
  congr 1
  apply List.ext_getElem?
  intro k
  rw [List.getElem?_take, List.getElem?_take, List.getElem?_drop, List.getElem?_drop,
    getElem?_overwrite hi]
  by_cases hk : k < 16
  · rw [if_pos hk, if_pos hk, if_neg (by omega)]
  · rw [if_neg hk, if_neg hk]

theorem dirCount_overwrite (hw : data.length % 16 = 0) (hi : i ≤ dirCount data)
    (hs : src.length = 16) :
    (overwrite data (16 * i) src).length = 16 * max (dirCount data) (i + 1) ∧
      dirCount (overwrite data (16 * i) src) = max (dirCount data) (i + 1) := by
  unfold dirCount at hi ⊢
  rw [length_overwrite (by omega), hs]
  omega

/-- Writing one entry changes one slot. -/
theorem dirSlot_overwrite (hw : data.length % 16 = 0) (hi : i ≤ dirCount data)
    (hs : src.length = 16) : dirSlot (overwrite data (16 * i) src) =
      update (dirSlot data) i (if (Dirent.ofBytes src).inum = 0 then none
        else some (cname (Dirent.ofBytes src).name, (Dirent.ofBytes src).inum.toNat)) := by
  have hi' : 16 * i ≤ data.length := by
    unfold dirCount at hi
    omega
  funext j
  by_cases e : j = i
  · subst e
    rw [update_self]
    unfold dirSlot
    rw [entryAt_overwrite_self hi' hs]
  · rw [update_of_ne e]
    unfold dirSlot
    rw [entryAt_overwrite_ne hi' hs e]

theorem findName_some {name : Name} (h : findName data name = some i) :
    i < dirCount data ∧ dirSlot data i ≠ none := by
  obtain ⟨hi, hk⟩ := SlotMap.find_some h
  refine ⟨hi, fun h0 => ?_⟩
  unfold SlotMap.key at hk
  rw [h0] at hk
  cases hk

theorem lookup_eq_none {name : Name} : lookup data name = none ↔ findName data name = none := by
  unfold lookup
  rw [Option.map_eq_none_iff]

end Change

section Link

variable {data : List UInt8} {name name' : Name} {inum : Nat}

theorem dirSlot_linked (hw : data.length % 16 = 0) (h0 : 0 < inum) (hlt : inum < 65536) :
    dirSlot (linked data name inum) =
      update (dirSlot data) (dirVacancy data) (some (cname name, inum)) := by
  obtain ⟨hb, hn⟩ := ofBytes_bytes { inum := UInt16.ofNat inum, name := name }
  have hnat : (UInt16.ofNat inum).toNat = inum := by
    rw [UInt16.toNat_ofNat']
    exact Nat.mod_eq_of_lt hlt
  have hne : UInt16.ofNat inum ≠ 0 := by
    intro e
    rw [e] at hnat
    exact absurd hnat h0.ne
  unfold linked
  rw [dirSlot_overwrite hw (dirVacancy_spec data).1 (length_bytes _), hb, hn, if_neg hne, hnat]

theorem dirCount_linked (hw : data.length % 16 = 0) :
    (linked data name inum).length = 16 * max (dirCount data) (dirVacancy data + 1) ∧
      dirCount (linked data name inum) = max (dirCount data) (dirVacancy data + 1) :=
  dirCount_overwrite hw (dirVacancy_spec data).1 (length_bytes _)

theorem DistinctNames.linked (h : DistinctNames data) (hw : data.length % 16 = 0)
    (hno : lookup data name = none) (h0 : 0 < inum) (hlt : inum < 65536) :
    DistinctNames (Zv6.linked data name inum) := by
  rw [distinctNames_iff, (dirCount_linked hw).2, dirSlot_linked hw h0 hlt]
  exact (distinctNames_iff.mp h).put (dirVacancy_spec data).1
    (SlotMap.find_eq_none.mp (lookup_eq_none.mp hno))

theorem DistinctNames.lookup_linked_self (h : DistinctNames data) (hw : data.length % 16 = 0)
    (hno : lookup data name = none) (h0 : 0 < inum) (hlt : inum < 65536) :
    lookup (Zv6.linked data name inum) name = some (inum, 16 * dirVacancy data) := by
  have hfind : findName (Zv6.linked data name inum) name = some (dirVacancy data) := by
    unfold findName
    rw [(dirCount_linked hw).2, dirSlot_linked hw h0 hlt]
    exact (distinctNames_iff.mp h).find_put_self (dirVacancy_spec data).1
      (SlotMap.find_eq_none.mp (lookup_eq_none.mp hno))
  have hentry : (entryAt (Zv6.linked data name inum) (dirVacancy data)).inum.toNat = inum := by
    have hslot := congrFun (@dirSlot_linked data name inum hw h0 hlt) (dirVacancy data)
    rw [update_self] at hslot
    unfold dirSlot at hslot
    split at hslot
    · cases hslot
    · exact (Prod.mk.inj (Option.some.inj hslot)).2
  unfold lookup
  rw [hfind, Option.map_some, hentry]

theorem DistinctNames.lookup_linked_ne (h : DistinctNames data) (hw : data.length % 16 = 0)
    (hno : lookup data name = none) (h0 : 0 < inum) (hlt : inum < 65536)
    (hne : cname name' ≠ cname name) :
    lookup (Zv6.linked data name inum) name' = lookup data name' := by
  obtain ⟨hle, hfree, -⟩ := dirVacancy_spec data
  have hfind : findName (Zv6.linked data name inum) name' = findName data name' := by
    unfold findName
    rw [(dirCount_linked hw).2, dirSlot_linked hw h0 hlt]
    exact (distinctNames_iff.mp h).find_put_ne hle hfree
      (SlotMap.find_eq_none.mp (lookup_eq_none.mp hno)) hne
  unfold lookup
  rw [hfind]
  refine Option.map_congr fun i hi => ?_
  obtain ⟨hi, hsome⟩ := findName_some hi
  have hiv : i ≠ dirVacancy data := by
    rintro rfl
    exact hsome (hfree hi)
  rw [Zv6.linked, entryAt_overwrite_ne _ (length_bytes _) hiv]
  unfold dirCount at hle
  omega

end Link

section Unlink

variable {data : List UInt8} {name name' : Name} {i inum off : Nat}

theorem dirSlot_unlinked (hw : data.length % 16 = 0) (hi : i < dirCount data) :
    dirSlot (unlinked data i) = update (dirSlot data) i none := by
  unfold unlinked
  rw [dirSlot_overwrite hw hi.le (List.length_replicate ..), if_pos (by decide)]

theorem dirCount_unlinked (hw : data.length % 16 = 0) (hi : i < dirCount data) :
    (unlinked data i).length = data.length ∧ dirCount (unlinked data i) = dirCount data := by
  obtain ⟨h1, h2⟩ := dirCount_overwrite hw hi.le
    (List.length_replicate (n := 16) (a := (0 : UInt8)))
  unfold unlinked
  rw [h1, h2]
  unfold dirCount at hi ⊢
  omega

theorem lookup_some (h : lookup data name = some (inum, off)) :
    ∃ i, findName data name = some i ∧ off = 16 * i ∧ inum = (entryAt data i).inum.toNat := by
  unfold lookup at h
  obtain ⟨i, hi, he⟩ := Option.map_eq_some_iff.mp h
  exact ⟨i, hi, (Prod.mk.inj he).2.symm, (Prod.mk.inj he).1.symm⟩

theorem DistinctNames.unlinked (h : DistinctNames data) (hw : data.length % 16 = 0)
    (hi : i < dirCount data) : DistinctNames (Zv6.unlinked data i) := by
  rw [distinctNames_iff, (dirCount_unlinked hw hi).2, dirSlot_unlinked hw hi]
  exact (distinctNames_iff.mp h).clear

theorem DistinctNames.lookup_unlinked_self (h : DistinctNames data) (hw : data.length % 16 = 0)
    (hf : findName data name = some i) : lookup (Zv6.unlinked data i) name = none := by
  have hi := (findName_some hf).1
  rw [lookup_eq_none]
  unfold findName
  rw [(dirCount_unlinked hw hi).2, dirSlot_unlinked hw hi]
  exact (distinctNames_iff.mp h).find_clear_self hf

theorem DistinctNames.lookup_unlinked_ne (h : DistinctNames data) (hw : data.length % 16 = 0)
    (hf : findName data name = some i) (hne : cname name' ≠ cname name) :
    lookup (Zv6.unlinked data i) name' = lookup data name' := by
  have hi := (findName_some hf).1
  have hfind : findName (Zv6.unlinked data i) name' = findName data name' := by
    unfold findName
    rw [(dirCount_unlinked hw hi).2, dirSlot_unlinked hw hi]
    exact (distinctNames_iff.mp h).find_clear_ne hf hne
  unfold lookup
  rw [hfind]
  refine Option.map_congr fun j hj => ?_
  have hji : j ≠ i := by
    rintro rfl
    have h1 := (SlotMap.find_some hf).2
    rw [(SlotMap.find_some hj).2] at h1
    exact hne (Option.some.inj h1)
  rw [Zv6.unlinked, entryAt_overwrite_ne _ (List.length_replicate ..) hji]
  unfold dirCount at hi
  omega

end Unlink

end Zv6
