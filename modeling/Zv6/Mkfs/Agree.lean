/-
  The kernel on an image of mkfs.

  `Reads s i data`: whatever slot of the inode cache holds inode `i` of the image, `readi` returns
  `data` from it and `ichecksum` the stored checksum. `dirlookup` in the root finds the entry of a
  file unless its name is `.` or `..`, which find the root. So the kernel agrees with mkfs unless
  the root has a block missing or a file has one of these names (`agrees_iff`).
-/
import Mathlib.Data.List.TakeWhile
import Zv6.Fs.Dirs
import Zv6.Fs.Holes
import Zv6.Mkfs.Boot

namespace Zv6.Host

open Lib

/-- The name that the kernel looks for. -/
def HostFile.short (f : HostFile) : Name := f.target.take 14

/-- What the kernel reads from inode `i` of the image. -/
def Reads (s : Image) (i : Nat) (data : List UInt8) : Prop :=
  ∀ (k : State) (ip : Fin 100), Booted s k → (k.icache ip).dev = 1 →
    (k.icache ip).d = table s.sect i →
    (∀ n, data.length ≤ n → n < 2 ^ 32 → Zv6.readi ip 0 n k = .ok ((data.length : Int), data) k) ∧
      Zv6.ichecksum ip k = .ok (table s.sect i).checksum k

/-- The kernel finds the files in the root, and copies of the root in its dittos. -/
structure Agrees (fs : List HostFile) (s : Image) : Prop where
  files : ∀ f ∈ fs, ∀ (k : State) (dp : Fin 100), Booted s k → (k.icache dp).dev = 1 →
    (k.icache dp).d = table s.sect 1 → (∃ j, (k.icache j).ref = 0) →
    ∃ jp off k', dirlookup dp f.short k = .ok (some (jp, off)) k' ∧ (k'.icache jp).dev = 1 ∧
      (table s.sect (k'.icache jp).inum).nlink = 1 ∧ Reads s (k'.icache jp).inum f.bytes
  dittos : ∀ second, (table s.sect ((table s.sect 1).child second)).size = (table s.sect 1).size ∧
    (table s.sect ((table s.sect 1).child second)).checksum = (table s.sect 1).checksum ∧
    ∃ data, Reads s 1 data ∧ Reads s ((table s.sect 1).child second) data

variable {fs : List HostFile} {f : HostFile} {s : Image} {k : State} {data : List UInt8} {i j : Nat}

/-! ## Reading inodes of the image -/

theorem Booted.view (h : Booted s k) {b : Nat} (hb : b < 2048) : k.view 1 b = s.sect b := by
  rw [h.idle.view]
  exact h.disk b hb

/-- A file in the image whose blocks are there. -/
structure There (s : Image) (d : Dinode) (data : List UInt8) : Prop where
  file : d.type ≠ T_DEV
  mapped : Mapped s.sect d
  inside : ∀ p, (ref s.sect d p).toNat < 2048
  holds : contents s.sect d = data
  sum : d.checksum = checksumOf data

section There

variable {d : Dinode} (h : There s d data) (hk : Booted s k)
include h hk

theorem There.blockAddr (bn : Nat) : blockAddr (k.view 1) d bn = Zv6.blockAddr s.sect d bn :=
  blockAddr_congr fun _ => hk.view (h.inside none)

theorem There.mapped_view : Mapped (k.view 1) d := by
  refine ⟨h.mapped.size_le, fun bn hbn => ?_⟩
  rw [h.blockAddr hk]
  exact h.mapped.block bn hbn

theorem There.contents : Zv6.contents (k.view 1) d = data := by
  rw [← h.holds]
  refine contents_congr rfl fun o _ => ?_
  unfold byteAt
  rw [h.blockAddr hk]
  exact congrArg (Block.byte · _) (hk.view (h.inside (some (o / 512))))

end There

theorem There.size {d : Dinode} (h : There s d data) : d.size.toNat = data.length := by
  rw [← h.holds, length_contents]

theorem There.reads (h : There s (table s.sect i) data) : Reads s i data := by
  intro k ip hk hdev hd
  have hV : k.view (k.icache ip).dev = k.view 1 := by rw [hdev]
  have hsize := h.size
  have hc := h.contents hk
  constructor
  · intro n hn hlt
    rw [readi_mapped hV hd h.file (h.mapped_view hk), readResult_le 0 n (Nat.zero_le _) (by omega),
      Nat.sub_zero, hsize, Nat.min_eq_right hn]
    unfold Zv6.contents at hc
    rw [hsize] at hc
    rw [hc]
  · rw [ichecksum_mapped hV hd h.file (h.mapped_view hk), hc, h.sum]

/-- A kernel that has just booted, with inode `i` in all slots but the last. -/
def booting (s : Image) (d : Dinode) : State :=
  { State.blank { start := 2028, size := 20, busy := false, dev := 1, n := 0,
                  sector := fun _ => 0 } with
    disk := fun _ => s.sect
    icache := fun ip => ⟨1, 1, if ip = 99 then 0 else 1, false, false, d⟩ }

theorem booting_booted (h : (s.sect 2028).word 0 = 0) (d : Dinode) : Booted s (booting s d) :=
  ⟨⟨rfl, rfl, rfl, fun _ => rfl, h⟩, ⟨rfl, rfl⟩, fun _ _ => rfl⟩

/-- An inode has one contents. -/
theorem Reads.unique {data' : List UInt8} (hlog : (s.sect 2028).word 0 = 0) (h : Reads s i data)
    (h' : Reads s i data') (hlen : data.length < 2 ^ 32) (hlen' : data'.length < 2 ^ 32) :
    data = data' := by
  have hk := booting_booted hlog (table s.sect i)
  have hread := (h _ 0 hk rfl rfl).1 (max data.length data'.length) (Nat.le_max_left _ _)
    (Nat.max_lt.mpr ⟨hlen, hlen'⟩)
  have hread' := (h' _ 0 hk rfl rfl).1 (max data.length data'.length) (Nat.le_max_right _ _)
    (Nat.max_lt.mpr ⟨hlen, hlen'⟩)
  rw [hread] at hread'
  exact (Prod.mk.inj (Res.ok.inj hread').1).2

/-! ## The inodes -/

/-- The image with its bitmap. -/
def Image.marked (s : Image) : Image := s.store 28 (bitmap s.freeblock)

theorem Made.byteAt_marked (h : Made s fs) (j o : Nat) :
    byteAt s.marked.sect (table s.sect j) o = byteAt s.sect (table s.sect j) o := by
  have hne : (blockAddr s.sect (table s.sect j) (o / 512)).toNat ≠ 28 := by
    by_cases h0 : blockAddr s.sect (table s.sect j) (o / 512) = 0
    · rw [h0]
      decide
    · have hr := (h.held.laid.range j (some (o / 512)) h0).1
      simp only [ref] at hr
      omega
  unfold byteAt
  rw [Image.marked, h.blockAddr_bitmap, Image.store_ne hne]

/-- Inode `j` with its size backed by blocks. -/
theorem Made.there (h : Made s fs) (hj : j < 200) (htype : (madeOf fs j).type ≠ T_DEV)
    (hsize : (table s.sect j).size.toNat ≤ 70656)
    (hmap : ∀ bn, bn * 512 < (table s.sect j).size.toNat → blockAddr s.sect (table s.sect j) bn ≠ 0)
    (hpad : pad (imageOf fs j) (table s.sect j).size.toNat = data)
    (hsum : (madeOf fs j).checksum = checksumOf data) :
    There s.marked (table s.marked.sect j) data := by
  rw [show table s.marked.sect j = table s.sect j from Made.table_bitmap j (by omega) _]
  refine ⟨?_, ⟨hsize, fun bn hbn => ?_⟩, fun p => ?_, ?_, ?_⟩
  · rw [h.dinode j]
    exact htype
  · rw [Image.marked, h.blockAddr_bitmap]
    exact hmap bn hbn
  · have hlen := h.held.len
    have hlt := h.held.lt_len j p
    cases p with
    | none =>
      simp only [ref] at hlt ⊢
      omega
    | some bn =>
      simp only [ref] at hlt ⊢
      rw [Image.marked, h.blockAddr_bitmap]
      omega
  · rw [← hpad, ← h.held.contents rfl]
    exact contents_congr rfl fun o _ => h.byteAt_marked j o
  · rw [h.dinode j]
    exact hsum

/-- An inode whose size is the number of bytes that were written. -/
theorem Made.there_whole (h : Made s fs) (hj : j < 200) (htype : (madeOf fs j).type ≠ T_DEV)
    (hsize : (table s.sect j).size.toNat = (imageOf fs j).length)
    (hsum : (madeOf fs j).checksum = checksumOf (imageOf fs j)) :
    There s.marked (table s.marked.sect j) (imageOf fs j) := by
  have hshort := h.held.short j
  refine h.there hj htype (by omega) (fun bn hbn => ?_) ?_ hsum
  · exact ((h.held.backed j).block bn (by omega)).mpr (by omega)
  · rw [hsize, pad_length]

section Inodes

variable (h : Made s fs) (hlt : fs.length + 3 < 200)
include h hlt

theorem Made.reads_ditto (hj : j = fs.length + 2 ∨ j = fs.length + 3) :
    Reads s.marked j (rootImage fs) := by
  have hsize := rootSize_le (show fs.length + 3 < 216 by omega)
  have himage : imageOf fs j = rootImage fs := if_pos hj
  rw [← himage]
  refine (h.there_whole (by omega) ?_ ?_ ?_).reads
  · rw [madeOf_ditto hj]
    show T_DITTO ≠ T_DEV
    decide
  · rw [himage, length_rootImage, h.dinode j, madeOf_ditto hj]
    exact UInt32.toNat_ofNat_of_lt' (by unfold UInt32.size; omega)
  · rw [himage, madeOf_ditto hj]

theorem Made.there_root (hmod : (fs.length + 2) % 32 ≠ 0) :
    There s.marked (table s.marked.sect 1) (rootImage fs) := by
  have hsize := rootSize_le (show fs.length + 3 < 216 by omega)
  have hroot := h.root_size (by omega)
  refine h.there (by omega) ?_ (by omega) ((h.no_holes_iff (by omega)).mpr hmod) ?_ ?_
  · rw [madeOf_root]
    show T_DIR ≠ T_DEV
    decide
  · rw [hroot, imageOf, if_neg (by omega), filesOf_root]
    rfl
  · rw [madeOf_root]

theorem Made.reads_file (hj : 2 ≤ j) (hj' : j < fs.length + 2) :
    Reads s.marked j (filesOf fs j) := by
  have himage : imageOf fs j = filesOf fs j := if_neg (by omega)
  have hmade : madeOf fs j = inodeOf fs j := madeOf_file (by omega) (by omega)
  have hshort := h.held.short j
  have hinode : inodeOf fs j = { Dinode.zero with
      type := T_FILE, nlink := 1, size := UInt32.ofNat (filesOf fs j).length
      checksum := checksumOf (filesOf fs j) } := by
    unfold inodeOf
    rw [if_neg (by omega), if_pos ⟨hj, hj'⟩]
  rw [himage] at hshort
  rw [← himage]
  refine (h.there_whole (by omega) ?_ ?_ ?_).reads
  · rw [hmade, hinode]
    show T_FILE ≠ T_DEV
    decide
  · rw [himage, h.dinode j, hmade, hinode]
    exact UInt32.toNat_ofNat_of_lt' (by unfold UInt32.size; omega)
  · rw [himage, hmade, hinode]

end Inodes

/-! ## The root's entries -/

theorem take_drop_dirents (l : List Dirent) (i : Nat) (hi : i < l.length) (r : List UInt8) :
    ((l.flatMap Dirent.bytes ++ r).drop (16 * i)).take 16 = l[i].bytes := by
  induction l generalizing i with
  | nil => exact absurd hi (Nat.not_lt_zero _)
  | cons de l ih =>
    rw [List.flatMap_cons, List.append_assoc]
    cases i with
    | zero => exact List.take_left' (length_dirent de)
    | succ i =>
      rw [show 16 * (i + 1) = de.bytes.length + 16 * i by rw [length_dirent]; omega,
        List.drop_append, List.drop_of_length_le (by omega), List.nil_append,
        Nat.add_sub_cancel_left, List.getElem_cons_succ]
      exact ih i (Nat.lt_of_succ_lt_succ hi)

theorem length_entries (fs : List HostFile) : (entries fs).length = fs.length + 2 := by
  simp [entries]

/-- A list that is too short is padded with zeros. -/
theorem pad_of_le {l : List UInt8} {n : Nat} (h : l.length ≤ n) :
    pad l n = l ++ List.replicate (n - l.length) 0 := by
  obtain ⟨m, rfl⟩ := Nat.exists_eq_add_of_le h
  rw [pad_add, pad_length, Nat.add_sub_cancel_left, List.append_cancel_left_eq]
  refine List.eq_replicate_iff.mpr ⟨by simp, fun b hb => ?_⟩
  obtain ⟨k, -, rfl⟩ := List.mem_map.mp hb
  exact List.getD_eq_default _ _ (Nat.le_add_right _ _)

theorem entryAt_root (hi : i < (entries fs).length) :
    (entryAt (rootImage fs) i).inum = (entries fs)[i].inum ∧
      cname (entryAt (rootImage fs) i).name = cname (entries fs)[i].name := by
  have hsize : (rootBytes fs).length ≤ rootSize fs := by
    rw [length_rootBytes, rootSize]
    omega
  unfold entryAt rootImage
  rw [pad_of_le hsize, rootBytes, take_drop_dirents _ i hi]
  exact ofBytes_bytes _

theorem key_root (hi : i < (entries fs).length) (h0 : (entries fs)[i].inum ≠ 0) (name : Name) :
    SlotMap.key (dirSlot (rootImage fs)) i = some (cname name) ↔
      cname name = cname (entries fs)[i].name := by
  obtain ⟨hinum, hname⟩ := entryAt_root hi
  rw [key_dirSlot, namecmp_iff, hinum, hname]
  exact ⟨fun h => h.2, fun h => ⟨h0, h⟩⟩

/-- A lookup in the root finds the first entry with the name. -/
theorem lookup_root (hi : i < (entries fs).length) (h0 : ∀ e ∈ entries fs, e.inum ≠ 0) {name : Name}
    (hname : cname name = cname (entries fs)[i].name)
    (hfirst : ∀ j (hj : j < i), cname name ≠ cname ((entries fs).get ⟨j, hj.trans hi⟩).name) :
    lookup (rootImage fs) name = some ((entries fs)[i].inum.toNat, 16 * i) := by
  have hcount : (entries fs).length ≤ dirCount (rootImage fs) := by
    unfold dirCount
    rw [length_rootImage, length_entries, rootSize]
    omega
  have hfind : findName (rootImage fs) name = some i := by
    refine List.find?_range_eq_some.mpr ⟨?_, List.mem_range.mpr (by omega), fun j hj => ?_⟩
    · exact decide_eq_true ((key_root hi (h0 _ (List.getElem_mem hi)) name).mpr hname)
    · have hjl : j < (entries fs).length := hj.trans hi
      have hno := (key_root hjl (h0 _ (List.getElem_mem hjl)) name).not.mpr (hfirst j hj)
      simpa using hno
  unfold lookup
  rw [hfind, Option.map_some, (entryAt_root hi).1]

/-! ## Names -/

theorem HostFile.zero_notMem_target (f : HostFile) : 0 ∉ f.target := by
  unfold HostFile.target
  split
  · exact fun hmem => f.nul (List.mem_of_mem_tail hmem)
  · exact f.nul

theorem HostFile.takeWhile_short (f : HostFile) : f.short.takeWhile (· != 0) = f.short := by
  refine List.takeWhile_eq_self_iff.mpr fun b hb => ?_
  have hne : b ≠ 0 := fun h0 => f.zero_notMem_target (List.mem_of_mem_take (h0 ▸ hb))
  simpa using hne

theorem HostFile.cname_target (f : HostFile) : cname f.target = f.short := f.takeWhile_short

theorem HostFile.cname_short (f : HostFile) : cname f.short = f.short := by
  unfold cname
  rw [List.take_of_length_le (by unfold HostFile.short; exact List.length_take_le ..)]
  exact f.takeWhile_short

theorem entries_inum (hlt : fs.length + 3 < 200) : ∀ e ∈ entries fs, e.inum ≠ 0 := by
  intro e he
  rcases List.mem_cons.mp he with rfl | he
  · decide
  rcases List.mem_cons.mp he with rfl | he
  · decide
  obtain ⟨⟨f, i⟩, hx, rfl⟩ := List.mem_map.mp he
  obtain ⟨h2, hi, -⟩ := List.mem_zipIdx hx
  intro h0
  have hnat := congrArg UInt16.toNat h0
  rw [UInt16.toNat_ofNat_of_lt' (by unfold UInt16.size; omega)] at hnat
  have hzero : (0 : UInt16).toNat = 0 := rfl
  omega

theorem getElem_entries (hi : i < fs.length) :
    (entries fs)[i + 2]? = some ⟨UInt16.ofNat (i + 2), fs[i].target⟩ := by
  unfold entries
  simp [hi, Nat.add_comm]

/-- The entry that a lookup of `f` finds. -/
theorem lookup_file (hlt : fs.length + 3 < 200) (hd : (fs.map HostFile.short).Nodup)
    (hi : i < fs.length) (h1 : fs[i].short ≠ dot) (h2 : fs[i].short ≠ dotdot) :
    lookup (rootImage fs) fs[i].short = some (i + 2, 16 * (i + 2)) := by
  have hlen := length_entries fs
  have hentry : ∀ l (hl : l < fs.length), (entries fs)[l + 2] =
      ⟨UInt16.ofNat (l + 2), fs[l].target⟩ := fun l hl =>
    Option.some.inj ((List.getElem?_eq_getElem _).symm.trans (getElem_entries hl))
  have hfound := lookup_root (i := i + 2) (by omega) (entries_inum hlt)
    (show cname fs[i].short = _ by rw [hentry i hi, HostFile.cname_short, HostFile.cname_target]) ?_
  · rw [hfound, hentry i hi, UInt16.toNat_ofNat_of_lt' (by unfold UInt16.size; omega)]
  · intro j hj
    rw [HostFile.cname_short]
    match j, hj with
    | 0, _ => exact h1
    | 1, _ => exact h2
    | l + 2, hl =>
      rw [List.get_eq_getElem, hentry l (by omega), HostFile.cname_target]
      intro he
      have hsame := List.inj_on_of_nodup_map hd (List.getElem_mem _) (List.getElem_mem _) he
      have := (List.Nodup.getElem_inj_iff (List.Nodup.of_map _ hd)).mp hsame
      omega

/-- The names of the root itself. -/
theorem lookup_dots (hlt : fs.length + 3 < 200) {name : Name} (h : name = dot ∨ name = dotdot) :
    ∃ off, lookup (rootImage fs) name = some (1, off) := by
  have hlen := length_entries fs
  rcases h with rfl | rfl
  · refine ⟨_, lookup_root (i := 0) (by omega) (entries_inum hlt) rfl fun j hj => ?_⟩
    exact absurd hj (Nat.not_lt_zero j)
  · refine ⟨_, lookup_root (i := 1) (by omega) (entries_inum hlt) rfl fun j hj => ?_⟩
    obtain rfl : j = 0 := by omega
    show cname dotdot ≠ cname dot
    decide

/-! ## The kernel and the image -/

/-- With a slot free `iget` returns one for the inode. -/
theorem iget_found (dev inum : Nat) (h : ∃ j, (k.icache j).ref = 0) :
    ∃ jp k', iget dev inum k = .ok jp k' ∧ (k'.icache jp).dev = dev ∧
      (k'.icache jp).inum = inum := by
  unfold iget
  cases hhit : (List.finRange 100).find? fun i => decide (0 < (k.icache i).ref) &&
      decide ((k.icache i).dev = dev) && decide ((k.icache i).inum = inum) with
  | some i =>
    have hi := List.find?_some hhit
    simp only [Bool.and_eq_true, decide_eq_true_eq] at hi
    refine ⟨i, _, rfl, ?_, ?_⟩
    · simpa [State.setInode] using hi.1.2
    · simpa [State.setInode] using hi.2
  | none =>
    cases hfree : (List.finRange 100).find? fun i => decide ((k.icache i).ref = 0) with
    | some i => exact ⟨i, _, rfl, by simp [State.setInode], by simp [State.setInode]⟩
    | none =>
      obtain ⟨j, hj⟩ := h
      exact absurd (decide_eq_true hj) (List.find?_eq_none.mp hfree j (List.mem_finRange j))

theorem Made.child (h : Made s fs) (hlt : fs.length + 3 < 200) (second : Bool) :
    (table s.marked.sect 1).child second = fs.length + 2 ∨
      (table s.marked.sect 1).child second = fs.length + 3 := by
  have hnat : ∀ n, n < 65536 → (UInt16.ofNat n).toNat = n := fun n hn =>
    UInt16.toNat_ofNat_of_lt' (by unfold UInt16.size; omega)
  rw [show table s.marked.sect 1 = table s.sect 1 from Made.table_bitmap 1 (by omega) _,
    h.dinode 1, madeOf_root]
  cases second with
  | false => exact Or.inl (hnat _ (by omega))
  | true => exact Or.inr (hnat _ (by omega))

/-- The header of the log is empty. -/
theorem Made.log (h : Made s fs) (hb : total fs ≤ 2028) : (s.marked.sect 2028).word 0 = 0 := by
  rw [Image.marked, Image.store_ne (by omega), h.held.laid.fresh 2028 (by rw [h.count]; exact hb)]
  exact Block.word_zero 0

section Agree

variable (h : Made s fs) (hlt : fs.length + 3 < 200)
include h hlt

/-- `dirlookup` in the root. -/
theorem Made.dirlookup (hmod : (fs.length + 2) % 32 ≠ 0) (hk : Booted s.marked k) {dp : Fin 100}
    (hdev : (k.icache dp).dev = 1) (hd : (k.icache dp).d = table s.marked.sect 1)
    (hfree : ∃ j, (k.icache j).ref = 0) {name : Name} {inum off : Nat}
    (hl : lookup (rootImage fs) name = some (inum, off)) :
    ∃ jp k', Zv6.dirlookup dp name k = .ok (some (jp, off)) k' ∧ (k'.icache jp).dev = 1 ∧
      (k'.icache jp).inum = inum := by
  have hroot := h.there_root hlt hmod
  have hdir : DirAt k dp (rootImage fs) := by
    refine ⟨hdev, ?_, ?_, ?_, ?_⟩
    · rw [hd, show table s.marked.sect 1 = table s.sect 1 from Made.table_bitmap 1 (by omega) _,
        h.dinode 1, madeOf_root]
    · rw [hd]
      exact hroot.mapped_view hk
    · rw [hd]
      exact hroot.contents hk
    · rw [length_rootImage, rootSize]
      omega
  obtain ⟨jp, k', hget, hdev', hinum⟩ := iget_found 1 inum hfree
  refine ⟨jp, k', ?_, hdev', hinum⟩
  rw [hdir.dirlookup, hl]
  exact Exec.bind_ok hget _

theorem Made.agrees (hd : (fs.map HostFile.short).Nodup) (hmod : (fs.length + 2) % 32 ≠ 0)
    (hdots : ∀ f ∈ fs, f.short = dot ∨ f.short = dotdot → f.bytes = rootImage fs) :
    Agrees fs s.marked := by
  have hroot := h.there_root hlt hmod
  have htab : ∀ j, j < 200 → table s.marked.sect j = { madeOf fs j with
      addrs := (table s.sect j).addrs } := fun j hj =>
    (Made.table_bitmap j (by omega) _).trans (h.dinode j)
  constructor
  · intro f hf k dp hk hdev hdp hfree
    by_cases hdot : f.short = dot ∨ f.short = dotdot
    · obtain ⟨off, hl⟩ := lookup_dots hlt hdot
      obtain ⟨jp, k', hrun, hdev', hinum⟩ := h.dirlookup hlt hmod hk hdev hdp hfree hl
      refine ⟨jp, off, k', hrun, hdev', ?_, ?_⟩
      · rw [hinum, htab 1 (by omega), madeOf_root]
      · rw [hinum, hdots f hf hdot]
        exact hroot.reads
    · rw [not_or] at hdot
      obtain ⟨i, hi, rfl⟩ := List.getElem_of_mem hf
      obtain ⟨jp, k', hrun, hdev', hinum⟩ := h.dirlookup hlt hmod hk hdev hdp hfree
        (lookup_file hlt hd hi hdot.1 hdot.2)
      have hbytes : filesOf fs (i + 2) = fs[i].bytes := by
        unfold filesOf
        rw [if_neg (by omega), if_pos (by omega), Nat.add_sub_cancel]
        simp [hi]
      refine ⟨jp, _, k', hrun, hdev', ?_, ?_⟩
      · rw [hinum, htab _ (by omega), madeOf_file (by omega) (by omega), inodeOf,
          if_neg (by omega), if_pos (by omega)]
      · rw [hinum, ← hbytes]
        exact h.reads_file hlt (by omega) (by omega)
  · intro second
    have hchild := h.child hlt second
    refine ⟨?_, ?_, rootImage fs, hroot.reads, h.reads_ditto hlt hchild⟩
    · rw [htab _ (by omega), madeOf_ditto hchild, htab 1 (by omega), madeOf_root]
    · rw [htab _ (by omega), madeOf_ditto hchild, htab 1 (by omega), madeOf_root]

/-- The kernel does not verify a root with a block missing. -/
theorem Made.no_hole (hb : total fs ≤ 2028) (ha : Agrees fs s.marked) :
    (fs.length + 2) % 32 ≠ 0 := by
  have hk := booting_booted (h.log hb) (table s.marked.sect 1)
  have htab : table s.marked.sect 1 = table s.sect 1 := Made.table_bitmap 1 (by omega) _
  have hsize := h.root_size (by omega)
  have hle := rootSize_le (show fs.length + 3 < 216 by omega)
  obtain ⟨-, -, data, hread, -⟩ := ha.dittos false
  have hsum := (hread _ 0 hk rfl rfl).2
  have hview : (booting s.marked (table s.marked.sect 1)).view 1 = s.marked.sect := hk.idle.view
  have htype : (table s.marked.sect 1).type ≠ T_DEV := by
    rw [htab, h.dinode 1, madeOf_root]
    show T_DIR ≠ T_DEV
    decide
  have hd : ((booting s.marked (table s.marked.sect 1)).icache 0).d = table s.marked.sect 1 := rfl
  have hmap := (ichecksum_idle_iff rfl hview hd htype (by rw [htab]; omega)).mp ⟨_, hsum⟩
  rw [← h.no_holes_iff (by omega)]
  intro bn hbn h0
  rw [← htab] at hbn
  refine hmap bn hbn ?_
  rw [htab, Image.marked, h.blockAddr_bitmap, h0]

/-- A file with the name of the root is taken for the root. -/
theorem Made.bytes_of_dots (hb : total fs ≤ 2028) (ha : Agrees fs s.marked) (hf : f ∈ fs)
    (hdot : f.short = dot ∨ f.short = dotdot) : f.bytes = rootImage fs := by
  have hmod := h.no_hole hlt hb ha
  have hk := booting_booted (h.log hb) (table s.marked.sect 1)
  have hfree : ∃ j, ((booting s.marked (table s.marked.sect 1)).icache j).ref = 0 := ⟨99, rfl⟩
  obtain ⟨off, hl⟩ := lookup_dots hlt hdot
  have hdev : ((booting s.marked (table s.marked.sect 1)).icache 0).dev = 1 := rfl
  obtain ⟨jp, k', hrun, -, hinum⟩ := h.dirlookup hlt hmod hk hdev rfl hfree hl
  obtain ⟨jp', off', k'', hrun', -, -, hread⟩ := ha.files f hf _ 0 hk rfl rfl hfree
  rw [hrun] at hrun'
  cases hrun'
  rw [hinum] at hread
  have hshort := h.accepts.short f hf
  have hsize := rootSize_le (show fs.length + 3 < 216 by omega)
  refine hread.unique (h.log hb) (h.there_root hlt hmod).reads (by omega) ?_
  rw [length_rootImage]
  omega

end Agree

/-- Files that fit, with distinct names: `main` ends on those it accepts. The kernel then agrees
    with mkfs on the image if and only if the root's entries do not end at a block boundary and no
    file but a copy of the root is called `.` or `..`. -/
theorem agrees_iff (fs : List HostFile) (hd : (fs.map HostFile.short).Nodup)
    (hi : fs.length + 3 < 200) (hb : total fs ≤ 2028) :
    (Accepts fs → ∃ s, main fs blank = .ok () s) ∧
    ∀ s, main fs blank = .ok () s → (Agrees fs s ↔ (fs.length + 2) % 32 ≠ 0 ∧
      ∀ f ∈ fs, f.short = dot ∨ f.short = dotdot → f.bytes = rootImage fs) := by
  refine ⟨fun ha => ?_, fun s hm => ?_⟩
  · obtain ⟨s, -, hm⟩ := main_ends fs (by omega) ha
    exact ⟨_, hm⟩
  · obtain ⟨s0, hmade, rfl⟩ := (main_wp (by omega)).ok hm
    constructor
    · intro ha
      exact ⟨hmade.no_hole hi hb ha, fun f hf => hmade.bytes_of_dots hi hb ha hf⟩
    · rintro ⟨hmod, hdots⟩
      exact hmade.agrees hi hd hmod hdots

/-- One file of a block. -/
theorem agrees_one : ∃ s, main [sectors 1] blank = .ok () s ∧ Agrees [sectors 1] s := by
  have hacc : Accepts ([1].map sectors) :=
    accepts_sectors (by decide) (by rw [total_sectors]; decide)
  have hall := agrees_iff [sectors 1] (by decide) (by decide) (by decide +kernel)
  obtain ⟨s, hm⟩ := hall.1 hacc
  refine ⟨s, hm, (hall.2 s hm).mpr ⟨by decide, fun f hf hdot => ?_⟩⟩
  obtain rfl := List.mem_singleton.mp hf
  exact absurd hdot (by decide)

/-- An empty file. -/
def emptyFile (name : List UInt8) (h : 0 ∉ name) : HostFile := ⟨name, true, [], h, by simp⟩

/-- 30 files with names of one character. -/
def thirty : List HostFile := (List.finRange 30).map fun n =>
  emptyFile [UInt8.ofNat (97 + n.val)] (by revert n; decide)

/-- 30 files: the root has a block missing. A file `_.`: its name finds the root. -/
theorem agrees_not : (thirty.map HostFile.short).Nodup ∧
    (∃ s, main thirty blank = .ok () s ∧ ¬ Agrees thirty s) ∧
    ∃ s, main [emptyFile [95, 46] (by decide)] blank = .ok () s ∧
      ¬ Agrees [emptyFile [95, 46] (by decide)] s := by
  refine ⟨by decide, ?_, ?_⟩
  · obtain ⟨s, hmade, hm⟩ := main_ends thirty (by decide) ⟨by decide, by decide, by decide +kernel⟩
    exact ⟨_, hm, fun ha => hmade.no_hole (by decide) (by decide +kernel) ha (by decide)⟩
  · obtain ⟨s, hmade, hm⟩ := main_ends [emptyFile [95, 46] (by decide)] (by decide)
      ⟨by decide, by decide, by decide +kernel⟩
    refine ⟨_, hm, fun ha => ?_⟩
    have hbytes := hmade.bytes_of_dots (by decide) (by decide +kernel) ha List.mem_cons_self
      (Or.inl rfl)
    have hlen := congrArg List.length hbytes
    rw [length_rootImage] at hlen
    exact absurd hlen (by decide)

end Zv6.Host
