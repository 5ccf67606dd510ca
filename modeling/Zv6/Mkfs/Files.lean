/-
  The files that `main` puts into the image.

  `Built s fs`: after the files `fs` the image has the root with an entry for each of them, each
  file with its bytes and checksum, and nothing else. Adding one more file keeps this, or ends in
  an abort for one of four reasons (`addFile_wp`).
-/
import Mathlib.Algebra.BigOperators.Group.List.Basic
import Zv6.Mkfs.Table

namespace Zv6.Host

open Lib Function

/-- The root's entries. -/
def entries (fs : List HostFile) : List Dirent :=
  ⟨1, [46]⟩ :: ⟨1, [46, 46]⟩ :: (fs.zipIdx 2).map fun x => ⟨UInt16.ofNat x.2, x.1.target⟩

def rootBytes (fs : List HostFile) : List UInt8 := (entries fs).flatMap Dirent.bytes

/-- The bytes of inode `j`. -/
def filesOf (fs : List HostFile) (j : Nat) : List UInt8 :=
  if j = 1 then rootBytes fs
  else if 2 ≤ j then (fs.map HostFile.bytes).getD (j - 2) []
  else []

/-- Inode `j`, up to its addresses. -/
def inodeOf (fs : List HostFile) (j : Nat) : Dinode :=
  if j = 1 then
    { Dinode.zero with type := T_DIR, nlink := 1, size := UInt32.ofNat (rootBytes fs).length }
  else if 2 ≤ j ∧ j < fs.length + 2 then
    { Dinode.zero with
      type := T_FILE, nlink := 1, size := UInt32.ofNat (filesOf fs j).length
      checksum := checksumOf (filesOf fs j) }
  else Dinode.zero

/-- The blocks taken for the files `fs` and the root. -/
def taken (fs : List HostFile) : Nat :=
  29 + need (16 * (fs.length + 2)) + (fs.map fun f => need f.bytes.length).sum

structure Built (s : Image) (fs : List HostFile) : Prop where
  held : Held s (table s.sect) (filesOf fs)
  inodes : s.freeinode = fs.length + 2
  dinode : ∀ j, table s.sect j = { inodeOf fs j with addrs := (table s.sect j).addrs }
  count : s.freeblock = taken fs
  super : s.sect 1 = superblock
  args : ∀ f ∈ fs, 47 ∉ f.name ∧ f.opens = true

/-- Why `main` stops at the file `f` behind `fs`. -/
def Rejects (fs : List HostFile) (f : HostFile) : Prop :=
  47 ∈ f.name ∨ f.opens = false ∨ 70656 < f.bytes.length ∨ 2048 < taken (fs ++ [f])

variable {s s' s'' : Image} {fs : List HostFile} {f : HostFile} {i j : Nat} {d : Dinode}
  {D : Nat → Dinode} {cs : Nat → List UInt8}

/-! ## The expected contents -/

@[simp] theorem length_dirent (de : Dirent) : de.bytes.length = 16 := by
  simp [Dirent.bytes]

theorem length_flatMap_dirent (l : List Dirent) :
    (l.flatMap Dirent.bytes).length = 16 * l.length := by
  induction l with
  | nil => rfl
  | cons de l ih =>
    rw [List.flatMap_cons, List.length_append, ih, length_dirent, List.length_cons]
    omega

theorem length_rootBytes (fs : List HostFile) : (rootBytes fs).length = 16 * (fs.length + 2) := by
  unfold rootBytes
  rw [length_flatMap_dirent]
  simp [entries]

theorem rootBytes_snoc (fs : List HostFile) (f : HostFile) : rootBytes (fs ++ [f]) =
    rootBytes fs ++ Dirent.bytes ⟨UInt16.ofNat (fs.length + 2), f.target⟩ := by
  unfold rootBytes entries
  rw [List.zipIdx_append]
  simp [Nat.add_comm]

theorem filesOf_root (fs : List HostFile) : filesOf fs 1 = rootBytes fs := if_pos rfl

theorem filesOf_ge (h : fs.length + 2 ≤ j) : filesOf fs j = [] := by
  unfold filesOf
  rw [if_neg (by omega), if_pos (by omega)]
  exact List.getD_eq_default _ _ (by rw [List.length_map]; omega)

theorem filesOf_snoc (fs : List HostFile) (f : HostFile) : filesOf (fs ++ [f]) =
    update (update (filesOf fs) 1 (rootBytes (fs ++ [f]))) (fs.length + 2)
      f.bytes := by
  funext j
  unfold filesOf
  by_cases hk : j = fs.length + 2
  · subst hk
    rw [update_self, if_neg (by omega), if_pos (by omega), List.map_append]
    simp
  · rw [update_of_ne hk]
    by_cases h1 : j = 1
    · rw [h1, update_self, if_pos rfl]
    · rw [update_of_ne h1, if_neg h1, if_neg h1, List.map_append]
      split
      · by_cases hlt : j < fs.length + 2
        · exact List.getD_append _ _ _ _ (by rw [List.length_map]; omega)
        · rw [List.getD_eq_default _ _ (by simp; omega), List.getD_eq_default _ _ (by simp; omega)]
      · rfl

theorem taken_snoc (fs : List HostFile) (f : HostFile) :
    taken (fs ++ [f]) + need (16 * (fs.length + 2)) =
      taken fs + need (16 * (fs.length + 2) + 16) + need f.bytes.length := by
  unfold taken
  rw [List.map_append, List.sum_append, List.length_append]
  simp only [List.length_singleton, List.map_cons, List.map_nil, List.sum_cons, List.sum_nil]
  have he : 16 * (fs.length + 1 + 2) = 16 * (fs.length + 2) + 16 := by omega
  rw [he]
  omega

/-! ## Reading files back -/

theorem Held.lt_len (h : Held s D cs) (j : Nat) (k : Option Nat) :
    (ref s.sect (D j) k).toNat < s.len := by
  have hlen := h.len
  have hfits := h.fits
  by_cases h0 : ref s.sect (D j) k = 0
  · rw [h0, UInt32.toNat_zero]
    omega
  · have := h.laid.range j k h0
    omega

theorem Held.readable (h : Held s D cs) (ha : d.addrs = (D j).addrs) (ht : d.type ≠ T_DEV)
    (hs : d.size.toNat ≤ 70656) : Readable s d := by
  refine ⟨ht, hs, fun bn _ => ?_, fun bn _ _ => ⟨?_, fun _ => ?_⟩⟩
  · rw [blockAddr_addrs ha]
    exact h.lt_len j (some bn)
  · rw [ha]
    exact h.lt_len j none
  · rw [h.laid.boot, Block.word_zero]

/-- The first `n` bytes, with zeros behind the last one. -/
def pad (l : List UInt8) (n : Nat) : List UInt8 := (List.range n).map fun o => l.getD o 0

@[simp] theorem length_pad (l : List UInt8) (n : Nat) : (pad l n).length = n := by
  simp [pad]

theorem pad_length (l : List UInt8) : pad l l.length = l := by
  apply List.ext_getElem
  · simp
  · intro k h1 h2
    simp [pad, List.getD_eq_getElem?_getD, h2]

theorem pad_add (l : List UInt8) (m n : Nat) :
    pad l (m + n) = pad l m ++ (List.range n).map fun k => l.getD (m + k) 0 := by
  unfold pad
  rw [List.range_add, List.map_append, List.map_map]
  rfl

theorem Held.slice (h : Held s D cs) (ha : d.addrs = (D j).addrs) (off n : Nat) :
    Zv6.slice s.sect d off n = (List.range n).map fun k => (cs j).getD (off + k) 0 := by
  unfold Zv6.slice
  refine List.map_congr_left fun k _ => ?_
  rw [byteAt_addrs ha, h.bytes]

theorem Held.contents (h : Held s D cs) (ha : d.addrs = (D j).addrs) :
    Zv6.contents s.sect d = pad (cs j) d.size.toNat := by
  unfold Zv6.contents pad
  rw [h.slice ha]
  simp only [Nat.zero_add]

theorem Held.contents_eq (h : Held s D cs) (ha : d.addrs = (D j).addrs)
    (hs : d.size.toNat = (cs j).length) : Zv6.contents s.sect d = cs j := by
  rw [h.contents ha, hs, pad_length]

/-! ## Adding a file -/

theorem Wrote.trans {len n k : Nat} (h : Wrote s i len n s') (h' : Wrote s' i (len + n) k s'') :
    Wrote s i len (n + k) s'' := by
  obtain ⟨a, ha⟩ := h.inode
  obtain ⟨a', ha'⟩ := h'.inode
  have h1 := h.count
  have h2 := h'.count
  refine ⟨h'.inodes.trans h.inodes, h'.super.trans h.super, ?_, a', ?_⟩
  · rw [← Nat.add_assoc]
    omega
  · rw [ha', ha, update_idem, update_self, Nat.add_assoc]

theorem Wrote.nothing {len : Nat} (hs : (table s.sect i).size.toNat = len) : Wrote s i len 0 s := by
  refine ⟨rfl, rfl, rfl, (table s.sect i).addrs, ?_⟩
  rw [Nat.add_zero, ← hs, UInt32.ofNat_toNat]
  exact (update_eq_self i (table s.sect)).symm

/-- The size after an append. -/
theorem Wrote.size {len n : Nat} (h : Wrote s i len n s') (hlt : len + n < 2 ^ 32) :
    (table s'.sect i).size.toNat = len + n := by
  obtain ⟨a, ha⟩ := h.inode
  rw [ha, update_self]
  exact UInt32.toNat_ofNat_of_lt' hlt

theorem Wrote.table_ne {len n : Nat} (h : Wrote s i len n s') (hj : j ≠ i) :
    table s'.sect j = table s.sect j := by
  obtain ⟨a, ha⟩ := h.inode
  rw [ha, update_of_ne hj]

theorem appendAll_wp (ps : List (List UInt8)) : ∀ {s : Image} {cs : Nat → List UInt8},
    Held s (table s.sect) cs → i < 216 → (table s.sect i).size.toNat = (cs i).length →
    wp (appendAll i ps)
      (fun _ s' => Held s' (table s'.sect) (update cs i (cs i ++ ps.flatten)) ∧
        Wrote s i (cs i).length ps.flatten.length s')
      (fun e _ => (∃ msg, e = .panic msg) ∧ Fails s (cs i).length ps.flatten.length) s := by
  induction ps with
  | nil =>
    intro s cs h hi hs
    refine ⟨?_, .nothing hs⟩
    rw [List.flatten_nil, List.append_nil, update_eq_self]
    exact h
  | cons p ps ih =>
    intro s cs h hi hs
    unfold appendAll
    rw [List.flatten_cons, List.length_append]
    refine wp_bind.mpr ((iappend_wp h hi hs p).mono ?_ ?_)
    · rintro _ s1 ⟨hheld, hw⟩
      have hshort := hheld.short i
      rw [update_self, List.length_append] at hshort
      have hrest := ih hheld hi (by
        rw [update_self, List.length_append]
        exact hw.size (by omega))
      rw [update_self, update_idem, List.append_assoc, List.length_append] at hrest
      refine hrest.mono ?_ ?_
      · rintro _ s2 ⟨hheld2, hw2⟩
        exact ⟨hheld2, hw.trans hw2⟩
      · rintro e s2 ⟨hpanic, hfails⟩
        have hcount := hw.count
        refine ⟨hpanic, hfails.imp (fun h1 => by omega) fun h2 => ?_⟩
        rw [Nat.add_assoc] at h2
        omega
    · rintro e s1 ⟨hpanic, hfails⟩
      have hmono := need_mono (m := (cs i).length + p.length)
        (n := (cs i).length + (p.length + ps.flatten.length)) (by omega)
      exact ⟨hpanic, hfails.imp (fun h1 => by omega) fun h2 => by omega⟩

theorem inodeOf_size (hs : (filesOf fs j).length ≤ 70656) :
    (inodeOf fs j).size.toNat = (filesOf fs j).length := by
  unfold inodeOf
  by_cases h1 : j = 1
  · rw [if_pos h1]
    subst h1
    rw [filesOf_root] at hs ⊢
    exact UInt32.toNat_ofNat_of_lt' (by unfold UInt32.size; omega)
  · rw [if_neg h1]
    by_cases h2 : 2 ≤ j ∧ j < fs.length + 2
    · rw [if_pos h2]
      exact UInt32.toNat_ofNat_of_lt' (by unfold UInt32.size; omega)
    · rw [if_neg h2]
      have hnil : filesOf fs j = [] := by
        unfold filesOf
        rw [if_neg h1]
        split
        · exact List.getD_eq_default _ _ (by rw [List.length_map]; omega)
        · rfl
      rw [hnil]
      rfl

theorem Built.size (h : Built s fs) (j : Nat) :
    (table s.sect j).size.toNat = (filesOf fs j).length := by
  rw [h.dinode j]
  exact inodeOf_size (h.held.short j)

/-- A new inode is allocated behind those of `fs`. -/
theorem Built.opened (h : Built s fs) (hlt : fs.length + 2 < 216) (type : UInt16) :
    ∃ s1, ialloc type s = .ok (fs.length + 2) s1 ∧ Held s1 (table s1.sect) (filesOf fs) ∧
      s1.freeinode = fs.length + 3 ∧ s1.freeblock = taken fs ∧ s1.sect 1 = superblock ∧
      table s1.sect = update (table s.sect) (fs.length + 2)
        { Dinode.zero with type := type, nlink := 1 } := by
  have hi := h.inodes
  obtain ⟨s1, hok, hheld, hino, hfree, hsup, htab⟩ := h.held.ialloc (by omega)
    (by rw [hi]; exact filesOf_ge (Nat.le_refl _)) type
  rw [hi] at hok htab
  exact ⟨s1, hok, hheld, by omega, hfree.trans h.count, hsup.trans h.super, htab⟩

theorem setChecksum_ok (h : Held s (table s.sect) cs) (hi : i < 216)
    (ht : (table s.sect i).type ≠ T_DEV) (hs : (table s.sect i).size.toNat = (cs i).length) :
    setChecksum i s = .ok () (s.put i { table s.sect i with checksum := checksumOf (cs i) }) := by
  have hread : Readable s (table s.sect i) :=
    h.readable (j := i) rfl ht (by rw [hs]; exact h.short i)
  unfold setChecksum
  rw [Exec.bind_ok (rinode_ok h.len hi), Exec.bind_ok (hread.readi 0 512),
    Exec.bind_ok hread.ichecksum, h.contents_eq (j := i) rfl hs]
  exact winode_ok h.len hi _

theorem inodeOf_snoc (hj : j ≠ 1) (hk : j ≠ fs.length + 2) :
    inodeOf (fs ++ [f]) j = inodeOf fs j := by
  have hfiles : filesOf (fs ++ [f]) j = filesOf fs j := by
    rw [filesOf_snoc, update_of_ne hk, update_of_ne hj]
  have hiff : 2 ≤ j ∧ j < (fs ++ [f]).length + 2 ↔ 2 ≤ j ∧ j < fs.length + 2 := by
    rw [List.length_append, List.length_singleton]
    omega
  unfold inodeOf
  rw [if_neg hj, if_neg hj, hfiles]
  simp only [hiff]

/-- The image with the new file, put together: `s1` has its inode, `s2` its entry, `s3` its
    bytes. -/
theorem Built.snoc {s1 s2 s3 : Image} (h : Built s fs) (hlt : fs.length + 2 < 216)
    (hino : s1.freeinode = fs.length + 3) (hfree : s1.freeblock = taken fs)
    (hsup : s1.sect 1 = superblock)
    (htab : table s1.sect = update (table s.sect) (fs.length + 2)
      { Dinode.zero with type := T_FILE, nlink := 1 })
    (hw2 : Wrote s1 1 (16 * (fs.length + 2)) 16 s2)
    (hw3 : Wrote s2 (fs.length + 2) 0 f.bytes.length s3)
    (hheld : Held s3 (table s3.sect) (filesOf (fs ++ [f])))
    (harg : 47 ∉ f.name ∧ f.opens = true) :
    Built (s3.put (fs.length + 2)
      { table s3.sect (fs.length + 2) with checksum := checksumOf f.bytes }) (fs ++ [f]) := by
  have hne : (1 : Nat) ≠ fs.length + 2 := by omega
  have hb := i2b_lt hlt
  have hfile : filesOf (fs ++ [f]) (fs.length + 2) = f.bytes := by
    rw [filesOf_snoc, update_self]
  have hlen : (fs ++ [f]).length = fs.length + 1 := by simp
  refine ⟨hheld.set hlt rfl, ?_, fun j => ?_, ?_, ?_, ?_⟩
  · show s3.freeinode = _
    rw [hw3.inodes, hw2.inodes, hino, hlen]
  · rw [table_put hlt]
    obtain ⟨a3, ha3⟩ := hw3.inode
    obtain ⟨a2, ha2⟩ := hw2.inode
    by_cases hk : j = fs.length + 2
    · rw [hk, update_self, ha3, update_self, ha2, update_of_ne hne.symm,
        htab, update_self, inodeOf, if_neg (by omega), if_pos (by omega), hfile, Nat.zero_add]
    · rw [update_of_ne hk, ha3, update_of_ne hk]
      by_cases h1 : j = 1
      · have hsize : (rootBytes (fs ++ [f])).length = 16 * (fs.length + 2) + 16 := by
          rw [length_rootBytes, hlen]
          omega
        rw [h1, ha2, update_self, htab, update_of_ne hne, h.dinode 1, inodeOf,
          if_pos rfl, inodeOf, if_pos rfl, hsize]
      · rw [ha2, update_of_ne h1, htab, update_of_ne hk, inodeOf_snoc h1 hk]
        exact h.dinode j
  · have h2 := hw2.count
    have h3 := hw3.count
    have hsnoc := taken_snoc fs f
    have h0 : need 0 = 0 := rfl
    rw [Nat.zero_add, h0] at h3
    show s3.freeblock = _
    omega
  · rw [Image.put_sect (by omega), hw3.super, hw2.super, hsup]
  · intro g hg
    rcases List.mem_append.mp hg with hg | hg
    · exact h.args g hg
    · rw [List.mem_singleton.mp hg]
      exact harg

/-- The entry of the new file goes to the root, its bytes to the new inode. -/
theorem addFile_wp (h : Built s fs) (hlt : fs.length + 2 < 216) :
    wp (addFile 1 f) (fun _ s' => Built s' (fs ++ [f]))
      (fun e _ => (∃ msg, e = .panic msg) ∧ Rejects fs f) s := by
  obtain ⟨s1, hok1, hheld1, hino1, hfree1, hsup1, htab1⟩ := h.opened hlt T_FILE
  have hsnoc := taken_snoc fs f
  have hroot : (filesOf fs 1).length = 16 * (fs.length + 2) := by
    rw [filesOf_root, length_rootBytes]
  have hne : (1 : Nat) ≠ fs.length + 2 := by omega
  have hsize1 : (table s1.sect 1).size.toNat = (filesOf fs 1).length := by
    rw [htab1, update_of_ne hne]
    exact h.size 1
  unfold addFile
  refine wp_bind.mpr (wp_assert (fun hno => ?_) fun hname => ⟨⟨_, rfl⟩, Or.inl (not_not.mp hname)⟩)
  refine wp_bind.mpr (wp_assert (fun hyes => ?_) fun hopen =>
    ⟨⟨_, rfl⟩, Or.inr (Or.inl (Bool.not_eq_true _ ▸ hopen))⟩)
  refine wp_ok_bind hok1 ?_
  refine wp_bind.mpr ((iappend_wp hheld1 (by omega) hsize1 _).mono ?_ ?_)
  · rintro _ s2 ⟨hheld2, hw2⟩
    rw [length_dirent, hroot] at hw2
    have hfile2 : update (filesOf fs) 1 (filesOf fs 1 ++
        Dirent.bytes ⟨UInt16.ofNat (fs.length + 2), f.target⟩) (fs.length + 2) = [] := by
      rw [update_of_ne hne.symm, filesOf_ge (Nat.le_refl _)]
    have hinode2 : table s2.sect (fs.length + 2) =
        { Dinode.zero with type := T_FILE, nlink := 1 } := by
      rw [hw2.table_ne hne.symm, htab1, update_self]
    have hall := appendAll_wp f.pieces hheld2 hlt (by rw [hfile2, hinode2]; rfl)
    rw [hfile2, List.nil_append, List.length_nil] at hall
    refine wp_bind.mpr (hall.mono ?_ ?_)
    · rintro _ s3 ⟨hheld3, hw3⟩
      have hfiles : update (update (filesOf fs) 1 (filesOf fs 1 ++
          Dirent.bytes ⟨UInt16.ofNat (fs.length + 2), f.target⟩)) (fs.length + 2) f.pieces.flatten =
          filesOf (fs ++ [f]) := by
        rw [filesOf_snoc, rootBytes_snoc, filesOf_root]
        rfl
      rw [hfiles] at hheld3
      have hfile3 : filesOf (fs ++ [f]) (fs.length + 2) = f.bytes := by
        rw [filesOf_snoc, update_self]
      have hshort := hheld3.short (fs.length + 2)
      rw [hfile3] at hshort
      have htype : (table s3.sect (fs.length + 2)).type ≠ T_DEV := by
        obtain ⟨a, ha⟩ := hw3.inode
        rw [ha, update_self, hinode2]
        show T_FILE ≠ T_DEV
        decide
      have hsize3 : (table s3.sect (fs.length + 2)).size.toNat = f.bytes.length := by
        rw [hw3.size (by show 0 + f.bytes.length < _; omega), Nat.zero_add]
        rfl
      refine (wp_of_ok (setChecksum_ok hheld3 hlt htype (by rw [hfile3]; exact hsize3))).mpr ?_
      rw [hfile3]
      exact h.snoc hlt hino1 hfree1 hsup1 htab1 hw2 hw3 hheld3 ⟨hno, hyes⟩
    · rintro e s3 ⟨hpanic, hfails⟩
      have hcount := hw2.count
      have h0 : need 0 = 0 := rfl
      have hbytes : f.bytes.length = f.pieces.flatten.length := rfl
      rw [Fails, h0, Nat.zero_add, ← hbytes] at hfails
      refine ⟨hpanic, Or.inr (Or.inr (hfails.imp (fun h1 => h1) fun h1 => ?_))⟩
      omega
  · rintro e s2 ⟨hpanic, hfails⟩
    rw [length_dirent, hroot] at hfails
    exact ⟨hpanic, Or.inr (Or.inr (Or.inr (hfails.elim (fun h1 => by omega) fun h1 => by omega)))⟩

theorem addFiles_append (i : Nat) (l r : List HostFile) :
    addFiles i (l ++ r) = addFiles i l >>= fun _ => addFiles i r := by
  induction l with
  | nil => rfl
  | cons f l ih =>
    rw [List.cons_append, addFiles, addFiles, ih, Exec.bind_assoc]

/-- A file that is stopped at does not get into an image. -/
theorem Built.not_rejects (h : Built s (fs ++ [f])) : ¬ Rejects fs f := by
  have hf : f ∈ fs ++ [f] := List.mem_append_right _ (List.mem_singleton_self f)
  have hshort := h.held.short (fs.length + 2)
  have hfits := h.held.fits
  rw [filesOf_snoc, update_self] at hshort
  rw [h.count] at hfits
  rintro (hr | hr | hr | hr)
  · exact (h.args f hf).1 hr
  · exact absurd (h.args f hf).2 (by simp [hr])
  · omega
  · omega

theorem addFiles_wp (gs : List HostFile) : ∀ {s : Image} {fs : List HostFile}, Built s fs →
    fs.length + gs.length + 2 ≤ 216 →
    wp (addFiles 1 gs) (fun _ s' => Built s' (fs ++ gs))
      (fun e _ => (∃ msg, e = .panic msg) ∧ ∃ l f r, gs = l ++ f :: r ∧ Rejects (fs ++ l) f) s := by
  induction gs with
  | nil =>
    intro s fs h _
    rw [List.append_nil]
    exact h
  | cons f gs ih =>
    intro s fs h hlt
    rw [List.length_cons] at hlt
    unfold addFiles
    refine wp_bind.mpr ((addFile_wp (f := f) h (by omega)).mono ?_ ?_)
    · intro _ s1 h1
      have hrest := ih h1 (by rw [List.length_append, List.length_singleton]; omega)
      rw [List.append_assoc] at hrest
      refine hrest.mono (fun _ _ h2 => h2) ?_
      rintro e s2 ⟨hpanic, l, f', r, rfl, hrej⟩
      rw [List.append_assoc] at hrej
      exact ⟨hpanic, f :: l, f', r, rfl, hrej⟩
    · rintro e s1 ⟨hpanic, hrej⟩
      exact ⟨hpanic, [], f, gs, rfl, by rwa [List.append_nil]⟩

end Zv6.Host
