/-
  The image that `main` makes.

  After the files come the root's rounded size and checksum, and two dittos with a copy of the
  root. `Made s fs` is the image then, before `balloc` writes the bitmap. For fewer than 213
  files `main` ends with such an image if and only if it accepts the files (`main_wp`,
  `Made.accepts`): names without a slash, files that can be opened and are not longer than
  MAXFILE blocks, and no block behind the end of the image.
-/
import Zv6.Mkfs.Files

namespace Zv6.Host

open Lib Function

/-- The root's size, rounded up. -/
def rootSize (fs : List HostFile) : Nat := (16 * (fs.length + 2) / 512 + 1) * 512

/-- The root's bytes up to that size. -/
def rootImage (fs : List HostFile) : List UInt8 := pad (rootBytes fs) (rootSize fs)

/-- All blocks that are taken. -/
def total (fs : List HostFile) : Nat := taken fs + 2 * need (rootSize fs)

/-- The files that `main` does not stop at. -/
structure Accepts (fs : List HostFile) : Prop where
  args : ∀ f ∈ fs, 47 ∉ f.name ∧ f.opens = true
  short : ∀ f ∈ fs, f.bytes.length ≤ 70656
  room : total fs ≤ 2048

/-- The bytes of inode `j`. The root is listed with those that were written. -/
def imageOf (fs : List HostFile) (j : Nat) : List UInt8 :=
  if j = fs.length + 2 ∨ j = fs.length + 3 then rootImage fs else filesOf fs j

/-- Inode `j`, up to its addresses. -/
def madeOf (fs : List HostFile) (j : Nat) : Dinode :=
  if j = 1 then
    { Dinode.zero with
      type := T_DIR, nlink := 1, size := UInt32.ofNat (rootSize fs)
      checksum := checksumOf (rootImage fs), child1 := UInt16.ofNat (fs.length + 2)
      child2 := UInt16.ofNat (fs.length + 3) }
  else if j = fs.length + 2 ∨ j = fs.length + 3 then
    { Dinode.zero with
      type := T_DITTO, nlink := 1, size := UInt32.ofNat (rootSize fs)
      checksum := checksumOf (rootImage fs) }
  else inodeOf fs j

structure Made (s : Image) (fs : List HostFile) : Prop where
  held : Held s (table s.sect) (imageOf fs)
  inodes : s.freeinode = fs.length + 4
  dinode : ∀ j, table s.sect j = { madeOf fs j with addrs := (table s.sect j).addrs }
  count : s.freeblock = total fs
  super : s.sect 1 = superblock
  args : ∀ f ∈ fs, 47 ∉ f.name ∧ f.opens = true

variable {s s' : Image} {fs : List HostFile} {i j : Nat} {d : Dinode} {cs : Nat → List UInt8}

theorem length_rootImage (fs : List HostFile) : (rootImage fs).length = rootSize fs :=
  length_pad ..

theorem rootSize_le (hlt : fs.length + 3 < 216) : rootSize fs ≤ 3584 := by
  unfold rootSize
  omega

/-! ## The empty image -/

theorem dinode_zero (k : Nat) : Block.zero.dinode k = Dinode.zero := by
  have hf : (fun j => Block.zero.byte (64 * k + j)) = fun _ => 0 := by
    funext j
    exact Block.byte_zero _
  unfold Block.dinode
  rw [hf]
  rfl

theorem wzeroes_ok (n : Nat) : wzeroes n blank = .ok () { blank with len := n } := by
  induction n with
  | zero =>
    rw [wzeroes_zero]
    rfl
  | succ n ih =>
    have hsect : update blank.sect n Block.zero = blank.sect := by
      funext b
      by_cases hb : b = n
      · rw [hb, update_self]
        rfl
      · rw [update_of_ne hb]
    rw [wzeroes_succ, Exec.bind_ok ih, wsect, Exec.modify_apply]
    show Res.ok () (Image.mk (update blank.sect n Block.zero) (max n (n + 1)) _ _ _) = _
    rw [hsect, Nat.max_eq_right (Nat.le_succ n)]

/-- The image with the superblock and nothing else. -/
def formatted : Image := { blank with len := 2048 }.store 1 superblock

theorem formatted_sect {b : Nat} (hb : b ≠ 1) : formatted.sect b = Block.zero :=
  Image.store_ne hb _

theorem table_formatted : table formatted.sect = fun _ => Dinode.zero := by
  funext j
  unfold table
  split
  · next hj =>
    have hb := i2b_lt hj
    rw [formatted_sect (by omega), dinode_zero]
  · rfl

theorem formatted_held : Held formatted (table formatted.sect) fun _ => [] := by
  rw [table_formatted]
  have href : ∀ (V : Nat → Block) k, ref V Dinode.zero k = 0 := by
    intro V k
    cases k with
    | none => rfl
    | some bn =>
      rcases Nat.lt_or_ge bn 10 with hbn | hbn
      · exact blockAddr_lt hbn
      · exact blockAddr_none hbn rfl
  refine ⟨⟨formatted_sect (by omega), fun b hb => formatted_sect ?_, ?_, ?_, ?_⟩, rfl, rfl, ?_, ?_,
    ?_, ?_⟩
  · have hfree : formatted.freeblock = 29 := rfl
    omega
  · exact Nat.le_refl 29
  · exact fun i k h0 => absurd (href _ k) h0
  · exact fun i j k l h0 => absurd (href _ k) h0
  · show 29 ≤ 2048
    omega
  · intro j
    constructor
    · intro bn _
      rw [show blockAddr formatted.sect Dinode.zero bn = 0 from href _ (some bn)]
      simp
    · simp [Dinode.zero]
  · intro j
    simp
  · intro j o
    unfold byteAt
    rw [show blockAddr formatted.sect Dinode.zero (o / 512) = 0 from href _ (some (o / 512)),
      UInt32.toNat_zero, formatted_sect (by omega), Block.byte_zero]
    rfl

/-- An append that has room succeeds. -/
theorem iappend_ok (h : Held s (table s.sect) cs) (hi : i < 216)
    (hsize : (table s.sect i).size.toNat = (cs i).length) {p : List UInt8}
    (hroom : ¬ Fails s (cs i).length p.length) : ∃ s', iappend i p s = .ok () s' ∧
      Held s' (table s'.sect) (update cs i (cs i ++ p)) ∧
      Wrote s i (cs i).length p.length s' := by
  obtain ⟨_, s', hok, hpost⟩ := (iappend_wp h hi hsize p).returns_of fun _ _ he => hroom he.2
  exact ⟨s', hok, hpost⟩

theorem filesOf_nil : filesOf [] =
    update (fun _ => []) 1 (Dirent.bytes ⟨1, [46]⟩ ++ Dirent.bytes ⟨1, [46, 46]⟩) := by
  funext j
  by_cases hj : j = 1
  · rw [hj, update_self, filesOf_root]
    simp [rootBytes, entries]
  · rw [update_of_ne hj, filesOf, if_neg hj]
    simp

/-- The root with its first two entries. -/
theorem makeRoot_ok : ∃ s, makeRoot formatted = .ok 1 s ∧ Built s [] := by
  obtain ⟨s1, hok1, hheld1, hino1, hfree1, hsup1, htab1⟩ :=
    formatted_held.ialloc (by decide) rfl T_DIR
  have hfi : formatted.freeinode = 1 := rfl
  have hfb : formatted.freeblock = 29 := rfl
  have h0 : need 0 = 0 := rfl
  have h16 : need 16 = 1 := rfl
  have h32 : need (16 + 16) = 1 := rfl
  rw [hfi] at hok1 hino1 htab1
  rw [hfb] at hfree1
  obtain ⟨s2, hok2, hheld2, hw2⟩ := iappend_ok (i := 1) hheld1 (by omega)
    (by rw [htab1, update_self]; rfl) (p := Dirent.bytes ⟨1, [46]⟩) (by
      rw [length_dirent, List.length_nil, Fails, hfree1, Nat.zero_add, h0, h16]
      omega)
  rw [List.nil_append] at hheld2
  rw [List.length_nil, length_dirent] at hw2
  have hcount2 := hw2.count
  rw [Nat.zero_add] at hcount2
  obtain ⟨s3, hok3, hheld3, hw3⟩ := iappend_ok (i := 1) hheld2 (by omega)
    (by rw [update_self, length_dirent]; exact hw2.size (by omega))
    (p := Dirent.bytes ⟨1, [46, 46]⟩) (by
      rw [update_self, length_dirent, length_dirent, Fails]
      omega)
  rw [update_self, update_idem] at hheld3
  rw [update_self, length_dirent, length_dirent] at hw3
  have hcount3 := hw3.count
  refine ⟨s3, ?_, ?_, ?_, fun j => ?_, ?_, ?_, by simp⟩
  · unfold makeRoot
    rw [Exec.bind_ok hok1]
    refine (Exec.bind_ok (assert_ok rfl _) _).trans ?_
    refine (Exec.bind_ok hok2 _).trans ?_
    exact Exec.bind_ok hok3 _
  · rw [filesOf_nil]
    exact hheld3
  · rw [hw3.inodes, hw2.inodes, hino1]
    rfl
  · obtain ⟨a3, ha3⟩ := hw3.inode
    obtain ⟨a2, ha2⟩ := hw2.inode
    by_cases hj : j = 1
    · rw [hj, ha3, update_self, ha2, update_self, htab1, update_self,
        inodeOf, if_pos rfl]
      rfl
    · rw [hw3.table_ne hj, hw2.table_ne hj, htab1, update_of_ne hj, table_formatted,
        inodeOf, if_neg hj, if_neg (by rw [List.length_nil]; omega)]
  · have htaken : taken [] = 30 := rfl
    omega
  · rw [hw3.super, hw2.super, hsup1]
    exact Image.store_self ..

/-! ## The root's size and checksum -/

theorem fixRoot_ok (h : Built s fs) (hlt : fs.length + 3 < 216) :
    ∃ s', fixRoot 1 s = .ok () s' ∧ Held s' (table s'.sect) (filesOf fs) ∧
      s'.freeinode = fs.length + 2 ∧ s'.freeblock = taken fs ∧ s'.sect 1 = superblock ∧
      table s'.sect = update (table s.sect) 1 { table s.sect 1 with
        size := UInt32.ofNat (rootSize fs), checksum := checksumOf (rootImage fs) } := by
  have hsize := h.size 1
  have hroot := rootSize_le hlt
  rw [filesOf_root, length_rootBytes] at hsize
  have hsize' : ((table s.sect 1).size.toNat / 512 + 1) * 512 = rootSize fs := by
    rw [hsize]
    rfl
  have htype : (table s.sect 1).type ≠ T_DEV := by
    rw [h.dinode 1, inodeOf, if_pos rfl]
    show T_DIR ≠ T_DEV
    decide
  have hnat : (UInt32.ofNat (rootSize fs)).toNat = rootSize fs :=
    UInt32.toNat_ofNat_of_lt' (by unfold UInt32.size; omega)
  have hread : Readable s { table s.sect 1 with size := UInt32.ofNat (rootSize fs) } :=
    h.held.readable (j := 1) rfl htype (by show (UInt32.ofNat (rootSize fs)).toNat ≤ _; omega)
  have hcont : contents s.sect { table s.sect 1 with size := UInt32.ofNat (rootSize fs) } =
      rootImage fs := by
    refine (h.held.contents (j := 1)
      (d := { table s.sect 1 with size := UInt32.ofNat (rootSize fs) }) rfl).trans ?_
    rw [filesOf_root]
    show pad _ (UInt32.ofNat (rootSize fs)).toNat = _
    rw [hnat]
    rfl
  refine ⟨s.put 1 { table s.sect 1 with
    size := UInt32.ofNat (rootSize fs), checksum := checksumOf (rootImage fs) }, ?_,
    h.held.set (by omega) rfl, h.inodes, h.count, ?_, table_put (by omega)⟩
  · unfold fixRoot
    rw [Exec.bind_ok (rinode_ok h.held.len (by omega))]
    dsimp only
    rw [hsize', Exec.bind_ok hread.ichecksum, hcont]
    exact winode_ok h.held.len (by omega) _
  · rw [Image.put_sect (by decide), h.super]

/-! ## The dittos -/

/-- The loop that copies the file `src`, whose addresses are those of inode 1, to inode `i`. -/
theorem copyLoop_wp {src : Dinode} {r : List UInt8} (hi : i < 216) (hi1 : i ≠ 1)
    (ht : src.type ≠ T_DEV) (hs : src.size.toNat ≤ 70656) (fuel : Nat) :
    ∀ {s : Image} {cs : Nat → List UInt8} (off : Nat), Held s (table s.sect) cs →
      (table s.sect i).size.toNat = off → src.addrs = (table s.sect 1).addrs → cs 1 = r →
      cs i = pad r off → off ≤ src.size.toNat → src.size.toNat - off ≤ 512 * fuel →
      wp (copyLoop src i (fuel + 1) off)
        (fun _ s' => Held s' (table s'.sect) (update cs i (pad r src.size.toNat)) ∧
          Wrote s i off (src.size.toNat - off) s')
        (fun e _ => (∃ msg, e = .panic msg) ∧ Fails s off (src.size.toNat - off)) s := by
  induction fuel using Nat.strong_induction_on with
  | _ fuel ih =>
    intro s cs off h hsize ha hc1 hci hoff hf
    have hread : Readable s src := h.readable (j := 1) ha ht hs
    by_cases h0 : src.size.toNat - off = 0
    · -- the read at the end of the file leaves the loop
      obtain rfl : off = src.size.toNat := by omega
      unfold copyLoop
      refine wp_ok_bind (hread.readi_le hoff (by omega)) ?_
      dsimp only
      rw [h0, Nat.min_zero, if_pos (by rfl), ← hci, update_eq_self]
      exact ⟨h, .nothing hsize⟩
    · obtain ⟨fuel, rfl⟩ : ∃ f, fuel = f + 1 := ⟨fuel - 1, by omega⟩
      have hoff' : (off + (((min 512 (src.size.toNat - off) : Nat) : Int) % 4294967296).toNat) %
          4294967296 = off + min 512 (src.size.toNat - off) := by omega
      have hlen : (cs i).length = off := by rw [hci, length_pad]
      unfold copyLoop
      refine wp_ok_bind (hread.readi_le hoff (by omega)) ?_
      dsimp only
      rw [if_neg (by omega), hoff']
      obtain ⟨m, hm⟩ : ∃ m, m = min 512 (src.size.toNat - off) := ⟨_, rfl⟩
      rw [← hm]
      have happ := iappend_wp h hi (hsize.trans hlen.symm) (slice s.sect src off m)
      rw [length_slice, hlen, h.slice (j := 1) ha, hc1, hci, ← pad_add] at happ
      rw [h.slice (j := 1) ha, hc1]
      refine wp_bind.mpr (happ.mono ?_ ?_)
      · rintro _ s1 ⟨hheld1, hw1⟩
        have hcount := hw1.count
        have hrest := ih fuel (by omega) (off + m) hheld1 (hw1.size (by omega))
          (by rw [hw1.table_ne hi1.symm]; exact ha)
          (by rw [update_of_ne hi1.symm]; exact hc1) (update_self ..) (by omega)
          (by omega)
        rw [update_idem] at hrest
        refine hrest.mono ?_ ?_
        · rintro _ s2 ⟨hheld2, hw2⟩
          have hw := hw1.trans hw2
          rw [show m + (src.size.toNat - (off + m)) = src.size.toNat - off by omega] at hw
          exact ⟨hheld2, hw⟩
        · rintro e s2 ⟨hpanic, hfails⟩
          have heq : off + m + (src.size.toNat - (off + m)) = off + (src.size.toNat - off) := by
            omega
          rw [Fails, heq] at hfails
          exact ⟨hpanic, hfails.imp (fun h1 => h1) fun h2 => by omega⟩
      · rintro e s1 ⟨hpanic, hfails⟩
        have hmono := need_mono (m := off + m) (n := off + (src.size.toNat - off)) (by omega)
        exact ⟨hpanic, hfails.imp (fun h1 => by omega) fun h2 => by omega⟩

/-- A ditto is filled. -/
theorem fillDitto_wp {src : Dinode} {r : List UInt8} (h : Held s (table s.sect) cs) (hi : i < 216)
    (hi1 : i ≠ 1) (ht : src.type ≠ T_DEV) (hs : src.size.toNat ≤ 70656)
    (ha : src.addrs = (table s.sect 1).addrs) (hc1 : cs 1 = r) (hci : cs i = [])
    (hsize : (table s.sect i).size = 0) :
    wp (fillDitto src i)
      (fun _ s' => Held s' (table s'.sect) (update cs i (pad r src.size.toNat)) ∧
        s'.freeinode = s.freeinode ∧ s'.sect 1 = s.sect 1 ∧
        s'.freeblock = s.freeblock + need src.size.toNat ∧
        ∃ a, table s'.sect = update (table s.sect) i { table s.sect i with
          addrs := a, size := src.size, checksum := src.checksum })
      (fun e _ => (∃ msg, e = .panic msg) ∧ 2048 < s.freeblock + need src.size.toNat) s := by
  have hb := i2b_lt hi
  have h0 : need 0 = 0 := rfl
  unfold fillDitto copy_dinode_content
  refine wp_bind.mpr ((copyLoop_wp hi hi1 ht hs _ 0 h (by rw [hsize]; rfl) ha hc1 hci
    (Nat.zero_le _) (by omega)).mono ?_ ?_)
  · rintro _ s1 ⟨hheld, hw⟩
    obtain ⟨a, htab⟩ := hw.inode
    have hcount := hw.count
    rw [Nat.zero_add, Nat.sub_zero, h0] at hcount
    refine wp_ok_bind (rinode_ok hheld.len hi) ?_
    refine (wp_of_ok (winode_ok hheld.len hi _)).mpr
      ⟨hheld.set hi rfl, hw.inodes, ?_, hcount, a, ?_⟩
    · rw [Image.put_sect (by omega), hw.super]
    · rw [table_put hi, htab, update_idem, update_self]
  · rintro e s1 ⟨hpanic, hfails⟩
    rw [Fails, Nat.zero_add, Nat.sub_zero, h0] at hfails
    exact ⟨hpanic, by omega⟩

theorem imageOf_eq (fs : List HostFile) : imageOf fs =
    update (update (filesOf fs) (fs.length + 2) (rootImage fs)) (fs.length + 3)
      (rootImage fs) := by
  funext j
  unfold imageOf
  by_cases h3 : j = fs.length + 3
  · rw [h3, update_self, if_pos (Or.inr rfl)]
  · rw [update_of_ne h3]
    by_cases h2 : j = fs.length + 2
    · rw [h2, update_self, if_pos (Or.inl rfl)]
    · rw [update_of_ne h2, if_neg fun hc => hc.elim h2 h3]

theorem madeOf_root (fs : List HostFile) : madeOf fs 1 = { Dinode.zero with
    type := T_DIR, nlink := 1, size := UInt32.ofNat (rootSize fs)
    checksum := checksumOf (rootImage fs), child1 := UInt16.ofNat (fs.length + 2)
    child2 := UInt16.ofNat (fs.length + 3) } := if_pos rfl

theorem madeOf_ditto (hj : j = fs.length + 2 ∨ j = fs.length + 3) : madeOf fs j =
    { Dinode.zero with
      type := T_DITTO, nlink := 1, size := UInt32.ofNat (rootSize fs)
      checksum := checksumOf (rootImage fs) } := by
  unfold madeOf
  rw [if_neg (by omega), if_pos hj]

theorem madeOf_file (h1 : j ≠ 1) (hj : ¬ (j = fs.length + 2 ∨ j = fs.length + 3)) :
    madeOf fs j = inodeOf fs j := by
  unfold madeOf
  rw [if_neg h1, if_neg hj]

/-- The root gets its children: `s1` is the image with the root's size, `s5` that with the
    dittos. -/
theorem Made.of {s1 s5 : Image} (h : Built s fs)
    (hroot : table s1.sect 1 = { madeOf fs 1 with
      addrs := (table s1.sect 1).addrs, child1 := 0, child2 := 0 })
    (hheld : Held s5 (table s5.sect) (imageOf fs)) (hino : s5.freeinode = fs.length + 4)
    (hfree : s5.freeblock = total fs) (hsup : s5.sect 1 = superblock)
    (htab1 : table s5.sect 1 = table s1.sect 1)
    (htab2 : ∀ j, j = fs.length + 2 ∨ j = fs.length + 3 → ∃ a, table s5.sect j =
      { Dinode.zero with
        type := T_DITTO, nlink := 1, addrs := a, size := (table s1.sect 1).size
        checksum := (table s1.sect 1).checksum })
    (htab : ∀ j, j ≠ 1 → ¬ (j = fs.length + 2 ∨ j = fs.length + 3) →
      table s5.sect j = table s.sect j) :
    Made (s5.put 1 { table s5.sect 1 with
      child1 := UInt16.ofNat (fs.length + 2), child2 := UInt16.ofNat (fs.length + 3) }) fs := by
  refine ⟨hheld.set (by omega) rfl, hino, fun j => ?_, hfree, ?_, h.args⟩
  · rw [table_put (by omega)]
    by_cases h1 : j = 1
    · rw [h1, update_self, htab1, hroot, madeOf_root]
    · rw [update_of_ne h1]
      by_cases hd : j = fs.length + 2 ∨ j = fs.length + 3
      · obtain ⟨a, ha⟩ := htab2 j hd
        rw [ha, madeOf_ditto hd, hroot, madeOf_root]
      · rw [madeOf_file h1 hd, htab j h1 hd]
        exact h.dinode j
  · rw [Image.put_sect (by decide), hsup]

/-- `main` from the root's size on. -/
theorem finish_wp (h : Built s fs) (hlt : fs.length + 3 < 216) :
    wp (fixRoot 1 >>= fun _ => makeDittos 1) (fun _ s' => Made s' fs)
      (fun e _ => (∃ msg, e = .panic msg) ∧ 2048 < total fs) s := by
  obtain ⟨s1, hok1, hheld1, hino1, hfree1, hsup1, htab1⟩ := fixRoot_ok h hlt
  have hsize := rootSize_le hlt
  have hnat : (UInt32.ofNat (rootSize fs)).toNat = rootSize fs :=
    UInt32.toNat_ofNat_of_lt' (by unfold UInt32.size; omega)
  refine wp_ok_bind hok1 ?_
  unfold makeDittos
  refine wp_ok_bind (rinode_ok hheld1.len (by omega)) ?_
  obtain ⟨s2, hok2, hheld2, hino2, hfree2, hsup2, htab2⟩ := hheld1.ialloc (by omega)
    (by rw [hino1]; exact filesOf_ge (Nat.le_refl _)) T_DITTO
  refine wp_ok_bind hok2 ?_
  obtain ⟨s3, hok3, hheld3, hino3, hfree3, hsup3, htab3⟩ := hheld2.ialloc (by omega)
    (by rw [hino2, hino1]; exact filesOf_ge (Nat.le_succ _)) T_DITTO
  refine wp_ok_bind hok3 ?_
  rw [hino2, hino1] at htab3 ⊢
  rw [hino1] at htab2
  -- the copy of the root that is read from is still good when the dittos are filled
  have h12 : (1 : Nat) ≠ fs.length + 2 := by omega
  have h13 : (1 : Nat) ≠ fs.length + 3 := by omega
  have h23 : fs.length + 2 ≠ fs.length + 3 := by omega
  have hroot1 : table s1.sect 1 = { madeOf fs 1 with
      addrs := (table s1.sect 1).addrs, child1 := 0, child2 := 0 } := by
    rw [htab1, update_self, h.dinode 1, inodeOf, if_pos rfl, madeOf_root]
    rfl
  have htype : (table s1.sect 1).type ≠ T_DEV := by
    rw [hroot1, madeOf_root]
    show T_DIR ≠ T_DEV
    decide
  have hsz1 : (table s1.sect 1).size.toNat = rootSize fs := by
    rw [hroot1, madeOf_root]
    exact hnat
  have htab31 : table s3.sect 1 = table s1.sect 1 := by
    rw [htab3, update_of_ne h13, htab2, update_of_ne h12]
  have htab32 : table s3.sect (fs.length + 2) =
      { Dinode.zero with type := T_DITTO, nlink := 1 } := by
    rw [htab3, update_of_ne h23, htab2, update_self]
  refine wp_bind.mpr ((fillDitto_wp (i := fs.length + 2) hheld3 (by omega) h12.symm htype (by omega)
    (by rw [htab31]) (filesOf_root fs) (filesOf_ge (Nat.le_refl _))
    (by rw [htab32]; rfl)).mono ?_ ?_)
  · rintro _ s4 ⟨hheld4, hino4, hsup4, hfree4, a4, htab4⟩
    have htab41 : table s4.sect 1 = table s1.sect 1 := by
      rw [htab4, update_of_ne h12, htab31]
    have htab43 : table s4.sect (fs.length + 3) =
        { Dinode.zero with type := T_DITTO, nlink := 1 } := by
      rw [htab4, update_of_ne h23.symm, htab3, update_self]
    refine wp_bind.mpr ((fillDitto_wp (i := fs.length + 3) hheld4 (by omega) h13.symm htype
      (by omega) (by rw [htab41]) ((update_of_ne h12 ..).trans (filesOf_root fs))
      ((update_of_ne h23.symm ..).trans (filesOf_ge (Nat.le_succ _)))
      (by rw [htab43]; rfl)).mono ?_ ?_)
    · rintro _ s5 ⟨hheld5, hino5, hsup5, hfree5, a5, htab5⟩
      have htab51 : table s5.sect 1 = table s1.sect 1 := by
        rw [htab5, update_of_ne h13, htab41]
      rw [hsz1] at hheld5 hfree4 hfree5
      refine wp_ok_bind (rinode_ok hheld5.len (by omega)) ?_
      refine (wp_of_ok (winode_ok hheld5.len (by omega) _)).mpr ?_
      refine Made.of h hroot1 ?_ (by omega) ?_ ?_ htab51 ?_ ?_
      · rw [imageOf_eq]
        exact hheld5
      · unfold total
        omega
      · rw [hsup5, hsup4, hsup3, hsup2, hsup1]
      · rintro j (rfl | rfl)
        · refine ⟨a4, ?_⟩
          rw [htab5, update_of_ne h23, htab4, update_self, htab32]
        · refine ⟨a5, ?_⟩
          rw [htab5, update_self, htab43]
      · intro j hj1 hj
        rw [not_or] at hj
        rw [htab5, update_of_ne hj.2, htab4, update_of_ne hj.1, htab3,
          update_of_ne hj.2, htab2, update_of_ne hj.1, htab1,
          update_of_ne hj1]
    · rintro e s5 ⟨hpanic, hgt⟩
      refine ⟨hpanic, ?_⟩
      unfold total
      rw [hsz1] at hfree4 hgt
      omega
  · rintro e s4 ⟨hpanic, hgt⟩
    refine ⟨hpanic, ?_⟩
    unfold total
    rw [hsz1] at hgt
    omega

/-! ## The whole run -/

theorem taken_le (l r : List HostFile) : taken l ≤ taken (l ++ r) := by
  have hmono := need_mono (m := 16 * (l.length + 2)) (n := 16 * ((l ++ r).length + 2))
    (by rw [List.length_append]; omega)
  unfold taken
  rw [List.map_append, List.sum_append]
  omega

theorem Rejects.not_accepts {l r : List HostFile} {f : HostFile} (h : Rejects l f) :
    ¬ Accepts (l ++ f :: r) := by
  intro ha
  have hmem : f ∈ l ++ f :: r := by simp
  rcases h with h | h | h | h
  · exact (ha.args f hmem).1 h
  · exact absurd (ha.args f hmem).2 (by simp [h])
  · exact absurd (ha.short f hmem) (by omega)
  · have hle := taken_le (l ++ [f]) r
    have hroom := ha.room
    rw [List.append_assoc, List.singleton_append] at hle
    unfold total at hroom
    omega

/-- Every file has its inode. -/
theorem filesOf_mem {f : HostFile} (hf : f ∈ fs) :
    ∃ j, 2 ≤ j ∧ j < fs.length + 2 ∧ filesOf fs j = f.bytes := by
  obtain ⟨k, hk, rfl⟩ := List.getElem_of_mem hf
  refine ⟨k + 2, by omega, by omega, ?_⟩
  unfold filesOf
  rw [if_neg (by omega), if_pos (by omega), Nat.add_sub_cancel,
    List.getD_eq_getElem _ _ (by simpa using hk), List.getElem_map]

theorem Made.accepts (h : Made s fs) : Accepts fs := by
  refine ⟨h.args, fun f hf => ?_, ?_⟩
  · obtain ⟨j, h2, hlt, hj⟩ := filesOf_mem hf
    have hshort := h.held.short j
    rwa [imageOf, if_neg (by omega), hj] at hshort
  · rw [← h.count]
    exact h.held.fits

/-- `main` up to the files. -/
theorem main_files {Q : Unit → Image → Prop} {E : Stop Empty → Image → Prop}
    (h : ∀ s, Built s [] → wp (addFiles 1 fs) (fun _ => wp (fixRoot 1 >>= fun _ =>
      makeDittos 1 >>= fun _ => Exec.gets Image.usedblocks >>= balloc) Q E) E s) :
    wp (main fs) Q E blank := by
  have hformat : wsect 1 superblock { blank with len := 2048 } = .ok () formatted :=
    wsect_ok (by decide) _
  obtain ⟨s0, hok0, hbuilt0⟩ := makeRoot_ok
  unfold main
  refine wp_bind.mpr (wp_assert (fun _ => ?_) fun hne => absurd (by decide) hne)
  refine wp_ok_bind (wzeroes_ok 2048) ?_
  refine wp_ok_bind hformat ?_
  refine wp_ok_bind hok0 ?_
  exact wp_bind.mpr (h s0 hbuilt0)

/-- `main` stops at a file that it rejects, if the inodes up to that of the file lie on no data
    block. -/
theorem main_rejects {l r : List HostFile} {f : HostFile} (hl : l.length + 2 < 216)
    (hr : Rejects l f) :
    wp (main (l ++ f :: r)) (fun _ _ => False) (fun e _ => ∃ msg, e = .panic msg) blank := by
  refine main_files fun s0 hbuilt0 => ?_
  rw [addFiles_append, addFiles]
  refine wp_bind.mpr ((addFiles_wp l hbuilt0 (by rw [List.length_nil]; omega)).mono ?_
    fun _ _ he => he.1)
  intro _ s1 hbuilt
  refine wp_bind.mpr ((addFile_wp (f := f) hbuilt hl).mono ?_ fun _ _ he => he.1)
  intro _ s2 hbuilt2
  exact absurd hr hbuilt2.not_rejects

/-- With fewer than 213 files `main` makes the image, or stops because it does not accept the
    files. -/
theorem main_wp (hlt : fs.length + 3 < 216) :
    wp (main fs) (fun _ s' => ∃ s, Made s fs ∧ s' = s.store 28 (bitmap s.freeblock))
      (fun e _ => (∃ msg, e = .panic msg) ∧ ¬ Accepts fs) blank := by
  refine main_files fun s0 hbuilt0 => ?_
  refine (addFiles_wp fs hbuilt0 (by rw [List.length_nil]; omega)).mono ?_ ?_
  · intro _ s1 hbuilt
    rw [List.nil_append] at hbuilt
    have hfinish := wp_bind.mp (finish_wp hbuilt hlt)
    refine wp_bind.mpr (hfinish.mono ?_ ?_)
    · intro _ s2 hd
      refine wp_bind.mpr (hd.mono ?_ ?_)
      · intro _ s3 hmade
        have hfits := hmade.held.fits
        have hused := hmade.held.used
        refine wp_gets_bind.mpr ?_
        unfold balloc
        refine wp_ok_bind (assert_ok (by omega) _) ?_
        refine (wp_of_ok (wsect_ok (by rw [hmade.held.len]; decide) _)).mpr ⟨s3, hmade, ?_⟩
        rw [hused]
      · rintro e s3 ⟨hpanic, hgt⟩
        exact ⟨hpanic, fun ha => absurd ha.room (by omega)⟩
    · rintro e s2 ⟨hpanic, hgt⟩
      exact ⟨hpanic, fun ha => absurd ha.room (by omega)⟩
  · rintro e s1 ⟨hpanic, l, f, r, rfl, hrej⟩
    exact ⟨hpanic, hrej.not_accepts⟩

end Zv6.Host
