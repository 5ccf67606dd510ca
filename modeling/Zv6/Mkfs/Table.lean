/-
  The inodes in the image.

  The sectors between the superblock and the first data block have room for 216 inodes, the
  bitmap's sector included, which `balloc` writes last. Up to there `rinode` and `winode` are a
  table (`rinode_ok`, `winode_ok`), and `iappend` and `ialloc` keep the rest of the image as
  `Held` says (`iappend_wp`, `Held.ialloc`).
-/
import Zv6.Mkfs.Append

namespace Zv6.Host

open Lib Function

/-- Inode `j` of the image. -/
def table (V : Nat → Block) (j : Nat) : Dinode :=
  if j < 216 then (V (i2b j)).dinode (j % 8) else Dinode.zero

/-- Inode `i` is written. -/
def Image.put (s : Image) (i : Nat) (d : Dinode) : Image :=
  s.store (i2b i) ((s.sect (i2b i)).setDinode (i % 8) d)

variable {s s' : Image} {D D' : Nat → Dinode} {cs : Nat → List UInt8} {i : Nat} {d : Dinode}

theorem i2b_lt (h : i < 216) : 2 ≤ i2b i ∧ i2b i < 29 := by
  unfold i2b
  omega

theorem table_lt {V : Nat → Block} (h : i < 216) : table V i = (V (i2b i)).dinode (i % 8) :=
  if_pos h

theorem rinode_ok (hlen : s.len = 2048) (hi : i < 216) : rinode i s = .ok (table s.sect i) s := by
  have hb := i2b_lt hi
  unfold rinode
  rw [Exec.bind_ok (rsect_ok (by omega)), table_lt hi]
  rfl

theorem winode_ok (hlen : s.len = 2048) (hi : i < 216) (d : Dinode) :
    winode i d s = .ok () (s.put i d) := by
  have hb := i2b_lt hi
  unfold winode
  rw [Exec.bind_ok (rsect_ok (by omega)), wsect_ok (by omega)]
  rfl

theorem Image.put_sect {b : Nat} (hb : b ≠ i2b i) : (s.put i d).sect b = s.sect b :=
  Image.store_ne hb _

theorem Image.put_self : (s.put i d).sect (i2b i) = (s.sect (i2b i)).setDinode (i % 8) d :=
  Image.store_self ..

theorem table_put (hi : i < 216) : table (s.put i d).sect = update (table s.sect) i d := by
  funext j
  unfold table
  by_cases hj : j = i
  · subst hj
    rw [update_self, if_pos hi, Image.put_self,
      dinode_setDinode _ _ _ (Nat.mod_lt _ (by decide))]
  · rw [update_of_ne hj]
    split
    · by_cases hb : i2b j = i2b i
      · have hne : j % 8 ≠ i % 8 := by
          unfold i2b at hb
          omega
        rw [hb, Image.put_self, dinode_setDinode_ne _ _ _ _ hne]
      · rw [Image.put_sect hb]
    · rfl

/-- The table is below the data blocks. -/
theorem table_congr {V V' : Nat → Block} (h : ∀ b, b < 29 → V' b = V b) : table V' = table V := by
  funext j
  unfold table
  split
  · next hj => rw [h _ (i2b_lt hj).2]
  · rfl

/-! ## What `Held` depends on -/

theorem ref_addrs {V : Nat → Block} {d d' : Dinode} (h : d.addrs = d'.addrs) (k : Option Nat) :
    ref V d k = ref V d' k := by
  cases k with
  | none => exact congrFun h 10
  | some bn => exact blockAddr_addrs h V bn

theorem Held.congr (h : Held s D cs) (ha : ∀ j, (D' j).addrs = (D j).addrs) : Held s D' cs := by
  have href : ∀ j k, ref s.sect (D' j) k = ref s.sect (D j) k := fun j => ref_addrs (ha j)
  refine ⟨⟨h.laid.boot, h.laid.fresh, h.laid.low, ?_, ?_⟩, h.len, h.used, h.fits, ?_, h.short, ?_⟩
  · intro j k h0
    rw [href] at h0 ⊢
    exact h.laid.range j k h0
  · intro j j' k k' h0 e
    rw [href] at h0 e
    rw [href] at e
    exact h.laid.inj j j' k k' h0 e
  · intro j
    have hb := h.backed j
    exact ⟨fun bn hbn => by rw [blockAddr_addrs (ha j)]; exact hb.block bn hbn,
      by rw [ha j]; exact hb.ind⟩
  · intro j o
    rw [byteAt_addrs (ha j)]
    exact h.bytes j o

theorem Laid.blockAddr_congr {V V' : Nat → Block} {free : Nat} (h : Laid V D free)
    (hV : ∀ b, 29 ≤ b → V' b = V b) (j k : Nat) : blockAddr V' (D j) k = blockAddr V (D j) k :=
  Host.blockAddr_congr fun hind => hV _ (h.range j none hind).1

/-- Only sector 0 and the data blocks count. -/
theorem Held.frame (h : Held s D cs) (hV : ∀ b, 29 ≤ b → s'.sect b = s.sect b)
    (h0 : s'.sect 0 = s.sect 0) (hlen : s'.len = s.len) (hf : s'.freeblock = s.freeblock)
    (hu : s'.usedblocks = s.usedblocks) : Held s' D cs := by
  have haddr := h.laid.blockAddr_congr hV
  have hlow := h.laid.low
  have href : ∀ j k, ref s'.sect (D j) k = ref s.sect (D j) k := by
    intro j k
    cases k with
    | none => rfl
    | some bn => exact haddr j bn
  refine ⟨⟨h0.trans h.laid.boot, ?_, ?_, ?_, ?_⟩, hlen.trans h.len, ?_, ?_, ?_, h.short, ?_⟩
  · intro b hb
    rw [hf] at hb
    rw [hV b (by omega), h.laid.fresh b hb]
  · rw [hf]
    exact hlow
  · intro j k hne
    rw [href] at hne ⊢
    rw [hf]
    exact h.laid.range j k hne
  · intro j j' k k' hne e
    rw [href] at hne e
    rw [href] at e
    exact h.laid.inj j j' k k' hne e
  · rw [hf, hu, h.used]
  · rw [hf]
    exact h.fits
  · exact fun j => (h.backed j).congr (haddr j)
  · intro j o
    rw [← h.bytes j o]
    unfold byteAt
    rw [haddr]
    by_cases hz : blockAddr s.sect (D j) (o / 512) = 0
    · rw [hz, UInt32.toNat_zero, h0]
    · have hr : 29 ≤ (blockAddr s.sect (D j) (o / 512)).toNat :=
        (h.laid.range j (some (o / 512)) hz).1
      rw [hV _ hr]

/-- The inode that was worked on is written back. -/
theorem Held.put (hi : i < 216) (h : Held s (update (table s.sect) i d) cs) :
    Held (s.put i d) (table (s.put i d).sect) cs := by
  have hb := i2b_lt hi
  rw [table_put hi]
  refine h.frame (fun b hb' => Image.put_sect (by omega)) (Image.put_sect (by omega)) rfl rfl rfl

/-- A file without bytes has no blocks. -/
theorem Held.addrs_nil (h : Held s D cs) (hi : cs i = []) : (D i).addrs = fun _ => 0 := by
  have hb := h.backed i
  rw [hi, List.length_nil] at hb
  funext k
  by_cases hk : k.val < 10
  · by_contra hne
    have hblock := (hb.block k.val (by omega)).mp
    rw [blockAddr_lt hk] at hblock
    exact absurd (hblock hne) (by omega)
  · by_contra hne
    obtain rfl : k = 10 := Fin.ext (by have := k.isLt; show k.val = 10; omega)
    exact absurd (hb.ind.mp hne) (by omega)

/-- An inode is written whose addresses are those in the image. -/
theorem Held.set (h : Held s (table s.sect) cs) (hi : i < 216)
    (ha : d.addrs = (table s.sect i).addrs) : Held (s.put i d) (table (s.put i d).sect) cs := by
  refine Held.put hi (h.congr fun j => ?_)
  by_cases hj : j = i
  · rw [hj, update_self]
    exact ha
  · rw [update_of_ne hj]

/-! ## ialloc and iappend -/

/-- The image when an inode number has been taken. -/
def Image.next (s : Image) : Image := { s with freeinode := s.freeinode + 1 }

theorem Held.next (h : Held s D cs) : Held s.next D cs :=
  h.frame (fun _ _ => rfl) rfl rfl rfl rfl

/-- The new inode has no bytes and no blocks. -/
theorem Held.ialloc (h : Held s (table s.sect) cs) (hi : s.freeinode < 216)
    (hnil : cs s.freeinode = []) (type : UInt16) : ∃ s', ialloc type s = .ok s.freeinode s' ∧
      Held s' (table s'.sect) cs ∧ s'.freeinode = s.freeinode + 1 ∧
      s'.freeblock = s.freeblock ∧ s'.sect 1 = s.sect 1 ∧
      table s'.sect = update (table s.sect) s.freeinode
        { Dinode.zero with type := type, nlink := 1 } := by
  have hb := i2b_lt hi
  have hnext : Held s.next (table s.next.sect) cs := h.next
  refine ⟨s.next.put s.freeinode { Dinode.zero with type := type, nlink := 1 }, ?_,
    hnext.set hi (h.addrs_nil hnil).symm, rfl, rfl, Image.put_sect (by omega), table_put hi⟩
  unfold Host.ialloc
  rw [Exec.gets_bind, Exec.modify_bind]
  refine (Exec.bind_ok (winode_ok hnext.len hi _) _).trans ?_
  rfl

/-- `iappend` wrote `n` bytes behind the first `len` of inode `i`. -/
structure Wrote (s : Image) (i len n : Nat) (s' : Image) : Prop where
  inodes : s'.freeinode = s.freeinode
  super : s'.sect 1 = s.sect 1
  count : s'.freeblock + need len = s.freeblock + need (len + n)
  inode : ∃ a, table s'.sect = update (table s.sect) i
    { table s.sect i with addrs := a, size := UInt32.ofNat (len + n) }

theorem iappend_wp (h : Held s (table s.sect) cs) (hi : i < 216)
    (hsize : (table s.sect i).size.toNat = (cs i).length) (p : List UInt8) :
    wp (iappend i p)
      (fun _ s' => Held s' (table s'.sect) (update cs i (cs i ++ p)) ∧
        Wrote s i (cs i).length p.length s')
      (fun e _ => (∃ msg, e = .panic msg) ∧ Fails s (cs i).length p.length) s := by
  have hb := i2b_lt hi
  unfold iappend
  refine wp_ok_bind (rinode_ok h.len hi) ?_
  rw [hsize]
  refine wp.bind (iappendLoop_wp (i := i) p.length h rfl (Nat.le_refl _)) ?_
  rintro ⟨d', off⟩ s1 ⟨hheld, happ, hoff⟩
  have hoff : off = (cs i).length + p.length := hoff
  have hframe : d' = { table s.sect i with addrs := d'.addrs } := happ.frame
  have htab : table s1.sect = table s.sect := table_congr happ.low
  refine (wp_of_ok (winode_ok hheld.len hi _)).mpr ⟨?_, happ.inodes, ?_, happ.count, d'.addrs, ?_⟩
  · refine Held.put hi (hheld.congr fun j => ?_)
    rw [htab]
    by_cases hj : j = i
    · rw [hj, update_self, update_self]
    · rw [update_of_ne hj, update_of_ne hj]
  · rw [Image.put_sect (by omega)]
    exact happ.low 1 (by omega)
  · rw [table_put hi, htab, hoff, hframe]

end Zv6.Host
