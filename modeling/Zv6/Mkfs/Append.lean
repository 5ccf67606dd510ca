/-
  `iappend`: the bytes are behind those the file had, and no other file changed.

  `Held s D cs`: inode `j` of the image, which is `D j`, has the bytes `cs j` and exactly the
  blocks these need, and all blocks below `freeblock` are taken. The loop of `iappend` keeps this
  with its own copy of the inode in place of the one in the image (`round_wp`, `iappendLoop_wp`).
  It stops when the file gets longer than MAXFILE blocks, or when a block behind the end of the
  image would be needed: a block is always read before it is written.
-/
import Mathlib.Data.List.GetD
import Zv6.Lib.Wp
import Zv6.Mkfs.Layout
import Zv6.Mkfs.Read

namespace Zv6.Host

open Lib Function

/-- The number of blocks a file of `len` bytes takes, its indirect block included. -/
def need (len : Nat) : Nat := (len + 511) / 512 + if 5120 < len then 1 else 0

/-- The inode has the blocks for `len` bytes, and no others. -/
structure Backed (V : Nat → Block) (d : Dinode) (len : Nat) : Prop where
  block : ∀ bn, bn < 138 → (blockAddr V d bn ≠ 0 ↔ bn * 512 < len)
  ind : d.addrs 10 ≠ 0 ↔ 5120 < len

theorem Backed.congr {V V' : Nat → Block} {d : Dinode} {len : Nat}
    (h : ∀ bn, blockAddr V' d bn = blockAddr V d bn) (hb : Backed V d len) : Backed V' d len :=
  ⟨fun bn hbn => by rw [h bn]; exact hb.block bn hbn, hb.ind⟩

structure Held (s : Image) (D : Nat → Dinode) (cs : Nat → List UInt8) : Prop where
  laid : Laid s.sect D s.freeblock
  len : s.len = 2048
  used : s.usedblocks = s.freeblock
  fits : s.freeblock ≤ 2048
  backed : ∀ j, Backed s.sect (D j) (cs j).length
  short : ∀ j, (cs j).length ≤ 70656
  bytes : ∀ j o, byteAt s.sect (D j) o = (cs j).getD o 0

/-- The blocks that are taken when block `fbn` is needed. -/
def extra (V : Nat → Block) (d : Dinode) (fbn : Nat) : Nat :=
  (if blockAddr V d fbn = 0 then 1 else 0) + if 10 ≤ fbn ∧ d.addrs 10 = 0 then 1 else 0

/-- Block `fbn` of inode `i`, which is now `d'`, is the block `x`. -/
structure Gives (s : Image) (D : Nat → Dinode) (i fbn : Nat) (d' : Dinode) (x : Nat)
    (s' : Image) : Prop where
  laid : Laid s'.sect (update D i d') s'.freeblock
  grows : Grows s.sect D s'.sect (update D i d')
  frame : d' = { D i with addrs := d'.addrs }
  addr : ∀ k, k ≠ fbn → blockAddr s'.sect d' k = blockAddr s.sect (D i) k
  other : ∀ j, j ≠ i → ∀ k, blockAddr s'.sect (D j) k = blockAddr s.sect (D j) k
  ind : d'.addrs 10 ≠ 0 ↔ (D i).addrs 10 ≠ 0 ∨ 10 ≤ fbn
  there : blockAddr s'.sect d' fbn ≠ 0
  eq : x = (blockAddr s'.sect d' fbn).toNat
  len : s'.len = s.len
  inodes : s'.freeinode = s.freeinode
  used : s'.usedblocks + s.freeblock = s.usedblocks + s'.freeblock
  count : s'.freeblock = s.freeblock + extra s.sect (D i) fbn
  last : s'.freeblock = s.freeblock ∨ s'.freeblock = x + 1

variable {s s' : Image} {D : Nat → Dinode} {cs : Nat → List UInt8} {i fbn : Nat} {d d' : Dinode}
  {E : Stop Empty → Image → Prop}

/-! ## Primitive steps -/

theorem wp_rsect {Q : Block → Image → Prop} {sec : Nat} (h : sec < s.len → Q (s.sect sec) s)
    (h' : s.len ≤ sec → E (.panic "read") s) : wp (rsect sec) Q E s := by
  unfold wp rsect
  by_cases hs : sec < s.len
  · rw [if_pos hs]
    exact h hs
  · rw [if_neg hs]
    exact h' (by omega)

theorem assert_ok {p : Prop} [Decidable p] (h : p) (msg : String) : assert p msg s = .ok () s := by
  unfold assert
  rw [if_pos h]
  rfl

theorem wp_assert {Q : Unit → Image → Prop} {p : Prop} [Decidable p] {msg : String}
    (h : p → Q () s) (h' : ¬ p → E (.panic msg) s) : wp (assert p msg) Q E s :=
  wp_ite h h'

/-- The image with sector `sec` written; it is as long as it was. -/
def Image.store (s : Image) (sec : Nat) (b : Block) : Image :=
  { s with sect := update s.sect sec b }

theorem Image.store_self (s : Image) (sec : Nat) (b : Block) : (s.store sec b).sect sec = b :=
  update_self ..

theorem Image.store_ne {sec c : Nat} (h : c ≠ sec) (b : Block) :
    (s.store sec b).sect c = s.sect c :=
  update_of_ne h ..

theorem wsect_ok {sec : Nat} (h : sec < s.len) (b : Block) :
    wsect sec b s = .ok () (s.store sec b) := by
  unfold wsect Image.store
  rw [Exec.modify_apply, Nat.max_eq_left (by omega)]

/-- The image when a block has been taken. -/
def Image.took (s : Image) : Image :=
  { s with freeblock := s.freeblock + 1, usedblocks := s.usedblocks + 1 }

theorem takeBlock_ok (s : Image) : takeBlock s = .ok s.freeblock s.took := rfl

theorem ensure_new {k : Fin 11} (h : d.addrs k = 0) :
    ensure d k s = .ok (setAddr d k s.freeblock) s.took := by
  unfold ensure
  rw [if_pos h, Exec.bind_ok (takeBlock_ok s)]
  rfl

theorem ensure_old {k : Fin 11} (h : d.addrs k ≠ 0) : ensure d k s = .ok d s := by
  unfold ensure
  rw [if_neg h]
  rfl

/-! ## The block for the next byte -/

theorem Gives.old (h : Laid s.sect D s.freeblock) (hx : blockAddr s.sect (D i) fbn ≠ 0)
    (hind : 10 ≤ fbn → (D i).addrs 10 ≠ 0) :
    Gives s D i fbn (D i) (blockAddr s.sect (D i) fbn).toNat s := by
  have hextra : extra s.sect (D i) fbn = 0 := by
    unfold extra
    rw [if_neg hx, if_neg fun hc => hind hc.1 hc.2]
  refine ⟨?_, ?_, rfl, fun _ _ => rfl, fun _ _ _ => rfl, ⟨Or.inl, ?_⟩, hx, rfl, rfl, rfl, rfl, ?_,
    Or.inl rfl⟩
  · rw [update_eq_self]
    exact h
  · rw [update_eq_self]
    exact .refl _ _
  · intro hc
    exact hc.elim id hind
  · rw [hextra, Nat.add_zero]

theorem Gives.direct (h : Laid s.sect D s.freeblock) (hfree : s.freeblock < 2 ^ 32)
    (hfbn : fbn < 10) (h0 : (D i).addrs ⟨fbn, direct_lt hfbn⟩ = 0) :
    Gives s D i fbn (setAddr (D i) ⟨fbn, direct_lt hfbn⟩ s.freeblock) s.freeblock s.took := by
  have hlow := h.low
  obtain ⟨hlaid, hgrows⟩ := h.direct hfree hfbn h0
  have haddr := blockAddr_direct (V := s.sect) (d := D i) hfbn s.freeblock
  have hself := (haddr fbn).trans (if_pos rfl)
  have h10 := setAddr_of_ne (d := D i) (direct_ne hfbn).symm s.freeblock
  have hextra : extra s.sect (D i) fbn = 1 := by
    unfold extra
    rw [if_pos ((blockAddr_lt hfbn).trans h0), if_neg (by omega)]
  refine ⟨hlaid, hgrows, rfl, fun k hk => (haddr k).trans (if_neg hk), fun _ _ _ => rfl, ?_, ?_, ?_,
    rfl, rfl, ?_, ?_, Or.inr rfl⟩
  · rw [h10]
    exact ⟨Or.inl, fun hc => hc.elim id fun hge => absurd hge (by omega)⟩
  · rw [show s.took.sect = s.sect from rfl, hself]
    exact ofNat_ne_zero (by omega) hfree
  · rw [show s.took.sect = s.sect from rfl, hself, UInt32.toNat_ofNat_of_lt' hfree]
  · show s.usedblocks + 1 + s.freeblock = s.usedblocks + (s.freeblock + 1)
    omega
  · rw [hextra]
    rfl

/-- An entry of the indirect block is made. -/
theorem Gives.entry (h : Laid s.sect D s.freeblock) (hfree : s.freeblock < 2 ^ 32)
    (hfbn : 10 ≤ fbn) (h138 : fbn < 138) (hi : (D i).addrs 10 ≠ 0)
    (h0 : blockAddr s.sect (D i) fbn = 0) :
    Gives s D i fbn (D i) s.freeblock (s.took.store ((D i).addrs 10).toNat
      ((s.sect ((D i).addrs 10).toNat).setWord (fbn - 10) (UInt32.ofNat s.freeblock))) := by
  have hlow := h.low
  obtain ⟨hlaid, hgrows⟩ := h.entry hfree hi hfbn h138 h0
  have haddr := h.blockAddr_entry hi hfbn h138 (UInt32.ofNat s.freeblock)
  have hself := (haddr i fbn).trans (if_pos ⟨rfl, rfl⟩)
  have hextra : extra s.sect (D i) fbn = 1 := by
    unfold extra
    rw [if_pos h0, if_neg fun hc => hi hc.2]
  refine ⟨?_, ?_, rfl, fun k hk => (haddr i k).trans (if_neg fun hc => hk hc.2),
    fun j hj k => (haddr j k).trans (if_neg fun hc => hj hc.1), ?_, ?_, ?_, rfl, rfl, ?_, ?_,
    Or.inr rfl⟩
  · rw [update_eq_self]
    exact hlaid
  · rw [update_eq_self]
    exact hgrows
  · exact ⟨Or.inl, fun _ => hi⟩
  · exact fun hz => ofNat_ne_zero (by omega) hfree (hself.symm.trans hz)
  · exact ((congrArg UInt32.toNat hself).trans (UInt32.toNat_ofNat_of_lt' hfree)).symm
  · show s.usedblocks + 1 + s.freeblock = s.usedblocks + (s.freeblock + 1)
    omega
  · rw [hextra]
    rfl

/-- The indirect block itself was taken first. -/
theorem Gives.indirect {x : Nat} (h : Laid s.sect D s.freeblock) (hfree : s.freeblock < 2 ^ 32)
    (hfbn : 10 ≤ fbn) (hi : (D i).addrs 10 = 0)
    (hg : Gives s.took (update D i (setAddr (D i) 10 s.freeblock)) i fbn d' x s') :
    Gives s D i fbn d' x s' := by
  have hlow := h.low
  have hgrow := (h.indirect hfree hi).2
  have haddr := h.blockAddr_indirect hfree hi
  have h0 : blockAddr s.sect (D i) fbn = 0 := blockAddr_none hfbn hi
  have h10 : (setAddr (D i) 10 s.freeblock).addrs 10 ≠ 0 := by
    rw [setAddr_self]
    exact ofNat_ne_zero (by omega) hfree
  have hused := hg.used
  have hlaid := hg.laid
  have hgrows := hg.grows
  have hframe := hg.frame
  have hlast := hg.last
  have hcount :
      s'.freeblock = s.freeblock + 1 + extra s.sect (setAddr (D i) 10 s.freeblock) fbn := by
    have hc := hg.count
    rwa [update_self] at hc
  have hextra : extra s.sect (D i) fbn = 2 := by
    unfold extra
    rw [if_pos h0, if_pos ⟨hfbn, hi⟩]
  have hextra' : extra s.sect (setAddr (D i) 10 s.freeblock) fbn = 1 := by
    unfold extra
    rw [if_pos ((haddr fbn).trans h0), if_neg fun hc => h10 hc.2]
  rw [update_idem] at hlaid hgrows
  rw [update_self] at hframe
  rw [hextra'] at hcount
  have hfb : s.took.freeblock = s.freeblock + 1 := rfl
  have hub : s.took.usedblocks = s.usedblocks + 1 := rfl
  refine ⟨hlaid, hgrow.trans hgrows, hframe, fun k hk => ?_, fun j hj k => ?_, ?_, hg.there, hg.eq,
    hg.len, hg.inodes, by omega, by omega, Or.inr (by omega)⟩
  · have := hg.addr k hk
    rw [update_self] at this
    exact this.trans (haddr k)
  · have := hg.other j hj k
    rwa [update_of_ne hj] at this
  · rw [hg.ind]
    exact ⟨fun _ => Or.inr hfbn, fun _ => Or.inr hfbn⟩

/-- The entry of an inode that has an indirect block. -/
theorem findEntry_wp (h : Laid s.sect D s.freeblock) (hlen : s.len = 2048)
    (hfree : s.freeblock ≤ 2049) (hfbn : 10 ≤ fbn) (h138 : fbn < 138) (hi : (D i).addrs 10 ≠ 0)
    (hE : 2048 ≤ ((D i).addrs 10).toNat → E (.panic "read") s) :
    wp (ensureIndirect ((D i).addrs 10).toNat (fbn - 10))
      (fun x s' => Gives s D i fbn (D i) x s') E s := by
  have haddr : blockAddr s.sect (D i) fbn = (s.sect ((D i).addrs 10).toNat).word (fbn - 10) :=
    blockAddr_ge hfbn h138 hi
  unfold ensureIndirect
  refine wp_bind.mpr (wp_rsect (fun hlt => ?_) fun hge => hE (by omega))
  refine wp_ite (fun h0 => ?_) fun h0 => ?_
  · rw [← haddr] at h0
    refine (wp_of_ok (a := s.freeblock) ?_).mpr (Gives.entry h (by omega) hfbn h138 hi h0)
    rw [Exec.bind_ok (takeBlock_ok s), Exec.bind_ok (wsect_ok (s := s.took) hlt _)]
    rfl
  · rw [← haddr] at h0 ⊢
    exact Gives.old h h0 fun _ => hi

theorem findBlock_wp (h : Laid s.sect D s.freeblock) (hlen : s.len = 2048)
    (hfree : s.freeblock ≤ 2048) (h138 : fbn < 138)
    (hE : ∀ s', 2048 < s.freeblock + extra s.sect (D i) fbn → E (.panic "read") s') :
    wp (findBlock (D i) fbn) (fun r s' => Gives s D i fbn r.1 r.2 s') E s := by
  have hlow := h.low
  have hword : s.freeblock < 2 ^ 32 := by omega
  unfold findBlock
  by_cases hfbn : fbn < 10
  · rw [dif_pos hfbn]
    by_cases h0 : (D i).addrs ⟨fbn, direct_lt hfbn⟩ = 0
    · have hself := setAddr_self (d := D i) ⟨fbn, direct_lt hfbn⟩ s.freeblock
      refine wp_ok_bind (ensure_new h0) ?_
      rw [wp_pure, hself, UInt32.toNat_ofNat_of_lt' hword]
      exact Gives.direct h hword hfbn h0
    · refine wp_ok_bind (ensure_old h0) ?_
      rw [wp_pure]
      rw [← blockAddr_lt (V := s.sect) hfbn] at h0 ⊢
      exact Gives.old h h0 fun hge => absurd hge (by omega)
  · rw [dif_neg hfbn]
    by_cases hi : (D i).addrs 10 = 0
    · have hself := setAddr_self (d := D i) 10 s.freeblock
      have h10 : (setAddr (D i) 10 s.freeblock).addrs 10 ≠ 0 := by
        rw [hself]
        exact ofNat_ne_zero (by omega) hword
      refine wp_ok_bind (ensure_new hi) ?_
      have hlaid := (h.indirect hword hi).1
      have hentry := findEntry_wp (s := s.took) (i := i) (E := E) hlaid hlen
        (show s.freeblock + 1 ≤ 2049 by omega) (Nat.le_of_not_lt hfbn) h138
        (by rw [update_self]; exact h10)
      rw [update_self] at hentry
      refine wp.bind (hentry fun hge => hE _ ?_) fun x s' hg => ?_
      · rw [hself, UInt32.toNat_ofNat_of_lt' hword] at hge
        unfold extra
        rw [if_pos (blockAddr_none (Nat.le_of_not_lt hfbn) hi),
          if_pos ⟨Nat.le_of_not_lt hfbn, hi⟩]
        omega
      · exact Gives.indirect h hword (Nat.le_of_not_lt hfbn) hi hg
    · refine wp_ok_bind (ensure_old hi) ?_
      refine wp.bind (findEntry_wp h hlen (by omega) (Nat.le_of_not_lt hfbn) h138 hi fun hge => ?_)
        fun x s' hg => hg
      have hr := h.range i none hi
      simp only [ref] at hr
      omega

/-! ## One round of the loop -/

theorem getD_append (l c : List UInt8) (o : Nat) : (l ++ c).getD o 0 =
    if l.length ≤ o ∧ o < l.length + c.length then c.getD (o - l.length) 0 else l.getD o 0 := by
  by_cases h1 : o < l.length
  · rw [if_neg (by omega), List.getD_append _ _ _ _ h1]
  · rw [List.getD_append_right _ _ _ _ (by omega)]
    by_cases h2 : o < l.length + c.length
    · rw [if_pos (by omega)]
    · rw [if_neg (by omega), List.getD_eq_default _ _ (by omega),
        List.getD_eq_default _ _ (by omega)]

theorem need_chunk {off n : Nat} (hn : 0 < n) (hle : n ≤ 512 - off % 512) :
    need (off + n) = need off + (if off % 512 = 0 then 1 else 0) + if off = 5120 then 1 else 0 := by
  unfold need
  split <;> split <;> split <;> split <;> omega

/-- The blocks taken for the bytes behind `len` are those that the longer file needs. -/
theorem Backed.extra {V : Nat → Block} {len n : Nat} (h : Backed V d len) (hlt : len / 512 < 138)
    (hn : 0 < n) (hle : n ≤ 512 - len % 512) :
    need len + extra V d (len / 512) = need (len + n) := by
  have hblock := h.block (len / 512) hlt
  have hind := h.ind
  have h1 : blockAddr V d (len / 512) = 0 ↔ len % 512 = 0 := by
    rw [← not_iff_not, ← Ne, hblock]
    omega
  have h2 : (10 ≤ len / 512 ∧ d.addrs 10 = 0) ↔ len = 5120 := by
    constructor
    · rintro ⟨h10, hz⟩
      have hlen : ¬ 5120 < len := fun hlt => hind.mpr hlt hz
      omega
    · intro he
      refine ⟨by omega, ?_⟩
      by_contra hz
      have hlen := hind.mp hz
      omega
  unfold Host.extra
  rw [need_chunk hn hle]
  simp only [h1, h2]
  omega

/-- The byte at `o` after `c` has been stored behind the bytes `l`, in the block with the end
    of `l`. -/
theorem byte_append (b : Block) (l c : List UInt8) (o : Nat) (ho : o / 512 = l.length / 512)
    (hb : b.byte (o % 512) = l.getD o 0) :
    (b.write (l.length - l.length / 512 * 512) c).byte (o % 512) = (l ++ c).getD o 0 := by
  have hoff : l.length - l.length / 512 * 512 = l.length % 512 := by omega
  rw [hoff, Block.byte_write _ _ _ _ (Nat.mod_lt _ (by decide)), getD_append]
  by_cases hin : l.length ≤ o ∧ o < l.length + c.length
  · rw [if_pos hin, if_pos (by omega)]
    congr 1
    omega
  · rw [if_neg hin, if_neg (by omega), hb]

section Round

variable {x : Nat} {c : List UInt8} (h : Held s D cs)
  (hg : Gives s D i ((cs i).length / 512) d' x s') (hc : 0 < c.length)
  (hle : c.length ≤ 512 - (cs i).length % 512)
include h hg hc hle

/-- Inode `i` has the blocks for `c` too. -/
theorem Gives.backed : Backed s'.sect d' ((cs i).length + c.length) := by
  have hb := h.backed i
  constructor
  · intro bn hbn
    by_cases he : bn = (cs i).length / 512
    · subst he
      exact ⟨fun _ => by omega, fun _ => hg.there⟩
    · rw [hg.addr bn he, hb.block bn hbn]
      omega
  · rw [hg.ind, hb.ind]
    omega

/-- The block that was found is written. -/
theorem Gives.append (hlt : (cs i).length / 512 < 138) (hx : x < 2048) :
    Held (s'.store x ((s'.sect x).write ((cs i).length - (cs i).length / 512 * 512) c))
      (update D i d') (update cs i (cs i ++ c)) := by
  have hself : update D i d' i = d' := update_self ..
  have hthere : blockAddr s'.sect (update D i d' i) ((cs i).length / 512) ≠ 0 := by
    rw [hself]
    exact hg.there
  have hx' : (blockAddr s'.sect (update D i d' i) ((cs i).length / 512)).toNat = x := by
    rw [hself]
    exact hg.eq.symm
  have hlast := hg.last
  have hfits := h.fits
  have hused := hg.used
  have hused' := h.used
  have hstore := hg.laid.store hthere
    ((s'.sect x).write ((cs i).length - (cs i).length / 512 * 512) c)
  have haddr := hg.laid.blockAddr_store i ((cs i).length / 512)
    ((s'.sect x).write ((cs i).length - (cs i).length / 512 * 512) c)
  have hbyte := hg.laid.byteAt_store hthere
    ((s'.sect x).write ((cs i).length - (cs i).length / 512 * 512) c)
  rw [hx'] at hstore haddr hbyte
  constructor
  · exact hstore
  · exact hg.len.trans h.len
  · show s'.usedblocks = s'.freeblock
    omega
  · show s'.freeblock ≤ 2048
    omega
  · intro j
    refine Backed.congr (haddr j) ?_
    by_cases hj : j = i
    · subst hj
      rw [update_self, update_self, List.length_append]
      exact hg.backed h hc hle
    · rw [update_of_ne hj, update_of_ne hj]
      exact (h.backed j).congr (hg.other j hj)
  · intro j
    by_cases hj : j = i
    · subst hj
      rw [update_self, List.length_append]
      omega
    · rw [update_of_ne hj]
      exact h.short j
  · intro j o
    refine (hbyte j o).trans ?_
    have hold : byteAt s'.sect (update D i d' j) o = (cs j).getD o 0 :=
      (hg.grows.bytes j o).trans (h.bytes j o)
    by_cases hj : j = i
    · subst hj
      by_cases ho : o / 512 = (cs j).length / 512
      · rw [if_pos ⟨rfl, ho⟩, update_self]
        refine byte_append _ _ _ _ ho ?_
        unfold byteAt at hold
        rwa [ho, hx'] at hold
      · rw [if_neg fun hc => ho hc.2, hold, update_self, getD_append, if_neg (by omega)]
    · rw [if_neg fun hc => hj hc.1, hold, update_of_ne hj]

end Round

/-- The loop took the blocks that `n` bytes behind the first `len` need, for the inode `d`. -/
structure Appended (s : Image) (d : Dinode) (len n : Nat) (d' : Dinode) (s' : Image) : Prop where
  frame : d' = { d with addrs := d'.addrs }
  low : ∀ b, b < 29 → s'.sect b = s.sect b
  inodes : s'.freeinode = s.freeinode
  count : s'.freeblock + need len = s.freeblock + need (len + n)

theorem Appended.refl (s : Image) (d : Dinode) (len : Nat) : Appended s d len 0 d s :=
  ⟨rfl, fun _ _ => rfl, rfl, rfl⟩

theorem Appended.trans {len n k : Nat} {d'' : Dinode} {s'' : Image} (h : Appended s d len n d' s')
    (h' : Appended s' d' (len + n) k d'' s'') : Appended s d len (n + k) d'' s'' := by
  have h1 := h.count
  have h2 := h'.count
  refine ⟨?_, fun b hb => (h'.low b hb).trans (h.low b hb), h'.inodes.trans h.inodes, ?_⟩
  · rw [h'.frame, h.frame]
  · rw [← Nat.add_assoc]
    omega

theorem need_mono {m n : Nat} (h : m ≤ n) : need m ≤ need n := by
  unfold need
  split <;> split <;> omega

/-- Why `iappend` of `n` bytes stops. -/
def Fails (s : Image) (len n : Nat) : Prop :=
  70656 < len + n ∨ 2048 + need len < s.freeblock + need (len + n)

theorem appendChunk_wp {c : List UInt8} (h : Held s D cs) (hc : 0 < c.length)
    (hle : c.length ≤ 512 - (cs i).length % 512) :
    wp (appendChunk (D i) (cs i).length c)
      (fun d' s' => Held s' (update D i d') (update cs i (cs i ++ c)) ∧
        Appended s (D i) (cs i).length c.length d' s')
      (fun e _ => (∃ msg, e = .panic msg) ∧ Fails s (cs i).length c.length) s := by
  unfold appendChunk
  refine wp_bind.mpr (wp_assert (fun hlt => ?_) fun hge => ?_)
  · have hextra := (h.backed i).extra hlt hc hle
    refine wp.bind (findBlock_wp h.laid h.len h.fits hlt ?_) ?_
    · intro _ hgt
      exact ⟨⟨_, rfl⟩, Or.inr (by omega)⟩
    · rintro ⟨d1, x⟩ s1 hg
      have hcount := hg.count
      have hlen : s1.len = 2048 := hg.len.trans h.len
      have heq : x = (blockAddr s1.sect d1 ((cs i).length / 512)).toNat := hg.eq
      have hr := hg.laid.range i (some ((cs i).length / 512))
      rw [update_self] at hr
      obtain ⟨hr1, hr2⟩ := hr hg.there
      simp only [ref] at hr1 hr2
      refine wp_bind.mpr (wp_rsect (fun hx => ?_) fun hx => ?_)
      · refine wp_ok_bind (wsect_ok hx _) ?_
        refine ⟨hg.append h hc hle hlt (by omega), hg.frame, fun b hb => ?_, hg.inodes, ?_⟩
        · exact (update_of_ne (by omega) ..).trans (hg.grows.low b hb)
        · show s1.freeblock + need (cs i).length = _
          omega
      · exact ⟨⟨_, rfl⟩, Or.inr (by omega)⟩
  · exact ⟨⟨_, rfl⟩, Or.inl (by omega)⟩

/-- The loop, with the copy `d` of inode `i`. -/
theorem iappendLoop_wp (fuel : Nat) : ∀ {s : Image} {D : Nat → Dinode} {cs : Nat → List UInt8}
    {d : Dinode} {p : List UInt8}, Held s D cs → D i = d → p.length ≤ fuel →
    wp (iappendLoop fuel d (cs i).length p)
      (fun r s' => Held s' (update D i r.1) (update cs i (cs i ++ p)) ∧
        Appended s d (cs i).length p.length r.1 s' ∧ r.2 = (cs i).length + p.length)
      (fun e _ => (∃ msg, e = .panic msg) ∧ Fails s (cs i).length p.length) s := by
  have hnil : ∀ {s : Image} {D : Nat → Dinode} {cs : Nat → List UInt8} {d : Dinode},
      Held s D cs → D i = d → Held s (update D i d) (update cs i (cs i ++ [])) ∧
        Appended s d (cs i).length 0 d s ∧ (cs i).length = (cs i).length + 0 := by
    intro s D cs d h hd
    subst hd
    rw [List.append_nil, update_eq_self, update_eq_self]
    exact ⟨h, .refl .., rfl⟩
  induction fuel with
  | zero =>
    intro s D cs d p h hd hp
    obtain rfl : p = [] := List.eq_nil_of_length_eq_zero (by omega)
    exact hnil h hd
  | succ fuel ih =>
    intro s D cs d p h hd hp
    unfold iappendLoop
    refine wp_ite (fun h0 => ?_) fun h0 => ?_
    · subst h0
      exact hnil h hd
    · subst hd
      have hpos : 0 < p.length := List.length_pos_iff.mpr h0
      obtain ⟨n1, hn1⟩ :
          ∃ n1, n1 = min p.length (((cs i).length / 512 + 1) * 512 - (cs i).length) :=
        ⟨_, rfl⟩
      dsimp only
      rw [← hn1]
      have hc : (p.take n1).length = n1 := by
        rw [List.length_take]
        omega
      have hchunk := appendChunk_wp (c := p.take n1) (i := i) h (by omega) (by omega)
      rw [hc] at hchunk
      have hdrop : n1 + (p.drop n1).length = p.length := by
        rw [List.length_drop]
        omega
      refine wp_bind.mpr (hchunk.mono (fun d1 s1 h1 => ?_) fun e s1 he => ?_)
      · have hrest := ih (d := d1) (p := p.drop n1) h1.1 (update_self ..) (by omega)
        rw [update_self, List.length_append, hc] at hrest
        refine hrest.mono (fun r s2 hr => ?_) fun e s2 he => ?_
        · obtain ⟨hheld, happ, hoff⟩ := hr
          rw [update_idem, update_idem, List.append_assoc,
            List.take_append_drop] at hheld
          have happ' := h1.2.trans happ
          rw [hdrop] at happ'
          exact ⟨hheld, happ', by omega⟩
        · have hcount := h1.2.count
          refine ⟨he.1, he.2.imp (fun h2 => ?_) fun h2 => ?_⟩
          · omega
          · rw [Nat.add_assoc, hdrop] at h2
            omega
      · have hmono := need_mono (m := (cs i).length + n1) (n := (cs i).length + p.length) (by omega)
        exact ⟨he.1, he.2.imp (fun h2 => by omega) fun h2 => by omega⟩

end Zv6.Host
