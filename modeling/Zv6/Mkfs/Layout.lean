/-
  Which blocks the inodes of an image have.

  `Laid V D free`: the addresses of the inodes `D` lie between the bitmap and `free` and are all
  different, and from `free` on the image is zero. A block that is taken is `free`; where it goes
  to (`Laid.direct`, `Laid.indirect`, `Laid.entry`), the bytes of all files stay what they were,
  since the block is zero and a file without a block there reads sector 0, which is zero too.
  A write to a block of a file changes the bytes of that file at that place only
  (`Laid.byteAt_store`).
-/
import Zv6.Fs.Content
import Zv6.Mkfs.Code

namespace Zv6.Host

open Lib Function

/-- The address at a place of an inode: of its indirect block, or of a block of the file. -/
def ref (V : Nat → Block) (d : Dinode) : Option Nat → UInt32
  | none => d.addrs 10
  | some bn => blockAddr V d bn

structure Laid (V : Nat → Block) (D : Nat → Dinode) (free : Nat) : Prop where
  boot : V 0 = Block.zero
  fresh : ∀ b, free ≤ b → V b = Block.zero
  low : 29 ≤ free
  range : ∀ i k, ref V (D i) k ≠ 0 → 29 ≤ (ref V (D i) k).toNat ∧ (ref V (D i) k).toNat < free
  inj : ∀ i j k l, ref V (D i) k ≠ 0 → ref V (D i) k = ref V (D j) l → i = j ∧ k = l

/-- Blocks were taken, and no file's bytes changed. -/
structure Grows (V : Nat → Block) (D : Nat → Dinode) (V' : Nat → Block) (D' : Nat → Dinode) :
    Prop where
  low : ∀ b, b < 29 → V' b = V b
  bytes : ∀ j o, byteAt V' (D' j) o = byteAt V (D j) o

variable {V V' V'' : Nat → Block} {D D' D'' : Nat → Dinode} {free i bn : Nat} {d : Dinode}

theorem Grows.refl (V : Nat → Block) (D : Nat → Dinode) : Grows V D V D :=
  ⟨fun _ _ => rfl, fun _ _ => rfl⟩

theorem Grows.trans (h : Grows V D V' D') (h' : Grows V' D' V'' D'') : Grows V D V'' D'' :=
  ⟨fun b hb => (h'.low b hb).trans (h.low b hb), fun j o => (h'.bytes j o).trans (h.bytes j o)⟩

/-! ## Addresses -/

theorem direct_ne (hbn : bn < 10) : (⟨bn, direct_lt hbn⟩ : Fin 11) ≠ 10 :=
  Fin.ne_of_val_ne (Nat.ne_of_lt hbn)

theorem blockAddr_lt (hbn : bn < 10) : blockAddr V d bn = d.addrs ⟨bn, direct_lt hbn⟩ := by
  unfold blockAddr
  rw [dif_pos hbn]

theorem blockAddr_ge (h10 : 10 ≤ bn) (h138 : bn < 138) (hind : d.addrs 10 ≠ 0) :
    blockAddr V d bn = (V (d.addrs 10).toNat).word (bn - 10) := by
  unfold blockAddr
  rw [dif_neg (by omega), if_pos h138, if_neg hind]

/-- Without an indirect block there are no blocks from 10 on. -/
theorem blockAddr_none (h10 : 10 ≤ bn) (hind : d.addrs 10 = 0) : blockAddr V d bn = 0 := by
  unfold blockAddr
  rw [dif_neg (by omega), if_pos hind, ite_self]

theorem blockAddr_out (h : 138 ≤ bn) : blockAddr V d bn = 0 := by
  unfold blockAddr
  rw [dif_neg (by omega), if_neg (by omega)]

/-- The addresses depend on the indirect block only. -/
theorem blockAddr_congr (h : d.addrs 10 ≠ 0 → V' (d.addrs 10).toNat = V (d.addrs 10).toNat) :
    blockAddr V' d bn = blockAddr V d bn := by
  unfold blockAddr
  split
  · rfl
  · split
    · split
      · rfl
      · next hind => rw [h hind]
    · rfl

theorem setAddr_self (k : Fin 11) (a : Nat) : (setAddr d k a).addrs k = UInt32.ofNat a :=
  update_self ..

theorem setAddr_of_ne {k l : Fin 11} (h : l ≠ k) (a : Nat) :
    (setAddr d k a).addrs l = d.addrs l :=
  update_of_ne h ..

theorem ofNat_ne_zero {a : Nat} (h : 0 < a) (ha : a < 2 ^ 32) : UInt32.ofNat a ≠ 0 := by
  intro e
  have := congrArg UInt32.toNat e
  rw [UInt32.toNat_ofNat_of_lt' ha] at this
  exact absurd this (Nat.ne_of_gt h)

/-! ## A block is taken -/

/-- One place gets the address `free`, all others keep theirs. -/
theorem Laid.add (h : Laid V D free) {k : Option Nat} (hfree : free < 2 ^ 32)
    (hnew : ref V' (D' i) k = UInt32.ofNat free)
    (hold : ∀ j l, ¬ (j = i ∧ l = k) → ref V' (D' j) l = ref V (D j) l)
    (hboot : V' 0 = V 0) (hfresh : ∀ b, free < b → V' b = V b) : Laid V' D' (free + 1) := by
  have hlow := h.low
  have hnat : (ref V' (D' i) k).toNat = free := by
    rw [hnew, UInt32.toNat_ofNat_of_lt' hfree]
  -- the address of any other place is below `free`
  have hne : ∀ j l, ¬ (j = i ∧ l = k) → ref V' (D' j) l ≠ ref V' (D' i) k := by
    intro j l hjl e
    have hnat' := hnat
    rw [← e, hold j l hjl] at hnat'
    have h0 : ref V (D j) l ≠ 0 := by
      intro h0
      rw [h0, UInt32.toNat_zero] at hnat'
      omega
    have hr := h.range j l h0
    omega
  constructor
  · rw [hboot, h.boot]
  · intro b hb
    rw [hfresh b hb, h.fresh b (by omega)]
  · omega
  · intro j l h0
    by_cases hjl : j = i ∧ l = k
    · rw [hjl.1, hjl.2, hnat]
      omega
    · rw [hold j l hjl] at h0 ⊢
      have := h.range j l h0
      omega
  · intro j j' l l' h0 e
    by_cases hjl : j = i ∧ l = k
    · by_cases hjl' : j' = i ∧ l' = k
      · rw [hjl.1, hjl.2, hjl'.1, hjl'.2]
        exact ⟨rfl, rfl⟩
      · rw [hjl.1, hjl.2] at e
        exact absurd e.symm (hne j' l' hjl')
    · by_cases hjl' : j' = i ∧ l' = k
      · rw [hjl'.1, hjl'.2] at e
        exact absurd e (hne j l hjl)
      · rw [hold j l hjl] at h0 e
        rw [hold j' l' hjl'] at e
        exact h.inj j j' l l' h0 e

/-- A new indirect block: it is zero, so the file has the blocks it had. -/
theorem Laid.blockAddr_indirect (h : Laid V D free) (hfree : free < 2 ^ 32)
    (hi : d.addrs 10 = 0) (bn : Nat) :
    blockAddr V (setAddr d 10 free) bn = blockAddr V d bn := by
  have hlow := h.low
  rcases Nat.lt_or_ge bn 10 with hbn | hbn
  · rw [blockAddr_lt hbn, blockAddr_lt hbn, setAddr_of_ne (direct_ne hbn)]
  · rw [blockAddr_none hbn hi]
    rcases Nat.lt_or_ge bn 138 with h138 | h138
    · have hind : (setAddr d 10 free).addrs 10 ≠ 0 := by
        rw [setAddr_self]
        exact ofNat_ne_zero (by omega) hfree
      rw [blockAddr_ge hbn h138 hind, setAddr_self, UInt32.toNat_ofNat_of_lt' hfree,
        h.fresh free (Nat.le_refl _), Block.word_zero]
    · exact blockAddr_out h138

/-- Inode `i` becomes `d`, whose other addresses are as before. -/
theorem ref_update {k : Option Nat} (h : ∀ l, l ≠ k → ref V' d l = ref V (D i) l)
    (hother : ∀ j, j ≠ i → ∀ l, ref V' (D j) l = ref V (D j) l) (j : Nat) (l : Option Nat)
    (hjl : ¬ (j = i ∧ l = k)) : ref V' (update D i d j) l = ref V (D j) l := by
  by_cases hj : j = i
  · rw [hj, update_self]
    exact h l fun hl => hjl ⟨hj, hl⟩
  · rw [update_of_ne hj]
    exact hother j hj l

theorem byteAt_update (h : ∀ o, byteAt V' d o = byteAt V (D i) o)
    (hother : ∀ j, j ≠ i → ∀ o, byteAt V' (D j) o = byteAt V (D j) o) (j o : Nat) :
    byteAt V' (update D i d j) o = byteAt V (D j) o := by
  by_cases hj : j = i
  · rw [hj, update_self]
    exact h o
  · rw [update_of_ne hj]
    exact hother j hj o

theorem Laid.indirect (h : Laid V D free) (hfree : free < 2 ^ 32) (hi : (D i).addrs 10 = 0) :
    Laid V (update D i (setAddr (D i) 10 free)) (free + 1) ∧
      Grows V D V (update D i (setAddr (D i) 10 free)) := by
  have haddr := h.blockAddr_indirect hfree hi
  constructor
  · refine h.add (i := i) (k := none) hfree ?_ (ref_update ?_ fun _ _ _ => rfl) rfl fun _ _ => rfl
    · rw [update_self]
      exact setAddr_self 10 free
    · intro l hl
      cases l with
      | none => exact absurd rfl hl
      | some bn => exact haddr bn
  · refine ⟨fun _ _ => rfl, byteAt_update (fun o => ?_) fun _ _ _ => rfl⟩
    unfold byteAt
    rw [haddr]

/-- A new block of a file: sector 0 was read before, and the block is zero. -/
theorem Laid.byteAt_new (h : Laid V D free) (hfree : free < 2 ^ 32) {d d' : Dinode}
    (hV : V' free = V free) (h0 : blockAddr V d bn = 0)
    (hbn : blockAddr V' d' bn = UInt32.ofNat free)
    (hother : ∀ k, k ≠ bn → blockAddr V' d' k = blockAddr V d k ∧
      V' (blockAddr V d k).toNat = V (blockAddr V d k).toNat) (o : Nat) :
    byteAt V' d' o = byteAt V d o := by
  unfold byteAt
  by_cases ho : o / 512 = bn
  · rw [ho, hbn, h0, UInt32.toNat_ofNat_of_lt' hfree, hV, h.fresh free (Nat.le_refl _),
      UInt32.toNat_zero, h.boot]
  · obtain ⟨ha, hb⟩ := hother (o / 512) ho
    rw [ha, hb]

theorem blockAddr_direct (hbn : bn < 10) (a k : Nat) :
    blockAddr V (setAddr d ⟨bn, direct_lt hbn⟩ a) k =
      if k = bn then UInt32.ofNat a else blockAddr V d k := by
  by_cases hk : k = bn
  · subst hk
    rw [if_pos rfl, blockAddr_lt hbn, setAddr_self]
  · rw [if_neg hk]
    unfold blockAddr
    rw [setAddr_of_ne (direct_ne hbn).symm]
    split
    · next hlt =>
      refine setAddr_of_ne (fun e => hk ?_) a
      exact congrArg Fin.val e
    · rfl

theorem Laid.direct (h : Laid V D free) (hfree : free < 2 ^ 32) (hbn : bn < 10)
    (h0 : (D i).addrs ⟨bn, direct_lt hbn⟩ = 0) :
    Laid V (update D i (setAddr (D i) ⟨bn, direct_lt hbn⟩ free)) (free + 1) ∧
      Grows V D V (update D i (setAddr (D i) ⟨bn, direct_lt hbn⟩ free)) := by
  have haddr := blockAddr_direct (V := V) (d := D i) hbn free
  constructor
  · refine h.add (i := i) (k := some bn) hfree ?_ (ref_update ?_ fun _ _ _ => rfl) rfl
      fun _ _ => rfl
    · rw [update_self]
      exact (haddr bn).trans (if_pos rfl)
    · intro l hl
      cases l with
      | none => exact setAddr_of_ne (direct_ne hbn).symm free
      | some k => exact (haddr k).trans (if_neg fun e => hl (congrArg some e))
  · refine ⟨fun _ _ => rfl, byteAt_update ?_ fun _ _ _ => rfl⟩
    refine h.byteAt_new hfree rfl ((blockAddr_lt hbn).trans h0) ((haddr bn).trans (if_pos rfl)) ?_
    intro k hk
    exact ⟨(haddr k).trans (if_neg hk), rfl⟩

/-! ## Sectors are written -/

/-- An entry of the indirect block of inode `i`. -/
theorem Laid.blockAddr_entry (h : Laid V D free) (hi : (D i).addrs 10 ≠ 0) (h10 : 10 ≤ bn)
    (h138 : bn < 138) (w : UInt32) (j k : Nat) :
    blockAddr (update V ((D i).addrs 10).toNat
      ((V ((D i).addrs 10).toNat).setWord (bn - 10) w)) (D j) k =
      if j = i ∧ k = bn then w else blockAddr V (D j) k := by
  by_cases hj : j = i
  · subst hj
    rcases Nat.lt_or_ge k 10 with hk | hk
    · rw [if_neg (by omega), blockAddr_lt hk, blockAddr_lt hk]
    · rcases Nat.lt_or_ge k 138 with hk' | hk'
      · rw [blockAddr_ge hk hk' hi, blockAddr_ge hk hk' hi, update_self]
        by_cases he : k = bn
        · rw [if_pos ⟨rfl, he⟩, he, Block.word_setWord _ _ _ (by omega)]
        · rw [if_neg fun hc => he hc.2, Block.word_setWord_ne _ _ _ _ (by omega)]
      · rw [if_neg (by omega), blockAddr_out hk', blockAddr_out hk']
  · rw [if_neg fun hc => hj hc.1]
    refine blockAddr_congr fun hind => update_of_ne (fun e => hj ?_) ..
    exact (h.inj j i none none hind (UInt32.toNat_inj.mp e)).1

theorem Laid.entry (h : Laid V D free) (hfree : free < 2 ^ 32) (hi : (D i).addrs 10 ≠ 0)
    (h10 : 10 ≤ bn) (h138 : bn < 138) (h0 : blockAddr V (D i) bn = 0) :
    let V' := update V ((D i).addrs 10).toNat
      ((V ((D i).addrs 10).toNat).setWord (bn - 10) (UInt32.ofNat free))
    Laid V' D (free + 1) ∧ Grows V D V' D := by
  intro V'
  have haddr := h.blockAddr_entry hi h10 h138 (UInt32.ofNat free)
  have hind := h.range i none hi
  have hsame : ∀ b, b ≠ ((D i).addrs 10).toNat → V' b = V b := fun b hb =>
    update_of_ne hb ..
  have hlow := h.low
  -- no block of a file is the indirect block
  have hdata : ∀ j k, V' (blockAddr V (D j) k).toNat = V (blockAddr V (D j) k).toNat := by
    intro j k
    refine hsame _ fun e => ?_
    have hne : ref V (D i) none = ref V (D j) (some k) := UInt32.toNat_inj.mp e.symm
    exact absurd (h.inj i j none (some k) hi hne).2 (by simp)
  constructor
  · refine h.add (i := i) (k := some bn) hfree ((haddr i bn).trans (if_pos ⟨rfl, rfl⟩)) ?_ ?_ ?_
    · intro j l hjl
      cases l with
      | none => rfl
      | some k =>
        refine (haddr j k).trans (if_neg fun hc => hjl ⟨hc.1, congrArg some hc.2⟩)
    · exact hsame 0 (by have := hind.1; simp only [ref] at this; omega)
    · intro b hb
      exact hsame b (by have := hind.2; simp only [ref] at this; omega)
  · constructor
    · intro b hb
      exact hsame b (by have := hind.1; simp only [ref] at this; omega)
    · intro j o
      by_cases hj : j = i
      · subst hj
        refine h.byteAt_new hfree (hsame free ?_) h0 ((haddr j bn).trans (if_pos ⟨rfl, rfl⟩)) ?_ o
        · have := hind.2
          simp only [ref] at this
          omega
        · intro k hk
          exact ⟨(haddr j k).trans (if_neg fun hc => hk hc.2), hdata j k⟩
      · unfold byteAt
        rw [haddr j (o / 512), if_neg fun hc => hj hc.1, hdata]

/-- A block of a file is no indirect block. -/
theorem Laid.blockAddr_store (h : Laid V D free) (i bn : Nat) (b : Block) (j k : Nat) :
    blockAddr (update V (blockAddr V (D i) bn).toNat b) (D j) k =
      blockAddr V (D j) k := by
  refine blockAddr_congr fun hind => update_of_ne (fun e => ?_) ..
  have he : ref V (D j) none = ref V (D i) (some bn) := UInt32.toNat_inj.mp e
  exact absurd (h.inj j i none (some bn) hind he).2 (by simp)

section Store

variable (h : Laid V D free) (hx : blockAddr V (D i) bn ≠ 0) (b : Block)
include h hx

theorem Laid.store :
    Laid (update V (blockAddr V (D i) bn).toNat b) D free := by
  have hr := h.range i (some bn) hx
  have hlow := h.low
  have hsame : ∀ c, c ≠ (blockAddr V (D i) bn).toNat →
      update V (blockAddr V (D i) bn).toNat b c = V c := fun c hc =>
    update_of_ne hc ..
  have href : ∀ j k, ref (update V (blockAddr V (D i) bn).toNat b) (D j) k =
      ref V (D j) k := by
    intro j k
    cases k with
    | none => rfl
    | some k => exact h.blockAddr_store i bn b j k
  simp only [ref] at hr
  constructor
  · rw [hsame 0 (by omega), h.boot]
  · intro c hc
    rw [hsame c (by omega), h.fresh c hc]
  · exact hlow
  · intro j k h0
    rw [href] at h0 ⊢
    exact h.range j k h0
  · intro j j' k k' h0 e
    rw [href] at h0 e
    rw [href] at e
    exact h.inj j j' k k' h0 e

theorem Laid.byteAt_store (j o : Nat) :
    byteAt (update V (blockAddr V (D i) bn).toNat b) (D j) o =
      if j = i ∧ o / 512 = bn then b.byte (o % 512) else byteAt V (D j) o := by
  unfold byteAt
  rw [h.blockAddr_store i bn b]
  by_cases hj : j = i ∧ o / 512 = bn
  · rw [if_pos hj, hj.1, hj.2, update_self]
  · rw [if_neg hj, update_of_ne]
    intro e
    have he : ref V (D i) (some bn) = ref V (D j) (some (o / 512)) := UInt32.toNat_inj.mp e.symm
    obtain ⟨h1, h2⟩ := h.inj i j (some bn) (some (o / 512)) hx he
    exact hj ⟨h1.symm, (Option.some.inj h2).symm⟩

end Store

end Zv6.Host
