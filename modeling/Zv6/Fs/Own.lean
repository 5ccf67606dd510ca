/-
  Who holds which block.

  `Own sb L V D`: every block of the data area is marked in the bitmap exactly if one place of
  one allocated inode holds it, or it is in `L`. This is less than `Fs`, which also speaks of
  sizes and dittos, and it holds between the single steps of a write.

  `Touch M` says how far a change went: inodes outside `M` keep their dinodes, their blocks and
  what is in them. Below, one lemma for each kind of sector that the file system writes.
-/
import Zv6.Fs.Blocks
import Zv6.Lib.Owner

namespace Zv6

open Lib

/-- The inode a place belongs to. -/
def Pos.ino : Pos → Nat
  | .data k _ => k
  | .ind k => k

/-- The block number kept at a place, 0 for none. -/
def adr (sb : Superblock) (V : Nat → Block) (D : Nat → Dinode) (p : Pos) : Nat :=
  (addrAt sb V D p).toNat

structure Own (sb : Superblock) (L : Set Nat) (V : Nat → Block) (D : Nat → Dinode) : Prop where
  super : (V 1).superblock = sb
  area : dstart sb ≤ lstart sb
  ninodes : sb.ninodes ≤ 32768
  reserved : ∀ b, b < dstart sb → usedBit sb V b = true
  owner : Owner (dstart sb) (lstart sb) (adr sb V D) (usedBit sb V) L

/-- Inodes outside `M` are as they were. -/
structure Touch (sb : Superblock) (M : Set Nat) (V : Nat → Block) (D : Nat → Dinode)
    (V' : Nat → Block) (D' : Nat → Dinode) : Prop where
  table : ∀ k, k ∉ M → D' k = D k
  addr : ∀ p, p.ino ∉ M → adr sb V' D' p = adr sb V D p
  block : ∀ p, p.ino ∉ M → adr sb V D p ≠ 0 → V' (adr sb V D p) = V (adr sb V D p)

section Own

variable {sb : Superblock} {L : Set Nat} {V V' V'' : Nat → Block} {D D' D'' : Nat → Dinode}
  {M M' : Set Nat} {n k : Nat} {p : Pos}

theorem adr_ne_zero : adr sb V D p ≠ 0 ↔ addrAt sb V D p ≠ 0 := by
  unfold adr
  rw [Ne, Ne, ← UInt32.toNat_inj]
  rfl

theorem adr_data (hk : Live sb D k) (bn : Nat) :
    adr sb V D (.data k bn) = (blockAddr V (D k) bn).toNat := by
  unfold adr
  rw [addrAt_data hk]

theorem adr_ind (hk : Live sb D k) : adr sb V D (.ind k) = ((D k).addrs 10).toNat := by
  unfold adr
  rw [addrAt_ind hk]

theorem adr_dead (hk : ¬ Live sb D p.ino) : adr sb V D p = 0 := by
  have h0 : addrAt sb V D p = 0 := by
    cases p with
    | data k bn => exact if_neg hk
    | ind k => exact if_neg hk
  unfold adr
  rw [h0]
  rfl

/-- The addresses of an inode depend on its own dinode. -/
theorem adr_fields (ht : (D' p.ino).type = (D p.ino).type)
    (ha : (D' p.ino).addrs = (D p.ino).addrs) : adr sb V D' p = adr sb V D p := by
  have hlive : Live sb D' p.ino ↔ Live sb D p.ino := by
    unfold Live
    rw [ht]
  by_cases hk : Live sb D p.ino
  · have hk' := hlive.mpr hk
    cases p with
    | data k bn =>
      exact (adr_data hk' bn).trans ((congrArg UInt32.toNat (blockAddr_addrs ha V bn)).trans
        (adr_data hk bn).symm)
    | ind k =>
      exact (adr_ind hk').trans ((congrArg (fun a : Fin 11 → UInt32 => (a 10).toNat) ha).trans
        (adr_ind hk).symm)
  · rw [adr_dead hk, adr_dead fun hk' => hk (hlive.mp hk')]

theorem adr_table (h : D' p.ino = D p.ino) : adr sb V D' p = adr sb V D p :=
  adr_fields (by rw [h]) (by rw [h])

/-- The blocks of the data area that are marked and that nobody holds. -/
def leaked (sb : Superblock) (V : Nat → Block) (D : Nat → Dinode) : Set Nat :=
  { b | usedBit sb V b = true ∧ ∀ p, adr sb V D p ≠ b }

theorem Fs.own (h : Fs sb V D) : Own sb (leaked sb V D) V D where
  super := h.super
  area := h.area
  ninodes := h.ninodes
  reserved := h.reserved
  owner := by
    refine ⟨fun p hp => h.range p (adr_ne_zero.mp hp),
      fun p q hp he => h.inj p q (adr_ne_zero.mp hp) (UInt32.toNat_inj.mp he), ?_,
      fun p _ hm => hm.2 p rfl⟩
    intro b _ _
    constructor
    · intro hb
      by_cases he : ∃ p, adr sb V D p = b
      · exact Or.inr he
      · exact Or.inl ⟨hb, fun p hp => he ⟨p, hp⟩⟩
    · rintro (hb | ⟨p, rfl⟩)
      · exact hb.1
      · exact h.used p (adr_ne_zero.mp (by
          have := one_lt_dstart sb
          omega))

theorem Own.dstart_pos (sb : Superblock) : 0 < dstart sb := by
  have := one_lt_dstart sb
  omega

theorem Own.range (h : Own sb L V D) (hp : adr sb V D p ≠ 0) :
    dstart sb ≤ adr sb V D p ∧ adr sb V D p < lstart sb := h.owner.range p hp

/-! ## How far a change goes -/

theorem Touch.refl (sb : Superblock) (M : Set Nat) (V : Nat → Block) (D : Nat → Dinode) :
    Touch sb M V D V D := ⟨fun _ _ => rfl, fun _ _ => rfl, fun _ _ _ => rfl⟩

theorem Touch.trans (h : Touch sb M V D V' D') (h' : Touch sb M V' D' V'' D'') :
    Touch sb M V D V'' D'' where
  table := fun k hk => (h'.table k hk).trans (h.table k hk)
  addr := fun p hp => (h'.addr p hp).trans (h.addr p hp)
  block := by
    intro p hp h0
    have he := h.addr p hp
    have := h'.block p hp (by rw [he]; exact h0)
    rw [he] at this
    rw [this, h.block p hp h0]

theorem Touch.mono (h : Touch sb M V D V' D') (hM : M ⊆ M') : Touch sb M' V D V' D' where
  table := fun k hk => h.table k fun hm => hk (hM hm)
  addr := fun p hp => h.addr p fun hm => hp (hM hm)
  block := fun p hp => h.block p fun hm => hp (hM hm)

theorem Touch.live (h : Touch sb M V D V' D') (hk : k ∉ M) : Live sb D' k ↔ Live sb D k := by
  unfold Live
  rw [h.table k hk]

theorem Touch.blockAddr (h : Touch sb M V D V' D') (hk : k ∉ M) (hl : Live sb D k) (bn : Nat) :
    blockAddr V' (D' k) bn = blockAddr V (D k) bn := by
  have := h.addr (.data k bn) hk
  rw [adr_data ((h.live hk).mpr hl), adr_data hl] at this
  exact UInt32.toNat_inj.mp this

theorem Touch.mapped (h : Touch sb M V D V' D') (hk : k ∉ M) (hl : Live sb D k)
    (hm : Mapped V (D k)) : Mapped V' (D' k) := by
  have hd := h.table k hk
  refine ⟨by rw [hd]; exact hm.size_le, fun bn hbn => ?_⟩
  rw [h.blockAddr hk hl]
  rw [hd] at hbn
  exact hm.block bn hbn

theorem Touch.contents (h : Touch sb M V D V' D') (hk : k ∉ M) (hl : Live sb D k)
    (hm : Mapped V (D k)) : contents V' (D' k) = contents V (D k) := by
  have hd := h.table k hk
  refine contents_congr (by rw [hd]) fun o ho => ?_
  rw [hd] at ho
  have ha := hm.block (o / 512) (by omega)
  have hb := h.block (.data k (o / 512)) hk
  rw [adr_data hl] at hb
  unfold byteAt
  rw [h.blockAddr hk hl, hb fun e => ha (UInt32.toNat_inj.mp e)]

/-! ## Sectors -/

/-- With all indirect blocks in place, so are all addresses. -/
theorem adr_congr (h : ∀ k, Live sb D k → (D k).addrs 10 ≠ 0 →
    V' ((D k).addrs 10).toNat = V ((D k).addrs 10).toNat) (p : Pos) :
    adr sb V' D p = adr sb V D p := by
  by_cases hk : Live sb D p.ino
  · cases p with
    | data k bn =>
      have hk : Live sb D k := hk
      rw [adr_data hk, adr_data hk, blockAddr_congr (h k hk)]
    | ind k =>
      have hk : Live sb D k := hk
      rw [adr_ind hk, adr_ind hk]
  · rw [adr_dead hk, adr_dead hk]

/-- All blocks that are held stay as they are. -/
def KeepsHeld (sb : Superblock) (V : Nat → Block) (D : Nat → Dinode) (V' : Nat → Block) : Prop :=
  ∀ p, adr sb V D p ≠ 0 → V' (adr sb V D p) = V (adr sb V D p)

theorem KeepsHeld.addr (h : KeepsHeld sb V D V') (p : Pos) : adr sb V' D p = adr sb V D p := by
  refine adr_congr (fun k hk h0 => ?_) p
  have hp := adr_ind (V := V) hk
  have := h (.ind k) (by
    rw [hp]
    intro e
    exact h0 (UInt32.toNat_inj.mp e))
  rwa [hp] at this

theorem KeepsHeld.touch (h : KeepsHeld sb V D V') (M : Set Nat) : Touch sb M V D V' D :=
  ⟨fun _ _ => rfl, fun p _ => h.addr p, fun p _ => h p⟩

/-- The blocks of one file. -/
theorem KeepsHeld.blocks (h : KeepsHeld sb V D V') (hn : Live sb D n) :
    (∀ bn, Zv6.blockAddr V' (D n) bn = Zv6.blockAddr V (D n) bn) ∧
      ∀ bn, Zv6.blockAddr V (D n) bn ≠ 0 →
        V' (Zv6.blockAddr V (D n) bn).toNat = V (Zv6.blockAddr V (D n) bn).toNat := by
  refine ⟨fun bn => ?_, fun bn h0 => ?_⟩
  · have := h.addr (.data n bn)
    rw [adr_data hn, adr_data hn] at this
    exact UInt32.toNat_inj.mp this
  · have hp := adr_data (V := V) hn bn
    have := h (.data n bn) (by
      rw [hp]
      exact fun e => h0 (UInt32.toNat_inj.mp e))
    rwa [hp] at this

/-- A file keeps its contents. -/
theorem KeepsHeld.file (h : KeepsHeld sb V D V') (hn : Live sb D n) {d : Dinode}
    (hd : d.addrs = (D n).addrs) (hm : Mapped V d) :
    Mapped V' d ∧ Zv6.contents V' d = Zv6.contents V d := by
  obtain ⟨haddr, hblock⟩ := h.blocks hn
  have ha : ∀ bn, Zv6.blockAddr V' d bn = Zv6.blockAddr V d bn := fun bn => by
    rw [blockAddr_addrs hd, blockAddr_addrs hd, haddr]
  refine ⟨⟨hm.size_le, fun bn hbn => ?_⟩, contents_congr rfl fun o ho => ?_⟩
  · rw [ha]
    exact hm.block bn hbn
  · have h0 := hm.block (o / 512) (by omega)
    rw [blockAddr_addrs hd] at h0
    unfold byteAt
    rw [ha, blockAddr_addrs hd, hblock _ h0]

/-- The places keep their blocks and the bitmap changes. -/
theorem Own.rebit (h : Own sb L V D) {L' : Set Nat} (hk : KeepsHeld sb V D V') (h1 : V' 1 = V 1)
    (hres : ∀ b, b < dstart sb → usedBit sb V' b = true)
    (ho : Owner (dstart sb) (lstart sb) (adr sb V D) (usedBit sb V') L') : Own sb L' V' D where
  super := by rw [h1]; exact h.super
  area := h.area
  ninodes := h.ninodes
  reserved := hres
  owner := ho.congr hk.addr fun _ _ _ => rfl

/-- One sector outside the bitmap changes that holds no file data. -/
theorem Own.sector (h : Own sb L V D) {x : Nat} (hV : Same sb x V V') (hx : x ≠ 1)
    (hbm : x ∉ bitmapSecs sb) (hheld : ∀ p, adr sb V D p ≠ 0 → adr sb V D p ≠ x) :
    Own sb L V' D ∧ KeepsHeld sb V D V' := by
  have hk : KeepsHeld sb V D V' := fun p hp => hV _ (h.range hp).2 (hheld p hp)
  have hbits : ∀ b, b < lstart sb → usedBit sb V' b = usedBit sb V b := fun b hb =>
    usedBit_congr h.area hV hbm (Nat.lt_of_lt_of_le hb (lstart_le sb))
  have h1 := one_lt_dstart sb
  have harea := h.area
  refine ⟨h.rebit hk (hV 1 (by omega) hx.symm) (fun b hb => ?_) (h.owner.congr (fun _ => rfl)
    fun b _ hb => hbits b hb), hk⟩
  rw [hbits b (by omega)]
  exact h.reserved b hb

/-- An inode sector changes. -/
theorem Own.inode_sector (h : Own sb L V D) (hn : n < sb.ninodes) (hV : Same sb (IBLOCK n) V V') :
    Own sb L V' D ∧ KeepsHeld sb V D V' := by
  refine h.sector hV (IBLOCK_ne_one n) ?_ ?_
  · intro hm
    obtain ⟨b, _, he⟩ := Finset.mem_image.mp hm
    exact IBLOCK_ne_BBLOCK hn he
  · intro p hp he
    have := (h.range hp).1
    have := IBLOCK_lt hn
    omega

/-- The log changes. -/
theorem Own.log_sectors (h : Own sb L V D) (hV : SameAll sb V V') :
    Own sb L V' D ∧ KeepsHeld sb V D V' := by
  refine h.sector (hV.same 0) (by omega) ?_ ?_
  · intro hm
    obtain ⟨b, _, he⟩ := Finset.mem_image.mp hm
    unfold BBLOCK at he
    omega
  · exact fun p hp => hp

/-- A free block below the log is marked and zeroed. -/
theorem Own.alloced (h : Own sb L V D) {b : Nat} (hfree : usedBit sb V b = false)
    (hbits : ∀ a, a < sb.size → usedBit sb V' a = if a = b then true else usedBit sb V a)
    (hV : ∀ c, c < lstart sb → c ≠ b → c ∉ bitmapSecs sb → V' c = V c) :
    Own sb (insert b L) V' D ∧ KeepsHeld sb V D V' := by
  have hle := lstart_le sb
  have h1 := one_lt_dstart sb
  have harea := h.area
  have hres : dstart sb ≤ b := by
    by_contra hlt
    rw [h.reserved b (by omega)] at hfree
    cases hfree
  have hk : KeepsHeld sb V D V' := by
    intro p hp
    have hr := h.range hp
    refine hV _ hr.2 (h.owner.not_held hfree p hp) fun hm => ?_
    have := (bitmapSecs_lt hm).1
    omega
  refine ⟨h.rebit hk (hV 1 (by omega) (by omega) fun hm => (bitmapSecs_lt hm).2 rfl) ?_
    (h.owner.leak hfree fun a _ ha => hbits a (by omega)), hk⟩
  intro a ha
  rw [hbits a (by omega), if_neg (by omega)]
  exact h.reserved a ha

/-- The data block at a place is written. -/
theorem Own.write_block (h : Own sb L V D) {k bn : Nat} (hk : Live sb D k)
    (ha : blockAddr V (D k) bn ≠ 0) (hV : Same sb (blockAddr V (D k) bn).toNat V V') :
    Own sb L V' D ∧ Touch sb {k} V D V' D ∧
      (∀ bn', blockAddr V' (D k) bn' = blockAddr V (D k) bn') ∧
      ∀ bn', bn' ≠ bn → blockAddr V (D k) bn' ≠ 0 →
        V' (blockAddr V (D k) bn').toNat = V (blockAddr V (D k) bn').toNat := by
  have hp : adr sb V D (.data k bn) = (blockAddr V (D k) bn).toNat := adr_data hk bn
  have h0 : adr sb V D (.data k bn) ≠ 0 := by
    rw [hp]
    exact fun e => ha (UInt32.toNat_inj.mp e)
  rw [← hp] at hV
  have hr := h.range h0
  have hother : ∀ q, q ≠ .data k bn → adr sb V D q ≠ 0 → V' (adr sb V D q) = V (adr sb V D q) :=
    fun q hq hq0 => hV _ (h.range hq0).2 fun e => hq (h.owner.inj q _ hq0 e)
  have hind : ∀ j, Live sb D j → (D j).addrs 10 ≠ 0 →
      V' ((D j).addrs 10).toNat = V ((D j).addrs 10).toNat := by
    intro j hj hne
    have hq := adr_ind (V := V) hj
    have := hother (.ind j) (by simp) (by
      rw [hq]
      exact fun e => hne (UInt32.toNat_inj.mp e))
    rwa [hq] at this
  have haddr := adr_congr hind
  have harea := h.area
  have h1 := one_lt_dstart sb
  have hbm : adr sb V D (.data k bn) ∉ bitmapSecs sb := fun hm => by
    have := (bitmapSecs_lt hm).1
    omega
  have hbits : ∀ b, b < lstart sb → usedBit sb V' b = usedBit sb V b := fun b hb =>
    usedBit_congr h.area hV hbm (Nat.lt_of_lt_of_le hb (lstart_le sb))
  refine ⟨⟨?_, h.area, h.ninodes, ?_, h.owner.congr haddr fun b _ hb => hbits b hb⟩,
    ⟨fun _ _ => rfl, fun p _ => haddr p, fun p hpM hp0 => hother p ?_ hp0⟩, ?_, ?_⟩
  · rw [hV 1 (by omega) (by omega)]
    exact h.super
  · intro b hb
    rw [hbits b (by omega)]
    exact h.reserved b hb
  · rintro rfl
    exact hpM rfl
  · intro bn'
    have := haddr (.data k bn')
    rw [adr_data hk, adr_data hk] at this
    exact UInt32.toNat_inj.mp this
  · intro bn' hne h0'
    have hq := adr_data (V := V) hk bn'
    have := hother (.data k bn') (by simpa using hne) (by
      rw [hq]
      exact fun e => h0' (UInt32.toNat_inj.mp e))
    rwa [hq] at this

end Own

end Zv6
