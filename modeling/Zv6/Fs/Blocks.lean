/-
  The block allocator (`balloc`, `bfree`).

  `balloc` returns the first block of the whole device whose bit is clear (`balloc_wp`): it
  scans to the end of the device, not to the beginning of the log. A block below the log it
  marks and zeroes, and touches nothing else (`Alloced`); what happens behind is not described.
  `bfree` clears one bit (`Freed`).
-/
import Mathlib.Data.Nat.Find
import Zv6.Fs.Journal

namespace Zv6

open Lib

/-- The sectors of the bitmap. -/
def bitmapSecs (sb : Superblock) : Finset Nat :=
  (Finset.range sb.size).image fun b => BBLOCK b sb.ninodes

/-- The free blocks of the data area. -/
def freeBlocks (sb : Superblock) (V : Nat → Block) : Finset Nat :=
  (Finset.range (lstart sb)).filter fun b => usedBit sb V b = false

/-- What `balloc` did to return block `b`, one below the log. -/
structure Alloced (sb : Superblock) (b : Nat) (s s' : State) : Prop where
  only : DiskOnly s s'
  jrn : Jrn sb s'
  busy : s'.log.busy = true
  block : s'.view 1 b = Block.zero
  bits : ∀ a, a < sb.size → usedBit sb (s'.view 1) a = if a = b then true
    else usedBit sb (s.view 1) a
  same : ∀ c, c < lstart sb → c ≠ b → c ∉ bitmapSecs sb → s'.view 1 c = s.view 1 c
  secs : secs s' = insert b (insert (BBLOCK b sb.ninodes) (secs s))

/-- What `balloc` returns: the first block whose bit is clear. -/
def Found (sb : Superblock) (V : Nat → Block) (b : Nat) : Prop :=
  b < sb.size ∧ usedBit sb V b = false ∧ ∀ a, a < b → usedBit sb V a = true

/-- What `bfree` of block `b` did. -/
structure Freed (sb : Superblock) (b : Nat) (s s' : State) : Prop where
  only : DiskOnly s s'
  jrn : Jrn sb s'
  busy : s'.log.busy = true
  bits : ∀ a, a < sb.size → usedBit sb (s'.view 1) a = if a = b then false
    else usedBit sb (s.view 1) a
  same : ∀ c, c < lstart sb → c ∉ bitmapSecs sb → s'.view 1 c = s.view 1 c
  secs : secs s' = insert (BBLOCK b sb.ninodes) (secs s)

section Bits

variable {sb : Superblock} {V V' : Nat → Block}

theorem mem_bitmapSecs {b : Nat} (hb : b < sb.size) : BBLOCK b sb.ninodes ∈ bitmapSecs sb :=
  Finset.mem_image.mpr ⟨b, Finset.mem_range.mpr hb, rfl⟩

theorem bitmapSecs_lt {c : Nat} (hc : c ∈ bitmapSecs sb) : c < dstart sb ∧ c ≠ 1 := by
  obtain ⟨b, hb, rfl⟩ := Finset.mem_image.mp hc
  exact ⟨BBLOCK_lt (Finset.mem_range.mp hb), BBLOCK_ne_one _ _⟩

/-- Writing one bit of a bitmap sector changes that block's bit and no other. -/
theorem usedBit_write {b a : Nat} {v : Bool}
    (hself : ∀ i, (V' (BBLOCK b sb.ninodes)).bit i =
      if i = b % 4096 then v else (V (BBLOCK b sb.ninodes)).bit i)
    (hV : ∀ c ∈ bitmapSecs sb, c ≠ BBLOCK b sb.ninodes → V' c = V c) (ha : a < sb.size) :
    usedBit sb V' a = if a = b then v else usedBit sb V a := by
  unfold usedBit
  by_cases hab : a / 4096 = b / 4096
  · have hs : BBLOCK a sb.ninodes = BBLOCK b sb.ninodes := by
      unfold BBLOCK
      rw [hab]
    rw [hs, hself]
    by_cases hm : a % 4096 = b % 4096
    · rw [if_pos hm, if_pos (by omega)]
    · rw [if_neg hm, if_neg (by omega)]
  · have hs : BBLOCK a sb.ninodes ≠ BBLOCK b sb.ninodes := by
      unfold BBLOCK
      omega
    rw [if_neg (by omega), hV _ (mem_bitmapSecs ha) hs]

theorem usedBit_congr {x a : Nat} (harea : dstart sb ≤ lstart sb) (hV : Same sb x V V')
    (hx : x ∉ bitmapSecs sb) (ha : a < sb.size) : usedBit sb V' a = usedBit sb V a := by
  have hlt := BBLOCK_lt ha
  unfold usedBit
  rw [hV _ (by omega) fun e => hx (e ▸ mem_bitmapSecs ha)]

theorem firstClear_some {b : Block} {lim bi : Nat} (h : firstClear b lim = some bi) :
    bi < lim ∧ b.bit bi = false ∧ ∀ i, i < bi → b.bit i = true := by
  unfold firstClear at h
  rw [List.find?_range_eq_some] at h
  obtain ⟨hbit, hmem, hbefore⟩ := h
  refine ⟨List.mem_range.mp hmem, by simpa using hbit, fun i hi => ?_⟩
  simpa using hbefore i hi

theorem firstClear_none {b : Block} {lim : Nat} (h : firstClear b lim = none) :
    ∀ i, i < lim → b.bit i = true := by
  intro i hi
  unfold firstClear at h
  simpa using List.find?_eq_none.mp h i (List.mem_range.mpr hi)

end Bits

section Alloc

variable {sb : Superblock} {s s' : State} {E : Stop Chan → State → Prop} {B : Finset Nat}

theorem DiskOnly.trans {s1 s2 s3 : State} (h : DiskOnly s1 s2) (h' : DiskOnly s2 s3) :
    DiskOnly s1 s3 := by
  unfold DiskOnly at *
  rw [h', h]

/-- Mark block `b` and zero it: the end of `balloc`. -/
def takeBlock (sb : Superblock) (B : Block) (b : Nat) : K Nat := do
  log_write 1 (BBLOCK b sb.ninodes) (B.setBit (b % 4096))
  bzero 1 b
  pure b

/-- The bit of the block found is set, then the block is zeroed. -/
theorem alloc_block_wp (hj : Jrn sb s) (harea : dstart sb ≤ lstart sb) (ht : Trans E s)
    {b : Nat} (hbm : BBLOCK b sb.ninodes ∈ B) (hE : Fits E sb B s) (hb : b < sb.size)
    (hres : dstart sb ≤ b) (hslot : b ≤ lstart sb ∨ ∀ s', E (.blocked (.buf 1 b)) s') :
    wp (takeBlock sb (s.view 1 (BBLOCK b sb.ninodes)) b)
      (fun r s' => r = b ∧ (b < lstart sb → Alloced sb b s s')) E s := by
  have hbb := BBLOCK_lt hb
  refine (log_write_wp hj (by omega) ht hE).bind fun _ s1 h1 => ?_
  have hE1 := hE.logs h1 hbm
  by_cases hlt : b < lstart sb
  · refine (log_write_wp h1.jrn hlt (.of_busy h1.busy) hE1).bind fun _ s2 h2 => ?_
    refine ⟨rfl, fun _ => ⟨h1.only.trans h2.only, h2.jrn, h2.busy, h2.self, ?_, ?_, ?_⟩⟩
    · intro a ha
      have hnb : b ∉ bitmapSecs sb := fun hc => by
        have := (bitmapSecs_lt hc).1
        omega
      rw [usedBit_congr harea h2.same hnb ha]
      refine usedBit_write (fun i => ?_) (fun c hc hne => ?_) ha
      · rw [h1.self, Block.bit_setBit _ _ _ (by omega)]
      · exact h1.same c (by have := (bitmapSecs_lt hc).1; omega) hne
    · intro c hc hne hnm
      rw [h2.same c hc hne, h1.same c hc fun e => hnm (e ▸ mem_bitmapSecs hb)]
    · rw [h2.secs, h1.secs]
  · have hstops : wp (bzero 1 b) (fun _ _ => True) E s1 := by
      unfold wp bzero
      rw [log_write_apply]
      by_cases hfull : 20 ≤ s1.log.n ∨ s1.log.size - 1 ≤ s1.log.n
      · rw [if_pos hfull]
        exact hE1.not_full h1.jrn hfull
      · rw [if_neg hfull, if_neg (by simp [h1.busy])]
        by_cases hself : b = s1.log.start + absorbSlot s1.log b + 1
        · rw [if_pos hself]
          refine hslot.elim (fun hle => ?_) fun hE => hE _
          have := h1.jrn.placed.start
          omega
        · rw [if_neg hself]
          trivial
    exact hstops.bind fun _ _ _ => ⟨rfl, fun h => absurd h hlt⟩

theorem readsb_apply (h : (s.view 1 1).superblock = sb) : readsb 1 s = .ok sb s := by
  unfold readsb
  rw [Exec.bind_ok (bread_apply _ _ _), h]
  rfl

theorem Found.unique {V : Nat → Block} {a b : Nat} (ha : Found sb V a) (hb : Found sb V b) :
    a = b := by
  rcases Nat.lt_trichotomy a b with h | h | h
  · have := hb.2.2 a h
    rw [ha.2.1] at this
    cases this
  · exact h
  · have := ha.2.2 b h
    rw [hb.2.1] at this
    cases this

/-- The scan from a multiple of 4096 on, with all bits below it set, ends at the first clear
    bit, and with a panic if there is none. -/
theorem ballocLoop_eq (k : Nat) : ∀ b, b % 4096 = 0 → sb.size < b + 4096 * k →
    (∀ a, a < b → a < sb.size → usedBit sb (s.view 1) a = true) →
    (∀ a, Found sb (s.view 1) a →
      ballocLoop 1 sb k b s = takeBlock sb (s.view 1 (BBLOCK a sb.ninodes)) a s) ∧
    ((∀ a, a < sb.size → usedBit sb (s.view 1) a = true) →
      ballocLoop 1 sb k b s = .panic "balloc: out of blocks" s) := by
  induction k with
  | zero =>
    intro b _ hk hset
    refine ⟨fun a ha => ?_, fun _ => rfl⟩
    have := hset a (by have := ha.1; omega) ha.1
    rw [ha.2.1] at this
    cases this
  | succ k ih =>
    intro b hb hk hset
    unfold ballocLoop
    by_cases hlt : b < sb.size
    swap
    · rw [if_neg hlt]
      refine ⟨fun a ha => ?_, fun _ => rfl⟩
      have := hset a (by have := ha.1; omega) ha.1
      rw [ha.2.1] at this
      cases this
    rw [if_pos hlt, Exec.bind_ok (bread_apply _ _ _)]
    have hsec : ∀ i, i < 4096 → BBLOCK (b + i) sb.ninodes = BBLOCK b sb.ninodes := by
      intro i hi
      unfold BBLOCK
      omega
    have hbit : ∀ i, i < 4096 →
        (s.view 1 (BBLOCK b sb.ninodes)).bit i = usedBit sb (s.view 1) (b + i) := by
      intro i hi
      unfold usedBit
      rw [hsec i hi, show (b + i) % 4096 = i by omega]
    cases hf : firstClear (s.view 1 (BBLOCK b sb.ninodes)) (min 4096 (sb.size - b)) with
    | some bi =>
      obtain ⟨hbi, hclear, hbefore⟩ := firstClear_some hf
      rw [hbit bi (by omega)] at hclear
      constructor
      · intro a ha
        have hfirst : Found sb (s.view 1) (b + bi) := by
          refine ⟨by omega, hclear, fun a ha => ?_⟩
          by_cases hab : a < b
          · exact hset a hab (by omega)
          · have := hbefore (a - b) (by omega)
            rwa [hbit (a - b) (by omega), show b + (a - b) = a by omega] at this
        obtain rfl := ha.unique hfirst
        unfold takeBlock
        rw [hsec bi (by omega), show (b + bi) % 4096 = bi by omega]
      · intro hall
        rw [hall (b + bi) (by omega)] at hclear
        cases hclear
    | none =>
      refine ih (b + 4096) (by omega) (by omega) fun a ha hsz => ?_
      by_cases hab : a < b
      · exact hset a hab hsz
      · have := firstClear_none hf (a - b) (by omega)
        rw [hbit (a - b) (by omega), show b + (a - b) = a by omega] at this
        exact this

theorem balloc_found (hsuper : (s.view 1 1).superblock = sb) {b : Nat}
    (hb : Found sb (s.view 1) b) :
    balloc 1 s = takeBlock sb (s.view 1 (BBLOCK b sb.ninodes)) b s := by
  unfold balloc
  rw [Exec.bind_ok (readsb_apply hsuper)]
  exact (ballocLoop_eq _ 0 rfl (by omega) fun a ha => by omega).1 b hb

theorem balloc_full (hsuper : (s.view 1 1).superblock = sb)
    (h : ∀ a, a < sb.size → usedBit sb (s.view 1) a = true) :
    balloc 1 s = .panic "balloc: out of blocks" s := by
  unfold balloc
  rw [Exec.bind_ok (readsb_apply hsuper)]
  exact (ballocLoop_eq _ 0 rfl (by omega) fun a ha => by omega).2 h

/-- Either a first clear bit exists or all bits are set. -/
theorem found_or_full (sb : Superblock) (V : Nat → Block) :
    (∃ b, Found sb V b) ∨ ∀ a, a < sb.size → usedBit sb V a = true := by
  classical
  by_cases h : ∃ a, a < sb.size ∧ usedBit sb V a = false
  · refine .inl ⟨Nat.find h, (Nat.find_spec h).1, (Nat.find_spec h).2, fun a ha => ?_⟩
    have hmin := Nat.find_min h ha
    have hlt := (Nat.find_spec h).1
    rw [not_and, Bool.not_eq_false] at hmin
    exact hmin (by omega)
  · refine .inr fun a ha => ?_
    by_contra hne
    exact h ⟨a, ha, Bool.not_eq_true _ ▸ hne⟩

/-- The first block whose bit is clear is allocated. -/
theorem balloc_wp (hj : Jrn sb s) (hsuper : (s.view 1 1).superblock = sb)
    (harea : dstart sb ≤ lstart sb) (ht : Trans E s)
    (hres : ∀ a, a < dstart sb → usedBit sb (s.view 1) a = true)
    (hbm : ∀ b, Found sb (s.view 1) b → BBLOCK b sb.ninodes ∈ B) (hE : Fits E sb B s)
    (hslot : ∀ b, Found sb (s.view 1) b → b ≤ lstart sb ∨ ∀ s', E (.blocked (.buf 1 b)) s')
    (hfull : (∀ a, a < sb.size → usedBit sb (s.view 1) a = true) →
      E (.panic "balloc: out of blocks") s) :
    wp (balloc 1) (fun b s' => Found sb (s.view 1) b ∧
      (b < lstart sb → Alloced sb b s s')) E s := by
  rcases found_or_full sb (s.view 1) with ⟨b, hb⟩ | h
  · have hge : dstart sb ≤ b := by
      by_contra hlt
      have := hres b (by omega)
      rw [hb.2.1] at this
      cases this
    refine (wp_congr (balloc_found hsuper hb)).mpr ?_
    refine (alloc_block_wp hj harea ht (hbm b hb) hE hb.1 hge (hslot b hb)).post ?_
    rintro _ s' ⟨rfl, h'⟩
    exact ⟨hb, h'⟩
  · unfold wp
    rw [balloc_full hsuper h]
    exact hfull h

/-- Freeing a block that is in use. -/
theorem bfree_wp (hj : Jrn sb s) (hsuper : (s.view 1 1).superblock = sb)
    (harea : dstart sb ≤ lstart sb) (ht : Trans E s) {b : Nat}
    (hE : Fits E sb B s) (hb : b < sb.size)
    (hused : usedBit sb (s.view 1) b = false → E (.panic "freeing free block") s) :
    wp (bfree 1 b) (fun _ s' => usedBit sb (s.view 1) b = true ∧ Freed sb b s s') E s := by
  have hbb := BBLOCK_lt hb
  unfold bfree
  refine wp_ok_bind (readsb_apply hsuper) ?_
  refine wp_ok_bind (bread_apply _ _ _) ?_
  refine wp_ite hused fun hset => ?_
  have hset : usedBit sb (s.view 1) b = true := by
    simpa [usedBit] using hset
  refine (log_write_wp hj (by omega) ht hE).post fun _ s1 h1 => ?_
  refine ⟨hset, h1.only, h1.jrn, h1.busy, ?_, ?_, h1.secs⟩
  · intro a ha
    refine usedBit_write (fun i => ?_) (fun c hc hne => ?_) ha
    · rw [h1.self, Block.bit_clearBit _ _ _ (by omega)]
    · exact h1.same c (by have := (bitmapSecs_lt hc).1; omega) hne
  · intro c hc hnm
    exact h1.same c hc fun e => hnm (e ▸ mem_bitmapSecs hb)

end Alloc

end Zv6
