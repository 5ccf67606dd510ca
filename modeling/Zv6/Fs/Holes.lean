/-
  Reading a file with a block missing.

  `bmap` allocates a block it does not find, and outside a transaction `log_write` panics. So
  `ichecksum` of a file, run outside a transaction, returns if and only if every block below the
  size is there (`ichecksum_idle_iff`).
-/
import Zv6.Fs.Content

namespace Zv6

open Lib

/-- The call stops the machine and has changed nothing. -/
def Panics {α : Type} (m : K α) (s : State) : Prop := ∃ msg, m s = .panic msg s

variable {α β : Type} {s : State} {ip : Fin 100} {V : Nat → Block} {d : Dinode}

theorem Panics.bind {m : K α} (h : Panics m s) (f : α → K β) : Panics (m >>= f) s := by
  obtain ⟨msg, hm⟩ := h
  exact ⟨msg, Exec.bind_panic hm f⟩

theorem Panics.after {m : K α} {f : α → K β} {a : α} (hm : m s = .ok a s) (h : Panics (f a) s) :
    Panics (m >>= f) s := by
  obtain ⟨msg, hf⟩ := h
  exact ⟨msg, (Exec.bind_ok hm f).trans hf⟩

theorem Panics.not_ok {m : K α} (h : Panics m s) (a : α) (s' : State) : m s ≠ .ok a s' := by
  obtain ⟨msg, hm⟩ := h
  rw [hm]
  intro e
  cases e

/-! ## Outside a transaction -/

theorem log_write_idle (hb : s.log.busy = false) (dev sec : Nat) (b : Block) :
    Panics (log_write dev sec b) s := by
  unfold log_write
  refine Panics.after (Exec.gets_apply State.log s) ?_
  split
  · exact ⟨_, rfl⟩
  · rw [if_pos (by rw [hb]; decide)]
    exact ⟨_, rfl⟩

theorem balloc_idle (hb : s.log.busy = false) (dev : Nat) : Panics (balloc dev) s := by
  have hloop : ∀ sb k b, Panics (ballocLoop dev sb k b) s := by
    intro sb k
    induction k with
    | zero => exact fun b => ⟨_, rfl⟩
    | succ k ih =>
      intro b
      unfold ballocLoop
      split
      · refine Panics.after (bread_apply _ _ s) ?_
        split
        · exact (log_write_idle hb _ _ _).bind _
        · exact ih _
      · exact ⟨_, rfl⟩
  unfold balloc readsb
  exact Panics.after (Exec.bind_ok (bread_apply _ _ s) _) (hloop _ _ _)

/-! ## A block that is not there -/

theorem bmap_hole (hb : s.log.busy = false) (hV : s.view (s.icache ip).dev = V)
    (hd : (s.icache ip).d = d) {bn : Nat} (h138 : bn < 138) (h0 : blockAddr V d bn = 0) :
    Panics (bmap ip bn) s := by
  subst hV hd
  unfold blockAddr at h0
  unfold bmap
  refine Panics.after (inode_apply ip s) ?_
  by_cases h10 : bn < 10
  · rw [dif_pos h10] at h0 ⊢
    dsimp only
    rw [if_pos h0]
    exact (balloc_idle hb _).bind _
  · rw [dif_neg h10, if_pos h138] at h0
    rw [dif_neg h10, if_pos (by omega)]
    by_cases hind : (s.icache ip).d.addrs 10 = 0
    · rw [if_pos hind]
      exact ((balloc_idle hb _).bind _).bind _
    · rw [if_neg hind] at h0 ⊢
      refine Panics.after (Exec.pure_apply _ s) (Panics.after (bread_apply _ _ s) ?_)
      rw [if_pos h0]
      exact (balloc_idle hb _).bind _

section Hole

variable (hb : s.log.busy = false) (hV : s.view (s.icache ip).dev = V) (hd : (s.icache ip).d = d)
include hb hV hd

/-- A read that comes to a missing block. -/
theorem readiLoop_hole (fuel : Nat) : ∀ {off n o : Nat}, n ≤ fuel → off + n ≤ 70656 → off ≤ o →
    o < off + n → blockAddr V d (o / 512) = 0 → Panics (readiLoop ip fuel off n) s := by
  induction fuel with
  | zero =>
    intro off n o hn _ ho ho' _
    omega
  | succ fuel ih =>
    intro off n o hn hsize ho ho' h0
    unfold readiLoop
    rw [if_neg (by omega)]
    refine Panics.after (inode_apply ip s) ?_
    by_cases hz : blockAddr V d (off / 512) = 0
    · exact (bmap_hole hb hV hd (by omega) hz).bind _
    · refine Panics.after (bmap_mapped hV hd _ hz) (Panics.after (bread_apply _ _ s) ?_)
      have hne : o / 512 ≠ off / 512 := fun e => hz (e ▸ h0)
      exact (ih (o := o) (by omega) (by omega) (by omega) (by omega) h0).bind _

theorem readi_hole (ht : d.type ≠ T_DEV) (hs : d.size.toNat ≤ 70656) {off n o : Nat}
    (hoff : off ≤ d.size.toNat) (hn : n ≤ 2048) (ho : off ≤ o)
    (ho' : o < off + min n (d.size.toNat - off)) (h0 : blockAddr V d (o / 512) = 0) :
    Panics (readi ip off n) s := by
  have hn' : (if d.size.toNat < off + n then d.size.toNat - off else n) =
      min n (d.size.toNat - off) := by
    split <;> omega
  unfold readi
  refine Panics.after (inode_apply ip s) ?_
  rw [hd, if_neg ht, if_neg (by omega)]
  simp only [hn']
  exact (readiLoop_hole hb hV hd _ (Nat.le_refl _) (by omega) ho ho' h0).bind _

end Hole

/-- A read of blocks that are there. -/
theorem readi_there (hV : s.view (s.icache ip).dev = V) (hd : (s.icache ip).d = d)
    (ht : d.type ≠ T_DEV) (hs : d.size.toNat ≤ 70656) {off n : Nat} (hoff : off ≤ d.size.toNat)
    (hn : n ≤ 2048) (hmap : ∀ o, off ≤ o → o < off + min n (d.size.toNat - off) →
      blockAddr V d (o / 512) ≠ 0) :
    readi ip off n s = .ok (((min n (d.size.toNat - off) : Nat) : Int),
      slice V d off (min n (d.size.toNat - off))) s := by
  have hn' : (if d.size.toNat < off + n then d.size.toNat - off else n) =
      min n (d.size.toNat - off) := by
    split <;> omega
  unfold readi
  rw [Exec.bind_ok (inode_apply ip s), hd, if_neg ht, if_neg (by omega)]
  simp only [hn']
  rw [Exec.bind_ok (readiLoop_mapped hV hd _ _ _ (Nat.le_refl _) hmap)]
  rfl

/-- The loop of `ichecksum` comes to the missing block. -/
theorem ichecksumLoop_hole (hb : s.log.busy = false) (hV : s.view (s.icache ip).dev = V)
    (hd : (s.icache ip).d = d) (ht : d.type ≠ T_DEV) (hs : d.size.toNat ≤ 70656) {o : Nat}
    (ho : o < d.size.toNat) (h0 : blockAddr V d (o / 512) = 0) (fuel : Nat) :
    ∀ {off : Nat} (c : UInt32), off ≤ o → d.size.toNat - off ≤ 2048 * fuel →
      Panics (ichecksumLoop ip (fuel + 1) off c) s := by
  induction fuel with
  | zero =>
    intro off c hoff hf
    omega
  | succ fuel ih =>
    intro off c hoff hf
    by_cases hin : ∃ o', off ≤ o' ∧ o' < off + min 2048 (d.size.toNat - off) ∧
        blockAddr V d (o' / 512) = 0
    · obtain ⟨o', h1, h2, h3⟩ := hin
      unfold ichecksumLoop
      exact (readi_hole hb hV hd ht hs (by omega) (by omega) h1 h2 h3).bind _
    · have hmap : ∀ o', off ≤ o' → o' < off + min 2048 (d.size.toNat - off) →
          blockAddr V d (o' / 512) ≠ 0 := fun o' h1 h2 h3 => hin ⟨o', h1, h2, h3⟩
      have hge : off + min 2048 (d.size.toNat - off) ≤ o := by
        by_contra hlt
        exact hmap o hoff (by omega) h0
      have hoff' : (off + (((min 2048 (d.size.toNat - off) : Nat) : Int) % 4294967296).toNat) %
          4294967296 = off + min 2048 (d.size.toNat - off) := by omega
      unfold ichecksumLoop
      refine Panics.after (readi_there hV hd ht hs (by omega) (by omega) hmap) ?_
      dsimp only
      rw [if_neg (by omega), hoff']
      exact ih _ hge (by omega)

/-- Outside a transaction a file is verified if and only if its blocks are all there. -/
theorem ichecksum_idle_iff (hb : s.log.busy = false) (hV : s.view (s.icache ip).dev = V)
    (hd : (s.icache ip).d = d) (ht : d.type ≠ T_DEV) (hs : d.size.toNat ≤ 70656) :
    (∃ c, ichecksum ip s = .ok c s) ↔ ∀ bn, bn * 512 < d.size.toNat → blockAddr V d bn ≠ 0 := by
  constructor
  · rintro ⟨c, hc⟩ bn hbn h0
    have hpanics : Panics (ichecksum ip) s := by
      unfold ichecksum
      refine Panics.after (inode_apply ip s) ?_
      rw [hd, if_neg ht]
      refine ichecksumLoop_hole hb hV hd ht hs hbn ?_ _ _ (Nat.zero_le _) (by omega)
      rw [Nat.mul_div_cancel _ (by decide)]
      exact h0
    exact hpanics.not_ok c s hc
  · intro h
    exact ⟨_, ichecksum_mapped hV hd ht ⟨hs, h⟩⟩

end Zv6
