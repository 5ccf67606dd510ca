/-
  `ilock_trans`: verification, and recovery from a ditto if necessary.

  `Settled sb D s` is what the calls keep between their writes: a consistent volume with the
  log behind it, the dinodes on disk those of the table `D`, a cache for that table, and
  dittos with the size and checksum of their inodes. From there `ilock_trans` does one of
  three things (`TransPost`): the inode is locked, it is corrupted, or it was restored from
  the first ditto that verifies and is locked.

  Started on a cold machine this is recovery as the README describes it
  (`ilock_trans_recovers`).
-/
import Zv6.Fs.Image
import Zv6.Locks.Bracket
import Zv6.Recovery.Rescue

namespace Zv6

open Lib

/-- A consistent volume with nothing half done. -/
structure Settled (sb : Superblock) (D : Nat → Dinode) (s : State) : Prop where
  placed : Placed sb s
  log : 7 ≤ sb.nlog
  pending : ∃ P, Pending s P ∧ (s.log.busy = false → P = [])
  fs : Fs sb (s.view 1) D
  onDisk : ∀ k, k < sb.ninodes → table (s.view 1) k = D k
  cache : Cache sb D s.icache
  paired : Paired sb D

/-- What `ilock_trans` of the slot of inode `n` did. -/
def TransPost (sb : Superblock) (D : Nat → Dinode) (n : Nat) (ip : Fin 100) (s : State) (r : Int)
    (s' : State) : Prop :=
  (LockPost sb D n ip s r s' ∧ (r = 0 ∨ r = E_CORRUPTED)) ∨
  (r = 0 ∧ ∃ c s1 s2, First (Passes s D) ((D n).tries 0) (some c) ∧ ¬ Good (s.view 1) D n ∧
    Good (s.view 1) D c ∧ CacheOnly s s1 ∧ Grow s s1 ∧ Cache sb D s1.icache ∧ Fresh D s s1 ∧
    (s.icache ip).valid = false ∧ RescuePost sb D n c ip s1 s2 ∧
    s' = s2.setInode ip { s2.icache ip with busy := true })

section Trans

variable {sb : Superblock} {D : Nat → Dinode} {n c : Nat} {ip r : Fin 100} {s : State}
  {E : Stop Chan → State → Prop}

theorem Settled.idle (h : Settled sb D s) (hb : s.log.busy = false) : Idle s := by
  obtain ⟨P, hP, hnil⟩ := h.pending
  obtain rfl := hnil hb
  exact ⟨hP.dev, hb, hP.n, fun c => hP.clean c (by simp), hP.head⟩

theorem Settled.cacheOnly {s' : State} (h : Settled sb D s) (ho : CacheOnly s s')
    (hc : Cache sb D s'.icache) : Settled sb D s' := by
  obtain ⟨P, hP, hnil⟩ := h.pending
  have hview : s'.view = s.view := ho.view
  unfold CacheOnly at ho
  refine ⟨?_, h.log, ⟨P, ?_, ?_⟩, by rw [hview]; exact h.fs, by rw [hview]; exact h.onDisk, hc,
    h.paired⟩
  · rw [ho]
    exact ⟨h.placed.start, h.placed.size⟩
  · rw [ho]
    exact ⟨hP.dev, hP.n, hP.sector, hP.body, hP.dirty, hP.clean, hP.nodup, hP.home, hP.word,
      hP.room, hP.head⟩
  · rw [ho]
    exact hnil

/-- The dittos that can be the verdict are dittos of the inode. -/
theorem mem_tries {d : Dinode} (h : c ∈ d.tries 0) : ∃ i, d.child i = c ∧ c ≠ 0 := by
  have hz : ∀ w : UInt16, w ≠ 0 → w.toNat ≠ 0 := fun w hw h0 =>
    hw (UInt16.toNat_inj.mp h0)
  have h' : c ∈ if d.child1 = 0 then [] else
      d.child1.toNat :: if d.child2 = 0 then [] else [d.child2.toNat] := h
  by_cases h1 : d.child1 = 0
  · rw [if_pos h1] at h'
    cases h'
  · rw [if_neg h1] at h'
    rcases List.mem_cons.mp h' with rfl | h'
    · exact ⟨false, rfl, hz _ h1⟩
    · by_cases h2 : d.child2 = 0
      · rw [if_pos h2] at h'
        cases h'
      · rw [if_neg h2, List.mem_singleton] at h'
        subst h'
        exact ⟨true, rfl, hz _ h2⟩

theorem First.mem {p : Nat → Prop} {l : List Nat} (h : First p l (some c)) : c ∈ l ∧ p c := by
  obtain ⟨pre, post, rfl, -, hp⟩ := h
  exact ⟨by simp, hp⟩

/-- An inode that fails while one of its dittos matches is not empty. -/
theorem Settled.size_pos (h : Settled sb D s) (hn : Live sb D n) {i : Bool} (hc : (D n).child i ≠ 0)
    (hbad : ¬ Good (s.view 1) D n) (hgood : Good (s.view 1) D ((D n).child i)) :
    0 < (D n).size.toNat := by
  obtain ⟨hsize, hsum⟩ := h.paired n i hn hc
  rcases Nat.eq_zero_or_pos (D n).size.toNat with h0 | hpos
  · refine absurd ?_ hbad
    have hnil : ∀ k, (D k).size = (D n).size → contents (s.view 1) (D k) = [] := by
      intro k hk
      apply List.eq_nil_of_length_eq_zero
      rw [length_contents, hk, h0]
    unfold Good at hgood ⊢
    rw [hnil _ hsize, hsum] at hgood
    rw [hnil n rfl]
    exact hgood
  · exact hpos

/-- A slot that is locked already makes `ilock_ext` sleep. -/
theorem ilock_ext_blocked {Q : Int → State → Prop} (hE : Escape E) (href : 0 < (s.icache ip).ref)
    (hb : (s.icache ip).busy = true) (checksum : Bool) : wp (ilock_ext ip checksum) Q E s := by
  refine ilockExt_wp href (fun _ => hE) ?_ ?_
  · intro h
    rw [hb] at h
    cases h
  · intro h
    rw [hb] at h
    cases h

/-- `irescue` inside a transaction sleeps on the log it holds itself. -/
theorem irescueLoop_blocked {Q : Unit → State → Prop} (hE : Escape E) (hb : s.log.busy = true)
    {fuel k : Nat} (hk : 0 < k) (hf : 0 < fuel) : wp (irescueLoop ip r fuel 0 k) Q E s := by
  obtain ⟨f, rfl⟩ : ∃ f, fuel = f + 1 := ⟨fuel - 1, by omega⟩
  unfold irescueLoop
  rw [if_neg (by omega)]
  have hblock : begin_trans s = .blocked .log s := by
    unfold begin_trans
    rw [if_pos hb]
  refine wp_bind.mpr ?_
  unfold wp
  rw [hblock]
  exact hE _ _

theorem irescue_wp (h : Settled sb D s) (hip : Caches s.icache ip n) (hr : Caches s.icache r c)
    (hv : (s.icache r).valid = true) {i : Bool} (hi : (D n).child i = c) (hc : c ≠ 0)
    (hbad : ¬ Good (s.view 1) D n) (hgood : Good (s.view 1) D c)
    (hE : Escape E ∨ s.log.busy = false ∧ (s.icache r).busy = false ∧ (s.icache ip).busy = false) :
    wp (irescue ip r) (fun _ s' => RescuePost sb D n c ip s s') E s := by
  have hlive : Live sb D n := hip.2 ▸ (h.cache.slot ip hip.1).2
  have hlivec : Live sb D c := hr.2 ▸ (h.cache.slot r hr.1).2
  obtain ⟨-, htype⟩ := h.fs.child n i hlive (by rw [hi]; exact hc)
  rw [hi] at htype
  obtain ⟨hsize, -⟩ := h.paired n i hlive (by rw [hi]; exact hc)
  rw [hi] at hsize
  have hpos := h.size_pos hlive (i := i) (by rw [hi]; exact hc) hbad (by rw [hi]; exact hgood)
  have hmax := (h.fs.mapped n hlive).size_le
  obtain ⟨hnot, hne⟩ := h.fs.has_ditto hlive (i := i) (by rw [hi]; exact hc)
  rw [hi] at hne
  have hdev : (D n).type ≠ T_DEV := by
    intro ht
    rw [h.fs.dev n hlive ht] at hpos
    exact absurd hpos (by decide)
  by_cases hfine : s.log.busy = false ∧ (s.icache r).busy = false ∧ (s.icache ip).busy = false
  · obtain ⟨hlb, hrb, hib⟩ := hfine
    have hidle := h.idle hlb
    have hview := hidle.view
    have hres : Rescuable sb D n c ip r s :=
      { idle := hidle, placed := h.placed, log := h.log, fs := by rw [← hview]; exact h.fs,
        cache := h.cache, slot := hip, ditto := hr, valid := hv,
        onDisk := by rw [← hview]; exact h.onDisk n hlive.2.1, ne := hne, type := ⟨hdev, hnot⟩,
        dittoType := by rw [htype]; decide, size := hsize }
    obtain ⟨s', hrun, hpost⟩ := irescue_returns hres hrb hib
    exact (wp_of_ok hrun).mpr hpost
  · have hE := hE.resolve_right hfine
    unfold irescue
    by_cases hrb : (s.icache r).busy = true
    · exact wp_bind.mpr (ilock_ext_blocked hE hr.1 hrb false)
    refine (ilock_ext_false_wp h.cache hr (fun hv' => by rw [hv] at hv'; cases hv')
      (fun _ => hE)).bind ?_
    rintro _ s1 ⟨-, -, a, rfl, har, had, hai, hab, hav, hac, -⟩
    have hslots : r ≠ ip := by
      rintro rfl
      exact hne (hr.2.symm.trans hip.2)
    have hip1 : (s.setInode r a).icache ip = s.icache ip := setInode_ne _ _ hslots.symm
    have hcache1 : Cache sb D (s.setInode r a).icache :=
      h.cache.set hr.1 had hai fun _ => by rw [hr.2]; exact hac
    have hslot1 : Caches (s.setInode r a).icache ip n := by
      unfold Caches
      rw [hip1]
      exact hip
    by_cases hib : (s.icache ip).busy = true
    · refine wp_bind.mpr (ilock_ext_blocked hE hslot1.1 ?_ false)
      rw [hip1]
      exact hib
    refine (ilock_ext_false_wp hcache1 hslot1 (fun _ => h.onDisk n hlive.2.1) (fun _ => hE)).bind ?_
    rintro _ s2 ⟨-, -, b, rfl, hbr, hbd, hbi, hbb, hbv, hbc, -⟩
    have hlb : s.log.busy = true := by
      rcases Bool.eq_false_or_eq_true s.log.busy with hl | hl
      · exact hl
      · exact absurd ⟨hl, by simpa using hrb, by simpa using hib⟩ hfine
    refine wp_ok_bind (inode_apply _ _) ?_
    have hbound : intBound (((s.setInode r a).setInode ip b).icache ip).d.size =
        (D n).size.toNat := by
      have hbsize : b.d.size = (D n).size := by
        rw [← hbc]
        rfl
      unfold intBound
      rw [setInode_self, hbsize, if_pos (by omega)]
    have hlb2 : ((s.setInode r a).setInode ip b).log.busy = true := hlb
    rw [hbound]
    exact wp_bind.mpr (irescueLoop_blocked hE hlb2 hpos hpos)

/-- No transaction is open, no slot is locked, and two slots are free. -/
def Still (s : State) : Prop :=
  s.log.busy = false ∧ (∀ x, (s.icache x).busy = false) ∧ 2 ≤ (freeSlots s).card

/-- A failed `ilock` leaves nothing locked that was not. -/
theorem ilock_unlocked (h : Settled sb D s) (hip : Caches s.icache ip n) (hE : Escape E ∨ Still s) :
    wp (ilock ip) (fun r s' => LockPost sb D n ip s r s' ∧ (Escape E ∨
      (r ≠ 0 → ∀ x, (s'.icache x).busy = false))) E s := by
  have hlive : Live sb D n := hip.2 ▸ (h.cache.slot ip hip.1).2
  have hdittos : ∀ i, (D n).child i ≠ 0 → table (s.view 1) ((D n).child i) = D ((D n).child i) :=
    fun i hi => h.onDisk _ (h.fs.child n i hlive hi).1.2.1
  have hlock : (Escape E ∨ (∀ x, (s.icache x).busy = false) ∧ 2 ≤ (freeSlots s).card) →
      wp (ilock ip) (LockPost sb D n ip s) E s :=
    ilock_wp h.fs h.cache hip (fun _ => h.onDisk n hlive.2.1) hdittos
  rcases hE with hE | ⟨-, hbusy, hfree⟩
  · exact (hlock (Or.inl hE)).post fun r s' hp => ⟨hp, Or.inl hE⟩
  · have hlk : Lk (fun _ => false) ⟨s.log.busy, s.ftable⟩ s := by
      refine ⟨hbusy, ?_, rfl, rfl⟩
      intro j hj
      cases hj
    refine ((hlock (Or.inr ⟨hbusy, hfree⟩)).and (ilock_lk ip hlk)).mono ?_ fun c s' h => h.1
    rintro r s' ⟨hp, hl⟩
    refine ⟨hp, Or.inr fun hr => ?_⟩
    rcases hl with ⟨h0, -⟩ | ⟨-, hl⟩
    · exact absurd h0 hr
    · exact hl.busy

theorem ilock_trans_wp (h : Settled sb D s) (hip : Caches s.icache ip n)
    (htrust : ∀ c ∈ (D n).tries 0, ∀ j, Caches s.icache j c → (s.icache j).valid = true →
      Good (s.view 1) D c ∨ Good (s.view 1) D n)
    (hE : Escape E ∨ Still s) : wp (ilock_trans ip) (TransPost sb D n ip s) E s := by
  unfold ilock_trans
  refine (ilock_unlocked h hip hE).bind ?_
  rintro r s1 ⟨hp, hun⟩
  refine wp_ite (fun h0 => ?_) fun h0 => ?_
  · subst h0
    exact Or.inl ⟨hp, Or.inl rfl⟩
  refine wp_ite (fun hc => ?_) fun hc => ?_
  · subst hc
    exact Or.inl ⟨hp, Or.inr rfl⟩
  -- the number of a ditto
  rcases hp.result with ⟨hr, -⟩ | ⟨hv, hv1, hbad, o, hfirst, hr, hj⟩
  · exact absurd hr h0
  cases o with
  | none => exact absurd hr hc
  | some c =>
    obtain ⟨j, hjc, hjv⟩ := hj c rfl
    obtain ⟨hmem, hpass⟩ := hfirst.mem
    obtain ⟨i, hi, hc0⟩ := mem_tries hmem
    have hgood : Good (s.view 1) D c := by
      rcases hpass with ⟨x, hx, hxv⟩ | hg
      · exact (htrust c hmem x hx hxv).resolve_right hbad
      · exact hg
    have h1 := h.cacheOnly hp.only hp.cache
    have hip1 := hp.grow.caches hip
    have hview1 := hp.only.view
    have hdev1 := (hp.cache.slot ip hip1.1).1
    have hlivec : Live sb D c := hjc.2 ▸ (hp.cache.slot j hjc.1).2
    have hpos : 0 < r := by
      rw [hr]
      show (0 : Int) < (c : Int)
      omega
    have hnat : r.toNat = c := by
      rw [hr]
      rfl
    rw [Exec.when_pos hpos]
    have hrescue : wp (do
        let i ← inode ip
        let ic ← iget i.dev r.toNat
        irescue ip ic) (fun _ s3 => ∃ s2, CacheOnly s s2 ∧ Grow s s2 ∧ Cache sb D s2.icache ∧
          Fresh D s s2 ∧ RescuePost sb D n c ip s2 s3) E s1 := by
      refine wp_ok_bind (inode_apply _ _) ?_
      rw [hdev1, hnat]
      have higet : wp (iget 1 c) (Got c s1) E s1 :=
        (iget_wp hp.cache c).mono (fun _ _ h => h) fun _ _ hno => absurd hjc (hno.2 j)
      refine higet.bind fun j' s2 hgot => ?_
      have hjj : j' = j := by
        rcases hgot with ⟨hx, -⟩ | ⟨hno, -⟩
        · exact hp.cache.uniq j' j c hx hjc
        · exact absurd hjc (hno j)
      subst hjj
      have hc2 := hgot.cache hp.cache hlivec
      have ho2 : CacheOnly s s2 := hp.only.trans hgot.cacheOnly
      have hv2 : (s2.icache j').valid = true := hgot.valid.mpr ⟨hjc, hjv⟩
      have hji : j' ≠ ip := by
        rintro rfl
        rw [hv1] at hjv
        cases hjv
      have hon : Onward D ip s1 s2 := hgot.onward hji
      have hE2 : Escape E ∨ s2.log.busy = false ∧ (s2.icache j').busy = false ∧
          (s2.icache ip).busy = false := by
        rcases hE with hE | hE
        · exact Or.inl hE
        · rcases hun with hun | hun
          · exact Or.inl hun
          · refine Or.inr ⟨?_, hgot.busy (hun h0 j'), ?_⟩
            · rw [ho2]
              exact hE.1
            · rw [hon.slot]
              exact hun h0 ip
      refine (irescue_wp (h.cacheOnly ho2 hc2) (hgot.grow.caches hip1) hgot.caches hv2 hi hc0
        (by rw [ho2.view]; exact hbad) (by rw [ho2.view]; exact hgood) hE2).post ?_
      intro _ s3 h3
      exact ⟨s2, ho2, hp.grow.trans hgot.grow, hc2, hp.fresh.trans hview1 hon.fresh hon.grow, h3⟩
    refine hrescue.bind ?_
    rintro _ s3 ⟨s2, ho2, hg2, hc2, hf2, h3⟩
    obtain ⟨a, ha, har, -, -, hab, hav, -⟩ := h3.slot
    have href : 0 < (s3.icache ip).ref := by
      rw [ha, har]
      exact (hg2.caches hip).1
    have hlock := ilock_valid href (by rw [ha]; exact hab) (by rw [ha]; exact hav)
    refine wp_ok_bind hlock ?_
    rw [if_pos rfl]
    exact Or.inr ⟨rfl, c, s2, s3, hfirst, hbad, hgood, ho2, hg2, hc2, hf2, hv, h3, rfl⟩

end Trans

/-! ## From a cold machine -/

/-- No transaction is open, nothing is locked or valid in the inode cache, two slots are free,
    and the metadata of the volume is intact. -/
structure Cold (sb : Superblock) (s : State) : Prop where
  idle : Idle s
  placed : Placed sb s
  log : 7 ≤ sb.nlog
  fs : Fs sb (s.disk 1) (table (s.disk 1))
  paired : Paired sb (table (s.disk 1))
  slot : ∀ j, 0 < (s.icache j).ref → (s.icache j).dev = 1 ∧
    Live sb (table (s.disk 1)) (s.icache j).inum ∧ (s.icache j).valid = false
  uniq : ∀ i j k, Caches s.icache i k → Caches s.icache j k → i = j
  busy : ∀ j, (s.icache j).busy = false
  free : 2 ≤ (freeSlots s).card

/-- The first ditto of inode `n` that matches its checksum. -/
def firstGood (V : Nat → Block) (D : Nat → Dinode) (n : Nat) : Option Nat :=
  if (D n).child false ≠ 0 ∧ Good V D ((D n).child false) then some ((D n).child false)
  else if (D n).child true ≠ 0 ∧ Good V D ((D n).child true) then some ((D n).child true)
  else none

/-- Two files with the same contents, size and stored checksum. -/
def SameFile (V : Nat → Block) (d : Dinode) (V' : Nat → Block) (d' : Dinode) : Prop :=
  contents V d = contents V' d' ∧ d.size = d'.size ∧ d.checksum = d'.checksum

section Cold

variable {sb : Superblock} {n c : Nat} {ip : Fin 100} {s : State}

theorem Cold.still (h : Cold sb s) : Still s := ⟨h.idle.busy, h.busy, h.free⟩

theorem Cold.settled (h : Cold sb s) : Settled sb (table (s.disk 1)) s := by
  have hview := h.idle.view
  have hP := h.idle.begun
  refine ⟨h.placed, h.log, ⟨[], ⟨hP.dev, hP.n, hP.sector, hP.body, hP.dirty, hP.clean, hP.nodup,
    hP.home, hP.word, hP.room, hP.head⟩, fun _ => rfl⟩, by rw [hview]; exact h.fs,
    fun _ _ => by rw [hview], ⟨h.uniq, fun j hj => ⟨(h.slot j hj).1, (h.slot j hj).2.1⟩, ?_⟩,
    h.paired⟩
  intro j hj hv
  rw [(h.slot j hj).2.2] at hv
  cases hv

/-- On a cold machine `ilock_trans` returns. -/
theorem Cold.trans_returns (h : Cold sb s) (hip : Caches s.icache ip n) :
    ∃ r s', ilock_trans ip s = .ok r s' ∧ TransPost sb (table (s.disk 1)) n ip s r s' := by
  refine (ilock_trans_wp (E := fun _ _ => False) h.settled hip ?_ (Or.inr h.still)).returns
  intro c _ j hj hv
  rw [(h.slot j hj.1).2.2] at hv
  cases hv

/-- Nothing is valid, so a ditto passes only if it matches. -/
theorem Cold.passes (h : Cold sb s) (D : Nat → Dinode) (k : Nat) :
    Passes s D k ↔ Good (s.disk 1) D k := by
  unfold Passes
  rw [h.idle.view]
  refine ⟨?_, Or.inr⟩
  rintro (⟨j, hj, hv⟩ | hg)
  · rw [(h.slot j hj.1).2.2] at hv
    cases hv
  · exact hg

theorem child_zero {d : Dinode} : (d.child false = 0 ↔ d.child1 = 0) ∧
    (d.child true = 0 ↔ d.child2 = 0) :=
  ⟨⟨fun h => UInt16.toNat_inj.mp h, fun h => congrArg UInt16.toNat h⟩,
    ⟨fun h => UInt16.toNat_inj.mp h, fun h => congrArg UInt16.toNat h⟩⟩

/-- The ditto the search ends with. -/
theorem first_eq_firstGood {V : Nat → Block} {D : Nat → Dinode} {o : Option Nat}
    (horder : (D n).child1 = 0 → (D n).child2 = 0) (h : First (Good V D) ((D n).tries 0) o) :
    o = firstGood V D n := by
  have hz := child_zero (d := D n)
  unfold firstGood
  have htries : (D n).tries 0 = if (D n).child false = 0 then [] else
      (D n).child false :: if (D n).child true = 0 then [] else [(D n).child true] := by
    show (if (D n).child1 = 0 then [] else _) = _
    simp only [hz.1, hz.2]
    rfl
  rw [htries] at h
  by_cases h1 : (D n).child false = 0
  · rw [if_pos h1] at h
    rw [if_neg (fun e => e.1 h1), if_neg (fun e => e.1 (hz.2.mpr (horder (hz.1.mp h1))))]
    exact h.nil_eq
  · rw [if_neg h1] at h
    rcases h.cases_cons with ⟨hg, rfl⟩ | ⟨hg, h⟩
    · rw [if_pos ⟨h1, hg⟩]
    · rw [if_neg (fun e => hg e.2)]
      by_cases h2 : (D n).child true = 0
      · rw [if_pos h2] at h
        rw [if_neg (fun e => e.1 h2)]
        exact h.nil_eq
      · rw [if_neg h2] at h
        rcases h.cases_cons with ⟨hg2, rfl⟩ | ⟨hg2, h⟩
        · rw [if_pos ⟨h2, hg2⟩]
        · rw [if_neg (fun e => hg2 e.2)]
          exact h.nil_eq

theorem firstGood_none {V : Nat → Block} {D : Nat → Dinode} : firstGood V D n = none ↔
    ∀ i, (D n).child i ≠ 0 → ¬ Good V D ((D n).child i) := by
  unfold firstGood
  constructor
  · intro h i hi hg
    split at h
    · cases h
    · next h1 =>
      split at h
      · cases h
      · next h2 =>
        cases i
        · exact h1 ⟨hi, hg⟩
        · exact h2 ⟨hi, hg⟩
  · intro h
    rw [if_neg (fun e => h false e.1 e.2), if_neg (fun e => h true e.1 e.2)]

/-- A restored inode is the ditto it was restored from, on disk and in its slot. -/
theorem RescuePost.same {D : Nat → Dinode} {s1 s2 : State} (h : RescuePost sb D n c ip s1 s2)
    (hsize : (D c).size = (D n).size) (hpos : 0 < (D n).size.toNat)
    (hgood : Good (s1.disk 1) D c) :
    SameFile (s2.disk 1) (table (s2.disk 1) n) (s1.disk 1) (D c) ∧
      table (s2.disk 1) n = (D n).withSum (D c).checksum := by
  have hcon : contents (s2.disk 1) (D n) = contents (s1.disk 1) (D c) := by
    refine contents_congr hsize.symm fun o ho => ?_
    rw [h.stage.mix.bytes o ho, if_pos ho]
  have htab : table (s2.disk 1) n = (D n).withSum (D c).checksum := by
    rw [h.stage.summed hpos, hcon]
    rw [show checksumOf (contents (s1.disk 1) (D c)) = (D c).checksum from hgood]
  refine ⟨⟨?_, ?_, ?_⟩, htab⟩
  · rw [htab]
    exact hcon
  · rw [htab, hsize]
    rfl
  · rw [htab]
    rfl

/-- Recovery restores the file. From a cold machine `ilock_trans` reports corruption exactly when
    neither the inode nor any of its dittos matches its checksum, and then leaves everything as
    it was; otherwise it returns 0 with the inode locked, and an inode that did not match is now,
    in memory and on disk, its first matching ditto. -/
theorem ilock_trans_recovers (sb : Superblock) (s : State) (ip : Fin 100) (n : Nat)
    (hcold : Cold sb s) (hip : Caches s.icache ip n)
    (horder : (table (s.disk 1) n).child1 = 0 → (table (s.disk 1) n).child2 = 0) :
    ∃ r s', ilock_trans ip s = .ok r s' ∧
      (r = E_CORRUPTED ↔ ¬ Good (s.disk 1) (table (s.disk 1)) n ∧
        ∀ i, (table (s.disk 1) n).child i ≠ 0 →
          ¬ Good (s.disk 1) (table (s.disk 1)) ((table (s.disk 1) n).child i)) ∧
      (r = E_CORRUPTED → (s'.icache ip).busy = false ∧ s'.disk = s.disk) ∧
      (r ≠ E_CORRUPTED → r = 0 ∧ (s'.icache ip).busy = true) ∧
      (r ≠ E_CORRUPTED → ¬ Good (s.disk 1) (table (s.disk 1)) n →
        ∃ c, firstGood (s.disk 1) (table (s.disk 1)) n = some c ∧
          SameFile (s'.view 1) (s'.icache ip).d (s.disk 1) (table (s.disk 1) c) ∧
          SameFile (s'.disk 1) (table (s'.disk 1) n) (s.disk 1) (table (s.disk 1) c) ∧
          ∀ k, Live sb (table (s.disk 1)) k → k ≠ n → table (s'.disk 1) k = table (s.disk 1) k ∧
            contents (s'.disk 1) (table (s'.disk 1) k) =
              contents (s.disk 1) (table (s.disk 1) k)) := by
  have hsettled := hcold.settled
  have hview := hcold.idle.view
  have hlive : Live sb (table (s.disk 1)) n := hip.2 ▸ (hsettled.cache.slot ip hip.1).2
  have hlk : Lk noLocks ⟨false, s.ftable⟩ s := by
    refine ⟨hcold.busy, fun j hj => ?_, hcold.idle.busy, rfl⟩
    cases hj
  obtain ⟨r, s', hrun, hpost⟩ := hcold.trans_returns hip
  have hlocks := (ilock_trans_lk ip hlk).ok hrun
  have hunlocked : r = E_CORRUPTED → (s'.icache ip).busy = false := by
    rintro rfl
    rcases hlocks with ⟨h0, -⟩ | ⟨-, hl⟩
    · cases h0
    · exact hl.busy ip
  have hlocked : r = 0 → (s'.icache ip).busy = true := by
    rintro rfl
    rcases hlocks with ⟨-, -, hl⟩ | ⟨h0, -⟩
    · rw [hl.busy ip, Function.update_self]
    · cases h0
  have hpass : Passes s (table (s.disk 1)) = Good (s.disk 1) (table (s.disk 1)) :=
    funext fun k => propext (hcold.passes _ k)
  refine ⟨r, s', hrun, ?_⟩
  rw [TransPost, hview, hpass] at hpost
  rcases hpost with ⟨hp, h0⟩ | ⟨rfl, c, s1, s2, hfirst, hbad, hgood, ho, -, -, -, -, hres, rfl⟩
  · rcases hp.result with ⟨rfl, -, hv⟩ | ⟨-, -, hbad, o, hfirst, hr, -⟩
    · -- the inode matches
      have hgood : Good (s.disk 1) (table (s.disk 1)) n := by
        rcases hv with hv | hg
        · rw [(hcold.slot ip hip.1).2.2] at hv
          cases hv
        · rwa [hview] at hg
      refine ⟨⟨fun h => (by cases h), fun h => absurd hgood h.1⟩, fun h => (by cases h),
        fun _ => ⟨rfl, hlocked rfl⟩, fun _ hb => absurd hgood hb⟩
    · -- no ditto matches
      rw [hview] at hbad
      rw [hpass] at hfirst
      have hnone : o = none := by
        cases o with
        | none => rfl
        | some c =>
          exfalso
          rcases h0 with h0 | h0
          · have hc := (mem_tries hfirst.mem.1).choose_spec.2
            rw [h0] at hr
            have : (c : Int) = 0 := hr.symm
            omega
          · rw [h0] at hr
            have : (c : Int) = -10 := hr.symm
            omega
      subst hnone
      have hr : r = E_CORRUPTED := hr
      have hall := firstGood_none.mp (first_eq_firstGood horder hfirst).symm
      refine ⟨⟨fun _ => ⟨hbad, hall⟩, fun _ => hr⟩, fun _ => ⟨hunlocked hr, ?_⟩,
        fun h => absurd hr h, fun h => absurd hr h⟩
      rw [hp.only]
  · -- the inode was restored
    have hsome := first_eq_firstGood horder hfirst
    obtain ⟨i, hi, hc0⟩ := mem_tries hfirst.mem.1
    have hdisk1 : s1.disk = s.disk := by
      rw [ho]
    have hpair := hcold.paired n i hlive (by rw [hi]; exact hc0)
    rw [hi] at hpair
    have hpos := hsettled.size_pos hlive (i := i) (by rw [hi]; exact hc0)
      (by rw [hview]; exact hbad) (by rw [hview, hi]; exact hgood)
    obtain ⟨hsame, htab⟩ := hres.same hpair.1 hpos (by rw [hdisk1]; exact hgood)
    rw [hdisk1] at hsame
    obtain ⟨a, ha, -, -, -, -, -, hcore⟩ := hres.slot
    have hmem : SameFile (s2.view 1) (s2.icache ip).d (s.disk 1) (table (s.disk 1) c) := by
      rw [hres.idle.view, ha]
      rw [← hcore] at hsame
      exact hsame
    refine ⟨⟨fun h => (by cases h), fun h => absurd hgood ?_⟩, fun h => (by cases h),
      fun _ => ⟨rfl, hlocked rfl⟩, fun _ _ => ⟨c, hsome.symm, ?_, hsame, ?_⟩⟩
    · have := h.2 i (by rw [hi]; exact hc0)
      rwa [hi] at this
    · rw [setInode_self]
      exact hmem
    · intro k hk hne
      have hk' : table (s2.disk 1) k = table (s.disk 1) k := by
        rw [hres.stage.mix.tab k hk.2.1 hne, hdisk1]
      refine ⟨hk', ?_⟩
      show contents (s2.disk 1) (table (s2.disk 1) k) = _
      rw [hk', hres.stage.mix.other k hk hne, hdisk1]

/-- A machine just booted is cold. -/
theorem machine_cold {top : Nat} {files : List Spec} (h : SpecsOk files)
    (htop : 6 + 10 * files.length ≤ top) (hp : ∀ k < 16, ∀ i, kidsPaired files k i)
    (hn : Live imageSb (table (image top files)) n) : Cold imageSb (machine top files n) := by
  refine { idle := machine_idle top files n, placed := machine_placed top files n,
           log := by decide, fs := image_fs h htop, paired := image_paired h hp, slot := ?_,
           uniq := ?_, busy := ?_, free := machine_free top files n }
  · intro j hj
    obtain rfl := machine_slot top files n hj
    exact ⟨rfl, hn, rfl⟩
  · intro i j k hi hj
    rw [((machine_caches top files n).mp hi).1, ((machine_caches top files n).mp hj).1]
  · intro j
    show (if j = 0 then _ else _ : Inode).busy = false
    split <;> rfl

/-- A file of three bytes and its dittos; the file and the first ditto are damaged. -/
def twoDamaged : List Spec :=
  [{ type := T_FILE, child1 := 2, child2 := 3, checksum := 197121, data := [9, 2, 3] },
   { type := T_DITTO, checksum := 197121, data := [1, 9, 3] },
   { type := T_DITTO, checksum := 197121, data := [1, 2, 3] }]

/-- The second ditto is the one a damaged file is restored from. -/
theorem ilock_trans_recovers_twoDamaged : ∃ s',
    ilock_trans 0 (machine 156 twoDamaged 1) = .ok 0 s' ∧
      contents (s'.disk 1) (table (s'.disk 1) 1) = [1, 2, 3] := by
  have hok : SpecsOk twoDamaged := by decide +kernel
  have hgood : ∀ k f, twoDamaged[k]? = some f →
      (Good (image 156 twoDamaged) (table (image 156 twoDamaged)) (k + 1) ↔
        checksumOf f.data = f.checksum) := by
    intro k f hf
    have hk : k < 3 := (List.getElem?_eq_some_iff.mp hf).1
    exact good_image ⟨by omega, by omega⟩ hf (hok.1 f (List.mem_of_getElem? hf)).2.1
  have hbad1 : ¬ Good (image 156 twoDamaged) (table (image 156 twoDamaged)) 1 :=
    (hgood 0 _ rfl).not.mpr (by decide +kernel)
  have hbad2 : ¬ Good (image 156 twoDamaged) (table (image 156 twoDamaged)) 2 :=
    (hgood 1 _ rfl).not.mpr (by decide +kernel)
  have hgood3 : Good (image 156 twoDamaged) (table (image 156 twoDamaged)) 3 :=
    (hgood 2 _ rfl).mpr (by decide +kernel)
  have htab : table (image 156 twoDamaged) 1 = (dinodeAt twoDamaged 1).core :=
    table_image _ _ (by decide)
  have hc1 : (table (image 156 twoDamaged) 1).child false = 2 := by
    rw [htab]
    rfl
  have hc2 : (table (image 156 twoDamaged) 1).child true = 3 := by
    rw [htab]
    rfl
  have hlive : Live imageSb (table (image 156 twoDamaged)) 1 :=
    ⟨by decide, by decide, by rw [htab]; decide⟩
  have hfirst : firstGood (image 156 twoDamaged) (table (image 156 twoDamaged)) 1 = some 3 := by
    unfold firstGood
    rw [hc1, hc2, if_neg (fun e => hbad2 e.2), if_pos ⟨by decide, hgood3⟩]
  have hcold := machine_cold hok (by decide) (by decide +kernel) hlive
  obtain ⟨r, s', hrun, hiff, -, hok', hsame⟩ := ilock_trans_recovers imageSb _ 0 1 hcold
    ((machine_caches _ _ _).mpr ⟨rfl, rfl⟩) fun h0 => by
      have h0 : (table (image 156 twoDamaged) 1).child1 = 0 := h0
      rw [htab] at h0
      exact absurd h0 (by decide)
  have hr : r ≠ E_CORRUPTED := by
    intro h
    have hnone := (hiff.mp h).2 true
    change (table (image 156 twoDamaged) 1).child true ≠ 0 → ¬ Good (image 156 twoDamaged)
      (table (image 156 twoDamaged)) ((table (image 156 twoDamaged) 1).child true) at hnone
    rw [hc2] at hnone
    exact hnone (by decide) hgood3
  obtain ⟨c, hc, -, hdisk, -⟩ := hsame hr hbad1
  obtain rfl : c = 3 := Option.some.inj (hc.symm.trans hfirst)
  have hdata : contents (image 156 twoDamaged) (table (image 156 twoDamaged) 3) = [1, 2, 3] :=
    contents_image (f := { type := T_DITTO, checksum := 197121, data := [1, 2, 3] })
      ⟨by decide, by decide⟩ rfl (by decide)
  refine ⟨s', ?_, hdisk.1.trans hdata⟩
  rw [← (hok' hr).1]
  exact hrun

end Cold

end Zv6
