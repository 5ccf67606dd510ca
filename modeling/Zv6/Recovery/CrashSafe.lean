/-
  Stopping the machine during recovery.

  `irescue` commits after every 2048 bytes, and `iupdate` has by then stored the checksum of
  the half-restored file. A stop therefore leaves a stage (`Stage`): nothing restored, and the
  file still fails; or a whole number of rounds, and the file matches its new checksum,
  whatever it holds behind the restored bytes. So recovery survives every stop exactly when
  the damage lies within the first round (`rescue_crash_safe_iff`).
-/
import Zv6.Recovery.Restore

namespace Zv6

open Lib

/-- Wherever the machine stops between `s` and `s'`, log recovery succeeds and inode `n` then
    either has the contents inode `c` had or fails its checksum. -/
def CrashSafe (s s' : State) (n c : Nat) : Prop :=
  ∀ j d, Recovering s (stopped s s' j) d → ∃ s2, recover_from_log (s.reboot d) = .ok () s2 ∧
    (contents (s2.disk 1) (table (s2.disk 1) n) = contents (s.disk 1) (table (s.disk 1) c) ∨
      ¬ Good (s2.disk 1) (table (s2.disk 1)) n)

section Stages

variable {sb : Superblock} {V0 T : Nat → Block} {D : Nat → Dinode} {n c m : Nat}

/-- Before the first commit the file fails as it did. -/
theorem Stage.bad (h : Stage sb V0 D n c 0 T) (hbad : ¬ Good V0 D n) : ¬ Good T (table T) n := by
  have hcon : contents T (D n) = contents V0 (D n) := by
    refine contents_congr rfl fun o ho => ?_
    rw [h.mix.bytes o ho, if_neg (Nat.not_lt_zero o)]
  unfold Good
  rw [h.untouched rfl, hcon]
  exact hbad

/-- After a commit the file matches, whatever it holds. -/
theorem Stage.good (h : Stage sb V0 D n c m T) (hm : 0 < m) : Good T (table T) n := by
  unfold Good
  rw [h.summed hm]
  rfl

/-- The bytes of the file at a stage. -/
theorem Stage.contents_eq_iff (h : Stage sb V0 D n c m T) (hm : 0 < m)
    (hsize : (D c).size = (D n).size) :
    contents T (table T n) = contents V0 (D c) ↔
      ∀ o, m ≤ o → o < (D n).size.toNat → byteAt V0 (D n) o = byteAt V0 (D c) o := by
  have hcon : contents T (table T n) = contents T (D n) := by
    rw [h.summed hm]
    rfl
  rw [hcon]
  constructor
  · intro heq o hlo ho
    have hb := byteAt_of_contents heq ho
    rw [h.mix.bytes o ho, if_neg (by omega)] at hb
    exact hb
  · intro hall
    refine contents_congr hsize.symm fun o ho => ?_
    rw [h.mix.bytes o ho]
    split
    · rfl
    · exact hall o (by omega) ho

end Stages

section Stops

variable {sb : Superblock} {n c : Nat} {ip : Fin 100} {s s' : State}

/-- On a cold machine a damaged inode is restored stage by stage. -/
theorem Cold.rescue (h : Cold sb s) (hip : Caches s.icache ip n)
    (horder : (table (s.disk 1) n).child1 = 0 → (table (s.disk 1) n).child2 = 0)
    (hbad : ¬ Good (s.disk 1) (table (s.disk 1)) n)
    (hfirst : firstGood (s.disk 1) (table (s.disk 1)) n = some c) :
    ∃ s', ilock_trans ip s = .ok 0 s' ∧ Way sb (s.disk 1) (table (s.disk 1)) n c s
      (table (s.disk 1) n).size.toNat s' := by
  have hview := h.idle.view
  have hpass : Passes s (table (s.disk 1)) = Good (s.disk 1) (table (s.disk 1)) :=
    funext fun k => propext (h.passes _ k)
  obtain ⟨r, s', hrun, hpost⟩ := h.trans_returns hip
  rw [TransPost, hview, hpass] at hpost
  rcases hpost with ⟨hp, h0⟩ | ⟨rfl, c', s1, s2, hfirst', -, -, ho, -, -, -, -, hres, rfl⟩
  · exfalso
    rcases hp.result with ⟨-, -, hv⟩ | ⟨-, -, -, o, hfirst', hr, -⟩
    · rcases hv with hv | hg
      · rw [(h.slot ip hip.1).2.2] at hv
        cases hv
      · rw [hview] at hg
        exact hbad hg
    · rw [hpass] at hfirst'
      have ho : o = some c := (first_eq_firstGood horder hfirst').trans hfirst
      subst ho
      have hc := (mem_tries hfirst'.mem.1).choose_spec.2
      have hr : r = (c : Int) := hr
      rcases h0 with h0 | h0
      · omega
      · have : (c : Int) = -10 := hr.symm.trans h0
        omega
  · have hcc : some c' = some c := (first_eq_firstGood horder hfirst').trans hfirst
    obtain rfl := Option.some.inj hcc
    refine ⟨_, hrun, ?_⟩
    have hway := hres.way
    have hd : s1.disk = s.disk := by rw [ho]
    have ht : s1.trace = s.trace := by rw [ho]
    have hl : s1.log = s.log := by rw [ho]
    unfold Way at hway ⊢
    rw [hd, ht, hl] at hway
    exact hway

theorem Way.stopped {V0 : Nat → Block} {D : Nat → Dinode} {m : Nat} (h : Way sb V0 D n c s m s') :
    (∀ j, Staged sb V0 D n c s.log (stopped s s' j)) ∧
      ∀ m', m' % 2048 = 0 → m' ≤ m → ∃ j T, Clean s.log T (stopped s s' j) ∧
        Stage sb V0 D n c m' T := by
  obtain ⟨t, htrace, -, halong, hpass⟩ := h
  have hstop : ∀ j, Zv6.stopped s s' j = replay s.disk (t.take j) := by
    intro j
    unfold Zv6.stopped
    rw [htrace, List.drop_left]
  constructor
  · intro j
    rw [hstop]
    exact halong j
  · intro m' hm' hle
    obtain ⟨j, T, hclean, hstage⟩ := hpass m' hm' hle
    exact ⟨j, T, by rw [hstop]; exact hclean, hstage⟩

/-- Log recovery ends at the stage the disk leads to. -/
theorem Cold.recovers (h : Cold sb s) (hlive : Live sb (table (s.disk 1)) n) {m : Nat}
    {P : List (Nat × Block)} {T : Nat → Block} {d : Nat → Nat → Block}
    (hrec : Recoverable s.log P T d) (hstage : Stage sb (s.disk 1) (table (s.disk 1)) n c m T) :
    ∃ s2, recover_from_log (s.reboot d) = .ok () s2 ∧
      Stage sb (s.disk 1) (table (s.disk 1)) n c m (s2.disk 1) := by
  obtain ⟨s2, hrun, -, -, hclean⟩ := recover_along h.idle.dev hrec
  refine ⟨s2, hrun, hstage.same hlive fun b hb => ?_⟩
  exact hclean.home b (h.placed.home hb)

/-- The ditto an inode is restored from has its size, and the inode is not empty. -/
theorem Cold.firstGood_size (h : Cold sb s) (hlive : Live sb (table (s.disk 1)) n)
    (hbad : ¬ Good (s.disk 1) (table (s.disk 1)) n)
    (hfirst : firstGood (s.disk 1) (table (s.disk 1)) n = some c) :
    (table (s.disk 1) c).size = (table (s.disk 1) n).size ∧
      0 < (table (s.disk 1) n).size.toNat := by
  obtain ⟨i, hi, hc, hgood⟩ : ∃ i, (table (s.disk 1) n).child i = c ∧ c ≠ 0 ∧
      Good (s.disk 1) (table (s.disk 1)) c := by
    unfold firstGood at hfirst
    split at hfirst
    · next h1 =>
      obtain rfl := Option.some.inj hfirst
      exact ⟨false, rfl, h1⟩
    · split at hfirst
      · next h2 =>
        obtain rfl := Option.some.inj hfirst
        exact ⟨true, rfl, h2⟩
      · cases hfirst
  subst hi
  refine ⟨(h.paired n i hlive hc).1, h.settled.size_pos hlive hc ?_ ?_⟩
  · rw [h.idle.view]
    exact hbad
  · rw [h.idle.view]
    exact hgood

/-- A file of more than one round that is stopped after the first: it matches, with the end of
    the damaged file behind the beginning of the ditto. -/
theorem Cold.mixture (h : Cold sb s) (hlive : Live sb (table (s.disk 1)) n)
    (hway : Way sb (s.disk 1) (table (s.disk 1)) n c s (table (s.disk 1) n).size.toNat s')
    (hlong : 2048 ≤ (table (s.disk 1) n).size.toNat) :
    ∃ j s2, recover_from_log (s.reboot (stopped s s' j)) = .ok () s2 ∧
      Stage sb (s.disk 1) (table (s.disk 1)) n c 2048 (s2.disk 1) := by
  obtain ⟨j, T, hclean, hstage⟩ := hway.stopped.2 2048 rfl hlong
  obtain ⟨s2, hrun, hstage2⟩ := h.recovers (P := []) hlive (Or.inl hclean) hstage
  exact ⟨j, s2, hrun, hstage2⟩

/-- Recovery survives a stop at any point exactly when the damaged file and the ditto it is
    restored from agree from byte 2048 on. -/
theorem rescue_crash_safe_iff (sb : Superblock) (s : State) (ip : Fin 100) (n c : Nat)
    (hcold : Cold sb s) (hip : Caches s.icache ip n)
    (horder : (table (s.disk 1) n).child1 = 0 → (table (s.disk 1) n).child2 = 0)
    (hbad : ¬ Good (s.disk 1) (table (s.disk 1)) n)
    (hfirst : firstGood (s.disk 1) (table (s.disk 1)) n = some c) :
    ∃ s', ilock_trans ip s = .ok 0 s' ∧ (CrashSafe s s' n c ↔
      (contents (s.disk 1) (table (s.disk 1) n)).drop 2048 =
        (contents (s.disk 1) (table (s.disk 1) c)).drop 2048) := by
  have hlive : Live sb (table (s.disk 1)) n := hip.2 ▸ (hcold.slot ip hip.1).2.1
  obtain ⟨hsize, hpos⟩ := hcold.firstGood_size hlive hbad hfirst
  obtain ⟨s', hrun, hway⟩ := hcold.rescue hip horder hbad hfirst
  refine ⟨s', hrun, ?_⟩
  rw [drop_contents_iff hsize.symm]
  constructor
  · intro hsafe o hlo ho
    obtain ⟨j, s2, hrec, hstage⟩ := hcold.mixture hlive hway (by omega)
    obtain ⟨s2', hrec', hs⟩ := hsafe j _ .start
    rw [hrec] at hrec'
    cases hrec'
    rcases hs with hsame | hmis
    · exact (hstage.contents_eq_iff (by decide) hsize).mp hsame o hlo ho
    · exact absurd (hstage.good (by decide)) hmis
  · intro hagree j d hd
    obtain ⟨P, T, m, hrec, hstage, hm, hle⟩ := hway.stopped.1 j
    obtain ⟨s2, hrun2, hstage2⟩ := hcold.recovers hlive (hd.recoverable hcold.idle.dev hrec) hstage
    refine ⟨s2, hrun2, ?_⟩
    rcases Nat.eq_zero_or_pos m with rfl | hm0
    · exact Or.inr (hstage2.bad hbad)
    · refine Or.inl ((hstage2.contents_eq_iff hm0 hsize).mpr fun o hlo ho => ?_)
      -- `o` lies behind the first round: a last round ends at the end of the file
      exact hagree o (by omega) ho

/-- A file of five blocks, damaged in the first and in the last, and its ditto. -/
def endDamaged : List Spec :=
  [{ type := T_FILE, child1 := 2, checksum := 0, data := 9 :: (List.replicate 2558 7 ++ [9]) },
   { type := T_DITTO, checksum := 0, data := List.replicate 2560 7 }]

/-- The machine of `endDamaged` is cold, its file fails and is restored from the ditto. -/
theorem endDamaged_cold : Cold imageSb (machine 156 endDamaged 1) ∧
    ((table (image 156 endDamaged) 1).child1 = 0 → (table (image 156 endDamaged) 1).child2 = 0) ∧
    ¬ Good (image 156 endDamaged) (table (image 156 endDamaged)) 1 ∧
    firstGood (image 156 endDamaged) (table (image 156 endDamaged)) 1 = some 2 := by
  have hok : SpecsOk endDamaged := by decide +kernel
  have hbad : ¬ Good (image 156 endDamaged) (table (image 156 endDamaged)) 1 :=
    (good_image ⟨by decide, by decide⟩ rfl (by decide +kernel)).not.mpr (by decide +kernel)
  have hgood : Good (image 156 endDamaged) (table (image 156 endDamaged)) 2 :=
    (good_image ⟨by decide, by decide⟩ rfl (by decide +kernel)).mpr (by decide +kernel)
  have htab : table (image 156 endDamaged) 1 = (dinodeAt endDamaged 1).core :=
    table_image _ _ (by decide)
  have hchild : (table (image 156 endDamaged) 1).child false = 2 := by
    rw [htab]
    rfl
  refine ⟨machine_cold hok (by decide) (by decide +kernel) ?_, ?_, hbad, ?_⟩
  · exact ⟨by decide, by decide, by rw [htab]; decide⟩
  · rw [htab]
    intro
    rfl
  · unfold firstGood
    rw [hchild, if_pos ⟨by decide, hgood⟩]

/-- The end of the file differs from that of the ditto. -/
theorem endDamaged_end :
    (contents (image 156 endDamaged) (table (image 156 endDamaged) 1)).drop 2048 ≠
      (contents (image 156 endDamaged) (table (image 156 endDamaged) 2)).drop 2048 := by
  rw [contents_image ⟨by decide, by decide⟩ rfl (by decide +kernel),
    contents_image ⟨by decide, by decide⟩ rfl (by decide +kernel)]
  decide +kernel

/-- Restoring `endDamaged` is not safe. -/
theorem rescue_crash_safe_iff_endDamaged : ∃ s', ilock_trans 0 (machine 156 endDamaged 1) =
    .ok 0 s' ∧ ¬ CrashSafe (machine 156 endDamaged 1) s' 1 2 := by
  obtain ⟨hcold, horder, hbad, hfirst⟩ := endDamaged_cold
  obtain ⟨s', hrun, hiff⟩ := rescue_crash_safe_iff imageSb _ 0 1 2 hcold
    ((machine_caches _ _ _).mpr ⟨rfl, rfl⟩) horder hbad hfirst
  refine ⟨s', hrun, fun hsafe => ?_⟩
  exact endDamaged_end (hiff.mp hsafe)

/-- A stop after the first of the two commits: the file on disk matches its checksum and is
    neither the damaged file nor the ditto. -/
theorem endDamaged_stopped :
    ¬ Good (image 156 endDamaged) (table (image 156 endDamaged)) 1 ∧
    firstGood (image 156 endDamaged) (table (image 156 endDamaged)) 1 = some 2 ∧ ∃ s' j s2,
    ilock_trans 0 (machine 156 endDamaged 1) = .ok 0 s' ∧
    recover_from_log ((machine 156 endDamaged 1).reboot (stopped (machine 156 endDamaged 1) s' j)) =
      .ok () s2 ∧
    Good (s2.disk 1) (table (s2.disk 1)) 1 ∧
    contents (s2.disk 1) (table (s2.disk 1) 1) ≠
      contents (image 156 endDamaged) (table (image 156 endDamaged) 2) := by
  obtain ⟨hcold, horder, hbad, hfirst⟩ := endDamaged_cold
  have hip : Caches (machine 156 endDamaged 1).icache 0 1 := (machine_caches _ _ _).mpr ⟨rfl, rfl⟩
  have hlive := (hcold.slot 0 hip.1).2.1
  obtain ⟨s', hrun, hway⟩ := hcold.rescue hip horder hbad hfirst
  obtain ⟨hsize, -⟩ := hcold.firstGood_size hlive hbad hfirst
  obtain ⟨j, s2, hrec, hstage⟩ := hcold.mixture hlive hway (by
    show 2048 ≤ (table (image 156 endDamaged) 1).size.toNat
    rw [← length_contents (image 156 endDamaged),
      contents_image ⟨by decide, by decide⟩ rfl (by decide +kernel)]
    decide +kernel)
  refine ⟨hbad, hfirst, s', j, s2, hrun, hrec, hstage.good (by decide), fun hsame =>
    endDamaged_end ?_⟩
  exact (drop_contents_iff hsize.symm _).mpr ((hstage.contents_eq_iff (by decide) hsize).mp hsame)

end Stops

end Zv6
