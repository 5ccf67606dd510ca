/-
  `irescue`: a ditto is copied over its inode in transactions of at most 2048 bytes.

  `Stage m T`: the sectors `T` hold the inode with its first `m` bytes restored and, once
  anything is restored, the checksum of that mixture. One round of the loop is one
  transaction and goes from a stage to the next (`irescue_round`); `Restored` is what holds
  between rounds, and `Way` says which disks a stop on the way can leave.
-/
import Zv6.Recovery.Copy

namespace Zv6

open Lib

/-- Sectors with `m` bytes of inode `n` restored from inode `c`, between transactions. -/
structure Stage (sb : Superblock) (V0 : Nat → Block) (D : Nat → Dinode) (n c m : Nat)
    (T : Nat → Block) : Prop where
  mix : Mix sb V0 D n c m T
  untouched : m = 0 → table T n = D n
  summed : 0 < m → table T n = (D n).withSum (checksumOf (contents T (D n)))

/-- A disk from which log recovery leads to a stage with a whole number of rounds done. -/
def Staged (sb : Superblock) (V0 : Nat → Block) (D : Nat → Dinode) (n c : Nat) (L : Log)
    (d : Nat → Nat → Block) : Prop :=
  ∃ P T m, Recoverable L P T d ∧ Stage sb V0 D n c m T ∧
    (m % 2048 = 0 ∨ m = (D n).size.toNat) ∧ m ≤ (D n).size.toNat

/-- The sector writes from `s0` to `s`: on the way the disk can always be recovered to a stage,
    and every stage up to `m` is passed. -/
def Way (sb : Superblock) (V0 : Nat → Block) (D : Nat → Dinode) (n c : Nat) (s0 : State) (m : Nat)
    (s : State) : Prop :=
  ∃ t, s.trace = s0.trace ++ t ∧ s.disk = replay s0.disk t ∧
    Along writeSector (Staged sb V0 D n c s0.log) s0.disk t ∧
    ∀ m', m' % 2048 = 0 → m' ≤ m → ∃ j T, Clean s0.log T (replay s0.disk (t.take j)) ∧
      Stage sb V0 D n c m' T

/-- Between two rounds that began in `s0`. -/
structure Restored (sb : Superblock) (V0 : Nat → Block) (D : Nat → Dinode) (n c : Nat)
    (ip r : Fin 100) (s0 : State) (m : Nat) (s : State) : Prop where
  idle : Idle s
  placed : Placed sb s
  stage : Stage sb V0 D n c m (s.disk 1)
  slots : Slots sb D n c ip r s
  slot : ∃ σ, s.icache ip = (s0.icache ip).summed σ
  core : (s.icache ip).d.core = table (s.disk 1) n
  others : ∀ x, x ≠ ip → s.icache x = s0.icache x
  outside : Outside s0 s
  log : s.log.start = s0.log.start ∧ s.log.size = s0.log.size
  way : Way sb V0 D n c s0 m s

section Stage

variable {sb : Superblock} {V0 T T' : Nat → Block} {D : Nat → Dinode} {n c m : Nat}

/-- A stage is a matter of the sectors below the log. -/
theorem Stage.same (h : Stage sb V0 D n c m T) (hn : Live sb D n) (hT : SameAll sb T T') :
    Stage sb V0 D n c m T' := by
  have hcon := (h.mix.fs.frame_log hT).2 n hn
  have htab : table T' n = table T n := by
    have := IBLOCK_lt hn.2.1
    have := h.mix.fs.area
    unfold table
    rw [hT _ (by omega)]
  refine ⟨h.mix.log hn hT, ?_, ?_⟩
  · intro h0
    rw [htab]
    exact h.untouched h0
  · intro hpos
    rw [htab, hcon]
    exact h.summed hpos

end Stage

section Round

variable {sb : Superblock} {V0 : Nat → Block} {D : Nat → Dinode} {n c : Nat} {ip r : Fin 100}
  {s s0 : State}

/-- The transaction of one round with the checksum of the inode set. -/
def State.entered (s : State) (ip : Fin 100) (w : UInt32) : State :=
  s.begun.setInode ip ((s.icache ip).summed w)

/-- The first assignments of `iduplicate`. -/
theorem iduplicate_entered (hs : Slots sb D n c ip r s) {off k : Nat} {s' : State}
    (hrun : iduplicateLoop r ip (k + off) (k / 512 + 2) off (s.entered ip (D c).checksum) =
      .ok () s') :
    iduplicate r ip off k s.begun = .ok () s' := by
  obtain ⟨-, -, σ, hd⟩ := hs.ip
  obtain ⟨-, -, hr⟩ := hs.r
  have hsum : (s.icache r).d.checksum = (D c).checksum := by
    rw [← hr]
    rfl
  have hsize : (s.icache r).d.size = (s.icache ip).d.size := by
    show (s.icache r).d.core.size = (s.icache ip).d.core.size
    rw [hr, hd, hs.size]
    rfl
  have hset : updInode ip (fun j => { j with d := { j.d with
      checksum := (s.icache r).d.checksum, size := (s.icache r).d.size } })
      s.begun = .ok () (s.entered ip (D c).checksum) := by
    rw [hsum, hsize]
    rfl
  unfold iduplicate
  rw [Exec.bind_ok (inode_apply _ _)]
  refine (Exec.bind_ok hset _).trans hrun

theorem Slots.entered (hs : Slots sb D n c ip r s) (w : UInt32) :
    Slots sb D n c ip r (s.entered ip w) := by
  have hself : (s.entered ip w).icache ip = (s.icache ip).summed w := setInode_self ..
  have hr : (s.entered ip w).icache r = s.icache r := setInode_ne _ _ hs.slots
  obtain ⟨hdev, hinum, σ, hd⟩ := hs.ip
  refine ⟨hs.live, hs.ditto, hs.ne, hs.type, hs.dittoType, hs.size, hs.slots, ?_, ?_⟩
  · rw [hself]
    refine ⟨hdev, hinum, w, ?_⟩
    show ((s.icache ip).d.core).withSum w = _
    rw [hd]
    rfl
  · rw [hr]
    exact hs.r

/-- The copy of a round starts. -/
theorem Restored.copying {m : Nat} (h : Restored sb V0 D n c ip r s0 m s) (w : UInt32) :
    Copying sb V0 D n c ip (s.entered ip w) m 0 (s.entered ip w) where
  mix := by
    show Mix sb V0 D n c m (s.view 1)
    rw [h.idle.view]
    exact h.stage.mix
  placed := ⟨h.placed.start, h.placed.size⟩
  busy := rfl
  slot := ⟨((s.entered ip w).icache ip).d.checksum, rfl, fun h0 => absurd h0 (Nat.lt_irrefl _)⟩
  others := fun _ _ => rfl
  outside := rfl
  pending := by
    have hP := h.idle.begun
    refine ⟨[], ⟨hP.dev, hP.n, hP.sector, hP.body, hP.dirty, hP.clean, hP.nodup, hP.home, hP.word,
      hP.room, hP.head⟩, by simp, fun h0 => absurd h0 (Nat.lt_irrefl _), fun _ => rfl⟩
  logging := ⟨0, Logging.refl _⟩

/-- The sector writes of a transaction with a commit at its end. -/
theorem commit_writes {sm s' : State} {k : Nat} {P : List (Nat × Block)}
    (hlogging : Logging s sm k) (hP : Pending sm P) (hPe : P ≠ [])
    (hcommit : commit_trans sm = .ok () s') :
    ∃ t, s'.trace = s.trace ++ t ∧ s'.disk = replay s.disk t ∧
      ∀ j, stopped s s' j = replay s.disk (t.take j) := by
  obtain ⟨t, -, htrace, hdisk, -⟩ := hlogging.trace
  obtain ⟨s1, hrun, htrace', hdisk'⟩ := commit_trans_trace hP hPe
  rw [hrun] at hcommit
  cases hcommit
  have hall : s'.trace = s.trace ++
      (t ++ (1, sm.log.start, commitHead sm) :: installWrites sm P) := by
    rw [htrace', htrace, List.append_assoc]
  refine ⟨_, hall, ?_, ?_⟩
  · rw [hdisk', hdisk, replay_append]
  · intro j
    unfold stopped
    rw [hall, List.drop_left]

/-- More sector writes, to a later stage. -/
theorem Way.extend {m m1 : Nat} {s' : State} {t : List (Nat × Nat × Block)}
    (h : Way sb V0 D n c s0 m s) (htrace : s'.trace = s.trace ++ t)
    (hdisk : s'.disk = replay s.disk t)
    (hway : Along writeSector (Staged sb V0 D n c s0.log) s.disk t)
    (hnew : ∀ m', m' % 2048 = 0 → m < m' → m' ≤ m1 →
      ∃ T, Clean s0.log T s'.disk ∧ Stage sb V0 D n c m' T) : Way sb V0 D n c s0 m1 s' := by
  obtain ⟨t0, htrace0, hdisk0, hway0, hpass⟩ := h
  have hs : t0.foldl writeSector s0.disk = s.disk := hdisk0.symm
  refine ⟨t0 ++ t, ?_, ?_, along_append.mpr ⟨hway0, ?_⟩, ?_⟩
  · rw [htrace, ← List.append_assoc, ← htrace0]
  · rw [hdisk, replay_append, ← hdisk0]
  · rw [hs]
    exact hway
  · intro m' hm' hle
    by_cases hold : m' ≤ m
    · obtain ⟨j, T, hclean, hstage⟩ := hpass m' hm' hold
      refine ⟨min j t0.length, T, ?_, hstage⟩
      rw [List.take_append_of_le_length (Nat.min_le_right _ _), ← List.take_take,
        List.take_length]
      exact hclean
    · obtain ⟨T, hclean, hstage⟩ := hnew m' hm' (by omega) hle
      refine ⟨(t0 ++ t).length, T, ?_, hstage⟩
      rw [List.take_length, replay_append, ← hdisk0, ← hdisk]
      exact hclean

/-- The round of `irescue` from byte `m` on is one transaction, to the next stage. -/
theorem irescue_round {m : Nat} (h : Restored sb V0 D n c ip r s0 m s) (hlog : 7 ≤ sb.nlog)
    (hm : m % 2048 = 0) (hlt : m < (D n).size.toNat) :
    ∃ s1 s', begin_trans s = .ok () s.begun ∧
      iduplicate r ip m (min ((D n).size.toNat - m) 2048) s.begun = .ok () s1 ∧
      commit_trans s1 = .ok () s' ∧
      Restored sb V0 D n c ip r s0 (m + min ((D n).size.toNat - m) 2048) s' := by
  have hs := h.slots
  have hview := h.idle.view
  have hfs := h.stage.mix.fs
  have hmax := (hfs.mapped n hs.live).size_le
  obtain ⟨s1, i, hrun, hcopy, -, hi⟩ := iduplicateLoop_copy (hs.entered (D c).checksum) hlog m
    (min ((D n).size.toNat - m) 2048 + m) (by omega) (by omega) hmax (by omega)
    (min ((D n).size.toNat - m) 2048 / 512 + 1) m 0 _ (h.copying (D c).checksum) (Nat.le_refl _)
    (by omega) (by omega) (by omega)
  have hi : 0 < i := hi (by omega)
  obtain ⟨P, hP, -, hPin, -⟩ := hcopy.pending
  have hPe : P ≠ [] := by
    rintro rfl
    exact absurd (hPin hi) (by simp)
  obtain ⟨k, hlogging⟩ := hcopy.logging
  obtain ⟨s', hcommit, hidle', hdisk', hstart', hsize', hhome⟩ := commit_trans_view hP
  -- the stage reached, in the buffer cache and on disk
  obtain ⟨σ, hslot, hsum⟩ := hcopy.slot
  obtain ⟨htab, hσ⟩ := hsum hi
  have hself : (s.entered ip (D c).checksum).icache ip = (s.icache ip).summed (D c).checksum :=
    setInode_self ..
  have hslot1 : s1.icache ip = (s.icache ip).summed σ := by
    rw [hslot, hself]
    rfl
  obtain ⟨hdev, hinum, σ0, hd⟩ := hs.ip
  have hcore : (s1.icache ip).d.core = (D n).withSum σ := by
    rw [hslot1]
    show ((s.icache ip).d.core).withSum σ = _
    rw [hd]
    rfl
  have hstage1 : Stage sb V0 D n c (min ((D n).size.toNat - m) 2048 + m) (s1.view 1) := by
    refine ⟨hcopy.mix, fun h0 => by omega, fun _ => ?_⟩
    rw [htab, hcore, hσ]
  have hsame : SameAll sb (s1.view 1) (s'.disk 1) := fun x hx => hhome x (hcopy.placed.home hx)
  have hstage := hstage1.same hs.live hsame
  -- the disks on the way
  obtain ⟨t, htrace, hdisk, hstop⟩ := commit_writes hlogging hP hPe hcommit
  have hway : Along writeSector (Staged sb V0 D n c s0.log) s.disk t := by
    intro j
    have hrec := stopped_recoverable hlogging h.idle.head hP hcommit j
    rw [hstop j] at hrec
    have hrec' := hrec.congr (L := s0.log) h.log.1 h.log.2
    by_cases hk : k < j
    · rw [if_pos hk, ← hP.view] at hrec'
      exact ⟨P, _, _, hrec', hstage1, by omega, by omega⟩
    · rw [if_neg hk] at hrec'
      exact ⟨P, _, m, hrec', h.stage, Or.inl hm, by omega⟩
  obtain ⟨σs, hs0⟩ := h.slot
  have hic : s'.icache = s1.icache := hdisk'.icache
  have hother : ∀ x, x ≠ ip → s'.icache x = s.icache x := by
    intro x hx
    rw [hic, hcopy.others x hx]
    exact setInode_ne _ _ hx
  refine ⟨s1, s', begin_trans_apply h.idle.busy, iduplicate_entered hs hrun, hcommit, ?_⟩
  rw [Nat.add_comm m]
  refine { idle := hidle', placed := ⟨hstart'.trans hcopy.placed.start,
             hsize'.trans hcopy.placed.size⟩, stage := hstage, slots := ?_, slot := ⟨σ, ?_⟩,
           core := ?_, others := ?_, outside := ?_, log := ?_, way := ?_ }
  · refine ⟨hs.live, hs.ditto, hs.ne, hs.type, hs.dittoType, hs.size, hs.slots, ?_, ?_⟩
    · rw [hic, hslot1]
      exact ⟨hdev, hinum, σ, by rw [← hcore, hslot1]⟩
    · rw [hother r hs.slots]
      exact hs.r
  · rw [hic, hslot1, hs0]
    rfl
  · rw [hic, hcore, hstage.summed (by omega), hσ,
      ((hcopy.mix.fs.frame_log hsame).2 n hs.live)]
  · intro x hx
    rw [hother x hx]
    exact h.others x hx
  · have h1 : Outside s (s.entered ip (D c).checksum) := rfl
    have h3 : Outside s1 s' := by
      unfold Outside
      rw [hdisk']
    exact ((h.outside.trans h1).trans hcopy.outside).trans h3
  · refine ⟨hstart'.trans ?_, hsize'.trans ?_⟩
    · exact hlogging.start.trans h.log.1
    · exact hlogging.size.trans h.log.2
  · refine h.way.extend htrace hdisk hway ?_
    intro m' hm' hlo hhi
    obtain rfl : m' = min ((D n).size.toNat - m) 2048 + m := by omega
    refine ⟨s'.disk 1, ⟨?_, fun _ _ => rfl⟩, hstage⟩
    have hh := hidle'.head
    rw [hstart', hlogging.start] at hh
    rw [← h.log.1]
    exact hh

/-- The loop of `irescue` restores the whole file. -/
theorem irescueLoop_restores (hlog : 7 ≤ sb.nlog) (fuel : Nat) :
    ∀ (m : Nat) (s : State), Restored sb V0 D n c ip r s0 m s →
    (m % 2048 = 0 ∨ m = (D n).size.toNat) → m ≤ (D n).size.toNat → (D n).size.toNat - m ≤ fuel →
    ∃ s', irescueLoop ip r fuel m ((D n).size.toNat - m) s = .ok () s' ∧
      Restored sb V0 D n c ip r s0 (D n).size.toNat s' := by
  induction fuel with
  | zero =>
    intro m s h _ hle hfuel
    obtain rfl : m = (D n).size.toNat := by omega
    exact ⟨s, rfl, h⟩
  | succ fuel ih =>
    intro m s h hm hle hfuel
    by_cases hend : m = (D n).size.toNat
    · subst hend
      refine ⟨s, ?_, h⟩
      unfold irescueLoop
      rw [if_pos (by omega)]
      rfl
    · obtain ⟨s1, s2, hbegin, hdup, hcommit, h2⟩ :=
        irescue_round h hlog (by omega) (by omega)
      obtain ⟨s', hrun, h'⟩ := ih _ s2 h2 (by omega) (by omega) (by omega)
      refine ⟨s', ?_, h'⟩
      have hrest : (D n).size.toNat - m - min ((D n).size.toNat - m) 2048 =
          (D n).size.toNat - (m + min ((D n).size.toNat - m) 2048) := by omega
      unfold irescueLoop
      rw [if_neg (by omega), Exec.bind_ok hbegin, Exec.bind_ok hdup, Exec.bind_ok hcommit, hrest,
        hrun]

end Round

/-! ## The whole call -/

/-- What `irescue` needs: a volume between transactions, the slot of the inode, and a slot
    that holds its ditto. -/
structure Rescuable (sb : Superblock) (D : Nat → Dinode) (n c : Nat) (ip r : Fin 100) (s : State) :
    Prop where
  idle : Idle s
  placed : Placed sb s
  log : 7 ≤ sb.nlog
  fs : Fs sb (s.disk 1) D
  cache : Cache sb D s.icache
  slot : Caches s.icache ip n
  ditto : Caches s.icache r c
  valid : (s.icache r).valid = true
  onDisk : table (s.disk 1) n = D n
  ne : c ≠ n
  type : (D n).type ≠ T_DEV ∧ (D n).type ≠ T_DITTO
  dittoType : (D c).type ≠ T_DEV
  size : (D c).size = (D n).size

/-- What `irescue` did. -/
structure RescuePost (sb : Superblock) (D : Nat → Dinode) (n c : Nat) (ip : Fin 100)
    (s s' : State) : Prop where
  idle : Idle s'
  placed : Placed sb s'
  stage : Stage sb (s.disk 1) D n c (D n).size.toNat (s'.disk 1)
  slot : ∃ i : Inode, s'.icache ip = i ∧ i.ref = (s.icache ip).ref ∧ i.dev = (s.icache ip).dev ∧
    i.inum = (s.icache ip).inum ∧ i.busy = false ∧ i.valid = true ∧
    i.d.core = table (s'.disk 1) n
  others : ∀ x, x ≠ ip → s'.icache x = s.icache x
  outside : Outside s s'
  log : s'.log.start = s.log.start ∧ s'.log.size = s.log.size
  way : Way sb (s.disk 1) D n c s (D n).size.toNat s'

section Rescue

variable {sb : Superblock} {D : Nat → Dinode} {n c : Nat} {ip r : Fin 100} {s : State}

/-- Both slots are locked, the inode is loaded, and nothing else differs from `s`. -/
structure BothLocked (D : Nat → Dinode) (n : Nat) (ip r : Fin 100) (s s' : State) : Prop where
  slot : ∃ j : Inode, s' = (s.setInode r { s.icache r with busy := true }).setInode ip j ∧
    j.ref = (s.icache ip).ref ∧ j.dev = (s.icache ip).dev ∧ j.inum = (s.icache ip).inum ∧
    j.busy = true ∧ j.valid = true ∧ j.d.core = D n

theorem Rescuable.slots_ne (h : Rescuable sb D n c ip r s) : r ≠ ip := by
  rintro rfl
  exact h.ne (h.ditto.2.symm.trans h.slot.2)

/-- The two locks `irescue` takes. -/
theorem irescue_locks (h : Rescuable sb D n c ip r s) (hbr : (s.icache r).busy = false)
    (hbi : (s.icache ip).busy = false) :
    ∃ s1 s2, ilock_ext r false s = .ok 0 s1 ∧ ilock_ext ip false s1 = .ok 0 s2 ∧
      BothLocked D n ip r s s2 := by
  have hne := h.slots_ne
  obtain ⟨_, _, hlock1, rfl, -, i, rfl, hir, hid, hii, hib, hiv, hic, hikeep⟩ :=
    (ilock_ext_false_wp (E := fun _ _ => False) h.cache h.ditto
      (fun hv => by rw [h.valid] at hv; cases hv) (fun hb => by rw [hbr] at hb; cases hb)).returns
  obtain rfl : i = { s.icache r with busy := true } :=
    Inode.ext hid hii hir hib (hiv.trans h.valid.symm) (hikeep h.valid)
  have hcache1 : Cache sb D (s.setInode r { s.icache r with busy := true }).icache :=
    h.cache.set h.ditto.1 rfl rfl fun _ => by rw [h.ditto.2]; exact hic
  have hip1 : (s.setInode r { s.icache r with busy := true }).icache ip = s.icache ip :=
    setInode_ne _ _ hne.symm
  have hslot1 : Caches (s.setInode r { s.icache r with busy := true }).icache ip n := by
    unfold Caches
    rw [hip1]
    exact h.slot
  obtain ⟨_, _, hlock2, rfl, -, j, rfl, hjr, hjd, hji, hjb, hjv, hjc, -⟩ :=
    (ilock_ext_false_wp (E := fun _ _ => False) hcache1 hslot1
      (fun _ => by rw [← h.onDisk, ← h.idle.view]; rfl)
      (fun hb => by rw [hip1, hbi] at hb; cases hb)).returns
  rw [hip1] at hjr hjd hji
  exact ⟨_, _, hlock1, hlock2, j, rfl, hjr, hjd, hji, hjb, hjv, hjc⟩

/-- The loop of `irescue` starts with nothing restored. -/
theorem BothLocked.restored {s2 : State} (hb : BothLocked D n ip r s s2)
    (h : Rescuable sb D n c ip r s) : Restored sb (s.disk 1) D n c ip r s2 0 s2 := by
  have hne := h.slots_ne
  obtain ⟨hdevi, hlive⟩ := h.cache.slot ip h.slot.1
  obtain ⟨hdevr, hlivec⟩ := h.cache.slot r h.ditto.1
  have hdc := h.cache.load r h.ditto.1 h.valid
  rw [h.slot.2] at hlive
  rw [h.ditto.2] at hlivec hdc
  obtain ⟨j, rfl, -, hjd, hji, -, -, hjc⟩ := hb.slot
  have hip2 : ((s.setInode r { s.icache r with busy := true }).setInode ip j).icache ip = j :=
    setInode_self ..
  have hr2 : ((s.setInode r { s.icache r with busy := true }).setInode ip j).icache r =
      { s.icache r with busy := true } := by
    rw [setInode_ne _ _ hne, setInode_self]
  have hstage : Stage sb (s.disk 1) D n c 0 (s.disk 1) :=
    ⟨Mix.start h.fs n c, fun _ => h.onDisk, fun h0 => absurd h0 (Nat.lt_irrefl _)⟩
  have hi := h.idle
  refine { idle := ⟨hi.dev, hi.busy, hi.n, hi.clean, hi.head⟩,
           placed := ⟨h.placed.start, h.placed.size⟩, stage := hstage, slots := ?_,
           slot := ⟨_, rfl⟩, core := ?_, others := fun _ _ => rfl, outside := rfl,
           log := ⟨rfl, rfl⟩, way := ⟨[], by simp, rfl, ?_, ?_⟩ }
  · refine ⟨hlive, hlivec, h.ne, h.type, h.dittoType, h.size, hne, ?_, ?_⟩
    · rw [hip2]
      exact ⟨hjd.trans hdevi, hji.trans h.slot.2, _, hjc⟩
    · rw [hr2]
      exact ⟨hdevr, h.ditto.2, hdc⟩
  · rw [hip2, hjc]
    exact h.onDisk.symm
  · exact along_nil.mpr ⟨[], s.disk 1, 0, Or.inl ⟨hi.head, fun _ _ => rfl⟩, hstage, Or.inl rfl,
      Nat.zero_le _⟩
  · intro m' _ hle
    obtain rfl : m' = 0 := by omega
    exact ⟨0, s.disk 1, ⟨hi.head, fun _ _ => rfl⟩, hstage⟩

/-- `irescue` returns with the whole file restored. -/
theorem irescue_returns (h : Rescuable sb D n c ip r s) (hbr : (s.icache r).busy = false)
    (hbi : (s.icache ip).busy = false) :
    ∃ s', irescue ip r s = .ok () s' ∧ RescuePost sb D n c ip s s' := by
  have hne := h.slots_ne
  have hlive : Live sb D n := h.slot.2 ▸ (h.cache.slot ip h.slot.1).2
  have hmax := (h.fs.mapped n hlive).size_le
  obtain ⟨s1, s2, hlock1, hlock2, hb⟩ := irescue_locks h hbr hbi
  have hstart := hb.restored h
  obtain ⟨j, hs2, hjr, hjd, hji, hjb, hjv, hjc⟩ := hb.slot
  have hip2 : s2.icache ip = j := by
    rw [hs2, setInode_self]
  have hr2 : s2.icache r = { s.icache r with busy := true } := by
    rw [hs2, setInode_ne _ _ hne, setInode_self]
  have hbound : intBound (s2.icache ip).d.size = (D n).size.toNat := by
    have hsize : j.d.size = (D n).size := by
      rw [← hjc]
      rfl
    unfold intBound
    rw [hip2, hsize, if_pos (by omega)]
  obtain ⟨s3, hloop, h3⟩ := irescueLoop_restores h.log (D n).size.toNat 0 s2 hstart
    (Or.inl rfl) (Nat.zero_le _) (by omega)
  rw [Nat.sub_zero] at hloop
  obtain ⟨σ, hip3⟩ := h3.slot
  rw [hip2] at hip3
  have hr3 : s3.icache r = { s.icache r with busy := true } := by
    rw [h3.others r hne, hr2]
  have hu1 : iunlock r s3 = .ok () (s3.setInode r (s.icache r)) := by
    rw [iunlock_apply (by rw [hr3]) (by rw [hr3]; exact h.ditto.1), hr3]
    congr 2
    exact Inode.ext rfl rfl rfl hbr.symm rfl rfl
  have hip4 : (s3.setInode r (s.icache r)).icache ip = j.summed σ := by
    rw [setInode_ne _ _ hne.symm, hip3]
  have hu2 := iunlock_apply (s := s3.setInode r (s.icache r)) (j := ip) (by rw [hip4]; exact hjb)
    (by rw [hip4]; show 0 < j.ref; rw [hjr]; exact h.slot.1)
  rw [hip4] at hu2
  refine ⟨(s3.setInode r (s.icache r)).setInode ip { j.summed σ with busy := false }, ?_, ?_⟩
  · unfold irescue
    rw [Exec.bind_ok hlock1, Exec.bind_ok hlock2, Exec.bind_ok (inode_apply _ _), hbound,
      Exec.bind_ok hloop, Exec.bind_ok hu1, hu2]
  · have hcore := h3.core
    rw [hip3] at hcore
    have hi3 := h3.idle
    have h2 : Outside s s2 := by
      rw [hs2]
      rfl
    have hlog2 : s2.log = s.log ∧ s2.trace = s.trace ∧ s2.disk = s.disk := by
      rw [hs2]
      exact ⟨rfl, rfl, rfl⟩
    obtain ⟨hl, ht, hd⟩ := hlog2
    refine { idle := ⟨hi3.dev, hi3.busy, hi3.n, hi3.clean, hi3.head⟩,
             placed := ⟨h3.placed.start, h3.placed.size⟩, stage := h3.stage,
             slot := ⟨_, setInode_self .., hjr, hjd, hji, rfl, hjv, hcore⟩, others := ?_,
             outside := (h2.trans h3.outside).trans rfl, log := ?_, way := ?_ }
    · intro x hx
      rw [setInode_ne _ _ hx]
      by_cases hxr : x = r
      · rw [hxr, setInode_self]
      · rw [setInode_ne _ _ hxr, h3.others x hx, hs2, setInode_ne _ _ hx, setInode_ne _ _ hxr]
    · have := h3.log
      rw [hl] at this
      exact this
    · have := h3.way
      unfold Way at this
      rw [hl, ht, hd] at this
      exact this

end Rescue

end Zv6
