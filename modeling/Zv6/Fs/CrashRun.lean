/-
  Crashes in a run of writes.

  Outside `commit_trans` the steps of a run write sectors of the log body only (`Body`), so the
  header is empty or names a transaction of which every block is in the log. Wherever the machine
  stops, recovery makes the disk what it was between two transactions of the run: a volume in good
  order with the writes up to there, none of them in part (`file_run_crash`). Counted from the
  last commit, nothing committed is lost.
-/
import Zv6.Fs.FileRun
import Zv6.Log.Runs

namespace Zv6

open Lib

/-! ## Outside commits -/

/-- When `m` returns it has written sectors of the log body only. -/
def Body {α : Type} (m : K α) : Prop := ∀ s a s', m s = .ok a s' → ∃ k, Logging s s' k

section Body

variable {s s' : State} {α : Type} {ip : Fin 100}

theorem CacheOnly.logging (h : CacheOnly s s') : ∃ k, Logging s s' k := by
  unfold CacheOnly at h
  rw [h]
  exact ⟨0, rfl, rfl, rfl, [], rfl, (List.append_nil _).symm, rfl, fun _ => along_nil.mpr⟩

@[grind ←] theorem Body.bind {β : Type} {x : K α} {f : α → K β} (hx : Body x)
    (hf : ∀ a, Body (f a)) : Body (x >>= f) := by
  intro s b s' h
  obtain ⟨a, s1, h1, h2⟩ := Exec.bind_eq_ok.mp h
  obtain ⟨k, hk⟩ := hx s a s1 h1
  obtain ⟨k', hk'⟩ := hf a s1 b s' h2
  exact ⟨_, hk.trans hk'⟩

@[grind ←] theorem Body.gets (g : State → α) : Body (Exec.gets g) := by
  intro s _ _ h
  cases h
  exact ⟨0, Logging.refl s⟩

@[grind ←] theorem Body.pure (a : α) : Body (pure a : K α) := Body.gets fun _ => a

@[grind ←] theorem Body.inode : Body (inode ip) := Body.gets fun s => s.icache ip

@[grind ←] theorem Body.bread (dev sec : Nat) : Body (bread dev sec) := Body.gets _

@[grind ←] theorem Body.panic (e : String) : Body (Exec.panic e : K α) := nofun

@[grind ←] theorem Body.loops : Body (fun s => .loops s : K α) := nofun

@[grind ←] theorem Body.when {p : Prop} [Decidable p] {m : K Unit} (h : Body m) :
    Body (Exec.when p m) := by
  grind [Exec.when]

@[grind ←] theorem Body.updInode (f : Inode → Inode) : Body (updInode ip f) :=
  fun _ _ _ h => CacheOnly.logging (by cases h; rfl)

@[grind ←] theorem Body.iget (dev inum : Nat) : Body (iget dev inum) :=
  fun _ _ _ _ => CacheOnly.logging (by grind [Zv6.iget, CacheOnly, State.setInode])

@[grind ←] theorem Body.lockSlot : Body (lockSlot ip) :=
  fun _ _ _ _ => CacheOnly.logging (by grind [Zv6.lockSlot, CacheOnly, State.setInode])

@[grind ←] theorem Body.iunlock : Body (iunlock ip) :=
  fun _ _ _ _ => CacheOnly.logging (by grind [Zv6.iunlock, CacheOnly, State.setInode])

/-- The one kind of sector write there is: to the slot of an entry. -/
@[grind ←] theorem Body.log_write (dev sec : Nat) (b : Block) : Body (log_write dev sec b) := by
  intro s1 _ s2 h
  rw [log_write_apply] at h
  split at h
  · cases h
  split at h
  · cases h
  · split at h <;> cases h
    refine ⟨1, rfl, rfl, rfl, _, rfl, rfl, rfl, fun H hH => along_cons.mpr ⟨hH, along_nil.mpr ?_⟩⟩
    have hslot := absorbSlot_le s1.log sec
    by_cases hdev : dev % 2 = 1
    · rw [hdev]
      exact hH.body _ (by omega) b
    · have hd : writeSector s1.disk (dev % 2, s1.log.start + absorbSlot s1.log sec + 1, b) 1 =
          s1.disk 1 := by
        funext c
        exact if_neg fun e => hdev e.1.symm
      exact ⟨hd ▸ hH.head, fun c hc => hd ▸ hH.home c hc⟩

@[grind ←] theorem Body.ballocLoop (dev : Nat) (sb : Superblock) (k b : Nat) :
    Body (ballocLoop dev sb k b) := by
  induction k generalizing b <;> grind [Zv6.ballocLoop, bzero]

@[grind ←] theorem Body.balloc (dev : Nat) : Body (balloc dev) := by
  grind [Zv6.balloc, readsb]

@[grind ←] theorem Body.bmap (bn : Nat) : Body (bmap ip bn) := by
  grind [Zv6.bmap]

@[grind ←] theorem Body.readiLoop (fuel off n : Nat) : Body (readiLoop ip fuel off n) := by
  induction fuel generalizing off n <;> grind [Zv6.readiLoop]

@[grind ←] theorem Body.readi (off n : Nat) : Body (readi ip off n) := by
  grind [Zv6.readi]

@[grind ←] theorem Body.ichecksumLoop (fuel off : Nat) (c : UInt32) :
    Body (ichecksumLoop ip fuel off c) := by
  induction fuel generalizing off c <;> grind [Zv6.ichecksumLoop]

@[grind ←] theorem Body.ichecksum : Body (ichecksum ip) := by
  grind [Zv6.ichecksum]

/-- Without verification a lock loads the inode and no more. -/
@[grind ←] theorem Body.ilock_ext : Body (ilock_ext ip false) := by
  unfold Zv6.ilock_ext ilockExt loadInode zcSuccess
  grind

@[grind ←] theorem Body.cupdate (ic : Fin 100) : Body (cupdate ip ic) := by
  grind [Zv6.cupdate]

@[grind ←] theorem Body.iupdate_ext (skip : Bool) : Body (iupdate_ext ip skip) := by
  refine Body.inode.bind fun _ => (Body.bread _ _).bind fun _ => Body.ichecksum.bind fun _ =>
    (Body.updInode _).bind fun _ => Body.inode.bind fun i => (Body.log_write _ _ _).bind fun _ => ?_
  grind

@[grind ←] theorem Body.writeiLoop (fuel off : Nat) (src : List UInt8) :
    Body (writeiLoop ip fuel off src) := by
  induction fuel generalizing off src <;> grind [Zv6.writeiLoop]

@[grind ←] theorem Body.writeChild {write : Fin 100 → K Int} (h : ∀ ci, Body (write ci))
    (dev : Nat) (child : UInt16) : Body (writeChild write dev child) := by
  grind [Zv6.writeChild]

theorem Body.writeiExt (depth : Nat) : ∀ (ip : Fin 100) (src : List UInt8) (off : Nat)
    (skip : Bool), Body (writeiExt depth ip src off skip) := by
  induction depth with
  | zero => exact fun _ _ _ _ => Body.loops
  | succ depth ih =>
    refine fun ip src off skip => Body.inode.bind fun i => ?_
    iterate 3 (split; · grind)
    exact (Body.writeiLoop _ _ _).bind fun _ => Body.bind (by grind) fun _ => by grind

end Body

/-! ## Crashes -/

/-- A run from `s` to `s'` that passes `s0` between two transactions. -/
structure Through (sb : Superblock) (s : State) (ws : List Edit) (s' : State) (ws0 : List Edit)
    (s0 : State) : Prop where
  run : FileRun sb s ws0 s0
  idle : Idle s0
  rest : ∃ ws', ws = ws0 ++ ws' ∧ FileRun sb s0 ws' s'

/-- The home sectors are those of a state the run has passed. -/
def Since (sb : Superblock) (s : State) (ws : List Edit) (s' : State) : Prop :=
  ∃ ws0 s0, Through sb s ws s' ws0 s0 ∧ Clean s'.log (s0.disk 1) s'.disk

/-- So they are after the step from `s1` to `s2`, and after a recovery from a stop in it. -/
structure Safe (sb : Superblock) (s : State) (ws : List Edit) (s1 s2 : State) (j : Nat) :
    Prop where
  since : Since sb s ws s2
  stop : ∃ ws0 s0 P T, Through sb s ws s2 ws0 s0 ∧ Recoverable s1.log P T (stopped s1 s2 j) ∧
    ∀ c, s1.log.Home c → T c = s0.disk 1 c

section Crashes

variable {sb : Superblock} {L : Set Nat} {D D' : Nat → Dinode} {N : Nat → UInt16}
  {s s1 s2 : State} {ws w : List Edit} {j : Nat}

theorem Through.step {ws0 : List Edit} {s0 : State} (h : Through sb s ws s1 ws0 s0)
    (hs : FileStep sb s1 w s2) : Through sb s (ws ++ w) s2 ws0 s0 := by
  obtain ⟨ws', rfl, hr⟩ := h.rest
  exact ⟨h.run, h.idle, _, List.append_assoc .., hr.step hs⟩

/-- A step that writes to the log body; it may open a transaction. -/
theorem Since.logging (h : Since sb s ws s1) {sm : State} {k : Nat} {b : Bool}
    (hl : Logging s1 sm k)
    (hs : FileStep sb s1 w { sm with log := { sm.log with busy := b } }) :
    Safe sb s (ws ++ w) s1 { sm with log := { sm.log with busy := b } } j := by
  obtain ⟨ws0, s0, hm, hc⟩ := h
  obtain ⟨t, -, ht, hd, ha⟩ := hl.trace
  have ha := ha _ hc
  have hend : Clean sm.log (s0.disk 1) sm.disk :=
    (Clean.congr hl.start hl.size).mpr (hd ▸ ha.last)
  have hstop : Clean s1.log (s0.disk 1) (stopped s1 sm j) := by
    unfold stopped
    rw [ht, List.drop_left]
    exact ha j
  exact ⟨⟨ws0, s0, hm.step hs, hend.head, hend.home⟩,
    ws0, s0, [], _, hm.step hs, Or.inl hstop, fun _ _ => rfl⟩

/-- Up to its first header write a commit may be lost; from there on it is kept. -/
theorem Since.commit (h : Since sb s ws s1) (hrun : FileRun sb s ws s1) (hj : Jrn sb s1)
    (hc : commit_trans s1 = .ok () s2) : Safe sb s (ws ++ []) s1 s2 j := by
  obtain ⟨ws0, s0, hm0, hclean⟩ := h
  obtain ⟨P, hP, -⟩ := hj.pending
  obtain ⟨s2', hc', hidle, -, -, -, hdisk⟩ := commit_trans_view hP
  cases hc.symm.trans hc'
  have hs : FileStep sb s1 [] s2 := .commit hc
  have hm : Through sb s (ws ++ []) s2 (ws ++ []) s2 :=
    ⟨hrun.step hs, hidle, [], (List.append_nil _).symm, .start⟩
  refine ⟨⟨_, s2, hm, hidle.head, fun _ _ => rfl⟩, ?_⟩
  have hstop := stopped_recoverable (Logging.refl s1) hP.head hP hc j
  split at hstop
  · exact ⟨_, s2, P, _, hm, hstop, fun c hc => by rw [hdisk c hc, hP.view]⟩
  · exact ⟨ws0, s0, P, _, hm0.step hs, hstop, hclean.home⟩

theorem FileStep.safe (hs : FileStep sb s1 w s2) (h : Since sb s ws s1)
    (hrun : FileRun sb s ws s1) (he : Edited sb L N D s ws D' s1) :
    Safe sb s (ws ++ w) s1 s2 j := by
  have hlog : (∃ k, Logging s1 s2 k) → Safe sb s (ws ++ w) s1 s2 j := fun ⟨_, hl⟩ =>
    h.logging hl hs
  cases hs with
  | begin hr =>
    have hs : FileStep sb s1 [] s2 := .begin hr
    unfold begin_trans at hr
    split at hr <;> cases hr
    exact h.logging (Logging.refl s1) hs
  | commit hr => exact h.commit hrun he.vol.jrn hr
  | get hk hr => exact hlog (Body.iget _ _ _ _ _ hr)
  | put hip hstay hr =>
    cases hr.symm.trans (iput_keep hstay)
    exact hlog (CacheOnly.logging rfl)
  | lock hip hr =>
    obtain ⟨-, rfl⟩ := he.lock hip hr
    exact hlog (CacheOnly.logging rfl)
  | unlock hr => exact hlog (Body.iunlock _ _ _ hr)
  | write hip htype hbusy hfree hr => exact hlog (Body.writeiExt 101 _ _ _ _ _ _ _ hr)

theorem FileRun.since (hidle : Idle s) (hv : Vol sb L D N ∅ ∅ s) (hs : Sound sb ∅ (s.view 1) D)
    (h : FileRun sb s ws s1) : Since sb s ws s1 := by
  induction h with
  | start => exact ⟨[], s, ⟨.start, hidle, [], rfl, .start⟩, hidle.head, fun _ _ => rfl⟩
  | step hrun hstep ih =>
    obtain ⟨D', he⟩ := hrun.edited hv hs
    exact (hstep.safe (j := 0) ih hrun he).since

end Crashes

/-- Wherever the machine stops in a run of writes, and however often recovery is cut short, a
    complete recovery brings back the disk of a point of the run between two transactions: a volume
    in good order, with the writes up to there and nothing of the others. -/
theorem file_run_crash (sb : Superblock) (L : Set Nat) (D : Nat → Dinode) (N : Nat → UInt16)
    (s s1 s2 : State) (ws w : List Edit) (hidle : Idle s) (hv : Vol sb L D N ∅ ∅ s)
    (hs : Sound sb ∅ (s.view 1) D) (h : FileRun sb s ws s1) (hstep : FileStep sb s1 w s2)
    (j : Nat) (d : Nat → Nat → Block) (hrec : Recovering s1 (stopped s1 s2 j) d) :
    ∃ ws0 s0 s' D', Through sb s (ws ++ w) s2 ws0 s0 ∧
      recover_from_log (s1.reboot d) = .ok () s' ∧ Idle s' ∧
      SameAll sb (s0.disk 1) (s'.disk 1) ∧ Edited sb L N D s ws0 D' s' := by
  obtain ⟨D1, h1⟩ := h.edited hv hs
  obtain ⟨ws0, s0, P, T, hm, hR, hT⟩ := (hstep.safe (h.since hidle hv hs) h h1).stop
  obtain ⟨P1, hP, -⟩ := h1.vol.jrn.pending
  obtain ⟨s', hboot, -, -, hclean⟩ := recover_along hP.dev (hrec.recoverable hP.dev hR)
  obtain ⟨hidle', hstart, hsize, hcache⟩ := recover_idle hP.dev hboot hclean.head
  obtain ⟨D0, h0⟩ := hm.run.edited hv hs
  have hp := h1.vol.jrn.placed
  have hdisk : SameAll sb (s0.disk 1) (s'.disk 1) := fun c hc =>
    (hclean.home c (hp.home hc)).trans (hT c (hp.home hc))
  have hsame : SameAll sb (s0.view 1) (s'.view 1) := by
    rw [hidle'.view, hm.idle.view]
    exact hdisk
  have hj : Jrn sb s' := hidle'.jrn ⟨hstart.trans hp.start, hsize.trans hp.size⟩ hv.jrn.word
  -- with the inodes of `s0` in memory, and then with none
  have hv0 : Vol sb L D0 N ∅ ∅ { s' with icache := s0.icache } :=
    h0.vol.same (hj.congr rfl rfl rfl) rfl hsame
  have hnone : ∀ i, ¬ 0 < (s'.icache i).ref := by
    intro i
    rw [hcache]
    exact lt_irrefl _
  have hv' : Vol sb L D0 N ∅ ∅ s' := ⟨hj, hv0.own, fun i _ _ hi => absurd hi.1 (hnone i),
    fun i hi => absurd hi (hnone i), fun i hi => absurd hi (hnone i), hv0.disk, by simp⟩
  exact ⟨ws0, s0, s', D0, hm, hboot, hidle', hdisk, h0.same hv' hsame⟩

/-- A stop anywhere in the commit of a write of three bytes. -/
theorem file_run_crash_oneByte : ∃ s1 s2, commit_trans s1 = .ok () s2 ∧ ∀ j, ∃ ws0 s0 s',
    Through imageSb ((machine 36 oneByte 2).locked 0) [⟨2, 1, [7, 8, 9]⟩] s2 ws0 s0 ∧
    recover_from_log (s1.reboot (stopped s1 s2 j)) = .ok () s' ∧ Idle s' := by
  obtain ⟨L, D, N, hv, hs, -, -, s1, hrun, -⟩ := oneByte_run
  have hidle : Idle ((machine 36 oneByte 2).locked 0) :=
    ⟨rfl, rfl, rfl, fun _ => rfl, Block.word_zero 0⟩
  obtain ⟨D1, h1⟩ := hrun.edited hv hs
  obtain ⟨s2, hc, -⟩ := h1.vol.jrn.commit
  refine ⟨s1, s2, hc, fun j => ?_⟩
  obtain ⟨ws0, s0, s', -, hm, hboot, h2, -⟩ :=
    file_run_crash imageSb L D N _ s1 s2 _ [] hidle hv hs hrun (.commit hc) j _ .start
  exact ⟨ws0, s0, s', hm, hboot, h2⟩

end Zv6
