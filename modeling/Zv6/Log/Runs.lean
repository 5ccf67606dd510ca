/-
  Runs of transactions, with crashes.

  `LogRun`: transactions follow one another; each is finished, or the machine stops after any of
  its sector writes and comes back, with any number of recoveries cut short before one is
  complete. The disk then holds exactly the transactions that got past their first header
  write, each as a whole and in order, and the log is ready for the next (`log_run_atomic`).
-/
import Zv6.Fs.Journal

namespace Zv6

open Lib

/-- The transactions between two states, and whether each got past its commit point. -/
inductive LogRun (s : State) : List (List (UInt32 × Block) × Bool) → State → Prop
  | start : LogRun s [] s
  | finish {ts ws s1 sm s2} (h : LogRun s ts s1) (hhome : ∀ w ∈ ws, s1.log.Home w.1.toNat)
      (hlog : (begin_trans >>= fun _ => logWrites ws) s1 = .ok () sm)
      (hcommit : commit_trans sm = .ok () s2) : LogRun s (ts ++ [(ws, true)]) s2
  | crash {ts ws s1 sm s2 s3 d} (j : Nat) (h : LogRun s ts s1)
      (hhome : ∀ w ∈ ws, s1.log.Home w.1.toNat)
      (hlog : (begin_trans >>= fun _ => logWrites ws) s1 = .ok () sm)
      (hcommit : commit_trans sm = .ok () s2) (hrec : Recovering s1 (stopped s1 s2 j) d)
      (hboot : recover_from_log (s1.reboot d) = .ok () s3) :
      LogRun s (ts ++ [(ws, decide (sm.trace.length < s1.trace.length + j))]) s3

/-- The writes of the committed transactions. -/
def committedWrites (ts : List (List (UInt32 × Block) × Bool)) : List (Nat × Block) :=
  ts.flatMap fun t => if t.2 then homeWrites t.1 else []

theorem committedWrites_append (ts : List (List (UInt32 × Block) × Bool))
    (ws : List (UInt32 × Block)) (b : Bool) : committedWrites (ts ++ [(ws, b)]) =
      committedWrites ts ++ if b then homeWrites ws else [] := by
  simp [committedWrites]

section LogRun

variable {s s1 sm s2 : State} {ws : List (UInt32 × Block)}

/-- What a transaction logs, and what is pending at its end. -/
theorem Idle.logged (hidle : Idle s1) (hhome : ∀ w ∈ ws, s1.log.Home w.1.toNat)
    (hlog : (begin_trans >>= fun _ => logWrites ws) s1 = .ok () sm) :
    Logging s1.begun sm ws.length ∧ sm.trace.length = s1.trace.length + ws.length ∧
      ∃ P, Pending sm P ∧ ∀ c, s1.log.Home c →
        applyW P (sm.disk 1) c = applyW (homeWrites ws) (s1.disk 1) c := by
  rw [Exec.bind_ok (begin_trans_apply hidle.busy)] at hlog
  obtain ⟨hlogging, P, hP, happ⟩ := logWrites_logging ws _ _ _ hidle.begun hhome hlog
  obtain ⟨t, hlen, htrace, hdisk, halong⟩ := hlogging.trace
  refine ⟨hlogging, by rw [htrace, List.length_append, hlen]; rfl, P, hP, fun c hc => ?_⟩
  have hend : Clean s1.begun.log (s1.disk 1) sm.disk :=
    hdisk ▸ (halong (s1.disk 1) ⟨hidle.head, fun _ _ => rfl⟩).last
  rw [applyW_congr P (hend.home c hc), happ]
  rfl

theorem installLoop_frame (k : Nat) : ∀ (tail : Nat) (s s' : State),
    installLoop k tail s = .ok () s' →
      s'.log = s.log ∧ s'.icache = s.icache ∧ ∀ c, s.dirty 1 c = none → s'.dirty 1 c = none := by
  induction k with
  | zero =>
    intro tail s s' hrun
    cases hrun
    exact ⟨rfl, rfl, fun _ h => h⟩
  | succ k ih =>
    intro tail s s' hrun
    obtain ⟨hl, hi, hd⟩ := ih (tail + 1) _ s' hrun
    refine ⟨hl, hi, fun c hc => hd c ?_⟩
    show (if _ then none else s.dirty 1 c) = none
    rw [hc, ite_self]

/-- A complete recovery leaves nothing behind in memory. -/
theorem recover_idle {d : Nat → Nat → Block} (hdev : s.log.dev = 1)
    (hrun : recover_from_log (s.reboot d) = .ok () s2)
    (hhead : (s2.disk 1 s.log.start).word 0 = 0) :
    Idle s2 ∧ s2.log.start = s.log.start ∧ s2.log.size = s.log.size ∧
      s2.icache = fun _ => Inode.unused := by
  have hread : read_head (s.reboot d) = .ok () (s.reboot d).readHead := rfl
  unfold recover_from_log at hrun
  rw [Exec.bind_ok hread] at hrun
  obtain ⟨_, s1, hinst, hrun⟩ := Exec.bind_eq_ok.mp hrun
  obtain ⟨hl, hi, hclean⟩ := installLoop_frame _ 0 _ s1 hinst
  obtain rfl : s1.noEntries.headed = s2 := by
    cases hrun
    rfl
  have hstart : s1.noEntries.headed.log =
      { s.log with busy := false, n := 0, sector := s1.log.sector } := by
    show { s1.log with n := 0 } = _
    rw [hl]
    rfl
  refine ⟨⟨?_, ?_, ?_, ?_, ?_⟩, ?_, ?_, hi⟩ <;> try rw [hstart]
  · exact hdev
  · intro c
    show (if _ then none else s1.dirty 1 c) = none
    rw [hclean c rfl, ite_self]
  · exact hhead

end LogRun

/-- The disk holds the committed transactions, in order, and no part of the others. -/
theorem log_run_atomic (s s' : State) (ts : List (List (UInt32 × Block) × Bool)) (hidle : Idle s)
    (h : LogRun s ts s') : Idle s' ∧ ∀ c, s.log.Home c →
      s'.disk 1 c = applyW (committedWrites ts) (s.disk 1) c := by
  suffices hs : Idle s' ∧ s'.log.start = s.log.start ∧ s'.log.size = s.log.size ∧
      ∀ c, s.log.Home c → s'.disk 1 c = applyW (committedWrites ts) (s.disk 1) c from
    ⟨hs.1, hs.2.2.2⟩
  induction h with
  | start => exact ⟨hidle, rfl, rfl, fun _ _ => rfl⟩
  | @finish ts ws s1 sm s2 _ hhome hlog hcommit ih =>
    obtain ⟨hidle1, hstart1, hsize1, hdisk1⟩ := ih
    obtain ⟨hlogging, -, P, hP, happ⟩ := hidle1.logged hhome hlog
    obtain ⟨s2', hrun, hidle2, -, hstart, hsize, hdisk⟩ := commit_trans_view hP
    cases hcommit.symm.trans hrun
    have hs := hlogging.start.trans hstart1
    have hz := hlogging.size.trans hsize1
    refine ⟨hidle2, hstart.trans hs, hsize.trans hz, fun c hc => ?_⟩
    rw [hdisk c ((Log.Home.congr hs hz c).mpr hc), hP.view,
      happ c ((Log.Home.congr hstart1 hsize1 c).mpr hc), applyW_congr _ (hdisk1 c hc),
      committedWrites_append, applyW_append]
    rfl
  | @crash ts ws s1 sm s2 s3 d j _ hhome hlog hcommit hrec hboot ih =>
    obtain ⟨hidle1, hstart1, hsize1, hdisk1⟩ := ih
    obtain ⟨hlogging, hcount, P, hP, happ⟩ := hidle1.logged hhome hlog
    have hstop := (stopped_recoverable hlogging hidle1.head hP hcommit j).congr (L := s1.log)
      rfl rfl
    obtain ⟨s3', hrun, -, -, hclean⟩ := recover_along hidle1.dev
      (hrec.recoverable hidle1.dev hstop)
    cases hboot.symm.trans hrun
    obtain ⟨hidle3, hstart3, hsize3, -⟩ := recover_idle hidle1.dev hboot hclean.head
    refine ⟨hidle3, hstart3.trans hstart1, hsize3.trans hsize1, fun c hc => ?_⟩
    have hc1 := (Log.Home.congr hstart1 hsize1 c).mpr hc
    rw [hclean.home c hc1, committedWrites_append, applyW_append, hcount]
    by_cases hj : ws.length < j
    · rw [if_pos hj, happ c hc1, applyW_congr _ (hdisk1 c hc), decide_eq_true (by omega)]
      rfl
    · rw [if_neg hj, decide_eq_false (by omega)]
      exact hdisk1 c hc

/-- A stop after the fourth sector write of three logged ones. -/
theorem log_run_atomic_three : ∃ s', LogRun (State.blank idleLog) [(threeWrites, true)] s' ∧
    Idle s' ∧ s'.disk 1 5 = Block.fill 3 := by
  have hidle : Idle (State.blank idleLog) := ⟨rfl, rfl, rfl, fun _ => rfl, Block.word_zero 0⟩
  have hhome : ∀ w ∈ threeWrites, idleLog.Home w.1.toNat := by decide
  have hlog : (begin_trans >>= fun _ => logWrites threeWrites) (State.blank idleLog) = .ok ()
      ((((State.blank idleLog).begun.logged 1 5 (Block.fill 1)).logged 1 7 (Block.fill 2)).logged
        1 5 (Block.fill 3)) := rfl
  obtain ⟨hlogging, hcount, P, hP, -⟩ := hidle.logged hhome hlog
  obtain ⟨s2, hcommit⟩ := commit_trans_ok hP
  have hstop := stopped_recoverable hlogging hidle.head hP hcommit 4
  obtain ⟨s3, hboot, -⟩ := recover_along hidle.dev (hstop.congr rfl rfl)
  have hrun := LogRun.crash 4 .start hhome hlog hcommit .start hboot
  rw [hcount] at hrun
  obtain ⟨hidle3, hdisk⟩ := log_run_atomic _ s3 _ hidle hrun
  exact ⟨s3, hrun, hidle3, hdisk 5 (Or.inl (by decide))⟩

end Zv6
