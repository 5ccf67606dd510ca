/-
  kill and the slots of the process table that hold no process.

  `kill` takes the first slot with the given pid and does not look at its state. A free slot has
  pid 0, or the pid of a fork that failed, so `kill` may find it, return 0 and leave its mark for
  the next process there: `allocproc` and `fork` do not clear `killed` (`kill_unused`). The same
  happens to a process that is killed while fork still fills in its slot. As long as no call finds
  such a slot, `kill` does what it should and every process starts with `killed` clear
  (`kill_only_live`).
-/
import Zv6.Proc.Parents

namespace Zv6.Ptable

open Lib

/-- What a call of `kill` returns, once it has looked through the table. -/
def Place.result : Place → Option Int32
  | .krouse _ => some 0
  | .krelease r => some r
  | _ => none

/-- The next step of each process, if it is the scan of `kill` or the end of `fork`, touches only
    what it should. -/
structure OnlyLive (code : Code Pid Spin Chan Table Place) (m : Kernel) : Prop where
  /-- `kill(pid)` returns 0 if and only if some slot that is not UNUSED has that pid, and leaves
      the UNUSED slots as they are. -/
  kill : ∀ p pid m', m.thr p = .at (.kscan pid) → Step Spin.ptable code p m m' →
    ((m'.thr p).place.result = some 0 ↔
      ∃ q, (m.data.slot q).state ≠ .unused ∧ (m.data.slot q).pid = pid) ∧
    ∀ q, (m.data.slot q).state = .unused → m'.data.slot q = m.data.slot q
  /-- The process that fork makes starts with `killed` clear. -/
  fork : ∀ p np m', m.thr p = .at (.fstart np) → Step Spin.ptable code p m m' →
    (m'.data.slot np).state = .live ∧ (m'.data.slot np).killed = false

/-- The code, except that no call of `kill` finds a slot that is UNUSED or EMBRYO. -/
def careful : Code Pid Spin Chan Table Place := fun m p t i =>
  code m p t i ∧ ∀ pid q, t = .kscan pid → m.data.target pid = some q → (m.data.slot q).Present

/-- No mark of `kill` is on a slot without a process. -/
def Clear (d : Table) : Prop := ∀ q, ¬ (d.slot q).Present → (d.slot q).killed = false

variable {d d' : Table} {p q np : Pid} {m m' : Kernel}

/-- One slot changes. -/
theorem Clear.slot (h : Clear d) (hs : ∀ q', q' ≠ q → d'.slot q' = d.slot q')
    (hq : (d'.slot q).Present ∨ (d'.slot q).killed = false) : Clear d' := by
  intro q' hq'
  by_cases e : q' = q
  · subst e
    exact hq.resolve_left hq'
  · rw [hs q' e] at hq' ⊢
    exact h q' hq'

theorem Clear.userinit : Clear userinit := by
  intro q _
  by_cases e : q = initproc <;> simp [Ptable.userinit, e]

/-- An assignment of the code keeps the slots without a process clear. -/
theorem Clear.set {t k : Place} (h : Clear m.data) (hp : Local p t m.data)
    (hc : careful m p t (.set d k)) : Clear d := by
  obtain ⟨hc, hkill⟩ := hc
  have hempty : ∀ np, t.making = some np → (m.data.slot np).killed = false := by
    intro np hnp
    refine h np fun hpres => ?_
    obtain ⟨he, -⟩ := hp.making np hnp
    rcases hpres with hpres | hpres <;> rw [he] at hpres <;> cases hpres
  cases hc with
  | ffound i hi hu =>
    refine h.slot (q := ⟨i, hi⟩) (fun q' e => by simp [Table.embryo, e]) (Or.inr ?_)
    simpa [Table.embryo] using h ⟨i, hi⟩ (by simp [Slot.Present, hu])
  | fnostack np | fnocopy np =>
    refine h.slot (q := np) (fun q' e => by simp [Table.fail, e]) (Or.inr ?_)
    simpa [Table.fail] using hempty np rfl
  | fparent np =>
    refine h.slot (q := np) (fun q' e => by simp [Table.adopt, e]) (Or.inr ?_)
    simpa [Table.adopt] using hempty np rfl
  | fstart np =>
    refine h.slot (q := np) (fun q' e => by simp [Table.start, e]) (Or.inl (.of_live ?_))
    simp [Table.start]
  | xzombie =>
    refine h.slot (q := p) (fun q' e => by simp [Table.die, e]) (Or.inl (.of_zombie ?_))
    simp [Table.die]
  | wfound q _ =>
    refine h.slot (q := q) (fun q' e => by simp [Table.reap, e]) (Or.inr ?_)
    simp [Table.reap]
  | kfound pid q hq =>
    refine h.slot (q := q) (fun q' e => by simp [Table.setKilled, e]) (Or.inl ?_)
    simpa [Table.setKilled, Slot.Present] using hkill pid q rfl hq
  | _ => exact h

theorem careful_step (h : Reached m ∧ Clear m.data) (hs : Step Spin.ptable careful p m m') :
    Reached m' ∧ Clear m'.data := by
  have hs' : Step Spin.ptable code p m m' := hs.mono fun t i hc => hc.1
  refine ⟨h.1.step hs', ?_⟩
  obtain hd | ⟨t, k, ht, hc⟩ := hs.data
  · rw [hd]
    exact h.2
  · refine h.2.set (p := p) (t := t) ?_ hc
    have := h.1.table.loc p
    rwa [ht] at this

theorem careful_reached (hr : Steps Spin.ptable careful boot m) : Reached m ∧ Clear m.data := by
  induction hr with
  | refl => exact ⟨Runs.reached .refl, .userinit⟩
  | tail _ hs ih =>
    obtain ⟨p, hs⟩ := hs
    exact careful_step ih hs

/-- The scan of a `kill` that finds no slot without a process. -/
theorem kill_scan {pid : Int32} (ht : m.thr p = .at (.kscan pid))
    (hs : Step Spin.ptable careful p m m') : ((m'.thr p).place.result = some 0 ↔
      ∃ q, (m.data.slot q).state ≠ .unused ∧ (m.data.slot q).pid = pid) ∧
    ∀ q, (m.data.slot q).state = .unused → m'.data.slot q = m.data.slot q := by
  obtain ⟨i, hc, hi⟩ := hs.runs ht
  obtain ⟨hc, hpres⟩ := hc
  cases hc with
  | kfound _ q hq =>
    obtain rfl := hi
    have hq1 := hpres pid q rfl hq
    have hpid : (m.data.slot q).pid = pid := by simpa using Table.of_find hq
    refine ⟨⟨fun _ => ⟨q, ?_, hpid⟩, fun _ => ?_⟩, fun q' hq' => ?_⟩
    · rcases hq1 with h | h <;> rw [h] <;> simp
    · simp [Machine.go, Thr.place, Place.result]
    · have e : q' ≠ q := by
        rintro rfl
        rcases hq1 with h | h <;> rw [hq'] at h <;> cases h
      simp [Table.setKilled, e]
  | knone _ hq =>
    obtain rfl := hi
    refine ⟨⟨fun h => ?_, ?_⟩, fun _ _ => rfl⟩
    · simp [Machine.go, Thr.place, Place.result] at h
    · rintro ⟨q, -, h⟩
      have := Table.find_none hq q
      simp [h] at this
  | sleep _ x _ hx | wakeup _ x _ hx => cases x <;> cases hx

/-- The end of a fork. -/
theorem fork_starts (hm : Reached m ∧ Clear m.data) (ht : m.thr p = .at (.fstart np))
    (hs : Step Spin.ptable careful p m m') :
    (m'.data.slot np).state = .live ∧ (m'.data.slot np).killed = false := by
  obtain ⟨i, hc, hi⟩ := hs.runs ht
  obtain ⟨hc, -⟩ := hc
  cases hc with
  | fstart =>
    obtain rfl := hi
    have hp := hm.1.table.loc p
    rw [ht] at hp
    obtain ⟨he, -⟩ := hp.making np rfl
    simpa [Table.start] using hm.2 np (by simp [Slot.Present, he])
  | sleep _ x _ hx | wakeup _ x _ hx => cases x <;> cases hx

/-- In every run in which no call of `kill` finds a slot that is UNUSED or EMBRYO, `kill` touches
    live processes only. -/
theorem kill_only_live (hr : Steps Spin.ptable careful boot m) : OnlyLive careful m :=
  ⟨fun _ _ _ ht hs => kill_scan ht hs, fun _ _ _ ht hs => fork_starts (careful_reached hr) ht hs⟩

/-- Init forks a child, which has pid 2, and looks for it to kill it. -/
theorem runs_kill : ∃ m, Steps Spin.ptable careful boot m ∧ m.thr 0 = .at (.kscan 2) ∧
    m.data.target 2 = some 1 := by
  refine Steps.reach 0 (.set rfl ⟨.fork rfl, nofun⟩) ?_
  refine Steps.reach 0 (.acquire rfl ⟨.facquire, nofun⟩ rfl) ?_
  refine Steps.reach 0 (.set rfl ⟨.fnext 0 (by decide) (by decide), nofun⟩) ?_
  refine Steps.reach 0 (.set rfl ⟨.ffound 1 (by decide) rfl, nofun⟩) ?_
  refine Steps.reach 0 (.release rfl ⟨.frelease 1, nofun⟩) ?_
  refine Steps.reach 0 (.set rfl ⟨.fkstack 1, nofun⟩) ?_
  refine Steps.reach 0 (.set rfl ⟨.fcopy 1, nofun⟩) ?_
  refine Steps.reach 0 (.set rfl ⟨.fparent 1, nofun⟩) ?_
  refine Steps.reach 0 (.set rfl ⟨.fstart 1, nofun⟩) ?_
  refine Steps.reach 0 (.set rfl ⟨.kill 2 rfl, nofun⟩) ?_
  refine Steps.reach 0 (.acquire rfl ⟨.kacquire 2, nofun⟩ rfl) ?_
  exact ⟨_, .refl, rfl, rfl⟩

theorem kill_only_live_child : ∃ m, Steps Spin.ptable careful boot m ∧
    m.thr 0 = .at (.kscan 2) ∧ OnlyLive careful m := by
  obtain ⟨m, hr, ht, -⟩ := runs_kill
  exact ⟨m, hr, ht, kill_only_live hr⟩

/-- Init calls `kill(0)`, which finds slot 1 although it is UNUSED. The next fork takes that slot,
    and its child starts with `killed` set. -/
theorem kill_unused : ∃ m, Runs boot m ∧ ¬ OnlyLive code m ∧
    ∃ m', Runs m m' ∧ (m'.data.slot 1).state = .live ∧ (m'.data.slot 1).killed = true := by
  refine Steps.reach 0 (.set rfl (.kill 0 rfl)) ?_
  refine Steps.reach 0 (.acquire rfl (.kacquire 0) rfl) ?_
  refine ⟨_, .refl, fun h => ?_, ?_⟩
  · obtain ⟨h, -⟩ := h.kill 0 0 _ rfl (.set rfl (.kfound 0 1 rfl))
    obtain ⟨q, h1, h2⟩ := h.mp rfl
    by_cases e : q = initproc
    · subst e
      cases h2
    · simp [Machine.go, Machine.take, boot, userinit, e] at h1
  · refine Steps.reach 0 (.set rfl (.kfound 0 1 rfl)) ?_
    refine Steps.reach 0 (.rouse rfl (.krouse 1)) ?_
    refine Steps.reach 0 (.release rfl (.krelease 0)) ?_
    refine Steps.reach 0 (.set rfl (.fork rfl)) ?_
    refine Steps.reach 0 (.acquire rfl .facquire rfl) ?_
    refine Steps.reach 0 (.set rfl (.fnext 0 (by decide) (by decide))) ?_
    refine Steps.reach 0 (.set rfl (.ffound 1 (by decide) rfl)) ?_
    refine Steps.reach 0 (.release rfl (.frelease 1)) ?_
    refine Steps.reach 0 (.set rfl (.fkstack 1)) ?_
    refine Steps.reach 0 (.set rfl (.fcopy 1)) ?_
    refine Steps.reach 0 (.set rfl (.fparent 1)) ?_
    refine Steps.reach 0 (.set rfl (.fstart 1)) ?_
    exact ⟨_, .refl, rfl, rfl⟩

end Zv6.Ptable
