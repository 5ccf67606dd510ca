/-
  The pids that `allocproc` gives out.

  `nextpid` is a signed counter of 32 bits that starts at 1, is raised by each `allocproc` and is
  compared with nothing. As long as it has not gone past the largest `int`, the pids in the table
  are positive, below it and different (`Numbered`). The next fork returns a negative number, and
  after 2^32 of them a process has the pid of init.
-/
import Zv6.Proc.Parents

namespace Zv6.Ptable

open Lib Function

/-- A run from `m` in which `allocproc` gives out `n` pids. -/
inductive Took : Nat → Kernel → Kernel → Prop where
  | refl (m : Kernel) : Took 0 m m
  | step {n p m m' m''} (hs : Step Spin.ptable code p m m')
      (hn : m'.data.nextpid = m.data.nextpid) (h : Took n m' m'') : Took n m m''
  | take {n p m m' m''} (hs : Step Spin.ptable code p m m')
      (hn : m'.data.nextpid ≠ m.data.nextpid) (h : Took n m' m'') : Took (n + 1) m m''

/-- No two processes have the same pid, and `fork`, which ends with `pid = np->pid;
    np->state = RUNNABLE; return pid`, returns a positive number. -/
structure Identified (m : Kernel) : Prop where
  unique : ∀ q q', (m.data.slot q).state ≠ .unused → (m.data.slot q').state ≠ .unused →
    (m.data.slot q).pid = (m.data.slot q').pid → q = q'
  fork : ∀ p np, m.thr p = .at (.fstart np) → 0 < (m.data.slot np).pid

/-- The table after `k` pids have been given out to others than init. -/
structure Numbered (d : Table) (k : Nat) : Prop where
  next : d.nextpid = .ofNat (k + 2)
  pos : ∀ q, (d.slot q).state ≠ .unused → 0 < (d.slot q).pid.toInt
  below : ∀ q, (d.slot q).state ≠ .unused → (d.slot q).pid.toInt < k + 2
  unique : ∀ q q', (d.slot q).state ≠ .unused → (d.slot q').state ≠ .unused →
    (d.slot q).pid = (d.slot q').pid → q = q'

variable {d d' : Table} {p q np : Pid} {m m' : Kernel} {k n : Nat}

theorem Took.runs (h : Took n m m') : Runs m m' := by
  induction h with
  | refl m => exact .refl
  | step hs _ _ ih | take hs _ _ ih => exact .head ⟨_, hs⟩ ih

theorem Numbered.userinit : Numbered userinit 0 := by
  have hinit : ∀ q, (Ptable.userinit.slot q).state ≠ .unused → q = initproc := by
    intro q hq
    by_contra e
    simp [Ptable.userinit, e] at hq
  constructor
  · rfl
  · intro q hq
    rw [hinit q hq]
    decide
  · intro q hq
    rw [hinit q hq]
    decide
  · intro q q' hq hq' _
    rw [hinit q hq, hinit q' hq']

/-- The processes of `d'` are among those of `d`. -/
theorem Numbered.keep (h : Numbered d k) (hn : d'.nextpid = d.nextpid)
    (hs : ∀ q, (d'.slot q).state ≠ .unused → (d.slot q).state ≠ .unused)
    (hp : ∀ q, (d'.slot q).state ≠ .unused → (d'.slot q).pid = (d.slot q).pid) :
    Numbered d' k := by
  constructor
  · rw [hn, h.next]
  · intro q hq
    rw [hp q hq]
    exact h.pos q (hs q hq)
  · intro q hq
    rw [hp q hq]
    exact h.below q (hs q hq)
  · intro q q' hq hq' e
    rw [hp q hq, hp q' hq'] at e
    exact h.unique q q' (hs q hq) (hs q' hq') e

theorem Numbered.embryo (h : Numbered d k) (hk : k + 2 < 2 ^ 31) :
    Numbered (d.embryo p np) (k + 1) := by
  have hnext : d.nextpid.toInt = k + 2 := by
    rw [h.next, Int32.toInt_ofNat_of_lt hk]
    rfl
  have hnew : ((d.embryo p np).slot np).pid = d.nextpid := by simp [Table.embryo]
  have hslot : ∀ q, q ≠ np → (d.embryo p np).slot q = d.slot q := by
    intro q e
    simp [Table.embryo, e]
  -- the new pid is above all the others
  have hother : ∀ q, q ≠ np → (d.slot q).state ≠ .unused → (d.slot q).pid ≠ d.nextpid := by
    intro q _ hq e
    have hlt := h.below q hq
    rw [e, hnext] at hlt
    exact absurd hlt (lt_irrefl _)
  constructor
  · show d.nextpid + 1 = _
    rw [h.next, Nat.add_right_comm, Int32.ofNat_add (k + 2) 1]
    rfl
  · intro q hq
    by_cases e : q = np
    · rw [e, hnew, hnext]
      omega
    · rw [hslot q e] at hq ⊢
      exact h.pos q hq
  · intro q hq
    by_cases e : q = np
    · rw [e, hnew, hnext]
      omega
    · rw [hslot q e] at hq ⊢
      have := h.below q hq
      omega
  · intro q q' hq hq' he
    by_cases e : q = np <;> by_cases e' : q' = np
    · rw [e, e']
    · rw [hslot q' e'] at hq'
      rw [e, hnew, hslot q' e'] at he
      exact absurd he.symm (hother q' e' hq')
    · rw [hslot q e] at hq
      rw [e', hnew, hslot q e] at he
      exact absurd he (hother q e hq)
    · rw [hslot q e] at hq he
      rw [hslot q' e'] at hq' he
      exact h.unique q q' hq hq' he

/-- One slot changes and keeps its pid, if it is not made UNUSED. -/
theorem Numbered.slot (h : Numbered d k) (hn : d'.nextpid = d.nextpid)
    (hs : ∀ q', q' ≠ q → d'.slot q' = d.slot q')
    (hq : (d'.slot q).state = .unused ∨
      (d.slot q).state ≠ .unused ∧ (d'.slot q).pid = (d.slot q).pid) : Numbered d' k := by
  refine h.keep hn ?_ ?_
  · intro q' hu
    by_cases e : q' = q
    · subst e
      exact (hq.resolve_left hu).1
    · rw [hs q' e] at hu
      exact hu
  · intro q' hu
    by_cases e : q' = q
    · subst e
      exact (hq.resolve_left hu).2
    · rw [hs q' e]

/-- What an assignment of the code does to the pids. -/
theorem Numbered.set {t u : Place} (h : Numbered m.data k) (hl : Local p t m.data)
    (hc : code m p t (.set d u)) :
    (d.nextpid = m.data.nextpid ∧ Numbered d k) ∨
      (d.nextpid ≠ m.data.nextpid ∧ (k + 2 < 2 ^ 31 → Numbered d (k + 1))) := by
  have hmade : ∀ np, t.making = some np → (m.data.slot np).state ≠ .unused := by
    intro np hnp
    rw [(hl.making np hnp).1]
    decide
  cases hc with
  | ffound i hi hu =>
    refine Or.inr ⟨?_, h.embryo⟩
    show m.data.nextpid + 1 ≠ m.data.nextpid
    intro e
    simp at e
  | fnostack np | fnocopy np =>
    refine Or.inl ⟨rfl, h.slot (q := np) rfl (fun q' e => by simp [Table.fail, e]) (Or.inl ?_)⟩
    simp [Table.fail]
  | fparent np =>
    refine Or.inl ⟨rfl, h.slot (q := np) rfl (fun q' e => by simp [Table.adopt, e]) (Or.inr ?_)⟩
    exact ⟨hmade np rfl, by simp [Table.adopt]⟩
  | fstart np =>
    refine Or.inl ⟨rfl, h.slot (q := np) rfl (fun q' e => by simp [Table.start, e]) (Or.inr ?_)⟩
    exact ⟨hmade np rfl, by simp [Table.start]⟩
  | xzombies _ | xreparent _ => exact Or.inl ⟨rfl, h.keep rfl (fun _ hq => hq) fun _ _ => rfl⟩
  | xzombie =>
    refine Or.inl ⟨rfl, h.slot (q := p) rfl (fun q' e => by simp [Table.die, e]) (Or.inr ?_)⟩
    exact ⟨by rw [hl.alive rfl]; decide, by simp [Table.die]⟩
  | wfound q _ =>
    refine Or.inl ⟨rfl, h.slot (q := q) rfl (fun q' e => by simp [Table.reap, e]) (Or.inl ?_)⟩
    simp [Table.reap]
  | kfound pid q _ =>
    refine Or.inl ⟨rfl, h.keep rfl (fun q' hq => ?_) fun q' _ => ?_⟩
    · by_cases e : q' = q <;> simpa [Table.setKilled, e] using hq
    · by_cases e : q' = q <;> simp [Table.setKilled, e]
  | _ => exact Or.inl ⟨rfl, h⟩

theorem Numbered.step (h : Numbered m.data k) (hr : Reached m) (hs : Step Spin.ptable code p m m') :
    (m'.data.nextpid = m.data.nextpid ∧ Numbered m'.data k) ∨
      (m'.data.nextpid ≠ m.data.nextpid ∧ (k + 2 < 2 ^ 31 → Numbered m'.data (k + 1))) := by
  obtain hd | ⟨t, u, ht, hc⟩ := hs.data
  · rw [hd]
    exact Or.inl ⟨rfl, h⟩
  · have hl := hr.table.loc p
    rw [ht] at hl
    exact h.set hl hc

theorem Took.numbered (h : Took n m m') (hm : Numbered m.data k) (hr : Reached m)
    (hk : k + n + 1 < 2 ^ 31) : Numbered m'.data (k + n) := by
  induction h generalizing k with
  | refl m => exact hm
  | step hs hn _ ih =>
    obtain ⟨-, hm'⟩ | ⟨hne, -⟩ := hm.step hr hs
    · exact ih hm' (hr.step hs) hk
    · exact absurd hn hne
  | take hs hn _ ih =>
    obtain ⟨he, -⟩ | ⟨-, hm'⟩ := hm.step hr hs
    · exact absurd he hn
    · rw [Nat.add_comm _ 1, ← Nat.add_assoc]
      exact ih (hm' (by omega)) (hr.step hs) (by omega)

theorem Numbered.identified (h : Numbered m.data k) (hr : Reached m) : Identified m := by
  refine ⟨h.unique, fun p np ht => ?_⟩
  have hl := hr.table.loc p
  rw [ht] at hl
  obtain ⟨he, -⟩ := hl.making np rfl
  rw [Int32.lt_iff_toInt_lt]
  exact h.pos np (by rw [he]; decide)

/-! ## A process that forks and waits again and again -/

theorem Took.reach {R : Kernel → Prop} (p : Pid) (hs : Step Spin.ptable code p m m')
    (hn : m'.data.nextpid = m.data.nextpid) (h : ∃ m2, Took n m' m2 ∧ R m2) :
    ∃ m2, Took n m m2 ∧ R m2 := by
  obtain ⟨m2, ht, hR⟩ := h
  exact ⟨m2, .step hs hn ht, hR⟩

theorem Took.reach_take {R : Kernel → Prop} (p : Pid) (hs : Step Spin.ptable code p m m')
    (hn : m'.data.nextpid ≠ m.data.nextpid) (h : ∃ m2, Took n m' m2 ∧ R m2) :
    ∃ m2, Took (n + 1) m m2 ∧ R m2 := by
  obtain ⟨m2, ht, hR⟩ := h
  exact ⟨m2, .take hs hn ht, hR⟩

theorem Took.trans {m'' : Kernel} (h : Took n m m') (h' : Took k m' m'') : Took (n + k) m m'' := by
  induction h with
  | refl m => rwa [Nat.zero_add]
  | step hs hn _ ih => exact .step hs hn (ih h')
  | take hs hn _ ih =>
    rw [Nat.add_right_comm]
    exact .take hs hn (ih h')

/-- Init and nobody else; `x` is what is left in slot 1. -/
def alone (x : Slot) (pid : Int32) (count : Nat) (exited : List Nat) (reaped : List Reap) :
    Table :=
  ⟨update userinit.slot 1 x, pid, count, exited, reaped⟩

/-- Init is at `t`, and every other process outside the kernel. -/
def awake (d : Table) (t : Place) : Kernel where
  data := d
  lock _ := none
  thr := update (fun _ => .at .user) 0 (.at t)

theorem awake_eq {t : Place} (hd : m.data = d) (hl : ∀ l, m.lock l = none)
    (h0 : m.thr 0 = .at t) (h1 : ∀ q, q ≠ 0 → m.thr q = .at .user) : m = awake d t := by
  obtain ⟨data, lock, thr⟩ := m
  subst hd
  obtain rfl : lock = fun _ => none := funext hl
  obtain rfl : thr = update (fun _ => .at .user) 0 (.at t) := by
    funext q
    by_cases e : q = 0
    · rw [e, update_self]
      exact h0
    · rw [update_of_ne e]
      exact h1 q e
  rfl

section Cycle

variable (x : Slot) (pid : Int32) (c : Nat) (e : List Nat) (r : List Reap)

/-- The table when init's `fork` is about to return. -/
def forked : Table := ((alone x pid c e r).embryo 0 1).adopt 0 1

/-- Init forks as far as the end, where it returns the child's pid. -/
theorem took_fork (hx : x.state = .unused) :
    Took 1 (awake (alone x pid c e r) .user) (awake (forked x pid c e r) (.fstart 1)) := by
  have hlive : PState.live ≠ .unused := by decide
  have hone : 1 < 64 := by decide
  suffices h : ∃ m, Took 1 (awake (alone x pid c e r) .user) m ∧
      m = awake (forked x pid c e r) (.fstart 1) by
    obtain ⟨m, hm, rfl⟩ := h
    exact hm
  refine Took.reach 0 (.set rfl (.fork rfl)) rfl ?_
  refine Took.reach 0 (.acquire rfl .facquire rfl) rfl ?_
  refine Took.reach 0 (.set rfl (.fnext 0 (by decide) hlive)) rfl ?_
  refine Took.reach_take 0 (.set rfl (.ffound 1 hone hx)) ?_ ?_
  · intro he
    simp [Table.embryo] at he
  refine Took.reach 0 (.release rfl (.frelease 1)) rfl ?_
  refine Took.reach 0 (.set rfl (.fkstack 1)) rfl ?_
  refine Took.reach 0 (.set rfl (.fcopy 1)) rfl ?_
  refine Took.reach 0 (.set rfl (.fparent 1)) rfl ?_
  refine ⟨_, .refl _, awake_eq rfl ?_ rfl ?_⟩
  · intro l
    cases l <;> rfl
  · intro q hq
    simp [Machine.go, Machine.take, Machine.give, awake, hq]

/-- The slots of the others, from the fork on. -/
theorem started_slot {q : Pid} (hq : q ≠ 1) :
    ((forked x pid c e r).start 0 1).slot q = userinit.slot q := by
  simp [Table.start, forked, Table.adopt, Table.embryo, alone, hq]

/-- The child has started and exited, and init has waited for it. -/
theorem reaped_eq : ((((forked x pid c e r).start 0 1).reparent 1).die 1).reap 0 1 =
    alone ⟨.unused, 0, none, false, some 0, c, some (0, 0)⟩ (pid + 1) (c + 1) (e ++ [c])
      (r ++ [⟨c, some (0, 0), some 0, (0, 0)⟩]) := by
  refine congrArg (fun s => Table.mk s _ _ _ _) (funext fun q => ?_)
  by_cases h1 : q = 1
  · subst h1
    rfl
  · have hu : (userinit.slot q).parent = none := by
      unfold userinit
      dsimp only
      split <;> rfl
    have hq : (((forked x pid c e r).start 0 1).reparent 1).slot q = userinit.slot q := by
      unfold Table.reparent
      dsimp only
      rw [started_slot x pid c e r h1, hu, if_neg (by simp), ← hu]
    rw [update_of_ne h1]
    simp [Table.die, h1, hq]

/-- The child starts and exits, and init waits for it. -/
theorem took_wait : ∃ y c' e' r', y.state = .unused ∧
    Took 0 (awake (forked x pid c e r) (.fstart 1)) (awake (alone y (pid + 1) c' e' r') .user) := by
  suffices h : ∃ m, Took 0 (awake (forked x pid c e r) (.fstart 1)) m ∧
      m = awake (((((forked x pid c e r).start 0 1).reparent 1).die 1).reap 0 1) .user by
    obtain ⟨m, hm, rfl⟩ := h
    rw [reaped_eq] at hm
    exact ⟨_, _, _, _, rfl, hm⟩
  have hb : ¬ ((forked x pid c e r).start 0 1).Bereft 1 := by
    rintro ⟨q, -, hz⟩
    by_cases h1 : q = 1
    · simp [Table.start, h1] at hz
    · rw [started_slot x pid c e r h1] at hz
      by_cases h0 : q = initproc <;> simp [userinit, h0] at hz
  refine Took.reach 0 (.set rfl (.fstart 1)) rfl ?_
  refine Took.reach 1 (.set rfl (.exit rfl (by decide))) rfl ?_
  refine Took.reach 1 (.acquire rfl .xacquire rfl) rfl ?_
  refine Took.reach 1 (.wakeup1 rfl (.xwake 0 rfl)) rfl ?_
  refine Took.reach 1 (.set rfl (.xreparent hb)) rfl ?_
  refine Took.reach 1 (.set rfl .xzombie) rfl ?_
  refine Took.reach 1 (.release rfl .xsched) rfl ?_
  refine Took.reach 0 (.set rfl (.wait rfl)) rfl ?_
  refine Took.reach 0 (.acquire rfl .wacquire rfl) rfl ?_
  refine Took.reach 0 (.set rfl (.wfound 1 rfl)) rfl ?_
  refine Took.reach 0 (.release rfl .wrelease) rfl ?_
  refine ⟨_, .refl _, awake_eq rfl ?_ rfl ?_⟩
  · intro l
    cases l <;> rfl
  · intro q hq
    by_cases h1 : q = 1
    · subst h1
      rfl
    · simp [Machine.go, Machine.take, Machine.give, Machine.wake, Thr.woken, awake, hq, h1]

end Cycle

/-- Init forks a child and waits for it, `k` times. -/
theorem took_cycles (k : Nat) (x : Slot) (hx : x.state = .unused) (pid : Int32) (c : Nat)
    (e : List Nat) (r : List Reap) : ∃ y c' e' r', y.state = .unused ∧
      Took k (awake (alone x pid c e r) .user)
        (awake (alone y (pid + .ofNat k) c' e' r') .user) := by
  induction k generalizing x pid c e r with
  | zero =>
    refine ⟨x, c, e, r, hx, ?_⟩
    have h0 : pid + .ofNat 0 = pid := Int32.add_zero pid
    rw [h0]
    exact .refl _
  | succ k ih =>
    obtain ⟨y, c1, e1, r1, hy, h1⟩ := took_wait x pid c e r
    obtain ⟨z, c2, e2, r2, hz, h2⟩ := ih y hy (pid + 1) c1 e1 r1
    have hk : pid + 1 + .ofNat k = pid + .ofNat (k + 1) := by
      rw [Int32.add_assoc, Nat.add_comm k 1, Int32.ofNat_add 1 k]
      rfl
    rw [hk] at h2
    refine ⟨z, c2, e2, r2, hz, ?_⟩
    have h := (took_fork x pid c e r hx).trans (h1.trans h2)
    rwa [Nat.zero_add, Nat.add_comm] at h

theorem boot_alone : boot = awake (alone (userinit.slot 1) 2 1 [] []) .user := by
  refine awake_eq ?_ (fun _ => rfl) rfl fun _ _ => rfl
  show userinit = ⟨update userinit.slot 1 (userinit.slot 1), 2, 1, [], []⟩
  rw [update_eq_self]
  rfl

/-- After `k` children init is at the end of another fork, whose pid is `k + 2` on 32 bits. -/
theorem took_forks (k : Nat) : ∃ m, Took (k + 1) boot m ∧ m.thr 0 = .at (.fstart 1) ∧
    (m.data.slot 1).state = .embryo ∧ (m.data.slot 1).pid = 2 + .ofNat k ∧
    (m.data.slot 0).state = .live ∧ (m.data.slot 0).pid = 1 := by
  obtain ⟨y, c, e, r, hy, h⟩ := took_cycles k (userinit.slot 1) rfl 2 1 [] []
  rw [← boot_alone] at h
  exact ⟨_, h.trans (took_fork y _ c e r hy), rfl, rfl, rfl, rfl, rfl⟩

/-- Every run with at most `n` pids given out after init's keeps the pids apart and `fork`'s
    results positive if and only if `n` is less than 2^31 - 1. -/
theorem pids_unique_iff (n : Nat) :
    (∀ k m, k ≤ n → Took k boot m → Identified m) ↔ n < 2 ^ 31 - 1 := by
  constructor
  · intro h
    by_contra hn
    obtain ⟨m, hm, ht, -, hp, -⟩ := took_forks (2 ^ 31 - 2)
    have hpos := (h _ m (by omega) hm).fork 0 1 ht
    rw [hp] at hpos
    exact absurd hpos (by decide)
  · intro hn k m hk hm
    have hr : Reached boot := Runs.reached .refl
    have hnum := hm.numbered .userinit hr (by omega)
    exact hnum.identified hm.runs.reached

/-- Init forks a child and waits for it 2^31 - 2 times: the next `fork` returns -2147483648.
    After 2^32 - 1 times the next child has the pid of init. -/
theorem pids_repeat :
    (∃ m, Runs boot m ∧ m.thr 0 = .at (.fstart 1) ∧ (m.data.slot 1).pid = -2147483648) ∧
      ∃ m, Runs boot m ∧ (m.data.slot 0).state = .live ∧ (m.data.slot 1).state = .embryo ∧
        (m.data.slot 1).pid = (m.data.slot 0).pid := by
  constructor
  · obtain ⟨m, hm, ht, -, hp, -⟩ := took_forks (2 ^ 31 - 2)
    exact ⟨m, hm.runs, ht, by rw [hp]; decide⟩
  · obtain ⟨m, hm, -, hs, hp, hs0, hp0⟩ := took_forks (2 ^ 32 - 1)
    exact ⟨m, hm.runs, hs0, hs, by rw [hp, hp0]; decide⟩

end Zv6.Ptable
