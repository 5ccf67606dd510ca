/-
  Threads that share data under spinlocks, with sleep and wakeup.

  A thread is at a place of its code. `code m p t i`: in state `m` thread `p`, at place `t`, may
  run the instruction `i`. Every step is one lock taken, one lock given back, or one change of
  the data; between any two steps any other thread may run.

  `sleep c l k` is the protocol of a kernel with a lock `tbl` on the table of threads: take
  `tbl`, give back `l`, become a sleeper on `c`, give back `tbl`; once woken take `tbl`, give it
  back, take `l`, go on at `k`. A wakeup of `c` takes `tbl` too, so it cannot come between the
  two locks of a thread that is falling asleep. If `l` is `tbl` itself it is given back and taken
  once.

  `LockInv.step`: if each place of the code says which locks it has, each lock is with the one
  thread that has it.
-/
import Mathlib.Order.BooleanAlgebra.Set

namespace Zv6.Lib

open Function

/-- An instruction for threads `P`, locks `ι`, channels `κ`, data `σ` and places `τ`; `k` is the
    place the thread goes on at. -/
inductive Instr (P ι κ σ τ : Type) where
  | acquire (l : ι) (k : τ)
  | release (l : ι) (k : τ)
  | set (d : σ) (k : τ)
  | sleep (c : κ) (l : ι) (k : τ)
  | wakeup (c : κ) (k : τ)
  /-- The wakeup of a thread that has `tbl` already. -/
  | wakeup1 (c : κ) (k : τ)
  /-- Wake the thread `q`, whatever it sleeps on. -/
  | rouse (q : P) (k : τ)

/-- Where a thread is: at a place, or inside `sleep` or `wakeup`. -/
inductive Thr (ι κ τ : Type) where
  | at (k : τ)
  /-- Has `l` and `tbl`. -/
  | sleep1 (c : κ) (l : ι) (k : τ)
  /-- Has `tbl`. -/
  | sleep2 (c : κ) (l : ι) (k : τ)
  | asleep (c : κ) (l : ι) (k : τ)
  /-- Woken. -/
  | ready (l : ι) (k : τ)
  /-- Has `tbl`. -/
  | back (l : ι) (k : τ)
  | relock (l : ι) (k : τ)
  /-- Has `tbl`. -/
  | wake1 (c : κ) (k : τ)
  /-- Has `tbl`. -/
  | wake2 (k : τ)

/-- The place a thread is at or goes on at. -/
def Thr.place {ι κ τ : Type} : Thr ι κ τ → τ
  | .at k => k
  | .sleep1 _ _ k => k
  | .sleep2 _ _ k => k
  | .asleep _ _ k => k
  | .ready _ k => k
  | .back _ k => k
  | .relock _ k => k
  | .wake1 _ k => k
  | .wake2 k => k

/-- The thread after a wakeup of `c`. -/
def Thr.woken {ι κ τ : Type} [DecidableEq κ] (c : κ) : Thr ι κ τ → Thr ι κ τ
  | .asleep c' l k => if c' = c then .ready l k else .asleep c' l k
  | t => t

/-- The thread after it was roused. -/
def Thr.roused {ι κ τ : Type} : Thr ι κ τ → Thr ι κ τ
  | .asleep _ l k => .ready l k
  | t => t

structure Machine (P ι κ σ τ : Type) where
  data : σ
  lock : ι → Option P
  thr : P → Thr ι κ τ

variable {P ι κ σ τ : Type}

section Machine

variable [DecidableEq P] [DecidableEq ι] [DecidableEq κ]

namespace Machine

/-- Thread `p` goes to `t`. -/
def go (m : Machine P ι κ σ τ) (p : P) (t : Thr ι κ τ) : Machine P ι κ σ τ :=
  { m with thr := update m.thr p t }

/-- `p` takes the lock `l`. -/
def take (m : Machine P ι κ σ τ) (p : P) (l : ι) : Machine P ι κ σ τ :=
  { m with lock := update m.lock l (some p) }

/-- The lock `l` is given back. -/
def give (m : Machine P ι κ σ τ) (l : ι) : Machine P ι κ σ τ :=
  { m with lock := update m.lock l none }

/-- All sleepers on `c` are woken. -/
def wake (m : Machine P ι κ σ τ) (c : κ) : Machine P ι κ σ τ :=
  { m with thr := fun q => (m.thr q).woken c }

/-- Thread `q` is woken. -/
def rouse (m : Machine P ι κ σ τ) (q : P) : Machine P ι κ σ τ :=
  { m with thr := update m.thr q (m.thr q).roused }

/-- The channels that threads sleep on which gave up the lock `l`. A thread that has become a
    sleeper but still has the table's lock counts. -/
def slept (m : Machine P ι κ σ τ) (l : ι) : Set κ :=
  { c | ∃ p k, m.thr p = .sleep2 c l k ∨ m.thr p = .asleep c l k }

/-- These channels and those of the threads that are about to give up the lock `l`. -/
def dozing (m : Machine P ι κ σ τ) (l : ι) : Set κ :=
  { c | ∃ p k, m.thr p = .sleep1 c l k ∨ m.thr p = .sleep2 c l k ∨ m.thr p = .asleep c l k }

end Machine

/-- Which instructions a thread may run next. -/
def Code (P ι κ σ τ : Type) := Machine P ι κ σ τ → P → τ → Instr P ι κ σ τ → Prop

/-- One step of thread `p`. -/
inductive Step (tbl : ι) (code : Code P ι κ σ τ) (p : P) :
    Machine P ι κ σ τ → Machine P ι κ σ τ → Prop where
  | acquire {m t l k} (ht : m.thr p = .at t) (hc : code m p t (.acquire l k))
      (hl : m.lock l = none) : Step tbl code p m ((m.take p l).go p (.at k))
  | release {m t l k} (ht : m.thr p = .at t) (hc : code m p t (.release l k)) :
      Step tbl code p m ((m.give l).go p (.at k))
  | set {m t d k} (ht : m.thr p = .at t) (hc : code m p t (.set d k)) :
      Step tbl code p m { m.go p (.at k) with data := d }
  | sleep {m t c l k} (ht : m.thr p = .at t) (hc : code m p t (.sleep c l k)) (hl : l ≠ tbl)
      (hf : m.lock tbl = none) : Step tbl code p m ((m.take p tbl).go p (.sleep1 c l k))
  | sleepTbl {m t c k} (ht : m.thr p = .at t) (hc : code m p t (.sleep c tbl k)) :
      Step tbl code p m (m.go p (.sleep2 c tbl k))
  | drop {m c l k} (ht : m.thr p = .sleep1 c l k) :
      Step tbl code p m ((m.give l).go p (.sleep2 c l k))
  | fall {m c l k} (ht : m.thr p = .sleep2 c l k) :
      Step tbl code p m ((m.give tbl).go p (.asleep c l k))
  | resume {m l k} (ht : m.thr p = .ready l k) (hf : m.lock tbl = none) :
      Step tbl code p m ((m.take p tbl).go p (.back l k))
  | back {m l k} (ht : m.thr p = .back l k) (hl : l ≠ tbl) :
      Step tbl code p m ((m.give tbl).go p (.relock l k))
  | backTbl {m k} (ht : m.thr p = .back tbl k) : Step tbl code p m (m.go p (.at k))
  | relock {m l k} (ht : m.thr p = .relock l k) (hf : m.lock l = none) :
      Step tbl code p m ((m.take p l).go p (.at k))
  | wakeup {m t c k} (ht : m.thr p = .at t) (hc : code m p t (.wakeup c k))
      (hf : m.lock tbl = none) : Step tbl code p m ((m.take p tbl).go p (.wake1 c k))
  | wake {m c k} (ht : m.thr p = .wake1 c k) :
      Step tbl code p m ((m.wake c).go p (.wake2 k))
  | woken {m k} (ht : m.thr p = .wake2 k) : Step tbl code p m ((m.give tbl).go p (.at k))
  | wakeup1 {m t c k} (ht : m.thr p = .at t) (hc : code m p t (.wakeup1 c k)) :
      Step tbl code p m ((m.wake c).go p (.at k))
  | rouse {m t q k} (ht : m.thr p = .at t) (hc : code m p t (.rouse q k)) :
      Step tbl code p m ((m.rouse q).go p (.at k))

/-- Some threads took steps one after the other. -/
def Steps (tbl : ι) (code : Code P ι κ σ τ) : Machine P ι κ σ τ → Machine P ι κ σ τ → Prop :=
  Relation.ReflTransGen fun m m' => ∃ p, Step tbl code p m m'

end Machine

/-! ## Locks -/

section Locks

variable (tbl : ι) (holds : τ → Set ι)

/-- The locks a thread has; `holds` are those it has at each place. -/
def Thr.locks : Thr ι κ τ → Set ι
  | .at k => holds k
  | .sleep1 _ l _ => {l, tbl}
  | .sleep2 _ _ _ => {tbl}
  | .asleep _ _ _ => ∅
  | .ready _ _ => ∅
  | .back _ _ => {tbl}
  | .relock _ _ => ∅
  | .wake1 _ k => insert tbl (holds k)
  | .wake2 k => insert tbl (holds k)

/-- A sleeper goes on with the lock it gave up and no other. -/
def Thr.Wf : Thr ι κ τ → Prop
  | .at _ => True
  | .sleep1 _ l k => l ≠ tbl ∧ holds k = {l}
  | .sleep2 _ l k => holds k = {l}
  | .asleep _ l k => holds k = {l}
  | .ready l k => holds k = {l}
  | .back l k => holds k = {l}
  | .relock l k => holds k = {l}
  | .wake1 _ k => tbl ∉ holds k
  | .wake2 k => tbl ∉ holds k

/-- The instruction is right for a thread with the locks of `t`. -/
def Instr.Fits (t : τ) : Instr P ι κ σ τ → Prop
  | .acquire l k => l ∉ holds t ∧ holds k = insert l (holds t)
  | .release l k => l ∈ holds t ∧ holds k = holds t \ {l}
  | .set _ k => holds k = holds t
  | .sleep _ l k => holds t = {l} ∧ holds k = {l}
  | .wakeup _ k => tbl ∉ holds t ∧ holds k = holds t
  | .wakeup1 _ k => tbl ∈ holds t ∧ holds k = holds t
  | .rouse _ k => tbl ∈ holds t ∧ holds k = holds t

/-- Each lock is with the one thread that has it. -/
structure LockInv (m : Machine P ι κ σ τ) : Prop where
  wf : ∀ p, (m.thr p).Wf tbl holds
  lock : ∀ p l, m.lock l = some p ↔ l ∈ (m.thr p).locks tbl holds

variable {tbl holds} {m m' : Machine P ι κ σ τ} {p q : P} {c : κ} {l : ι}

/-- No two threads have one lock. -/
theorem LockInv.unique (h : LockInv tbl holds m) (hp : l ∈ (m.thr p).locks tbl holds)
    (hq : l ∈ (m.thr q).locks tbl holds) : p = q := by
  have h1 := (h.lock p l).mpr hp
  rw [(h.lock q l).mpr hq] at h1
  exact (Option.some.inj h1).symm

theorem Thr.woken_cases [DecidableEq κ] (c : κ) (t : Thr ι κ τ) :
    t.woken c = t ∨ ∃ l k, t = .asleep c l k ∧ t.woken c = .ready l k := by
  cases t with
  | asleep c' l k =>
    by_cases h : c' = c
    · exact Or.inr ⟨l, k, by rw [h], if_pos h⟩
    · exact Or.inl (if_neg h)
  | _ => exact Or.inl rfl

@[simp] theorem Thr.woken_locks [DecidableEq κ] (t : Thr ι κ τ) :
    (t.woken c).locks tbl holds = t.locks tbl holds := by
  obtain h | ⟨l, k, rfl, h⟩ := t.woken_cases c <;> rw [h]
  rfl

theorem Thr.Wf.woken [DecidableEq κ] {t : Thr ι κ τ} (hw : t.Wf tbl holds) :
    (t.woken c).Wf tbl holds := by
  obtain h | ⟨l, k, rfl, h⟩ := t.woken_cases c <;> rw [h] <;> exact hw

@[simp] theorem Thr.roused_locks (t : Thr ι κ τ) :
    t.roused.locks tbl holds = t.locks tbl holds := by
  cases t <;> rfl

theorem Thr.Wf.roused {t : Thr ι κ τ} (h : t.Wf tbl holds) : t.roused.Wf tbl holds := by
  cases t <;> exact h

/-- Thread `p` moves on and takes or gives locks of its own. -/
theorem LockInv.moves {t' : Thr ι κ τ} (h : LockInv tbl holds m) (hthr : m'.thr p = t')
    (hother : ∀ q, q ≠ p → m'.thr q = m.thr q) (hw : t'.Wf tbl holds)
    (hp : ∀ l, m'.lock l = some p ↔ l ∈ t'.locks tbl holds)
    (ho : ∀ q l, q ≠ p → (m'.lock l = some q ↔ m.lock l = some q)) : LockInv tbl holds m' := by
  constructor
  · intro q
    by_cases hq : q = p
    · rw [hq, hthr]
      exact hw
    · rw [hother q hq]
      exact h.wf q
  · intro q l
    by_cases hq : q = p
    · rw [hq, hthr]
      exact hp l
    · rw [hother q hq, ho q l hq]
      exact h.lock q l

section Moves

variable [DecidableEq P] {t' : Thr ι κ τ}

theorem LockInv.go (h : LockInv tbl holds m) (hw : t'.Wf tbl holds)
    (hl : t'.locks tbl holds = (m.thr p).locks tbl holds) : LockInv tbl holds (m.go p t') := by
  refine h.moves (update_self ..) (fun q hq => update_of_ne hq ..) hw ?_
    fun _ _ _ => Iff.rfl
  intro l
  rw [hl]
  exact h.lock p l

theorem LockInv.take [DecidableEq ι] (h : LockInv tbl holds m) (hf : m.lock l = none)
    (hw : t'.Wf tbl holds) (hl : t'.locks tbl holds = insert l ((m.thr p).locks tbl holds)) :
    LockInv tbl holds ((m.take p l).go p t') := by
  refine h.moves (update_self ..) (fun q hq => update_of_ne hq ..) hw ?_ ?_
  · intro l'
    show update m.lock l (some p) l' = some p ↔ _
    rw [hl]
    by_cases e : l' = l
    · subst e
      simp
    · rw [update_of_ne e, h.lock p l']
      simp [e]
  · intro q l' hq
    show update m.lock l (some p) l' = some q ↔ _
    by_cases e : l' = l
    · subst e
      simp [hf, Ne.symm hq]
    · rw [update_of_ne e]

theorem LockInv.give [DecidableEq ι] (h : LockInv tbl holds m)
    (hf : l ∈ (m.thr p).locks tbl holds) (hw : t'.Wf tbl holds)
    (hl : t'.locks tbl holds = (m.thr p).locks tbl holds \ {l}) :
    LockInv tbl holds ((m.give l).go p t') := by
  refine h.moves (update_self ..) (fun q hq => update_of_ne hq ..) hw ?_ ?_
  · intro l'
    show update m.lock l none l' = some p ↔ _
    rw [hl]
    by_cases e : l' = l
    · subst e
      simp
    · rw [update_of_ne e, h.lock p l']
      simp [e]
  · intro q l' hq
    show update m.lock l none l' = some q ↔ _
    by_cases e : l' = l
    · subst e
      simp [(h.lock p l').mpr hf, Ne.symm hq]
    · rw [update_of_ne e]

end Moves

theorem LockInv.wake [DecidableEq κ] (h : LockInv tbl holds m) : LockInv tbl holds (m.wake c) :=
  ⟨fun q => (h.wf q).woken, fun q l => by
    rw [show (m.wake c).thr q = (m.thr q).woken c from rfl, Thr.woken_locks]
    exact h.lock q l⟩

theorem LockInv.rouse [DecidableEq P] (h : LockInv tbl holds m) :
    LockInv tbl holds (m.rouse q) := by
  refine h.moves (update_self ..) (fun q' hq => update_of_ne hq ..)
    (h.wf q).roused ?_ fun _ _ _ => Iff.rfl
  intro l
  rw [Thr.roused_locks]
  exact h.lock q l

theorem Machine.wake_others [DecidableEq P] [DecidableEq κ] {c : κ} {x : Thr ι κ τ} {q : P}
    (hq : q ≠ p) : ((m.wake c).go p x).thr q = m.thr q ∨
      ∃ l k, m.thr q = .asleep c l k ∧ ((m.wake c).go p x).thr q = .ready l k := by
  rw [show ((m.wake c).go p x).thr q = (m.thr q).woken c from update_of_ne hq ..]
  exact (m.thr q).woken_cases c

variable [DecidableEq P] [DecidableEq ι] [DecidableEq κ] {code : Code P ι κ σ τ}

/-- What a step of `p` does to the other threads. -/
theorem Step.others {q : P} (hs : Step tbl code p m m') (hq : q ≠ p) :
    m'.thr q = m.thr q ∨ ∃ c l k, m.thr q = .asleep c l k ∧ m'.thr q = .ready l k := by
  cases hs with
  | wake | wakeup1 => exact (Machine.wake_others hq).imp_right fun h => ⟨_, h⟩
  | @rouse t r k ht hc =>
    rw [show ((m.rouse r).go p _).thr q = (m.rouse r).thr q from update_of_ne hq ..]
    by_cases e : q = r
    · subst e
      rw [show (m.rouse q).thr q = (m.thr q).roused from update_self ..]
      cases hr : m.thr q with
      | asleep c l k => exact Or.inr ⟨c, l, k, rfl, rfl⟩
      | _ => exact Or.inl rfl
    · exact Or.inl (update_of_ne e ..)
  | _ => exact Or.inl (update_of_ne hq ..)

theorem LockInv.step (hfits : ∀ m p t i, code m p t i → Instr.Fits tbl holds t i)
    (h : LockInv tbl holds m) (hs : Step tbl code p m m') : LockInv tbl holds m' := by
  have hw := h.wf p
  cases hs with
  | acquire ht hc hl =>
    refine h.take hl trivial ?_
    rw [ht]
    exact (hfits _ _ _ _ hc).2
  | release ht hc =>
    refine h.give ?_ trivial ?_ <;> rw [ht]
    · exact (hfits _ _ _ _ hc).1
    · exact (hfits _ _ _ _ hc).2
  | @set t d k ht hc =>
    have h1 : LockInv tbl holds (m.go p (.at k)) := by
      refine h.go trivial ?_
      rw [ht]
      exact hfits _ _ _ _ hc
    exact ⟨h1.wf, h1.lock⟩
  | @sleep _ _ l k ht hc hl hf =>
    obtain ⟨h1, h2⟩ := hfits _ _ _ _ hc
    refine h.take hf ⟨hl, h2⟩ ?_
    rw [ht]
    show {l, tbl} = insert tbl (holds _)
    rw [h1, Set.pair_comm]
  | sleepTbl ht hc =>
    obtain ⟨h1, h2⟩ := hfits _ _ _ _ hc
    refine h.go h2 ?_
    rw [ht]
    exact h1.symm
  | @drop c l k ht =>
    rw [ht] at hw
    refine h.give ?_ hw.2 ?_ <;> rw [ht]
    · exact Set.mem_insert ..
    · show {tbl} = ({l, tbl} : Set ι) \ {l}
      rw [Set.insert_sdiff_self_of_notMem]
      exact hw.1
  | fall ht | back ht =>
    rw [ht] at hw
    refine h.give ?_ hw ?_ <;> rw [ht]
    · exact Set.mem_singleton _
    · exact Set.sdiff_self.symm
  | resume ht hf =>
    rw [ht] at hw
    refine h.take hf hw ?_
    rw [ht]
    exact (insert_empty_eq _).symm
  | backTbl ht =>
    rw [ht] at hw
    refine h.go trivial ?_
    rw [ht]
    exact hw
  | relock ht hf =>
    rw [ht] at hw
    refine h.take hf trivial ?_
    rw [ht]
    exact hw.trans (insert_empty_eq _).symm
  | wakeup ht hc hf =>
    obtain ⟨h1, h2⟩ := hfits _ _ _ _ hc
    refine h.take hf (by rw [← h2] at h1; exact h1) ?_
    rw [ht]
    exact congrArg (insert tbl) h2
  | wake ht =>
    rw [ht] at hw
    refine h.wake.go hw ?_
    show _ = ((m.thr p).woken _).locks tbl holds
    rw [Thr.woken_locks, ht]
    rfl
  | woken ht =>
    rw [ht] at hw
    refine h.give ?_ trivial ?_ <;> rw [ht]
    · exact Set.mem_insert ..
    · exact (Set.insert_sdiff_self_of_notMem hw).symm
  | wakeup1 ht hc =>
    refine h.wake.go trivial ?_
    show _ = ((m.thr p).woken _).locks tbl holds
    rw [Thr.woken_locks, ht]
    exact (hfits _ _ _ _ hc).2
  | @rouse t q k ht hc =>
    refine h.rouse.go trivial ?_
    have hp : ((m.rouse q).thr p).locks tbl holds = (m.thr p).locks tbl holds := by
      show (update m.thr q (m.thr q).roused p).locks tbl holds = _
      by_cases e : p = q
      · rw [e, update_self, Thr.roused_locks]
      · rw [update_of_ne e]
    rw [hp, ht]
    exact (hfits _ _ _ _ hc).2

end Locks

/-! ## Invariants of the code in use -/

section Under

variable [DecidableEq P] [DecidableEq ι] [DecidableEq κ] {tbl : ι} {code code' : Code P ι κ σ τ}
  {m m' : Machine P ι κ σ τ} {p : P}

theorem Step.mono (h : ∀ t i, code m p t i → code' m p t i) (hs : Step tbl code p m m') :
    Step tbl code' p m m' := by
  cases hs with
  | acquire ht hc hl => exact .acquire ht (h _ _ hc) hl
  | release ht hc => exact .release ht (h _ _ hc)
  | set ht hc => exact .set ht (h _ _ hc)
  | sleep ht hc hl hf => exact .sleep ht (h _ _ hc) hl hf
  | sleepTbl ht hc => exact .sleepTbl ht (h _ _ hc)
  | drop ht => exact .drop ht
  | fall ht => exact .fall ht
  | resume ht hf => exact .resume ht hf
  | back ht hl => exact .back ht hl
  | backTbl ht => exact .backTbl ht
  | relock ht hf => exact .relock ht hf
  | wakeup ht hc hf => exact .wakeup ht (h _ _ hc) hf
  | wake ht => exact .wake ht
  | woken ht => exact .woken ht
  | wakeup1 ht hc => exact .wakeup1 ht (h _ _ hc)
  | rouse ht hc => exact .rouse ht (h _ _ hc)

theorem Steps.mono (h : ∀ m p t i, code m p t i → code' m p t i) (hs : Steps tbl code m m') :
    Steps tbl code' m m' := by
  induction hs with
  | refl => exact .refl
  | tail _ hstep ih =>
    obtain ⟨p, hstep⟩ := hstep
    exact ih.tail ⟨p, hstep.mono fun t i => h _ p t i⟩

/-- A step towards a state that `R` holds of. -/
theorem Steps.reach {R : Machine P ι κ σ τ → Prop} (p : P) (hs : Step tbl code p m m')
    (h : ∃ m2, Steps tbl code m' m2 ∧ R m2) : ∃ m2, Steps tbl code m m2 ∧ R m2 := by
  obtain ⟨m2, hr, hR⟩ := h
  exact ⟨m2, .head ⟨p, hs⟩ hr, hR⟩

/-- One step, then the rest. -/
theorem Steps.step {m1 m2 : Machine P ι κ σ τ} (hs : Step tbl code p m m') (e : m' = m1)
    (hr : Steps tbl code m1 m2) : Steps tbl code m m2 :=
  Relation.ReflTransGen.head ⟨p, e ▸ hs⟩ hr

/-- Only a `set` changes the data. -/
theorem Step.data (hs : Step tbl code p m m') : m'.data = m.data ∨
    ∃ t k, m.thr p = .at t ∧ code m p t (.set m'.data k) := by
  cases hs with
  | set ht hc => exact Or.inr ⟨_, _, ht, hc⟩
  | _ => exact Or.inl rfl

/-- A thread at a place runs an instruction of the code; a `set` does nothing else. -/
theorem Step.runs {t : τ} (hs : Step tbl code p m m') (ht : m.thr p = .at t) :
    ∃ i, code m p t i ∧ match i with
      | .set d k => m' = { m.go p (.at k) with data := d }
      | _ => True := by
  cases hs with
  | set ht' hc =>
    obtain rfl := Thr.at.inj (ht.symm.trans ht')
    exact ⟨_, hc, rfl⟩
  | acquire ht' hc | release ht' hc | sleep ht' hc | sleepTbl ht' hc | wakeup ht' hc
  | wakeup1 ht' hc | rouse ht' hc =>
    obtain rfl := Thr.at.inj (ht.symm.trans ht')
    exact ⟨_, hc, trivial⟩
  | drop ht' | fall ht' | resume ht' | back ht' | backTbl ht' | relock ht' | wake ht' | woken ht' =>
    rw [ht] at ht'
    cases ht'

/-- What every step keeps may be assumed of the states the code runs in. -/
theorem Steps.under {I : Machine P ι κ σ τ → Prop} (h0 : I m)
    (hI : ∀ p m m', I m → Step tbl code p m m' → I m') (hs : Steps tbl code m m') :
    Steps tbl (fun m p t i => code m p t i ∧ I m) m m' ∧ I m' := by
  induction hs with
  | refl => exact ⟨.refl, h0⟩
  | tail _ hstep ih =>
    obtain ⟨p, hstep⟩ := hstep
    exact ⟨ih.1.tail ⟨p, hstep.mono fun t i hc => ⟨hc, ih.2⟩⟩, hI _ _ _ ih.2 hstep⟩

/-- Each sleeper, and each thread about to be one, goes on at a place that fits its channel. -/
def Waits (W : κ → τ → Prop) (m : Machine P ι κ σ τ) : Prop :=
  ∀ p c l k, m.thr p = .sleep1 c l k ∨ m.thr p = .sleep2 c l k ∨ m.thr p = .asleep c l k → W c k

theorem Waits.step {W : κ → τ → Prop} (hW : ∀ m p t c l k, code m p t (.sleep c l k) → W c k)
    (h : Waits W m) (hs : Step tbl code p m m') : Waits W m' := by
  intro q c l k hq
  by_cases e : q = p
  · subst e
    cases hs with
    | sleep ht hc hl hf =>
      simp only [Machine.go, update_self, Thr.sleep1.injEq, reduceCtorEq, or_false] at hq
      obtain ⟨rfl, rfl, rfl⟩ := hq
      exact hW _ _ _ _ _ _ hc
    | sleepTbl ht hc =>
      simp only [Machine.go, update_self, Thr.sleep2.injEq, reduceCtorEq, or_false,
        false_or] at hq
      obtain ⟨rfl, rfl, rfl⟩ := hq
      exact hW _ _ _ _ _ _ hc
    | drop ht =>
      simp only [Machine.go, update_self, Thr.sleep2.injEq, reduceCtorEq, or_false,
        false_or] at hq
      obtain ⟨rfl, rfl, rfl⟩ := hq
      exact h _ _ _ _ (Or.inl ht)
    | fall ht =>
      simp only [Machine.go, update_self, Thr.asleep.injEq, reduceCtorEq, false_or] at hq
      obtain ⟨rfl, rfl, rfl⟩ := hq
      exact h _ _ _ _ (Or.inr (Or.inl ht))
    | _ => simp [Machine.go] at hq
  · obtain h' | ⟨c', l', k', -, h'⟩ := hs.others e
    · rw [h'] at hq
      exact h q c l k hq
    · rw [h'] at hq
      simp at hq

end Under

end Zv6.Lib
