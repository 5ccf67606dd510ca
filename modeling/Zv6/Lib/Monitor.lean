/-
  The proof rule for data under a lock, with sleepers.

  An invariant `J` of the data and of the channels slept on holds while the lock `l0` is free, an
  assertion `A` at each place that has `l0`, and a local assertion `S` at each place, which no
  other thread disturbs. `Monitor` says what is to be shown of each instruction; `MonInv.steps`:
  then all three hold in every state reached.

  A thread that falls asleep on `c` with `l0` has to establish `J` with `c` slept on, so `J` may
  say what every sleeper on `c` waits for. A wakeup takes `c` away from the channels slept on, and
  being woken without one never hurts, since `J` and `A` are kept when sleepers go.
-/
import Zv6.Lib.Threads

namespace Zv6.Lib

open Function

variable {P ι κ σ τ : Type}

/-! ## The rule -/

/-- The thread gave up `l` to sleep and goes on at `k`. -/
def Thr.Gone (l : ι) (k : τ) : Thr ι κ τ → Prop
  | .sleep1 _ l' k' => l' = l ∧ k' = k
  | .sleep2 _ l' k' => l' = l ∧ k' = k
  | .asleep _ l' k' => l' = l ∧ k' = k
  | .ready l' k' => l' = l ∧ k' = k
  | .back l' k' => l' = l ∧ k' = k
  | .relock l' k' => l' = l ∧ k' = k
  | _ => False

section Rule

variable (tbl l0 : ι) (holds : τ → Set ι) (J : σ → Set κ → Prop)
  (A : P → τ → σ → Set κ → Prop) (S : P → τ → σ → Prop)

/-- What is to be shown of an instruction at place `t`. `Z` are the channels slept on. -/
def Instr.Ok (m : Machine P ι κ σ τ) (p : P) (t : τ) : Instr P ι κ σ τ → Prop
  | .acquire l k => S p k m.data ∧ (l = l0 → J m.data (m.slept l0) → A p k m.data (m.slept l0)) ∧
      (l ≠ l0 → l0 ∈ holds t → A p k m.data (m.slept l0))
  | .release l k => S p k m.data ∧ (l = l0 → J m.data (m.slept l0)) ∧
      (l ≠ l0 → l0 ∈ holds t → A p k m.data (m.slept l0))
  | .set d k => S p k d ∧ (∀ q, q ≠ p → S q (m.thr q).place d) ∧
      (l0 ∈ holds t → A p k d (m.slept l0)) ∧
      (l0 ∉ holds t → (∀ Z, Z ⊆ m.dozing l0 → J m.data Z → J d Z) ∧
        ∀ q u Z, q ≠ p → Z ⊆ m.dozing l0 → A q u m.data Z → A q u d Z)
  | .sleep c l k => S p k m.data ∧ (l = l0 → J m.data (insert c (m.slept l0)) ∧
      ∀ d Z, S p k d → J d Z → A p k d Z)
  | .wakeup c k => S p k m.data ∧ (l0 ∈ holds t → A p k m.data (m.slept l0 \ {c}))
  | .wakeup1 c k => S p k m.data ∧ (l0 ∈ holds t → A p k m.data (m.slept l0 \ {c}))
  | .rouse _ k => S p k m.data ∧ (l0 ∈ holds t → A p k m.data (m.slept l0))

structure Monitor (code : Code P ι κ σ τ) : Prop where
  fits : ∀ m p t i, code m p t i → Instr.Fits tbl holds t i
  J_anti : ∀ {d Z Z'}, Z' ⊆ Z → J d Z → J d Z'
  A_anti : ∀ {p t d Z Z'}, Z' ⊆ Z → A p t d Z → A p t d Z'
  ok : ∀ {m p t i}, LockInv tbl holds m → (∀ q, S q (m.thr q).place m.data) → m.thr p = .at t →
    code m p t i → (l0 ∈ holds t → A p t m.data (m.slept l0)) → Instr.Ok l0 holds J A S m p t i

variable {l0 holds J A S} in
/-- A test changes nothing but the place. -/
theorem Instr.Ok.test {m : Machine P ι κ σ τ} {p : P} {t k : τ}
    (hS : ∀ q, S q (m.thr q).place m.data) (h1 : S p k m.data)
    (h2 : l0 ∈ holds t → A p k m.data (m.slept l0)) :
    Instr.Ok l0 holds J A S m p t (.set m.data k) :=
  ⟨h1, fun q _ => hS q, h2, fun _ => ⟨fun _ _ h => h, fun _ _ _ _ _ h => h⟩⟩

/-- What a thread that has `l0` knows, wherever it is. -/
def Thr.Asrt (p : P) (d : σ) (Z : Set κ) : Thr ι κ τ → Prop
  | .at k => A p k d Z
  | .sleep1 c l _ => J d Z ∧ (l = l0 → J d (insert c Z))
  | .sleep2 _ _ _ => J d Z
  | .back _ _ => J d Z
  | .wake1 c k => (l0 ∈ holds k → A p k d (Z \ {c})) ∧ (l0 ∉ holds k → J d Z)
  | .wake2 k => (l0 ∈ holds k → A p k d Z) ∧ (l0 ∉ holds k → J d Z)
  | _ => True

structure MonInv (m : Machine P ι κ σ τ) : Prop where
  locks : LockInv tbl holds m
  loc : ∀ p, S p (m.thr p).place m.data
  ret : ∀ p k, (m.thr p).Gone l0 k → ∀ d Z, S p k d → J d Z → A p k d Z
  free : m.lock l0 = none → J m.data (m.slept l0)
  held : ∀ p, l0 ∈ (m.thr p).locks tbl holds →
    (m.thr p).Asrt l0 holds J A p m.data (m.slept l0)

variable {tbl l0 holds J A S} {code : Code P ι κ σ τ} {m m' : Machine P ι κ σ τ} {p q : P}
  {c : κ} {l : ι}

theorem slept_dozing : m.slept l0 ⊆ m.dozing l0 := by
  rintro c ⟨p, k, hk⟩
  exact ⟨p, k, Or.inr hk⟩

theorem Thr.Asrt.data {t : Thr ι κ τ} {d d' : σ} {Z Y : Set κ} (hZ : Z ⊆ Y)
    (ht : ∀ c k, t = .sleep1 c l0 k → c ∈ Y) (hJ : ∀ Z', Z' ⊆ Y → J d Z' → J d' Z')
    (hA : ∀ u Z', Z' ⊆ Y → A p u d Z' → A p u d' Z') (h : t.Asrt l0 holds J A p d Z) :
    t.Asrt l0 holds J A p d' Z := by
  cases t with
  | «at» k => exact hA k Z hZ h
  | sleep1 c l k =>
    refine ⟨hJ _ hZ h.1, fun e => hJ _ (Set.insert_subset ?_ hZ) (h.2 e)⟩
    exact ht c k (by rw [e])
  | sleep2 => exact hJ _ hZ h
  | back => exact hJ _ hZ h
  | wake1 c k =>
    exact ⟨fun e => hA k _ (Set.sdiff_subset.trans hZ) (h.1 e), fun e => hJ _ hZ (h.2 e)⟩
  | wake2 k => exact ⟨fun e => hA k _ hZ (h.1 e), fun e => hJ _ hZ (h.2 e)⟩
  | _ => trivial

theorem Thr.Asrt.anti {t : Thr ι κ τ} {d : σ} {Z Z' : Set κ} (hM : Monitor tbl l0 holds J A S code)
    (hZ : Z' ⊆ Z) (h : t.Asrt l0 holds J A p d Z) : t.Asrt l0 holds J A p d Z' := by
  cases t with
  | «at» k => exact hM.A_anti hZ h
  | sleep1 c l k =>
    exact ⟨hM.J_anti hZ h.1, fun e => hM.J_anti (Set.insert_subset_insert hZ) (h.2 e)⟩
  | sleep2 | back => exact hM.J_anti hZ h
  | wake1 c k =>
    exact ⟨fun e => hM.A_anti (Set.sdiff_subset_sdiff_left hZ) (h.1 e),
      fun e => hM.J_anti hZ (h.2 e)⟩
  | wake2 k => exact ⟨fun e => hM.A_anti hZ (h.1 e), fun e => hM.J_anti hZ (h.2 e)⟩
  | _ => trivial

/-- A move of `p` that leaves the data alone. -/
theorem MonInv.moves (hM : Monitor tbl l0 holds J A S code) (h : MonInv tbl l0 holds J A S m)
    (hl : LockInv tbl holds m') (hd : m'.data = m.data) (hloc : S p (m'.thr p).place m.data)
    (hplace : ∀ q, q ≠ p → (m'.thr q).place = (m.thr q).place)
    (hgone : ∀ q k, q ≠ p → (m'.thr q).Gone l0 k → (m.thr q).Gone l0 k)
    (hthr : ∀ q, q ≠ p → l0 ∈ (m'.thr q).locks tbl holds → m'.thr q = m.thr q)
    (hret : ∀ k, (m'.thr p).Gone l0 k → ∀ d Z, S p k d → J d Z → A p k d Z)
    (hsub : ∀ q, q ≠ p → l0 ∈ (m.thr q).locks tbl holds → m'.slept l0 ⊆ m.slept l0)
    (hfree : m'.lock l0 = none → J m.data (m'.slept l0))
    (hheld : l0 ∈ (m'.thr p).locks tbl holds →
      (m'.thr p).Asrt l0 holds J A p m.data (m'.slept l0)) : MonInv tbl l0 holds J A S m' := by
  refine ⟨hl, ?_, ?_, ?_, ?_⟩
  · intro q
    rw [hd]
    by_cases e : q = p
    · rw [e]
      exact hloc
    · rw [hplace q e]
      exact h.loc q
  · intro q k hg
    by_cases e : q = p
    · rw [e] at hg ⊢
      exact hret k hg
    · exact h.ret q k (hgone q k e hg)
  · rw [hd]
    exact hfree
  · intro q hq
    rw [hd]
    by_cases e : q = p
    · rw [e] at hq ⊢
      exact hheld hq
    · have ht := hthr q e hq
      rw [ht] at hq ⊢
      exact (h.held q hq).anti hM (hsub q e hq)

variable {t' : Thr ι κ τ}

/-- Other threads are woken and `p` moves on. -/
theorem MonInv.wakes (hM : Monitor tbl l0 holds J A S code) (h : MonInv tbl l0 holds J A S m)
    (hl : LockInv tbl holds m') (hd : m'.data = m.data) (hlock : m'.lock = m.lock)
    (hp : m'.thr p = t') (hloc : S p t'.place m.data) (hplain : ∀ k, ¬ t'.Gone l0 k)
    (hq : ∀ q, q ≠ p → m'.thr q = m.thr q ∨
      ∃ c l k, m.thr q = .asleep c l k ∧ m'.thr q = .ready l k)
    (hsub : m'.slept l0 ⊆ m.slept l0)
    (hheld : l0 ∈ t'.locks tbl holds → t'.Asrt l0 holds J A p m.data (m'.slept l0)) :
    MonInv tbl l0 holds J A S m' := by
  refine h.moves hM hl hd (by rw [hp]; exact hloc) ?_ ?_ ?_ ?_ (fun _ _ _ => hsub) ?_
    (by rw [hp]; exact hheld)
  · intro q e
    obtain h' | ⟨c, l, k, h1, h2⟩ := hq q e
    · rw [h']
    · rw [h1, h2]
      rfl
  · intro q k e hg
    obtain h' | ⟨c, l, k', h1, h2⟩ := hq q e
    · rwa [h'] at hg
    · rw [h2] at hg
      rw [h1]
      exact hg
  · intro q e hloc
    obtain h' | ⟨c, l, k', h1, h2⟩ := hq q e
    · exact h'
    · rw [h2] at hloc
      exact hloc.elim
  · intro k hg
    rw [hp] at hg
    exact absurd hg (hplain k)
  · intro hf
    rw [hlock] at hf
    exact hM.J_anti hsub (h.free hf)

theorem slept_wake [DecidableEq κ] (h : LockInv tbl holds m) (hp : tbl ∈ (m.thr p).locks tbl holds)
    (hne : ∀ c' k, m.thr p ≠ .sleep2 c' l0 k) : (m.wake c).slept l0 ⊆ m.slept l0 \ {c} := by
  rintro c' ⟨q, k, hq⟩
  have hq' : m.thr q = .asleep c' l0 k ∧ c' ≠ c := by
    have hw : (m.wake c).thr q = (m.thr q).woken c := rfl
    rw [hw] at hq
    obtain h' | ⟨l, k', h1, h2⟩ := (m.thr q).woken_cases c
    · rw [h'] at hq
      rcases hq with hq | hq
      · -- a thread that falls asleep has the table's lock, but so has `p`
        have hqp : q = p := h.unique (l := tbl) (by rw [hq]; exact Set.mem_singleton _) hp
        rw [hqp] at hq
        exact absurd hq (hne c' k)
      · refine ⟨hq, ?_⟩
        rintro rfl
        rw [hq] at h'
        unfold Thr.woken at h'
        simp at h'
    · rw [h2] at hq
      simp at hq
  exact ⟨⟨q, k, Or.inr hq'.1⟩, hq'.2⟩

variable [DecidableEq P]

theorem slept_update (hthr : m'.thr = update m.thr p t') {c : κ} (hc : c ∈ m'.slept l0) :
    c ∈ m.slept l0 ∨ ∃ k, t' = .sleep2 c l0 k ∨ t' = .asleep c l0 k := by
  obtain ⟨q, k, hq⟩ := hc
  rw [hthr] at hq
  by_cases e : q = p
  · rw [e, update_self] at hq
    exact Or.inr ⟨k, hq⟩
  · rw [update_of_ne e] at hq
    exact Or.inl ⟨q, k, hq⟩

theorem slept_awake (hthr : m'.thr = update m.thr p t')
    (ht : ∀ c k, t' ≠ .sleep2 c l0 k ∧ t' ≠ .asleep c l0 k) : m'.slept l0 ⊆ m.slept l0 := by
  intro c hc
  obtain hc | ⟨k, hk | hk⟩ := slept_update hthr hc
  · exact hc
  · exact absurd hk (ht c k).1
  · exact absurd hk (ht c k).2

theorem slept_sleep2 {k : τ} (hthr : m'.thr = update m.thr p (.sleep2 c l k)) :
    m'.slept l0 ⊆ insert c (m.slept l0) ∧ (l0 ≠ l → m'.slept l0 ⊆ m.slept l0) := by
  refine ⟨fun c' hc => ?_, fun hl c' hc => ?_⟩
  · obtain hc | ⟨k, hk | hk⟩ := slept_update hthr hc
    · exact Or.inr hc
    · cases hk
      exact Or.inl rfl
    · cases hk
  · obtain hc | ⟨k, hk | hk⟩ := slept_update hthr hc
    · exact hc
    · cases hk
      exact absurd rfl hl
    · cases hk

/-- A move of `p` alone that leaves the data alone. -/
theorem MonInv.goes (hM : Monitor tbl l0 holds J A S code) (h : MonInv tbl l0 holds J A S m)
    (hl : LockInv tbl holds m') (hd : m'.data = m.data)
    (hthr : m'.thr = update m.thr p t') (hloc : S p t'.place m.data)
    (hret : ∀ k, t'.Gone l0 k → ∀ d Z, S p k d → J d Z → A p k d Z)
    (hsub : ∀ q, q ≠ p → l0 ∈ (m.thr q).locks tbl holds → m'.slept l0 ⊆ m.slept l0)
    (hfree : m'.lock l0 = none → J m.data (m'.slept l0))
    (hheld : l0 ∈ t'.locks tbl holds → t'.Asrt l0 holds J A p m.data (m'.slept l0)) :
    MonInv tbl l0 holds J A S m' := by
  have hp : m'.thr p = t' := by rw [hthr, update_self]
  have hq : ∀ q, q ≠ p → m'.thr q = m.thr q := fun q e => by rw [hthr, update_of_ne e]
  refine h.moves hM hl hd ?_ ?_ ?_ (fun q e _ => hq q e) ?_ hsub hfree ?_
  · rw [hp]
    exact hloc
  · intro q e
    rw [hq q e]
  · intro q k e hg
    rwa [hq q e] at hg
  · rw [hp]
    exact hret
  · rw [hp]
    exact hheld

/-- A move that nobody falls asleep in. -/
theorem MonInv.walks (hM : Monitor tbl l0 holds J A S code) (h : MonInv tbl l0 holds J A S m)
    (hl : LockInv tbl holds m') (hd : m'.data = m.data)
    (hthr : m'.thr = update m.thr p t') (hloc : S p t'.place m.data)
    (hret : ∀ k, t'.Gone l0 k → ∀ d Z, S p k d → J d Z → A p k d Z)
    (hns : ∀ c k, (t' = .sleep2 c l0 k ∨ t' = .asleep c l0 k) → c ∈ m.slept l0)
    (hfree : m'.lock l0 = none → J m.data (m.slept l0))
    (hheld : l0 ∈ t'.locks tbl holds → t'.Asrt l0 holds J A p m.data (m.slept l0)) :
    MonInv tbl l0 holds J A S m' := by
  have hsub : m'.slept l0 ⊆ m.slept l0 := by
    intro c hc
    obtain hc | ⟨k, hk⟩ := slept_update hthr hc
    · exact hc
    · exact hns c k hk
  exact h.goes hM hl hd hthr hloc hret (fun _ _ _ => hsub)
    (fun hf => hM.J_anti hsub (hfree hf)) fun ht => (hheld ht).anti hM hsub

theorem slept_rouse : (m.rouse q).slept l0 ⊆ m.slept l0 := by
  intro c hc
  have hthr : (m.rouse q).thr = update m.thr q (m.thr q).roused := rfl
  obtain hc | ⟨k, hk⟩ := slept_update hthr hc
  · exact hc
  · refine ⟨q, k, ?_⟩
    cases ht : m.thr q with
    | sleep2 => simpa [ht, Thr.roused] using hk
    | _ => simp [ht, Thr.roused] at hk

variable [DecidableEq ι]

theorem lock_take (h : ((m.take p l).go q t').lock l0 = none) : l0 ≠ l ∧ m.lock l0 = none := by
  by_cases e : l0 = l
  · subst e
    simp [Machine.go, Machine.take] at h
  · exact ⟨e, by simpa [Machine.go, Machine.take, update_of_ne e] using h⟩

theorem lock_give (h : ((m.give l).go q t').lock l0 = none) : l0 = l ∨ m.lock l0 = none := by
  by_cases e : l0 = l
  · exact Or.inl e
  · exact Or.inr (by simpa [Machine.go, Machine.give, update_of_ne e] using h)

variable [DecidableEq κ]

/-- The step lemma. -/
theorem MonInv.step (hM : Monitor tbl l0 holds J A S code) (h : MonInv tbl l0 holds J A S m)
    (hs : Step tbl code p m m') : MonInv tbl l0 holds J A S m' := by
  have hl' := h.locks.step hM.fits hs
  have hoth := fun q => hs.others (q := q)
  have hloc := h.loc p
  have hheld := h.held p
  have hw := h.locks.wf p
  have hret := h.ret p
  cases hs with
  | @acquire t l k ht hc hl =>
    rw [ht] at hheld
    obtain ⟨h1, h2, h3⟩ := hM.ok h.locks h.loc ht hc hheld
    obtain ⟨-, hf⟩ := hM.fits _ _ _ _ hc
    refine h.walks hM hl' rfl rfl h1 (fun _ hg => hg.elim) (by simp)
      (fun hf => h.free (lock_take hf).2) fun hm => ?_
    by_cases e : l = l0
    · exact h2 e (h.free (e ▸ hl))
    · have hm' : l0 ∈ insert l (holds t) := hf ▸ hm
      exact h3 e (hm'.resolve_left (Ne.symm e))
  | @release t l k ht hc =>
    rw [ht] at hheld
    obtain ⟨h1, h2, h3⟩ := hM.ok h.locks h.loc ht hc hheld
    obtain ⟨-, hf⟩ := hM.fits _ _ _ _ hc
    refine h.walks hM hl' rfl rfl h1 (fun _ hg => hg.elim) (by simp) (fun hf => ?_) fun hm => ?_
    · obtain e | e := lock_give hf
      · exact h2 e.symm
      · exact h.free e
    · have hm' : l0 ∈ holds t \ {l} := hf ▸ hm
      exact h3 (fun e => hm'.2 e.symm) hm'.1
  | @set t d k ht hc =>
    rw [ht] at hheld
    obtain ⟨h1, h2, h3, h4⟩ := hM.ok h.locks h.loc ht hc hheld
    have hfit : holds k = holds t := hM.fits _ _ _ _ hc
    have hp : l0 ∈ holds t → l0 ∈ (m.thr p).locks tbl holds := fun hm => by rw [ht]; exact hm
    have hself : update m.thr p (.at k) p = .at k := update_self ..
    have hoth : ∀ q, q ≠ p → update m.thr p (.at k) q = m.thr q :=
      fun q e => update_of_ne e ..
    have hsub : Machine.slept { m.go p (.at k) with data := d } l0 ⊆ m.slept l0 :=
      slept_awake rfl (by simp)
    refine ⟨hl', fun q => ?_, fun q k' hg => ?_, fun hf => ?_, fun q hq => ?_⟩
    · show S q (update m.thr p (.at k) q).place d
      by_cases e : q = p
      · rw [e, hself]
        exact h1
      · rw [hoth q e]
        exact h2 q e
    · have hg' : (update m.thr p (.at k) q).Gone l0 k' := hg
      by_cases e : q = p
      · rw [e, hself] at hg'
        exact hg'.elim
      · rw [hoth q e] at hg'
        exact h.ret q k' hg'
    · have hno : l0 ∉ holds t := by
        intro hm
        have hf' : m.lock l0 = none := hf
        rw [(h.locks.lock p l0).mpr (hp hm)] at hf'
        cases hf'
      exact hM.J_anti hsub ((h4 hno).1 _ slept_dozing (h.free hf))
    · have hq' : l0 ∈ (update m.thr p (.at k) q).locks tbl holds := hq
      show (update m.thr p (.at k) q).Asrt l0 holds J A q d _
      by_cases e : q = p
      · rw [e, hself] at hq' ⊢
        exact hM.A_anti hsub (h3 (hfit ▸ hq'))
      · rw [hoth q e] at hq' ⊢
        have hno : l0 ∉ holds t := fun hm => e (h.locks.unique hq' (hp hm))
        have hq1 : ∀ c k, m.thr q = .sleep1 c l0 k → c ∈ m.dozing l0 := fun c k hk =>
          ⟨q, k, Or.inl hk⟩
        exact ((h.held q hq').data slept_dozing hq1 (h4 hno).1
          fun u Z hZ => (h4 hno).2 q u Z e hZ).anti hM hsub
  | @sleep t c l k ht hc hl hf =>
    rw [ht] at hheld
    obtain ⟨h1, h2⟩ := hM.ok h.locks h.loc ht hc hheld
    refine h.walks hM hl' rfl rfl h1 (fun k' hg => ?_) (by simp)
      (fun hf => h.free (lock_take hf).2) fun hm => ?_
    · obtain ⟨e, rfl⟩ := hg
      exact (h2 e).2
    · refine ⟨?_, fun e => (h2 e).1⟩
      by_cases e : l = l0
      · exact hM.J_anti (Set.subset_insert ..) (h2 e).1
      · have hm' : l0 ∈ ({l, tbl} : Set ι) := hm
        have htbl : l0 = tbl := hm'.resolve_left (Ne.symm e)
        exact h.free (htbl ▸ hf)
  | @sleepTbl t c k ht hc =>
    rw [ht] at hheld
    obtain ⟨h1, h2⟩ := hM.ok h.locks h.loc ht hc hheld
    obtain ⟨hf, -⟩ := hM.fits _ _ _ _ hc
    have hp : tbl ∈ (m.thr p).locks tbl holds := by
      rw [ht]
      show tbl ∈ holds t
      rw [hf]
      exact Set.mem_singleton _
    obtain ⟨hsub, hsub'⟩ : (m.go p (.sleep2 c tbl k)).slept l0 ⊆ insert c (m.slept l0) ∧
        (l0 ≠ tbl → (m.go p (.sleep2 c tbl k)).slept l0 ⊆ m.slept l0) := slept_sleep2 rfl
    refine h.goes hM hl' rfl rfl h1 (fun k' hg => ?_) (fun q e hq => ?_) (fun hf => ?_) fun hm => ?_
    · obtain ⟨e, rfl⟩ := hg
      exact (h2 e).2
    · exact hsub' fun htbl => e (h.locks.unique hq (htbl ▸ hp))
    · have hne : l0 ≠ tbl := by
        rintro rfl
        have hlk : m.lock l0 = none := hf
        rw [(h.locks.lock p l0).mpr hp] at hlk
        cases hlk
      exact hM.J_anti (hsub' hne) (h.free hf)
    · exact hM.J_anti hsub (h2 (Set.mem_singleton_iff.mp hm).symm).1
  | @drop c l k ht =>
    rw [ht] at hheld hw hret hloc
    obtain ⟨hsub, hsub'⟩ :
        ((m.give l).go p (.sleep2 c l k)).slept l0 ⊆ insert c (m.slept l0) ∧
          (l0 ≠ l → ((m.give l).go p (.sleep2 c l k)).slept l0 ⊆ m.slept l0) := slept_sleep2 rfl
    have hp : l ∈ (m.thr p).locks tbl holds := by
      rw [ht]
      exact Set.mem_insert ..
    refine h.goes hM hl' rfl rfl hloc (fun k' hg => hret k' hg) (fun q e hq => ?_) (fun hf => ?_)
      fun hm => ?_
    · exact hsub' fun hl => e (h.locks.unique hq (hl ▸ hp))
    · obtain e | e := lock_give hf
      · exact hM.J_anti hsub ((hheld (e ▸ Set.mem_insert ..)).2 e.symm)
      · have hne : l0 ≠ l := by
          rintro rfl
          rw [(h.locks.lock p l0).mpr hp] at e
          cases e
        exact hM.J_anti (hsub' hne) (h.free e)
    · have htbl : l0 = tbl := hm
      have hne : l0 ≠ l := fun e => hw.1 (e.symm.trans htbl)
      exact hM.J_anti (hsub' hne) (hheld (Or.inr hm)).1
  | @fall c l k ht =>
    rw [ht] at hheld hret hloc
    refine h.walks hM hl' rfl rfl hloc (fun k' hg => hret k' hg) (fun c' k' hc' => ?_)
      (fun hf => ?_) fun hm => hm.elim
    · obtain hc' | hc' := hc'
      · cases hc'
      · cases hc'
        exact ⟨p, k, Or.inl ht⟩
    · obtain e | e := lock_give hf
      · exact hheld e
      · exact h.free e
  | @resume l k ht hf =>
    rw [ht] at hret hloc
    refine h.walks hM hl' rfl rfl hloc (fun k' hg => hret k' hg) (by simp)
      (fun hf => h.free (lock_take hf).2) fun hm => ?_
    have htbl : l0 = tbl := hm
    exact h.free (htbl ▸ hf)
  | @back l k ht hl =>
    rw [ht] at hheld hret hloc
    refine h.walks hM hl' rfl rfl hloc (fun k' hg => hret k' hg) (by simp) (fun hf => ?_)
      fun hm => hm.elim
    obtain e | e := lock_give hf
    · exact hheld e
    · exact h.free e
  | @backTbl k ht =>
    rw [ht] at hheld hret hloc hw
    have hk : holds k = {tbl} := hw
    refine h.walks hM hl' rfl rfl hloc (fun _ hg => hg.elim) (by simp) (fun hf => h.free hf)
      fun hm => ?_
    have htbl : l0 ∈ ({tbl} : Set ι) := hk ▸ hm
    exact hret k ⟨htbl.symm, rfl⟩ _ _ hloc (hheld htbl)
  | @relock l k ht hf =>
    rw [ht] at hret hloc hw
    have hk : holds k = {l} := hw
    refine h.walks hM hl' rfl rfl hloc (fun _ hg => hg.elim) (by simp)
      (fun hf => h.free (lock_take hf).2) fun hm => ?_
    have hl0 : l0 = l := Set.mem_singleton_iff.mp (hk ▸ hm)
    exact hret k ⟨hl0.symm, rfl⟩ _ _ hloc (h.free (hl0 ▸ hf))
  | @wakeup t c k ht hc hf =>
    rw [ht] at hheld
    obtain ⟨h1, h2⟩ := hM.ok h.locks h.loc ht hc hheld
    obtain ⟨-, hfit⟩ := hM.fits _ _ _ _ hc
    refine h.walks hM hl' rfl rfl h1 (fun _ hg => hg.elim) (by simp)
      (fun hf => h.free (lock_take hf).2) fun hm => ⟨fun hk => h2 (hfit ▸ hk), fun hk => ?_⟩
    have htbl : l0 = tbl := Or.resolve_right hm hk
    exact h.free (htbl ▸ hf)
  | @wake c k ht =>
    rw [ht] at hheld hloc
    have hp : tbl ∈ (m.thr p).locks tbl holds := by
      rw [ht]
      exact Set.mem_insert ..
    have hsub : ((m.wake c).go p (.wake2 k)).slept l0 ⊆ m.slept l0 \ {c} :=
      (slept_awake (m := m.wake c) rfl (by simp)).trans
        (slept_wake h.locks hp (by rw [ht]; simp))
    refine h.wakes hM hl' rfl rfl (update_self ..) hloc (fun _ hg => hg.elim)
      (fun q e => hoth q e) (hsub.trans Set.sdiff_subset) fun hm => ?_
    · exact ⟨fun hk => hM.A_anti hsub ((hheld hm).1 hk),
        fun hk => hM.J_anti (hsub.trans Set.sdiff_subset) ((hheld hm).2 hk)⟩
  | @woken k ht =>
    rw [ht] at hheld hloc hw
    refine h.walks hM hl' rfl rfl hloc (fun _ hg => hg.elim) (by simp) (fun hf => ?_) fun hm => ?_
    · obtain e | e := lock_give hf
      · exact (hheld (Or.inl e)).2 (e ▸ hw)
      · exact h.free e
    · exact (hheld (Or.inr hm)).1 hm
  | @wakeup1 t c k ht hc =>
    rw [ht] at hheld
    obtain ⟨h1, h2⟩ := hM.ok h.locks h.loc ht hc hheld
    obtain ⟨hf, hfit⟩ := hM.fits _ _ _ _ hc
    have hp : tbl ∈ (m.thr p).locks tbl holds := by
      rw [ht]
      exact hf
    have hsub : ((m.wake c).go p (.at k)).slept l0 ⊆ m.slept l0 \ {c} :=
      (slept_awake (m := m.wake c) rfl (by simp)).trans
        (slept_wake h.locks hp (by rw [ht]; simp))
    exact h.wakes hM hl' rfl rfl (update_self ..) h1 (fun _ hg => hg.elim)
      (fun q e => hoth q e) (hsub.trans Set.sdiff_subset) fun hm => hM.A_anti hsub (h2 (hfit ▸ hm))
  | @rouse t q k ht hc =>
    rw [ht] at hheld
    obtain ⟨h1, h2⟩ := hM.ok h.locks h.loc ht hc hheld
    obtain ⟨-, hfit⟩ := hM.fits _ _ _ _ hc
    have hsub : ((m.rouse q).go p (.at k)).slept l0 ⊆ m.slept l0 :=
      (slept_awake (m := m.rouse q) rfl (by simp)).trans slept_rouse
    exact h.wakes hM hl' rfl rfl (update_self ..) h1 (fun _ hg => hg.elim)
      (fun r e => hoth r e) hsub fun hm => hM.A_anti hsub (h2 (hfit ▸ hm))

/-- The run lemma. -/
theorem MonInv.steps (hM : Monitor tbl l0 holds J A S code) (h : MonInv tbl l0 holds J A S m)
    (hs : Steps tbl code m m') : MonInv tbl l0 holds J A S m' := by
  induction hs with
  | refl => exact h
  | tail _ hstep ih =>
    obtain ⟨p, hstep⟩ := hstep
    exact ih.step hM hstep

end Rule

end Zv6.Lib
