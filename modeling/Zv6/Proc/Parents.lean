/-
  The process table while fork, exit, wait, kill, sleep and wakeup run.

  `Family`: every process has a live parent, its creator or init. `Record`: each process that
  exited is a zombie or has been returned by one `wait`, that of its parent. Both hold all the
  time. `Heard` holds while `ptable.lock` is free: no one sleeps in `wait` who has a zombie child.
  `exit` has to tell its parent first, because from there on it keeps the lock until it is a
  zombie (`Knows`).
-/
import Mathlib.Data.Finset.Card
import Zv6.Proc.Table

namespace Zv6.Ptable

open Lib Function

/-- The slot holds a process: it is neither UNUSED nor EMBRYO. -/
def Slot.Present (x : Slot) : Prop := x.state = .live ∨ x.state = .zombie

structure Family (d : Table) : Prop where
  init : (d.slot initproc).state = .live
  root : (d.slot initproc).parent = none
  self : ∀ q, (d.slot q).parent ≠ some q
  parent : ∀ q, q ≠ initproc → (d.slot q).Present → ∃ r, (d.slot q).parent = some r ∧
    (d.slot r).state = .live ∧ (r = initproc ∨ (d.slot q).creator = some (r, (d.slot r).id))

structure Record (d : Table) : Prop where
  below : ∀ q, (d.slot q).Present → (d.slot q).id < d.count
  distinct : ∀ q q', (d.slot q).Present → (d.slot q').Present →
    (d.slot q).id = (d.slot q').id → q = q'
  fresh : ∀ q, (d.slot q).Present → ∀ x ∈ d.reaped, x.id ≠ (d.slot q).id
  old : ∀ x ∈ d.reaped, x.id < d.count
  once : (d.reaped.map Reap.id).Nodup
  exited : ∀ i, i ∈ d.exited ↔
    (∃ q, (d.slot q).state = .zombie ∧ (d.slot q).id = i) ∨ ∃ x ∈ d.reaped, x.id = i
  born : ∀ i < d.count, i ∈ d.exited ∨ ∃ q, (d.slot q).state = .live ∧ (d.slot q).id = i
  caller : ∀ x ∈ d.reaped, x.parent = some x.caller.1 ∧
    (x.caller.1 = initproc ∨ x.creator = some x.caller)

/-- Nobody who sleeps in `wait` has a zombie child. -/
def Heard (d : Table) (Z : Set Chan) : Prop := ∀ q, .proc q ∈ Z → ¬ d.Bereft q

/-- The parent of `p`, which is about to exit, is awake. -/
structure Warned (p : Pid) (d : Table) (Z : Set Chan) : Prop where
  live : (d.slot p).state = .live
  parent : ∀ r, (d.slot p).parent = some r → .proc r ∉ Z

def Childless (p : Pid) (d : Table) : Prop := ∀ q, (d.slot q).parent ≠ some p

/-- What is known at a place that has `ptable.lock`. -/
def Knows (p : Pid) (t : Place) (d : Table) (Z : Set Chan) : Prop :=
  match t with
  | .xreparent => Heard d Z ∧ Warned p d Z
  | .xwakeinit => (∀ q, q ≠ initproc → .proc q ∈ Z → ¬ d.Bereft q) ∧ Warned p d Z ∧ Childless p d
  | .xzombie => Heard d Z ∧ Warned p d Z ∧ Childless p d
  | .wsleep => Heard d Z ∧ ¬ d.Bereft p
  | _ => Heard d Z

/-- At these places of the kernel the process is alive. -/
def Place.alive : Place → Bool
  | .user => false
  | .xsched => false
  | _ => true

/-- The slot that fork is filling in. -/
def Place.making : Place → Option Pid
  | .frelease np => np
  | .fkstack np => some np
  | .fcopy np => some np
  | .fparent np => some np
  | .fstart np => some np
  | _ => none

/-- Inside `exit`. -/
def Place.exits : Place → Bool
  | .xclose => true
  | .xwake => true
  | .xreparent => true
  | .xwakeinit => true
  | .xzombie => true
  | .sacquire _ x => x
  | .ssleep _ x => x
  | .srelease x => x
  | .swakeup _ x => x
  | _ => false

structure Local (p : Pid) (t : Place) (d : Table) : Prop where
  family : Family d
  record : Record d
  alive : t.alive = true → (d.slot p).state = .live
  making : ∀ np, t.making = some np → (d.slot np).state = .embryo ∧ (d.slot np).maker = some p
  adopted : ∀ np, t = .fstart np → (d.slot np).parent = some p
  exits : t.exits = true → p ≠ initproc

/-! ## Changes to slots without a process -/

@[simp] theorem Table.upd_slot (d : Table) (q q' : Pid) (f : Slot → Slot) :
    (d.upd q f).slot q' = if q' = q then f (d.slot q') else d.slot q' := by
  unfold Table.upd
  simp only [update_apply]
  by_cases h : q' = q
  · rw [if_pos h, if_pos h, h]
  · rw [if_neg h, if_neg h]

/-- The processes are the same. -/
structure Quiet (d d' : Table) : Prop where
  count : d'.count = d.count
  exited : d'.exited = d.exited
  reaped : d'.reaped = d.reaped
  state : ∀ q, (d.slot q).Present ∨ (d'.slot q).Present → (d'.slot q).state = (d.slot q).state
  parent : ∀ q, (d.slot q).Present → (d'.slot q).parent = (d.slot q).parent
  self : ∀ q, (d'.slot q).parent ≠ some q
  id : ∀ q, (d'.slot q).id = (d.slot q).id
  creator : ∀ q, (d'.slot q).creator = (d.slot q).creator

variable {d d' : Table} {p q np : Pid} {t : Place} {Z Z' : Set Chan} {m m' : Kernel} {k : Place}
  {r : Pid}

theorem Slot.Present.of_live {x : Slot} (h : x.state = .live) : x.Present := Or.inl h

theorem Slot.Present.of_zombie {x : Slot} (h : x.state = .zombie) : x.Present := Or.inr h

namespace Quiet

theorem live (h : Quiet d d') : (d'.slot q).state = .live ↔ (d.slot q).state = .live := by
  constructor
  · intro hq
    rw [← h.state q (Or.inr (.of_live hq))]
    exact hq
  · intro hq
    rw [h.state q (Or.inl (.of_live hq))]
    exact hq

theorem zombie (h : Quiet d d') : (d'.slot q).state = .zombie ↔ (d.slot q).state = .zombie := by
  constructor
  · intro hq
    rw [← h.state q (Or.inr (.of_zombie hq))]
    exact hq
  · intro hq
    rw [h.state q (Or.inl (.of_zombie hq))]
    exact hq

theorem present (h : Quiet d d') : (d'.slot q).Present ↔ (d.slot q).Present := by
  unfold Slot.Present
  rw [h.live, h.zombie]

theorem bereft (h : Quiet d d') : d'.Bereft p ↔ d.Bereft p := by
  constructor
  · rintro ⟨q, h1, h2⟩
    have hz := h.zombie.mp h2
    exact ⟨q, by rw [← h.parent q (.of_zombie hz)]; exact h1, hz⟩
  · rintro ⟨q, h1, h2⟩
    exact ⟨q, by rw [h.parent q (.of_zombie h2)]; exact h1, h.zombie.mpr h2⟩

theorem family (h : Quiet d d') (hd : Family d) : Family d' := by
  refine ⟨h.live.mpr hd.init, ?_, h.self, ?_⟩
  · rw [h.parent _ (.of_live hd.init)]
    exact hd.root
  · intro q hq hp
    have hp' := h.present.mp hp
    obtain ⟨r, h1, h2, h3⟩ := hd.parent q hq hp'
    rw [h.parent q hp', h.creator]
    exact ⟨r, h1, h.live.mpr h2, by rw [h.id]; exact h3⟩

theorem record (h : Quiet d d') (hd : Record d) : Record d' := by
  constructor
  · intro q hq
    rw [h.id, h.count]
    exact hd.below q (h.present.mp hq)
  · intro q q' hq hq' e
    rw [h.id, h.id] at e
    exact hd.distinct q q' (h.present.mp hq) (h.present.mp hq') e
  · intro q hq
    rw [h.id, h.reaped]
    exact hd.fresh q (h.present.mp hq)
  · rw [h.reaped, h.count]
    exact hd.old
  · rw [h.reaped]
    exact hd.once
  · intro i
    simp only [h.exited, h.reaped, h.zombie, h.id]
    exact hd.exited i
  · intro i hi
    simp only [h.exited, h.live, h.id]
    exact hd.born i (h.count ▸ hi)
  · rw [h.reaped]
    exact hd.caller

end Quiet

theorem Quiet.embryo (hd : Family d) (h : (d.slot np).state = .unused) :
    Quiet d (d.embryo p np) := by
  refine ⟨rfl, rfl, rfl, ?_, ?_, ?_, ?_, ?_⟩ <;> intro q
  all_goals
    by_cases e : q = np
    · subst e
      simp [Table.embryo, Slot.Present, h, hd.self]
    · simp [Table.embryo, e, hd.self]

theorem Quiet.fail (hd : Family d) (h : (d.slot np).state = .embryo) : Quiet d (d.fail np) := by
  refine ⟨rfl, rfl, rfl, ?_, ?_, ?_, ?_, ?_⟩ <;> intro q
  all_goals
    by_cases e : q = np
    · subst e
      simp [Table.fail, Slot.Present, h, hd.self]
    · simp [Table.fail, e, hd.self]

theorem Quiet.adopt (hd : Family d) (h : (d.slot np).state = .embryo) (hp : p ≠ np) :
    Quiet d (d.adopt p np) := by
  refine ⟨rfl, rfl, rfl, ?_, ?_, ?_, ?_, ?_⟩ <;> intro q
  all_goals
    by_cases e : q = np
    · subst e
      simp [Table.adopt, Slot.Present, h, hp]
    · simp [Table.adopt, e, hd.self]

theorem Quiet.setKilled (hd : Family d) : Quiet d (d.setKilled q) := by
  refine ⟨rfl, rfl, rfl, ?_, ?_, ?_, ?_, ?_⟩ <;> intro q'
  all_goals
    by_cases e : q' = q
    · subst e
      simp [Table.setKilled, hd.self]
    · simp [Table.setKilled, e, hd.self]

/-! ## A process starts, exits, and is returned by wait -/

theorem ne_of_state {x y : PState} (hp : (d.slot p).state = x) (hq : (d.slot q).state = y)
    (h : x ≠ y) : p ≠ q := by
  rintro rfl
  exact h (hp.symm.trans hq)

theorem Family.start (hd : Family d) (h : (d.slot np).state = .embryo)
    (hp : (d.slot p).state = .live) (hpar : (d.slot np).parent = some p) :
    Family (d.start p np) := by
  have hne : ∀ r, (d.slot r).state = .live → r ≠ np := fun r hr => ne_of_state hr h nofun
  have hpn := hne p hp
  constructor
  · simp [Table.start, hne _ hd.init, hd.init]
  · simp [Table.start, hne _ hd.init, hd.root]
  · intro q
    by_cases e : q = np
    · subst e
      simp [Table.start, hpar, hpn]
    · simp [Table.start, e, hd.self]
  · intro q hq hpres
    by_cases e : q = np
    · subst e
      exact ⟨p, by simp [Table.start, hpar], by simp [Table.start, hpn, hp],
        by simp [Table.start, hpn]⟩
    · obtain ⟨r, h1, h2, h3⟩ := hd.parent q hq (by simpa [Table.start, e] using hpres)
      exact ⟨r, by simp [Table.start, e, h1], by simp [Table.start, hne r h2, h2],
        by simp [Table.start, e, hne r h2, h3]⟩

theorem Record.start (hd : Record d) (h : (d.slot np).state = .embryo) :
    Record (d.start p np) := by
  have hslot : ∀ q, q ≠ np → (d.start p np).slot q = d.slot q := by
    intro q e
    simp [Table.start, e]
  have hid : ((d.start p np).slot np).id = d.count := by simp [Table.start]
  constructor
  · intro q hq
    by_cases e : q = np
    · rw [e, hid]
      exact Nat.lt_succ_self _
    · rw [hslot q e] at hq ⊢
      exact Nat.lt_succ_of_lt (hd.below q hq)
  · intro q q' hq hq' he
    by_cases e : q = np <;> by_cases e' : q' = np
    · rw [e, e']
    · rw [e, hid, hslot q' e'] at he
      rw [hslot q' e'] at hq'
      exact absurd (hd.below q' hq') (by omega)
    · rw [e', hid, hslot q e] at he
      rw [hslot q e] at hq
      exact absurd (hd.below q hq) (by omega)
    · rw [hslot q e, hslot q' e'] at he
      rw [hslot q e] at hq
      rw [hslot q' e'] at hq'
      exact hd.distinct q q' hq hq' he
  · intro q hq x hx
    by_cases e : q = np
    · rw [e, hid]
      exact Nat.ne_of_lt (hd.old x hx)
    · rw [hslot q e] at hq ⊢
      exact hd.fresh q hq x hx
  · exact fun x hx => Nat.lt_succ_of_lt (hd.old x hx)
  · exact hd.once
  · intro i
    show i ∈ d.exited ↔ _ ∨ ∃ x ∈ d.reaped, x.id = i
    rw [hd.exited i]
    refine or_congr_left ⟨?_, ?_⟩
    · rintro ⟨q, hz, hi⟩
      exact ⟨q, by rw [hslot q (ne_of_state hz h nofun)]; exact ⟨hz, hi⟩⟩
    · rintro ⟨q, hz, hi⟩
      by_cases e : q = np
      · rw [e] at hz
        simp [Table.start] at hz
      · rw [hslot q e] at hz hi
        exact ⟨q, hz, hi⟩
  · intro i hi
    rcases Nat.lt_or_eq_of_le (Nat.le_of_lt_succ hi) with hi | hi
    · obtain hx | ⟨q, hq, hqi⟩ := hd.born i hi
      · exact Or.inl hx
      · exact Or.inr ⟨q, by rw [hslot q (ne_of_state hq h nofun)]; exact ⟨hq, hqi⟩⟩
    · exact Or.inr ⟨np, by simp [Table.start], by rw [hid, hi]⟩
  · exact hd.caller

theorem Table.reparent_parent (d : Table) (p q : Pid) : ((d.reparent p).slot q).parent =
    if (d.slot q).parent = some p then some initproc else (d.slot q).parent := rfl

theorem Family.reparent (hd : Family d) : Family (d.reparent p) := by
  refine ⟨hd.init, ?_, ?_, ?_⟩
  · rw [Table.reparent_parent, hd.root]
    simp
  · intro q
    rw [Table.reparent_parent]
    split
    · next h =>
      rintro e
      cases e
      rw [hd.root] at h
      cases h
    · exact hd.self q
  · intro q hq hpres
    obtain ⟨r, h1, h2, h3⟩ := hd.parent q hq hpres
    rw [Table.reparent_parent]
    split
    · exact ⟨initproc, rfl, hd.init, Or.inl rfl⟩
    · exact ⟨r, h1, h2, h3⟩

theorem Record.reparent (hd : Record d) : Record (d.reparent p) :=
  ⟨hd.below, hd.distinct, hd.fresh, hd.old, hd.once, hd.exited, hd.born, hd.caller⟩

theorem Childless.reparent (hp : p ≠ initproc) : Childless p (d.reparent p) := by
  intro q
  rw [Table.reparent_parent]
  split
  · simp [Ne.symm hp]
  · assumption

theorem Table.die_state (d : Table) (p q : Pid) :
    ((d.die p).slot q).state = if q = p then .zombie else (d.slot q).state := by
  by_cases e : q = p <;> simp [Table.die, e]

theorem Table.die_parent (d : Table) (p q : Pid) :
    ((d.die p).slot q).parent = (d.slot q).parent := by
  by_cases e : q = p <;> simp [Table.die, e]

theorem Table.die_id (d : Table) (p q : Pid) : ((d.die p).slot q).id = (d.slot q).id := by
  by_cases e : q = p <;> simp [Table.die, e]

theorem Table.die_creator (d : Table) (p q : Pid) :
    ((d.die p).slot q).creator = (d.slot q).creator := by
  by_cases e : q = p <;> simp [Table.die, e]

theorem Table.die_present (hp : (d.slot p).state = .live) :
    ((d.die p).slot q).Present ↔ (d.slot q).Present := by
  unfold Slot.Present
  rw [Table.die_state]
  by_cases e : q = p
  · simp [e, hp]
  · simp [e]

theorem Family.die (hd : Family d) (hp : (d.slot p).state = .live) (hi : p ≠ initproc)
    (hc : Childless p d) : Family (d.die p) := by
  constructor
  · rw [Table.die_state, if_neg (Ne.symm hi)]
    exact hd.init
  · rw [Table.die_parent]
    exact hd.root
  · intro q
    rw [Table.die_parent]
    exact hd.self q
  · intro q hq hpres
    obtain ⟨r, h1, h2, h3⟩ := hd.parent q hq ((Table.die_present hp).mp hpres)
    have hr : r ≠ p := by
      rintro rfl
      exact hc q h1
    rw [Table.die_parent, Table.die_creator]
    exact ⟨r, h1, by rw [Table.die_state, if_neg hr]; exact h2, by rw [Table.die_id]; exact h3⟩

theorem Record.die (hd : Record d) (hp : (d.slot p).state = .live) : Record (d.die p) := by
  constructor
  · intro q hq
    rw [Table.die_id]
    exact hd.below q ((Table.die_present hp).mp hq)
  · intro q q' hq hq' e
    rw [Table.die_id, Table.die_id] at e
    exact hd.distinct q q' ((Table.die_present hp).mp hq) ((Table.die_present hp).mp hq') e
  · intro q hq
    rw [Table.die_id]
    exact hd.fresh q ((Table.die_present hp).mp hq)
  · exact hd.old
  · exact hd.once
  · intro i
    show i ∈ d.exited ++ [(d.slot p).id] ↔ _ ∨ ∃ x ∈ d.reaped, x.id = i
    simp only [List.mem_append, List.mem_singleton, hd.exited i, Table.die_state, Table.die_id]
    constructor
    · rintro ((⟨q, hz, hi⟩ | hx) | hi)
      · exact Or.inl ⟨q, by simp [hz], hi⟩
      · exact Or.inr hx
      · exact Or.inl ⟨p, by simp, hi.symm⟩
    · rintro (⟨q, hz, hi⟩ | hx)
      · by_cases e : q = p
        · exact Or.inr (by rw [← hi, e])
        · exact Or.inl (Or.inl ⟨q, by simpa [e] using hz, hi⟩)
      · exact Or.inl (Or.inr hx)
  · intro i hi
    show i ∈ d.exited ++ [(d.slot p).id] ∨ _
    simp only [List.mem_append, List.mem_singleton, Table.die_state, Table.die_id]
    obtain hx | ⟨q, hq, hqi⟩ := hd.born i hi
    · exact Or.inl (Or.inl hx)
    · by_cases e : q = p
      · exact Or.inl (Or.inr (by rw [← hqi, e]))
      · exact Or.inr ⟨q, by simp [e, hq], hqi⟩
  · exact hd.caller

section Find

variable {f : Slot → Bool}

theorem Table.of_find (h : d.find f = some q) : f (d.slot q) = true :=
  List.find?_some (p := fun q => f (d.slot q)) h

theorem Table.find_none (h : d.find f = none) (q : Pid) : f (d.slot q) = false := by
  have := List.find?_eq_none.mp h q (List.mem_finRange q)
  simpa using this

theorem Table.of_child (h : d.child p = some q) :
    (d.slot q).parent = some p ∧ (d.slot q).state = .zombie := by
  have := Table.of_find h
  simpa using this

theorem Table.child_none (h : d.child p = none) : ¬ d.Bereft p := by
  rintro ⟨q, h1, h2⟩
  have := Table.find_none h q
  simp [h1, h2] at this

end Find

theorem Family.reap (hd : Family d) (hz : (d.slot q).state = .zombie) : Family (d.reap p q) := by
  have hne : ∀ r, (d.slot r).state = .live → r ≠ q := fun r hr => ne_of_state hr hz nofun
  constructor
  · simp [Table.reap, hne _ hd.init, hd.init]
  · simp [Table.reap, hne _ hd.init, hd.root]
  · intro q'
    by_cases e : q' = q
    · simp [Table.reap, e]
    · simp [Table.reap, e, hd.self]
  · intro q' hq' hpres
    have e : q' ≠ q := by
      rintro rfl
      simp [Table.reap, Slot.Present] at hpres
    obtain ⟨r, h1, h2, h3⟩ := hd.parent q' hq' (by simpa [Table.reap, e] using hpres)
    exact ⟨r, by simp [Table.reap, e, h1], by simp [Table.reap, hne r h2, h2],
      by simp [Table.reap, e, hne r h2, h3]⟩

theorem Record.reap (hd : Record d) (hf : Family d) (hz : (d.slot q).state = .zombie)
    (hpar : (d.slot q).parent = some p) : Record (d.reap p q) := by
  have hslot : ∀ q', q' ≠ q → (d.reap p q).slot q' = d.slot q' := by
    intro q' e
    simp [Table.reap, e]
  have hgone : ∀ q', ((d.reap p q).slot q').Present → q' ≠ q := by
    rintro q' hq' rfl
    simp [Table.reap, Slot.Present] at hq'
  have hqi : q ≠ initproc := ne_of_state hz hf.init nofun
  have hmem : ∀ x, x ∈ (d.reap p q).reaped ↔ x ∈ d.reaped ∨
      x = ⟨(d.slot q).id, (d.slot q).creator, (d.slot q).parent, (p, (d.slot p).id)⟩ := by
    intro x
    simp [Table.reap]
  constructor
  · intro q' hq'
    have e := hgone q' hq'
    rw [hslot q' e] at hq' ⊢
    exact hd.below q' hq'
  · intro q1 q2 h1 h2 he
    have e1 := hgone q1 h1
    have e2 := hgone q2 h2
    rw [hslot q1 e1] at h1 he
    rw [hslot q2 e2] at h2 he
    exact hd.distinct q1 q2 h1 h2 he
  · intro q' hq' x hx
    have e := hgone q' hq'
    rw [hslot q' e] at hq' ⊢
    obtain hx | rfl := (hmem x).mp hx
    · exact hd.fresh q' hq' x hx
    · exact fun he => e (hd.distinct q q' (.of_zombie hz) hq' he).symm
  · intro x hx
    obtain hx | rfl := (hmem x).mp hx
    · exact hd.old x hx
    · exact hd.below q (.of_zombie hz)
  · show (List.map Reap.id (d.reaped ++ _)).Nodup
    rw [List.map_append, List.nodup_append]
    refine ⟨hd.once, by simp, ?_⟩
    rintro i hi j hj rfl
    obtain ⟨x, hx, rfl⟩ := List.mem_map.mp hi
    exact hd.fresh q (.of_zombie hz) x hx (by simpa using hj)
  · intro i
    show i ∈ d.exited ↔ _
    rw [hd.exited i]
    constructor
    · rintro (⟨q', hz', hi⟩ | ⟨x, hx, hi⟩)
      · by_cases e : q' = q
        · exact Or.inr ⟨_, (hmem _).mpr (Or.inr rfl), by rw [← hi, e]⟩
        · exact Or.inl ⟨q', by rw [hslot q' e]; exact ⟨hz', hi⟩⟩
      · exact Or.inr ⟨x, (hmem x).mpr (Or.inl hx), hi⟩
    · rintro (⟨q', hz', hi⟩ | ⟨x, hx, hi⟩)
      · have e := hgone q' (.of_zombie hz')
        rw [hslot q' e] at hz' hi
        exact Or.inl ⟨q', hz', hi⟩
      · obtain hx | rfl := (hmem x).mp hx
        · exact Or.inr ⟨x, hx, hi⟩
        · exact Or.inl ⟨q, hz, hi⟩
  · intro i hi
    obtain hx | ⟨q', hq', hqi'⟩ := hd.born i hi
    · exact Or.inl hx
    · exact Or.inr ⟨q', by rw [hslot q' (ne_of_state hq' hz nofun)]; exact ⟨hq', hqi'⟩⟩
  · intro x hx
    obtain hx | rfl := (hmem x).mp hx
    · exact hd.caller x hx
    · refine ⟨hpar, ?_⟩
      obtain ⟨r, h1, -, h3⟩ := hf.parent q hqi (.of_zombie hz)
      rw [hpar] at h1
      cases h1
      exact h3

/-! ## Zombie children -/

theorem Bereft.of_start (h : (d.slot np).state = .embryo) (hb : (d.start p np).Bereft r) :
    d.Bereft r := by
  obtain ⟨q, h1, h2⟩ := hb
  by_cases e : q = np
  · subst e
    simp [Table.start] at h2
  · exact ⟨q, by simpa [Table.start, e] using h1, by simpa [Table.start, e] using h2⟩

theorem Bereft.of_reap (hb : (d.reap p q).Bereft r) : d.Bereft r := by
  obtain ⟨q', h1, h2⟩ := hb
  by_cases e : q' = q
  · subst e
    simp [Table.reap] at h2
  · exact ⟨q', by simpa [Table.reap, e] using h1, by simpa [Table.reap, e] using h2⟩

theorem Bereft.of_reparent (hb : (d.reparent p).Bereft r) :
    d.Bereft r ∨ r = initproc ∧ d.Bereft p := by
  obtain ⟨q, h1, h2⟩ := hb
  rw [Table.reparent_parent] at h1
  split at h1
  · next h => exact Or.inr ⟨(Option.some.inj h1).symm, q, h, h2⟩
  · exact Or.inl ⟨q, h1, h2⟩

theorem Bereft.of_die (hb : (d.die p).Bereft r) : d.Bereft r ∨ (d.slot p).parent = some r := by
  obtain ⟨q, h1, h2⟩ := hb
  rw [Table.die_parent] at h1
  rw [Table.die_state] at h2
  by_cases e : q = p
  · exact Or.inr (e ▸ h1)
  · exact Or.inl ⟨q, h1, by simpa [e] using h2⟩

theorem Heard.anti (hZ : Z' ⊆ Z) (h : Heard d Z) : Heard d Z' := fun q hq => h q (hZ hq)

theorem Heard.of_bereft (hb : ∀ r, d'.Bereft r → d.Bereft r) (h : Heard d Z) : Heard d' Z :=
  fun q hq hq' => h q hq (hb q hq')

theorem Warned.anti (hZ : Z' ⊆ Z) (h : Warned p d Z) : Warned p d Z' :=
  ⟨h.live, fun r hr hz => h.parent r hr (hZ hz)⟩

theorem Knows.anti (hZ : Z' ⊆ Z) (h : Knows p t d Z) : Knows p t d Z' := by
  cases t with
  | xreparent => exact ⟨h.1.anti hZ, h.2.anti hZ⟩
  | xwakeinit => exact ⟨fun q hq hz => h.1 q hq (hZ hz), h.2.1.anti hZ, h.2.2⟩
  | xzombie => exact ⟨h.1.anti hZ, h.2.1.anti hZ, h.2.2⟩
  | wsleep => exact ⟨h.1.anti hZ, h.2⟩
  | _ => exact Heard.anti hZ h

/-! ## Changes without the lock -/

/-- What fork of `p` does without the lock leaves every other process and its children alone. -/
structure Apart (p : Pid) (d d' : Table) : Prop where
  bereft : ∀ r, d'.Bereft r → d.Bereft r
  live : ∀ q, (d.slot q).state = .live →
    (d'.slot q).state = .live ∧ (d'.slot q).parent = (d.slot q).parent
  child : ∀ q r, r ≠ p → (d'.slot q).parent = some r → (d.slot q).parent = some r

theorem Apart.warned (h : Apart p d d') (hw : Warned q d Z) : Warned q d' Z := by
  obtain ⟨h1, h2⟩ := h.live q hw.live
  exact ⟨h1, by rw [h2]; exact hw.parent⟩

theorem Apart.childless (h : Apart p d d') (hq : q ≠ p) (hc : Childless q d) : Childless q d' :=
  fun r hr => hc r (h.child r q hq hr)

theorem Apart.knows (h : Apart p d d') (hq : q ≠ p) (hk : Knows q t d Z) : Knows q t d' Z := by
  cases t with
  | xreparent => exact ⟨hk.1.of_bereft h.bereft, h.warned hk.2⟩
  | xwakeinit =>
    exact ⟨fun r hr hz hb => hk.1 r hr hz (h.bereft r hb), h.warned hk.2.1, h.childless hq hk.2.2⟩
  | xzombie => exact ⟨hk.1.of_bereft h.bereft, h.warned hk.2.1, h.childless hq hk.2.2⟩
  | wsleep => exact ⟨hk.1.of_bereft h.bereft, fun hb => hk.2 (h.bereft _ hb)⟩
  | _ => exact Heard.of_bereft h.bereft hk

theorem Quiet.apart (h : Quiet d d')
    (hc : ∀ q r, r ≠ p → (d'.slot q).parent = some r → (d.slot q).parent = some r) :
    Apart p d d' :=
  ⟨fun _ hb => h.bereft.mp hb, fun q hq => ⟨h.live.mpr hq, h.parent q (.of_live hq)⟩, hc⟩

theorem Apart.fail (hd : Family d) (h : (d.slot np).state = .embryo) : Apart p d (d.fail np) := by
  refine (Quiet.fail hd h).apart fun q r _ hr => ?_
  by_cases e : q = np <;> simpa [Table.fail, e] using hr

theorem Apart.adopt (hd : Family d) (h : (d.slot np).state = .embryo) (hp : p ≠ np) :
    Apart p d (d.adopt p np) := by
  refine (Quiet.adopt hd h hp).apart fun q r hr hq => ?_
  by_cases e : q = np
  · subst e
    simp [Table.adopt, Ne.symm hr] at hq
  · simpa [Table.adopt, e] using hq

theorem Apart.start (h : (d.slot np).state = .embryo) : Apart p d (d.start p np) := by
  refine ⟨fun r hb => Bereft.of_start h hb, fun q hq => ?_, fun q r _ hr => ?_⟩
  · simp [Table.start, ne_of_state hq h nofun, hq]
  · by_cases e : q = np <;> simpa [Table.start, e] using hr

/-! ## Other processes -/

/-- What a change by `p` leaves of the others: they stay alive and so do the slots they fill in. -/
structure Spares (p : Pid) (d d' : Table) : Prop where
  live : ∀ q, q ≠ p → (d.slot q).state = .live → (d'.slot q).state = .live
  made : ∀ q np, q ≠ p → (d.slot np).state = .embryo → (d.slot np).maker = some q →
    (d'.slot np).state = .embryo ∧ (d'.slot np).maker = some q ∧
      ((d.slot np).parent = some q → (d'.slot np).parent = some q)

theorem Local.spared {u : Place} (h : Local q u d) (hq : q ≠ p) (hs : Spares p d d')
    (hf : Family d') (hr : Record d') : Local q u d' := by
  refine ⟨hf, hr, fun ha => hs.live q hq (h.alive ha), fun np hnp => ?_, fun np hnp => ?_, h.exits⟩
  · obtain ⟨h1, h2⟩ := h.making np hnp
    obtain ⟨h3, h4, -⟩ := hs.made q np hq h1 h2
    exact ⟨h3, h4⟩
  · obtain ⟨h1, h2⟩ := h.making np (by rw [hnp]; rfl)
    exact (hs.made q np hq h1 h2).2.2 (h.adopted np hnp)

/-- `p` changes one slot, which is neither alive nor filled in by another process. -/
theorem Spares.slot {c : Pid} (hs : ∀ q, q ≠ c → d'.slot q = d.slot q)
    (hl : (d.slot c).state = .live → c = p)
    (hm : (d.slot c).state = .embryo → (d.slot c).maker = some p) : Spares p d d' := by
  constructor
  · intro q hq hlive
    have e : q ≠ c := by
      rintro rfl
      exact hq (hl hlive)
    rw [hs q e]
    exact hlive
  · intro q k hq hemb hmaker
    have e : k ≠ c := by
      rintro rfl
      rw [hm hemb] at hmaker
      exact hq (Option.some.inj hmaker).symm
    rw [hs k e]
    exact ⟨hemb, hmaker, fun h => h⟩

theorem Spares.reparent : Spares p d (d.reparent p) := by
  refine ⟨fun q _ h => h, fun q np hq h1 h2 => ⟨h1, h2, fun h3 => ?_⟩⟩
  rw [Table.reparent_parent, h3, if_neg]
  simp [hq]

theorem Spares.setKilled : Spares p d (d.setKilled q) := by
  constructor
  · intro q' _ h
    by_cases e : q' = q <;> simpa [Table.setKilled, e] using h
  · intro q' np _ h1 h2
    by_cases e : np = q
    · subst e
      simp [Table.setKilled, h1, h2]
    · simp [Table.setKilled, e, h1, h2]

/-! ## The code -/

theorem Local.of (hf : Family d) (hr : Record d) (hl : (d.slot p).state = .live)
    (hm : k.making = none) (hx : k.exits = true → p ≠ initproc) : Local p k d := by
  refine ⟨hf, hr, fun _ => hl, fun np hnp => ?_, fun np hnp => ?_, hx⟩
  · rw [hm] at hnp
    cases hnp
  · rw [hnp] at hm
    cases hm

/-- `p` goes on to a place where it has no slot in hand. -/
theorem Local.goes (h : Local p t d) (hl : (d.slot p).state = .live) (hm : k.making = none)
    (hx : k.exits = true → p ≠ initproc) : Local p k d :=
  .of h.family h.record hl hm hx

/-- `p` goes on with the slot it has in hand. -/
theorem Local.makes (h : Local p t d) (ha : t.alive = true) (hm : k.making = t.making)
    (hk : k.exits = false) (hf : ∀ np, k ≠ .fstart np) : Local p k d := by
  refine ⟨h.family, h.record, fun _ => h.alive ha, fun np hnp => h.making np (hm ▸ hnp),
    fun np hnp => absurd hnp (hf np), fun hx => ?_⟩
  rw [hk] at hx
  cases hx

theorem Local.leaves (hf : Family d) (hr : Record d) : Local p .user d :=
  ⟨hf, hr, nofun, nofun, by simp, nofun⟩

theorem Local.caller (h : Local p t d) (hl : (d.slot p).state = .live) {x : Bool}
    (hx : x = true → p ≠ initproc) : Local p (.caller x) d := by
  cases x with
  | false => exact .leaves h.family h.record
  | true => exact h.goes hl rfl fun _ => hx rfl

theorem Local.not_init {x : Bool} (h : Local p (.caller x) d) (hx : x = true) : p ≠ initproc := by
  subst hx
  exact h.exits rfl

theorem code_ok {p : Pid} {t : Place} {i : Instr Pid Spin Chan Table Place}
    (hS : ∀ q, Local q (m.thr q).place m.data) (ht : m.thr p = .at t) (hc : code m p t i)
    (hA : Spin.ptable ∈ holds t → Knows p t m.data (m.slept Spin.ptable)) :
    Instr.Ok Spin.ptable holds Heard Knows Local m p t i := by
  have hp : Local p t m.data := by
    have := hS p
    rwa [ht] at this
  -- a change by fork without the lock
  have houtside : ∀ {d' k}, Spin.ptable ∉ holds t → Local p k d' → Spares p m.data d' →
      Apart p m.data d' → Instr.Ok Spin.ptable holds Heard Knows Local m p t (.set d' k) :=
    fun hl hk hs ha => ⟨hk, fun q hq => (hS q).spared hq hs hk.family hk.record,
      fun h => absurd h hl, fun _ => ⟨fun Z _ hJ => hJ.of_bereft ha.bereft,
        fun q u Z hq _ hk' => ha.knows hq hk'⟩⟩
  -- a change with the lock
  have hinside : ∀ {d' k}, Spin.ptable ∈ holds t → Local p k d' → Spares p m.data d' →
      Knows p k d' (m.slept Spin.ptable) →
      Instr.Ok Spin.ptable holds Heard Knows Local m p t (.set d' k) :=
    fun hl hk hs ha => ⟨hk, fun q hq => (hS q).spared hq hs hk.family hk.record,
      fun _ => ha, fun h => absurd hl h⟩
  have hfail : ∀ {np}, t.making = some np → Spin.ptable ∉ holds t →
      Instr.Ok Spin.ptable holds Heard Knows Local m p t (.set (m.data.fail np) .user) := by
    intro np hnp hl
    obtain ⟨h1, h2⟩ := hp.making np hnp
    have hq := Quiet.fail hp.family h1
    refine houtside hl (.leaves (hq.family hp.family) (hq.record hp.record))
      (.slot (c := np) ?_ (by simp [h1]) fun _ => h2) (.fail hp.family h1)
    intro q e
    simp [Table.fail, e]
  have hwarn : ∀ {Z}, Warned p m.data Z → Warned p (m.data.reparent p) Z := by
    refine fun h => ⟨h.live, fun r hr => h.parent r ?_⟩
    rwa [Table.reparent_parent, if_neg (hp.family.self p)] at hr
  cases hc with
  | fork hlive | wait hlive | kill _ hlive =>
    exact Instr.Ok.test hS (hp.goes hlive rfl nofun) fun h => h.elim
  | facquire | xacquire | wacquire | kacquire =>
    exact ⟨hp.goes (hp.alive rfl) rfl hp.exits, fun _ hJ => hJ, fun h => absurd rfl h⟩
  | ffound i hi h =>
    have hq := Quiet.embryo (p := p) hp.family h
    refine hinside rfl ⟨hq.family hp.family, hq.record hp.record, ?_, ?_, by simp,
      nofun⟩ (.slot (c := ⟨i, hi⟩) ?_ (by simp [h]) (by simp [h])) ?_
    · exact fun _ => hq.live.mpr (hp.alive rfl)
    · rintro np ⟨⟩
      simp [Table.embryo]
    · intro q e
      simp [Table.embryo, e]
    · exact Heard.of_bereft (fun r => hq.bereft.mp) (hA rfl)
  | fnext | ffull | wleave | knone =>
    exact Instr.Ok.test hS (hp.goes (hp.alive rfl) rfl hp.exits) hA
  | frelease np =>
    refine ⟨?_, fun _ => hA rfl, fun h => absurd rfl h⟩
    exact hp.makes rfl rfl rfl (by simp)
  | freturn | xsched | wrelease | krelease =>
    exact ⟨.leaves hp.family hp.record, fun _ => hA rfl, fun h => absurd rfl h⟩
  | fkstack | fcopy =>
    exact Instr.Ok.test hS (hp.makes rfl rfl rfl (by simp)) fun h => h.elim
  | fnostack | fnocopy => exact hfail rfl (Set.notMem_empty _)
  | fparent np =>
    obtain ⟨h1, h2⟩ := hp.making np rfl
    have hne : p ≠ np := ne_of_state (hp.alive rfl) h1 nofun
    have hq := Quiet.adopt hp.family h1 hne
    refine houtside (Set.notMem_empty _) ⟨hq.family hp.family, hq.record hp.record, ?_, ?_, ?_,
      nofun⟩
      (.slot (c := np) ?_ (by simp [h1]) fun _ => h2) (.adopt hp.family h1 hne)
    · exact fun _ => hq.live.mpr (hp.alive rfl)
    · rintro np' ⟨⟩
      simp [Table.adopt, h1, h2]
    · rintro np' ⟨⟩
      simp [Table.adopt]
    · intro q e
      simp [Table.adopt, e]
  | fstart np =>
    obtain ⟨h1, h2⟩ := hp.making np rfl
    refine houtside (Set.notMem_empty _)
      (.leaves (hp.family.start h1 (hp.alive rfl) (hp.adopted np rfl)) (hp.record.start h1))
      (.slot (c := np) ?_ (by simp [h1]) fun _ => h2) (.start h1)
    intro q e
    simp [Table.start, e]
  | exit hlive hi =>
    refine Instr.Ok.test hS ?_ fun h => h.elim
    exact hp.goes hlive rfl fun _ => hi
  | xwake r h =>
    refine ⟨hp.goes (hp.alive rfl) rfl hp.exits, ?_⟩
    refine fun hl => ⟨Heard.anti Set.sdiff_subset (hA hl), hp.alive rfl, ?_⟩
    intro r' hr' hz
    rw [h] at hr'
    cases hr'
    exact hz.2 rfl
  | xnoparent h =>
    refine Instr.Ok.test hS ?_ fun hl => ⟨hA hl, hp.alive rfl, ?_⟩
    · exact hp.goes (hp.alive rfl) rfl hp.exits
    · intro r hr
      rw [h] at hr
      cases hr
  | xzombies h =>
    obtain ⟨h1, h2⟩ := hA rfl
    refine hinside rfl (.of hp.family.reparent hp.record.reparent h2.live rfl hp.exits)
      .reparent ⟨?_, hwarn h2, .reparent (hp.exits rfl)⟩
    intro q hq hz hb
    obtain hb | ⟨rfl, -⟩ := Bereft.of_reparent hb
    · exact h1 q hz hb
    · exact hq rfl
  | xreparent h =>
    obtain ⟨h1, h2⟩ := hA rfl
    refine hinside rfl (.of hp.family.reparent hp.record.reparent h2.live rfl hp.exits)
      .reparent ⟨?_, hwarn h2, .reparent (hp.exits rfl)⟩
    intro q hz hb
    obtain hb | ⟨-, hb⟩ := Bereft.of_reparent hb
    · exact h1 q hz hb
    · exact h hb
  | xwakeinit =>
    refine ⟨hp.goes (hp.alive rfl) rfl hp.exits, ?_⟩
    intro hl
    obtain ⟨h1, h2, h3⟩ := hA hl
    refine ⟨fun q hq => ?_, h2.anti Set.sdiff_subset, h3⟩
    exact h1 q (fun e => hq.2 (by rw [e]; rfl)) hq.1
  | xzombie =>
    obtain ⟨h1, h2, h3⟩ := hA rfl
    have hlive := hp.alive rfl
    have hi := hp.exits rfl
    refine hinside rfl ⟨hp.family.die hlive hi h3, hp.record.die hlive, nofun,
      nofun, by simp, nofun⟩
      (.slot (c := p) ?_ (fun _ => rfl) (by simp [hlive])) ?_
    · intro q e
      simp [Table.die, e]
    · intro q hz hb
      obtain hb | hb := Bereft.of_die hb
      · exact h1 q hz hb
      · exact h2.parent q hb hz
  | wfound q h =>
    obtain ⟨h1, h2⟩ := Table.of_child h
    have hne : p ≠ q := ne_of_state (hp.alive rfl) h2 nofun
    refine hinside rfl ⟨hp.family.reap h2, hp.record.reap hp.family h2 h1, ?_, nofun,
      by simp, nofun⟩
      (.slot (c := q) ?_ (by simp [h2]) (by simp [h2])) ?_
    · intro _
      simp [Table.reap, hne, hp.alive rfl]
    · intro q' e
      simp [Table.reap, e]
    · exact Heard.of_bereft (fun r => Bereft.of_reap) (hA rfl)
  | wstay h hk =>
    refine Instr.Ok.test hS ?_ fun hl => ⟨hA hl, Table.child_none h⟩
    exact hp.goes (hp.alive rfl) rfl nofun
  | wsleep =>
    refine ⟨?_, fun _ => ⟨?_, fun _ _ _ hJ => hJ⟩⟩
    · exact hp.goes (hp.alive rfl) rfl nofun
    · obtain ⟨hJ, hb⟩ := hA rfl
      rintro q (hq | hq)
      · cases hq
        exact hb
      · exact hJ q hq
  | kfound pid q h =>
    have hq := Quiet.setKilled (q := q) hp.family
    refine hinside rfl ⟨hq.family hp.family, hq.record hp.record, ?_, nofun,
      by simp, nofun⟩ .setKilled (Heard.of_bereft (fun r => hq.bereft.mp) (hA rfl))
    exact fun _ => hq.live.mpr (hp.alive rfl)
  | krouse q =>
    exact ⟨hp.goes (hp.alive rfl) rfl nofun, hA⟩
  | sleep n x _ hx hlive | wakeup n x _ hx hlive =>
    subst hx
    exact Instr.Ok.test hS (hp.goes hlive rfl hp.not_init) (by simp)
  | sacquire n x => exact ⟨hp.goes (hp.alive rfl) rfl hp.exits, by simp, by simp [holds]⟩
  | ssleep n x => exact ⟨hp.goes (hp.alive rfl) rfl hp.exits, by simp⟩
  | srelease x => exact ⟨hp.caller (hp.alive rfl) hp.exits, by simp, by simp [holds]⟩
  | swakeup n x => exact ⟨hp.caller (hp.alive rfl) hp.exits, by simp [holds]⟩

theorem table_monitor : Monitor Spin.ptable Spin.ptable holds Heard Knows Local code :=
  ⟨code_fits, Heard.anti, Knows.anti, fun _ hS ht hc hA => code_ok hS ht hc hA⟩

/-! ## Runs -/

theorem userinit_family : Family userinit := by
  refine ⟨rfl, rfl, fun q => ?_, fun q hq hp => ?_⟩
  · by_cases e : q = initproc <;> simp [userinit, e]
  · simp [userinit, hq, Slot.Present] at hp

theorem userinit_record : Record userinit := by
  have hone : ∀ q, (userinit.slot q).Present → q = initproc := by
    intro q hq
    by_contra e
    simp [userinit, e, Slot.Present] at hq
  refine ⟨?_, ?_, nofun, nofun, List.nodup_nil, ?_, ?_, nofun⟩
  · intro q hq
    rw [hone q hq]
    exact Nat.one_pos
  · intro q q' hq hq' _
    rw [hone q hq, hone q' hq']
  · intro i
    refine ⟨nofun, ?_⟩
    rintro (⟨q, hz, -⟩ | ⟨x, hx, -⟩)
    · rw [hone q (.of_zombie hz)] at hz
      cases hz
    · cases hx
  · intro i hi
    refine Or.inr ⟨initproc, rfl, ?_⟩
    have : i < 1 := hi
    show 0 = i
    omega

theorem boot_table : MonInv Spin.ptable Spin.ptable holds Heard Knows Local boot := by
  refine ⟨boot_locks, fun p => .leaves userinit_family userinit_record, nofun, fun _ => ?_, ?_⟩
  · rintro q ⟨p, k, hk⟩
    simp [boot] at hk
  · exact fun p hp => hp.elim

/-- The place a sleeper goes on at. -/
def Asks : Chan → Place → Prop
  | .proc _, k => k = .wscan
  | .other _, k => ∃ x, k = .srelease x

theorem code_asks (m : Kernel) (p : Pid) (t : Place) (c : Chan) (l : Spin) (k : Place)
    (h : code m p t (.sleep c l k)) : Asks c k := by
  cases h with
  | wsleep => rfl
  | ssleep n x => exact ⟨x, rfl⟩

/-- What holds in every state of a run. -/
structure Reached (m : Kernel) : Prop where
  table : MonInv Spin.ptable Spin.ptable holds Heard Knows Local m
  waits : Waits Asks m

theorem Reached.step (h : Reached m) (hs : Step Spin.ptable code p m m') : Reached m' :=
  ⟨h.table.step table_monitor hs, h.waits.step code_asks hs⟩

theorem Runs.reached (h : Runs boot m) : Reached m := by
  induction h with
  | refl => exact ⟨boot_table, fun p c l k hk => by simp [boot] at hk⟩
  | tail _ hs ih =>
    obtain ⟨p, hs⟩ := hs
    exact ih.step hs

/-- A process asleep in `wait` gave up `ptable.lock`. -/
theorem Reached.slept {l : Spin} (h : Reached m) (hp : m.thr p = .asleep (.proc q) l k) :
    .proc q ∈ m.slept Spin.ptable := by
  obtain rfl : k = .wscan := h.waits p _ l k (Or.inr (Or.inr hp))
  have hw : holds .wscan = {l} := by
    have := h.table.locks.wf p
    rwa [hp] at this
  obtain rfl : l = .ptable := Set.singleton_injective hw.symm
  exact ⟨p, .wscan, Or.inr hp⟩

theorem Reached.family (h : Reached m) : Family m.data :=
  (h.table.loc initproc).family

theorem Reached.record (h : Reached m) : Record m.data :=
  (h.table.loc initproc).record

/-- A call of `wait` by a process with a zombie child. -/
theorem runs_wait (hl : m.lock .ptable = none) (ht : m.thr p = .at .user)
    (hp : (m.data.slot p).state = .live) (hq : m.data.child p = some q) :
    ∃ m', Runs m m' ∧ m'.lock .ptable = none ∧ m'.thr p = .at .user ∧
      m'.data = m.data.reap p q := by
  refine ⟨_, .tail (.tail (.tail (.tail .refl ⟨p, .set ht (.wait hp)⟩)
    ⟨p, .acquire (update_self ..) .wacquire hl⟩)
    ⟨p, .set (update_self ..) (.wfound q hq)⟩)
    ⟨p, .release (update_self ..) .wrelease⟩, ?_, ?_, rfl⟩
  · simp [Machine.go, Machine.give]
  · simp [Machine.go]

/-- The zombie children of `p`. -/
def Table.zombies (d : Table) (p : Pid) : Finset Pid :=
  Finset.univ.filter fun q => (d.slot q).parent = some p ∧ (d.slot q).state = .zombie

/-- A zombie is returned after as many calls of `wait` as its parent has zombie children. -/
theorem runs_waits {q : Pid} (hl : m.lock .ptable = none) (ht : m.thr p = .at .user)
    (hp : (m.data.slot p).state = .live) (hpar : (m.data.slot q).parent = some p)
    (hz : (m.data.slot q).state = .zombie) :
    ∃ m', Runs m m' ∧ ∃ x ∈ m'.data.reaped, x.id = (m.data.slot q).id ∧
      x.caller = (p, (m.data.slot p).id) := by
  -- each call returns one of them
  induction hn : (m.data.zombies p).card generalizing m with
  | zero =>
    rw [Finset.card_eq_zero] at hn
    have : q ∈ m.data.zombies p := by simp [Table.zombies, hpar, hz]
    rw [hn] at this
    cases this
  | succ n ih =>
    obtain ⟨q1, hq1⟩ : ∃ q1, m.data.child p = some q1 := by
      cases h : m.data.child p with
      | none => exact absurd ⟨q, hpar, hz⟩ (Table.child_none h)
      | some q1 => exact ⟨q1, rfl⟩
    obtain ⟨h1, h2⟩ := Table.of_child hq1
    obtain ⟨m1, hr, hl1, ht1, hd⟩ := runs_wait hl ht hp hq1
    by_cases e : q = q1
    · subst e
      exact ⟨m1, hr, _, by rw [hd]; exact List.mem_append_right _ (List.mem_singleton_self _),
        rfl, rfl⟩
    · have hslot : ∀ q', q' ≠ q1 → m1.data.slot q' = m.data.slot q' := by
        intro q' e'
        rw [hd]
        simp [Table.reap, e']
      have hp1 : p ≠ q1 := ne_of_state hp h2 nofun
      have hcard : (m1.data.zombies p).card = n := by
        have : m1.data.zombies p = (m.data.zombies p).erase q1 := by
          ext q'
          by_cases e' : q' = q1
          · rw [e', hd]
            simp [Table.zombies, Table.reap]
          · simp [Table.zombies, hslot q' e', e']
        rw [this, Finset.card_erase_of_mem (by simp [Table.zombies, h1, h2]), hn]
        rfl
      obtain ⟨m2, hr2, x, hx, h3, h4⟩ := ih hl1 ht1 (by rw [hslot p hp1]; exact hp)
        (by rw [hslot q e]; exact hpar) (by rw [hslot q e]; exact hz) hcard
      rw [hslot q e] at h3
      rw [hslot p hp1] at h4
      exact ⟨m2, hr.trans hr2, x, hx, h3, h4⟩

/-- The process table is in order. -/
structure Orderly (m : Kernel) : Prop where
  /-- Every process but init has a parent that lives. -/
  parent : ∀ q, q ≠ initproc → (m.data.slot q).state ≠ .unused →
    (m.data.slot q).state ≠ .embryo →
    ∃ r, (m.data.slot q).parent = some r ∧ (m.data.slot r).state = .live
  /-- A process that sleeps in `wait` has no zombie child. -/
  wait : ∀ p l k, m.thr p = .asleep (.proc p) l k →
    ∀ q, (m.data.slot q).parent = some p → (m.data.slot q).state ≠ .zombie
  /-- Every process forked so far lives or has exited. -/
  forked : ∀ i < m.data.count, i ∈ m.data.exited ∨
    ∃ q, (m.data.slot q).state = .live ∧ (m.data.slot q).id = i
  /-- A process that has exited was returned by one `wait`; or by none, and then it is a zombie
      that its parent gets by calling `wait`. -/
  exited : ∀ i ∈ m.data.exited, (m.data.reaped.map Reap.id).count i = 1 ∨
    (m.data.reaped.map Reap.id).count i = 0 ∧
      ∃ q r, (m.data.slot q).state = .zombie ∧ (m.data.slot q).id = i ∧
        (m.data.slot q).parent = some r ∧ (m.data.slot r).state = .live ∧
        (m.thr r = .at .user → ∃ m', Runs m m' ∧
          ∃ x ∈ m'.data.reaped, x.id = i ∧ x.caller = (r, (m.data.slot r).id))
  /-- Each `wait` returned an exited child of the caller, which created it or is init. -/
  reaped : ∀ x ∈ m.data.reaped, x.id ∈ m.data.exited ∧ x.parent = some x.caller.1 ∧
    (x.caller.1 = initproc ∨ x.creator = some x.caller)

/-- In every run of the calls the process table is in order whenever its lock is free. -/
theorem process_table {m : Kernel} (h : Runs boot m) (hl : m.lock .ptable = none) :
    Orderly m := by
  have hm := h.reached
  have hf := hm.family
  have hr := hm.record
  constructor
  · intro q hq h1 h2
    have hpres : (m.data.slot q).Present := by
      cases hs : (m.data.slot q).state with
      | unused => exact absurd hs h1
      | embryo => exact absurd hs h2
      | live => exact .of_live hs
      | zombie => exact .of_zombie hs
    obtain ⟨r, h3, h4, -⟩ := hf.parent q hq hpres
    exact ⟨r, h3, h4⟩
  · intro p l k hp q hq hz
    exact hm.table.free hl p (hm.slept hp) ⟨q, hq, hz⟩
  · exact hr.born
  · intro i hi
    obtain ⟨q, hz, rfl⟩ | ⟨x, hx, rfl⟩ := (hr.exited i).mp hi
    · right
      obtain ⟨r, h1, h2, -⟩ := hf.parent q (ne_of_state hz hf.init nofun) (.of_zombie hz)
      refine ⟨?_, q, r, hz, rfl, h1, h2, fun ht => runs_waits hl ht h2 h1 hz⟩
      rw [List.count_eq_zero]
      intro hmem
      obtain ⟨x, hx, he⟩ := List.mem_map.mp hmem
      exact hr.fresh q (.of_zombie hz) x hx he
    · exact Or.inl (List.count_eq_one_of_mem hr.once (List.mem_map_of_mem hx))
  · intro x hx
    exact ⟨(hr.exited x.id).mpr (Or.inr ⟨x, hx, rfl⟩), hr.caller x hx⟩

/-- Init forks, the child exits, and init has not called `wait` yet. -/
theorem runs_exit : ∃ m, Runs boot m ∧ m.lock .ptable = none ∧ (m.data.slot 1).state = .zombie ∧
    m.data.exited = [1] := by
  refine Steps.reach 0 (.set rfl (.fork rfl)) ?_
  refine Steps.reach 0 (.acquire rfl .facquire rfl) ?_
  refine Steps.reach 0 (.set rfl (.fnext 0 (by decide) (by decide))) ?_
  refine Steps.reach 0 (.set rfl (.ffound 1 (by decide) rfl)) ?_
  refine Steps.reach 0 (.release rfl (.frelease 1)) ?_
  refine Steps.reach 0 (.set rfl (.fkstack 1)) ?_
  refine Steps.reach 0 (.set rfl (.fcopy 1)) ?_
  refine Steps.reach 0 (.set rfl (.fparent 1)) ?_
  refine Steps.reach 0 (.set rfl (.fstart 1)) ?_
  refine Steps.reach 1 (.set rfl (.exit rfl (by decide))) ?_
  refine Steps.reach 1 (.acquire rfl .xacquire rfl) ?_
  refine Steps.reach 1 (.wakeup1 rfl (.xwake 0 rfl)) ?_
  refine Steps.reach 1 (.set rfl (.xreparent (by decide))) ?_
  refine Steps.reach 1 (.set rfl .xzombie) ?_
  refine Steps.reach 1 (.release rfl .xsched) ?_
  exact ⟨_, .refl, rfl, rfl, rfl⟩

theorem process_table_exit : ∃ m, Runs boot m ∧ m.lock .ptable = none ∧
    (m.data.slot 1).state = .zombie ∧ Orderly m := by
  obtain ⟨m, hr, hl, hz, -⟩ := runs_exit
  exact ⟨m, hr, hl, hz, process_table hr hl⟩

end Zv6.Ptable
