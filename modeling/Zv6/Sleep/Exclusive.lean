/-
  At most one process has each sleep lock, and no wakeup is lost, unless an inode is unlocked by a
  process that has not locked it.

  `Local` ties what a process has in hand to the flags: a busy flag has one owner. `Heard`: while
  the spinlock that guards a flag is free, whoever sleeps for it finds it set. Clearing a flag
  without being its owner is what `iunlock` does after an `ilock` that failed. `careful` is the
  code without such calls (`sleep_locks`), `unlocked_twice` is a run with one.
-/
import Zv6.Sleep.Code

namespace Zv6.Sleep

open Lib Function

variable {P : Type}

/-- The flag that is about to be given back. -/
def Place.gives : Place P → Option Obj
  | .relAcq _ b => some (.buf b)
  | .relClear _ b => some (.buf b)
  | .unlockAcq _ i _ => some (.ino i)
  | .unlockClear _ i _ => some (.ino i)
  | .putAgain _ i => some (.ino i)
  | .putClear _ i => some (.ino i)
  | .commitAcq _ => some .log
  | .commitClear _ => some .log
  | _ => none

/-- The inode the call is about. -/
def Place.uses : Place P → Option Ino
  | .dupAcq _ i => some i
  | .dupSet _ i => some i
  | .lockAcq _ i => some i
  | .lockWhile _ i => some i
  | .lockSleep _ i => some i
  | .putAcq _ i => some i
  | .putTest _ i => some i
  | .putWake _ i => some i
  | .putDrop _ i => some i
  | _ => none

/-- The flag was cleared and the wakeup is due. -/
def Place.wakes : Place P → Option Obj
  | .relWake _ b => some (.buf b)
  | .unlockWake _ i => some (.ino i)
  | .putWake _ i => some (.ino i)
  | .commitWake _ => some .log
  | _ => none

/-- The flag the process is going to sleep for. -/
def Place.waits : Place P → Option Obj
  | .getSleep _ _ b => some (.buf b)
  | .lockSleep _ i => some (.ino i)
  | .beginSleep _ => some .log
  | _ => none

/-- A flag is set as long as it has an owner. -/
def Marked (d : Flags P) : Prop := ∀ o, d.busy o = true ↔ ∃ q, d.owner o = some q

structure Local (p : P) (t : Place P) (d : Flags P) : Prop where
  marked : Marked d
  owns : ∀ o, o ∈ t.frame.held ↔ d.owner o = some p
  refs : ∀ i ∈ t.frame.refs, 1 ≤ d.ref i
  kept : ∀ i, .ino i ∈ t.frame.held → i ∈ t.frame.refs
  gives : ∀ o, t.gives = some o → o ∈ t.frame.held
  uses : ∀ i, t.uses = some i → i ∈ t.frame.refs

/-- Whoever sleeps for a flag that `g` guards finds it set. -/
def Heard (g : Spin) (d : Flags P) (Z : Set Obj) : Prop :=
  ∀ o, guard o = g → o ∈ Z → d.busy o = true

/-- What is known at a place that has the spinlock `g`. -/
structure Knows (g : Spin) (_ : P) (t : Place P) (d : Flags P) (Z : Set Obj) : Prop where
  heard : ∀ o, t.wakes ≠ some o → guard o = g → o ∈ Z → d.busy o = true
  waits : ∀ o, t.waits = some o → guard o = g → d.busy o = true

variable {d d' : Flags P} {p q : P} {t k : Place P} {Z Z' : Set Obj} {o : Obj} {i : Ino} {g : Spin}

theorem Heard.anti (hZ : Z' ⊆ Z) (h : Heard g d Z) : Heard g d Z' := fun o hg ho => h o hg (hZ ho)

theorem Knows.anti (hZ : Z' ⊆ Z) (h : Knows g p t d Z) : Knows g p t d Z' :=
  ⟨fun o hw hg ho => h.heard o hw hg (hZ ho), h.waits⟩

theorem Heard.knows (h : Heard g d Z) (hw : t.waits = none) : Knows g p t d Z :=
  ⟨fun o _ hg ho => h o hg ho, fun o ho => by rw [hw] at ho; cases ho⟩

theorem Knows.all (h : Knows g p t d Z) (hw : t.wakes = none) : Heard g d Z :=
  fun o hg ho => h.heard o (by simp [hw]) hg ho

/-- From one place with the spinlock to the next. -/
theorem Knows.goes (h : Knows g p t d Z) (ht : t.wakes = none)
    (hb : ∀ o, k.wakes ≠ some o → d.busy o = true → d'.busy o = true)
    (hw : ∀ o, k.waits = some o → d'.busy o = true) : Knows g p k d' Z :=
  ⟨fun o ho hg hz => hb o ho (h.all ht o hg hz), fun o ho _ => hw o ho⟩

/-- The flags that `g` guards are the same. -/
theorem Knows.same (h : Knows g q t d Z) (hb : ∀ o, guard o = g → d'.busy o = d.busy o) :
    Knows g q t d' Z :=
  ⟨fun o ho hg hz => by rw [hb o hg]; exact h.heard o ho hg hz,
    fun o ho hg => by rw [hb o hg]; exact h.waits o ho hg⟩

/-! ## Changes of the data -/

variable {m : Kernel P}

/-- The instruction keeps what is known about the flags that `g` guards. -/
abbrev Keeps (g : Spin) (m : Kernel P) (p : P) (t : Place P)
    (ins : Instr P Spin Obj (Flags P) (Place P)) : Prop :=
  Instr.Ok g holds (Heard g) (Knows g) Local m p t ins

/-- Flags are changed only under the spinlock that guards them. -/
theorem ok_set (hk : Local p k d') (ho : ∀ q, q ≠ p → Local q (m.thr q).place d')
    (hb : ∀ o, guard o ∉ holds t → d'.busy o = m.data.busy o)
    (hA : g ∈ holds t → Knows g p k d' (m.slept g)) :
    Keeps g m p t (.set d' k) := by
  refine ⟨hk, ho, hA, fun hg => ?_⟩
  have hsame : ∀ o, guard o = g → d'.busy o = m.data.busy o := by
    rintro o rfl
    exact hb o hg
  refine ⟨fun Z _ hJ o hgo hz => ?_, fun q u Z _ _ h => h.same hsame⟩
  rw [hsame o hgo]
  exact hJ o hgo hz

/-- What another process has in hand is still its own. -/
theorem Local.other (h : Local q t d) (hm : Marked d')
    (hown : ∀ o, d'.owner o = some q ↔ d.owner o = some q)
    (href : ∀ i ∈ t.frame.refs, 1 ≤ d'.ref i) : Local q t d' :=
  ⟨hm, fun o => (h.owns o).trans (hown o).symm, href, h.kept, h.gives, h.uses⟩

/-- On to a place with the same frame. -/
theorem Local.goes (h : Local p t d) (hf : k.frame = t.frame)
    (hg : ∀ o, k.gives = some o → o ∈ t.frame.held)
    (hu : ∀ i, k.uses = some i → i ∈ t.frame.refs) : Local p k d := by
  refine ⟨h.marked, ?_, ?_, ?_, ?_, ?_⟩ <;> rw [hf]
  · exact h.owns
  · exact h.refs
  · exact h.kept
  · exact hg
  · exact hu

/-- The call goes on with what it is about. -/
theorem Local.next (h : Local p t d) (hf : k.frame = t.frame) (hg : k.gives = t.gives)
    (hu : k.uses = t.uses) : Local p k d :=
  h.goes hf (by rw [hg]; exact h.gives) (by rw [hu]; exact h.uses)

/-- The call ends, or one begins that needs nothing. -/
theorem Local.plain (h : Local p t d) (hf : k.frame = t.frame) (hg : k.gives = none)
    (hu : k.uses = none) : Local p k d :=
  h.goes hf (by simp [hg]) (by simp [hu])

/-- Busy flags, owners and references are the same. -/
structure Same (d d' : Flags P) : Prop where
  busy : d'.busy = d.busy
  owner : d'.owner = d.owner
  ref : d'.ref = d.ref

theorem Local.same (h : Local p t d) (hs : Same d d') : Local p t d' := by
  refine ⟨?_, ?_, ?_, h.kept, h.gives, h.uses⟩
  · unfold Marked
    rw [hs.busy, hs.owner]
    exact h.marked
  · rw [hs.owner]
    exact h.owns
  · rw [hs.ref]
    exact h.refs

theorem ok_same (hS : ∀ q, Local q (m.thr q).place m.data) (hs : Same m.data d')
    (hA : g ∈ holds t → Knows g p t m.data (m.slept g)) (hk : Local p k m.data)
    (ht : t.wakes = none) (hw : ∀ o, k.waits = some o → m.data.busy o = true) :
    Keeps g m p t (.set d' k) := by
  refine ok_set (hk.same hs) (fun q _ => (hS q).same hs) (fun o _ => by rw [hs.busy]) fun hg => ?_
  exact (hA hg).goes ht (by rw [hs.busy]; exact fun _ _ h => h) (by rw [hs.busy]; exact hw)

theorem Marked.free (h : Marked d) (ho : d.busy o = false) : d.owner o = none := by
  cases he : d.owner o with
  | none => rfl
  | some q =>
    rw [(h o).mpr ⟨q, he⟩] at ho
    cases ho

theorem Marked.take (h : Marked d) : Marked (d.take p o) := by
  intro o'
  by_cases e : o' = o
  · subst e
    simp [Flags.take]
  · simpa [Flags.take, e] using h o'

theorem Marked.clear (h : Marked d) : Marked (d.clear o) := by
  intro o'
  by_cases e : o' = o
  · subst e
    simp [Flags.clear]
  · simpa [Flags.clear, e] using h o'

theorem take_owner (h : Marked d) (ho : d.busy o = false) (hq : q ≠ p) (o' : Obj) :
    (d.take p o).owner o' = some q ↔ d.owner o' = some q := by
  by_cases e : o' = o
  · subst e
    simp [Flags.take, h.free ho, Ne.symm hq]
  · simp [Flags.take, e]

theorem clear_owner (ho : ∀ r, d.owner o = some r → r = p) (hq : q ≠ p) (o' : Obj) :
    (d.clear o).owner o' = some q ↔ d.owner o' = some q := by
  by_cases e : o' = o
  · subst e
    simp only [Flags.clear, update_self, reduceCtorEq, false_iff]
    exact fun h => hq (ho q h)
  · simp [Flags.clear, e]

section

variable (hS : ∀ q, Local q (m.thr q).place m.data) (hp : Local p t m.data)
  (hA : g ∈ holds t → Knows g p t m.data (m.slept g))
include hS hp hA

/-- `p` sets a flag that was clear. -/
theorem ok_take (hs : Same (m.data.take p o) d') (ho : m.data.busy o = false)
    (hg : guard o ∈ holds t) (ht : t.wakes = none)
    (hf : k.frame.held = insert o t.frame.held) (hr : k.frame.refs = t.frame.refs)
    (hi : ∀ i, o = .ino i → i ∈ t.frame.refs) (hgives : k.gives = none) (huses : k.uses = none)
    (hwaits : k.waits = none) : Keeps g m p t (.set d' k) := by
  refine ok_set ?_ (fun q hq => ?_) (fun o' ho' => ?_) fun hg => ?_
  · refine Local.same ⟨hp.marked.take, fun o' => ?_, ?_, fun i hm => ?_, by simp [hgives],
      by simp [huses]⟩ hs
    · rw [hf, Finset.mem_insert]
      by_cases e : o' = o
      · simp [Flags.take, e]
      · simpa [Flags.take, e] using hp.owns o'
    · rw [hr]
      exact hp.refs
    · rw [hf, Finset.mem_insert] at hm
      rw [hr]
      exact hm.elim (fun e => hi i e.symm) (hp.kept i)
  · refine Local.same ?_ hs
    exact (hS q).other hp.marked.take (take_owner hp.marked ho hq) (hS q).refs
  · have e : o' ≠ o := by
      rintro rfl
      exact ho' hg
    rw [hs.busy]
    simp [Flags.take, e]
  · refine (hA hg).goes ht (fun o' _ hb => ?_) (by simp [hwaits])
    rw [hs.busy]
    by_cases e : o' = o <;> simp [Flags.take, e, hb]

/-- `p` clears a flag it had set. -/
theorem ok_clear (hs : Same (m.data.clear o) d') (ho : o ∈ t.frame.held) (hg : guard o ∈ holds t)
    (ht : t.wakes = none)
    (hf : k.frame.held = t.frame.held.erase o) (hr : k.frame.refs = t.frame.refs)
    (hgives : k.gives = none) (huses : ∀ i, k.uses = some i → i ∈ t.frame.refs)
    (hwaits : k.waits = none) (hwakes : k.wakes = some o) :
    Keeps g m p t (.set d' k) := by
  have hown : ∀ r, m.data.owner o = some r → r = p := by
    intro r hr
    rw [(hp.owns o).mp ho] at hr
    exact (Option.some.inj hr).symm
  refine ok_set ?_ (fun q hq => ?_) (fun o' ho' => ?_) fun hg => ?_
  · refine Local.same ⟨hp.marked.clear, fun o' => ?_, ?_, fun i hm => ?_, by simp [hgives],
      by rw [hr]; exact huses⟩ hs
    · rw [hf, Finset.mem_erase]
      by_cases e : o' = o
      · simp [Flags.clear, e]
      · simpa [Flags.clear, e] using hp.owns o'
    · rw [hr]
      exact hp.refs
    · rw [hf] at hm
      rw [hr]
      exact hp.kept i (Finset.mem_of_mem_erase hm)
  · refine Local.same ?_ hs
    exact (hS q).other hp.marked.clear (clear_owner hown hq) (hS q).refs
  · have e : o' ≠ o := by
      rintro rfl
      exact ho' hg
    rw [hs.busy]
    simp [Flags.clear, e]
  · refine (hA hg).goes ht (fun o' ho' hb => ?_) (by simp [hwaits])
    have e : o' ≠ o := by
      rintro rfl
      exact ho' hwakes
    rw [hs.busy]
    simp [Flags.clear, e, hb]

/-- The count of references changes. -/
theorem ok_ref {n : Nat} (hs : Same (m.data.setRef i n) d') (ht : t.wakes = none)
    (hh : k.frame.held = t.frame.held) (hr : ∀ j ∈ k.frame.refs, j ≠ i → j ∈ t.frame.refs)
    (hi : i ∈ k.frame.refs → 1 ≤ n) (ho : n = 0 → Alone m p i)
    (hkept : ∀ j, .ino j ∈ t.frame.held → j ∈ k.frame.refs)
    (hgives : k.gives = none) (huses : k.uses = none) (hwaits : k.waits = none) :
    Keeps g m p t (.set d' k) := by
  refine ok_set ?_ (fun q hq => Local.same ?_ hs) (fun _ _ => by rw [hs.busy]; rfl) fun hg => ?_
  · refine Local.same (d := m.data.setRef i n) ⟨hp.marked, by rw [hh]; exact hp.owns,
      fun j hj => ?_, by rw [hh]; exact hkept, by simp [hgives], by simp [huses]⟩ hs
    by_cases e : j = i
    · subst e
      simpa [Flags.setRef] using hi hj
    · simpa [Flags.setRef, e] using hp.refs j (hr j hj e)
  · refine (hS q).other hp.marked (fun _ => Iff.rfl) fun j hj => ?_
    by_cases e : j = i
    · subst e
      simp only [Flags.setRef, update_self]
      by_contra hn
      exact ho (by omega) q hq hj
    · simpa [Flags.setRef, e] using (hS q).refs j hj
  · exact (hA hg).goes ht (by rw [hs.busy]; exact fun _ _ h => h) (by simp [hwaits])

end

/-- The entry of the inode cache without references is not locked. -/
theorem not_busy (hS : ∀ q, Local q (m.thr q).place m.data) (hm : Marked m.data)
    (hi : m.data.ref i = 0) : m.data.busy (.ino i) = false := by
  by_contra hb
  obtain ⟨q, hq⟩ := (hm (.ino i)).mp (by simpa using hb)
  have := (hS q).refs i ((hS q).kept i (((hS q).owns _).mpr hq))
  omega

/-! ## Spinlocks, sleep and wakeup -/

theorem ok_acquire {l : Spin} (hk : Local p k m.data) (ht : holds t = ∅) (hw : k.waits = none) :
    Keeps g m p t (.acquire l k) :=
  ⟨hk, fun _ hJ => hJ.knows hw, fun _ hg => by rw [ht] at hg; exact hg.elim⟩

theorem ok_sleep {l : Spin} (hA : g ∈ holds t → Knows g p t m.data (m.slept g))
    (hk : Local p k m.data) (hl : holds t = {l}) (hw : t.wakes = none)
    (hb : guard o = l → t.waits = some o) (hkw : k.waits = none) :
    Keeps g m p t (.sleep o l k) := by
  refine ⟨hk, fun e => ⟨?_, fun _ _ _ hJ => hJ.knows hkw⟩⟩
  subst e
  rintro o' hg (rfl | ho)
  · exact (hA (by rw [hl]; rfl)).waits o' (hb hg) hg
  · exact (hA (by rw [hl]; rfl)).all hw o' hg ho

theorem ok_wakeup (hA : g ∈ holds t → Knows g p t m.data (m.slept g)) (hk : Local p k m.data)
    (hw : t.wakes = some o) (hkw : k.waits = none) :
    Keeps g m p t (.wakeup o k) := by
  refine ⟨hk, fun hg => Heard.knows (fun o' hgo ho => ?_) hkw⟩
  refine (hA hg).heard o' ?_ hgo ho.1
  rw [hw]
  exact fun e => ho.2 (Option.some.inj e).symm

/-! ## The code -/

/-- The code, except that `iunlock` is called only for an inode that the process has locked. -/
def careful : Code P Spin Obj (Flags P) (Place P) := fun m p t ins =>
  code m p t ins ∧ ∀ f i d, t = .run f → ins = .set d (.unlockAcq f i false) → .ino i ∈ f.held

theorem code_ok (hg : g ≠ .ide) (hg' : g ≠ .ptable) {ins : Instr P Spin Obj (Flags P) (Place P)}
    (hS : ∀ q, Local q (m.thr q).place m.data) (ht : m.thr p = .at t)
    (hc : careful m p t ins) (hA : g ∈ holds t → Knows g p t m.data (m.slept g)) :
    Keeps g m p t ins := by
  have hp : Local p t m.data := by
    have := hS p
    rwa [ht] at this
  have hrefl : Same m.data m.data := ⟨rfl, rfl, rfl⟩
  obtain ⟨hc, hcare⟩ := hc
  cases hc with
  | rel l f =>
    refine ⟨hp.plain rfl rfl rfl, ?_, fun hne hg => absurd hg.symm hne⟩
    rintro rfl
    exact (hA rfl).all rfl
  -- bget
  | bget | bread | rwStay | rwDone | ideintr | intrNone | iget | beginTrans | kill =>
    exact ok_same hS hrefl hA (hp.plain rfl rfl rfl) rfl nofun
  | getAcq | rwAcq | intrAcq | igetAcq | beginAcq | killAcq =>
    exact ok_acquire (hp.plain rfl rfl rfl) rfl rfl
  | getHit _ _ _ _ hb | beginTake _ hb =>
    exact ok_take hS hp hA ⟨rfl, rfl, rfl⟩ hb rfl rfl rfl rfl nofun rfl rfl rfl
  | getBusy _ _ _ _ hb | beginBusy _ hb =>
    refine ok_same hS hrefl hA (hp.plain rfl rfl rfl) rfl ?_
    rintro o ⟨⟩
    exact hb
  | getSleep | beginSleep => exact ok_sleep hA (hp.plain rfl rfl rfl) rfl rfl (fun _ => rfl) rfl
  | getSpare f x b h hb =>
    have hfree : m.data.busy (.buf b) = false := by
      have := List.find?_some hb
      simp only [Bool.and_eq_true, Bool.not_eq_true'] at this
      exact this.1
    exact ok_take hS hp hA ⟨rfl, rfl, rfl⟩ hfree rfl rfl rfl rfl nofun rfl rfl rfl
  -- iderw
  | bwrite | logWrite | rwQueue | intrHead | fill =>
    exact ok_same hS ⟨rfl, rfl, rfl⟩ hA (hp.plain rfl rfl rfl) rfl nofun
  | rwSleep f b => exact ok_sleep hA (hp.plain rfl rfl rfl) rfl rfl nofun rfl
  -- ideintr
  | intrWake f b => exact ⟨hp.plain rfl rfl rfl, fun h => absurd h hg⟩
  -- brelse
  | brelse _ _ h | ifail _ _ h | commitTrans _ h | putAgain _ _ _ h =>
    refine ok_same hS hrefl hA (hp.goes rfl ?_ nofun) rfl nofun
    rintro o ⟨⟩
    exact h
  | relAcq | dupAcq | lockAcq | unlockAcq | putAcq | putAgainAcq | commitAcq =>
    exact ok_acquire (hp.next rfl rfl rfl) rfl rfl
  | relClear | unlockClear | commitClear =>
    exact ok_clear hS hp hA ⟨rfl, rfl, rfl⟩ (hp.gives _ rfl) rfl rfl rfl rfl rfl nofun rfl rfl
  | relWake | unlockWake | commitWake => exact ok_wakeup hA (hp.plain rfl rfl rfl) rfl rfl
  -- iget and idup
  | igetHit f x i h =>
    refine ok_ref hS hp hA ⟨rfl, rfl, rfl⟩ rfl rfl ?_ (by omega) (by omega) ?_ rfl rfl rfl
    · exact fun j hj hne => Finset.mem_of_mem_insert_of_ne hj hne
    · exact fun j hj => Finset.mem_insert_of_mem (hp.kept j hj)
  | igetEmpty f x i h hi =>
    have href : m.data.ref i = 0 := by
      have := List.find?_some hi
      simpa using this
    have hfree := not_busy hS hp.marked href
    have hs : Same (m.data.setRef i 1) (m.data.reuse i x) := by
      refine ⟨?_, ?_, rfl⟩
      · exact update_eq_self_iff.mpr hfree.symm
      · exact update_eq_self_iff.mpr (hp.marked.free hfree).symm
    refine ok_ref hS hp hA hs rfl rfl ?_ (by omega) (by omega) ?_ rfl rfl rfl
    · exact fun j hj hne => Finset.mem_of_mem_insert_of_ne hj hne
    · exact fun j hj => Finset.mem_insert_of_mem (hp.kept j hj)
  | idup _ _ h | ilock _ _ h | iput _ _ h =>
    refine ok_same hS hrefl hA (hp.goes rfl nofun ?_) rfl nofun
    rintro j ⟨⟩
    exact h
  | dupSet | putDrop =>
    exact ok_ref hS hp hA ⟨rfl, rfl, rfl⟩ rfl rfl (fun j hj _ => hj) (by omega) (by omega) hp.kept
      rfl rfl rfl
  | use f i h =>
    refine ok_same hS hrefl hA ⟨hp.marked, hp.owns, fun j hj => ?_, fun j hj => ?_, nofun, nofun⟩
      rfl nofun
    · obtain rfl | hj := Finset.mem_insert.mp hj
      · exact h
      · exact hp.refs j hj
    · exact Finset.mem_insert_of_mem (hp.kept j hj)
  | forget f i h =>
    refine ok_same hS hrefl hA ⟨hp.marked, hp.owns, fun j hj => ?_, fun j hj => ?_, nofun, nofun⟩
      rfl nofun
    · exact hp.refs j (Finset.mem_of_mem_erase hj)
    · refine Finset.mem_erase.mpr ⟨?_, hp.kept j hj⟩
      rintro rfl
      exact h hj
  -- ilock_ext
  | lockBusy f i h =>
    refine ok_same hS hrefl hA (hp.next rfl rfl rfl) rfl ?_
    rintro o ⟨⟩
    exact h
  | lockSleep f i => exact ok_sleep hA (hp.next rfl rfl rfl) rfl rfl (fun _ => rfl) rfl
  | lockTake _ i h | putFree _ i _ h =>
    refine ok_take hS hp hA ⟨rfl, rfl, rfl⟩ h rfl rfl rfl rfl ?_ rfl rfl rfl
    rintro j ⟨⟩
    exact hp.uses i rfl
  -- iunlock
  | iunlock f i h hb hr =>
    refine ok_same hS hrefl hA (hp.goes rfl ?_ nofun) rfl nofun
    rintro o ⟨⟩
    exact hcare f i _ rfl rfl
  -- iput
  | putLess f i h => exact ok_same hS hrefl hA (hp.next rfl rfl rfl) rfl nofun
  | putClear f i =>
    refine ok_clear hS hp hA ⟨rfl, rfl, rfl⟩ (hp.gives _ rfl) rfl rfl rfl rfl rfl ?_ rfl rfl
    rintro j ⟨⟩
    exact hp.kept i (hp.gives _ rfl)
  | putWake f i => exact ok_wakeup hA (hp.next rfl rfl rfl) rfl rfl
  | putLast f i h hi =>
    have href := hp.refs i (hp.uses i rfl)
    refine ok_ref hS hp hA ⟨rfl, rfl, rfl⟩ rfl rfl ?_ ?_ (fun _ => h (by omega)) ?_ rfl rfl rfl
    · exact fun j hj _ => Finset.mem_of_mem_erase hj
    · exact fun hmem => absurd hmem (Finset.notMem_erase i _)
    · refine fun j hj => Finset.mem_erase.mpr ⟨?_, hp.kept j hj⟩
      rintro rfl
      exact hi hj
  -- begin_trans and commit_trans
  -- kill
  | killRouse f q => exact ⟨hp.plain rfl rfl rfl, fun h => absurd h hg'⟩

theorem flag_monitor (hg : g ≠ .ide) (hg' : g ≠ .ptable) :
    Monitor Spin.ptable g holds (Heard g) (Knows (P := P) g) Local careful :=
  ⟨fun m p t i hc => code_fits m p t i hc.1, Heard.anti, Knows.anti,
    fun _ hS ht hc hA => code_ok hg hg' hS ht hc hA⟩

/-! ## Runs -/

theorem Boots.flags {m : Kernel P} (h : Boots m) :
    MonInv Spin.ptable g holds (Heard g) (Knows g) Local m := by
  refine ⟨h.locks, fun p => ?_, fun p k hk => ?_, fun _ => ?_, fun p hp => ?_⟩
  · rw [h.thr p]
    refine ⟨fun o => ?_, fun o => ?_, nofun, nofun, nofun, nofun⟩
    · simp [h.busy, h.owner]
    · simp [h.owner, Thr.place, Place.frame, Frame.none]
  · rw [h.thr p] at hk
    exact hk.elim
  · rintro o - ⟨p, k, hk⟩
    rw [h.thr p] at hk
    simp at hk
  · rw [h.thr p] at hp
    exact hp.elim

/-- At most one process has each lock. While its spinlock is free, whoever sleeps for it finds it
    set, by some process that has it. -/
structure Sound (m : Kernel P) : Prop where
  exclusive : ∀ p q o, o ∈ has m p → o ∈ has m q → p = q
  awaited : ∀ p o k, m.lock (guard o) = none → m.thr p = .asleep o (guard o) k →
    m.data.busy o = true ∧ ∃ q, o ∈ has m q

/-- In every run in which `iunlock` is called only for inodes that the process has locked, the
    sleep locks are mutually exclusive and no wakeup is lost. -/
theorem sleep_locks [DecidableEq P] {m m' : Kernel P} (h : Boots m)
    (hr : Steps Spin.ptable careful m m') : Sound m' := by
  have hinv : ∀ o,
      MonInv Spin.ptable (guard o) holds (Heard (guard o)) (Knows (guard o)) Local m' := by
    intro o
    refine h.flags.steps (flag_monitor ?_ ?_) hr <;> cases o <;> simp [guard]
  refine ⟨fun p q o hp hq => ?_, fun p o k hl hp => ?_⟩
  · have h1 := ((hinv o).loc p).owns o |>.mp hp
    have h2 := ((hinv o).loc q).owns o |>.mp hq
    rw [h1] at h2
    exact Option.some.inj h2
  · have hbusy := (hinv o).free hl o rfl ⟨p, k, Or.inr hp⟩
    obtain ⟨q, hq⟩ := (((hinv o).loc p).marked o).mp hbusy
    exact ⟨hbusy, q, (((hinv o).loc q).owns o).mpr hq⟩

/-- Three processes at boot. -/
def idle : Kernel (Fin 3) where
  data := ⟨fun _ => false, fun _ => none, fun _ => (0, 0), fun _ => false, fun _ => false,
    List.finRange 20, [], fun _ => (0, 0), fun _ => 0, fun _ => false, fun _ => 0⟩
  lock _ := none
  thr _ := .at (.run .none)

theorem idle_boots : Boots idle := ⟨fun _ => rfl, fun _ => rfl, fun _ => rfl, fun _ => rfl⟩

/-- One process is in a transaction, another one sleeps until it commits. -/
theorem runs_begin : ∃ m, Steps Spin.ptable careful idle m ∧ .log ∈ has m 0 ∧
    m.lock .log = none ∧ m.thr 1 = .asleep .log .log (.beginWhile .none) := by
  refine Steps.reach 0 (.set rfl ⟨.beginTrans _, nofun⟩) ?_
  refine Steps.reach 0 (.acquire rfl ⟨.beginAcq _, nofun⟩ rfl) ?_
  refine Steps.reach 0 (.set rfl ⟨.beginTake _ rfl, nofun⟩) ?_
  refine Steps.reach 0 (.release rfl ⟨.rel _ _, nofun⟩) ?_
  refine Steps.reach 1 (.set rfl ⟨.beginTrans _, nofun⟩) ?_
  refine Steps.reach 1 (.acquire rfl ⟨.beginAcq _, nofun⟩ rfl) ?_
  refine Steps.reach 1 (.set rfl ⟨.beginBusy _ rfl, nofun⟩) ?_
  refine Steps.reach 1 (.sleep rfl ⟨.beginSleep _, nofun⟩ (by decide) rfl) ?_
  refine Steps.reach 1 (.drop rfl) ?_
  refine Steps.reach 1 (.fall rfl) ?_
  exact ⟨_, .refl, by decide, rfl, rfl⟩

theorem sleep_locks_begin : ∃ m, Steps Spin.ptable careful idle m ∧
    m.thr 1 = .asleep .log .log (.beginWhile .none) ∧ Sound m := by
  obtain ⟨m, hr, -, -, h1⟩ := runs_begin
  exact ⟨m, hr, h1, sleep_locks idle_boots hr⟩

/-- Process 1 calls `ilock`, which fails, and does not look at the result. Process 0 locks the
    inode, process 1 unlocks it and process 2 locks it too. -/
theorem unlocked_twice : ∃ m, Steps Spin.ptable code idle m ∧ .ino 0 ∈ has m 0 ∧
    .ino 0 ∈ has m 2 ∧ ¬ Sound m := by
  have hstuck : ∀ {m : Kernel (Fin 3)}, .ino 0 ∈ has m 0 → .ino 0 ∈ has m 2 → ¬ Sound m :=
    fun h0 h2 h => absurd (h.exclusive 0 2 _ h0 h2) (by decide)
  -- iget, ilock and the failure, by process 1
  refine Steps.reach 1 (.set rfl (.iget _ (1, 7))) ?_
  refine Steps.reach 1 (.acquire rfl (.igetAcq _ _) rfl) ?_
  refine Steps.reach 1 (.set rfl (.igetEmpty _ _ 0 rfl rfl)) ?_
  refine Steps.reach 1 (.release rfl (.rel _ _)) ?_
  refine Steps.reach 1 (.set rfl (.ilock _ 0 (by decide))) ?_
  refine Steps.reach 1 (.acquire rfl (.lockAcq _ _) rfl) ?_
  refine Steps.reach 1 (.set rfl (.lockTake _ _ rfl)) ?_
  refine Steps.reach 1 (.release rfl (.rel _ _)) ?_
  refine Steps.reach 1 (.set rfl (.ifail _ 0 (by decide) rfl)) ?_
  refine Steps.reach 1 (.acquire rfl (.unlockAcq _ _ _) rfl) ?_
  refine Steps.reach 1 (.set rfl (.unlockClear _ _ _)) ?_
  refine Steps.reach 1 (.wakeup rfl (.unlockWake _ _) rfl) ?_
  refine Steps.reach 1 (.wake rfl) ?_
  refine Steps.reach 1 (.woken rfl) ?_
  refine Steps.reach 1 (.release rfl (.rel _ _)) ?_
  -- process 0 locks the inode
  refine Steps.reach 0 (.set rfl (.iget _ (1, 7))) ?_
  refine Steps.reach 0 (.acquire rfl (.igetAcq _ _) rfl) ?_
  refine Steps.reach 0 (.set rfl (.igetHit _ _ 0 rfl)) ?_
  refine Steps.reach 0 (.release rfl (.rel _ _)) ?_
  refine Steps.reach 0 (.set rfl (.ilock _ 0 (by decide))) ?_
  refine Steps.reach 0 (.acquire rfl (.lockAcq _ _) rfl) ?_
  refine Steps.reach 0 (.set rfl (.lockTake _ _ rfl)) ?_
  refine Steps.reach 0 (.release rfl (.rel _ _)) ?_
  -- process 1 unlocks it
  refine Steps.reach 1 (.set rfl (.iunlock _ 0 (Or.inr (by decide)) rfl (by decide))) ?_
  refine Steps.reach 1 (.acquire rfl (.unlockAcq _ _ _) rfl) ?_
  refine Steps.reach 1 (.set rfl (.unlockClear _ _ _)) ?_
  refine Steps.reach 1 (.wakeup rfl (.unlockWake _ _) rfl) ?_
  refine Steps.reach 1 (.wake rfl) ?_
  refine Steps.reach 1 (.woken rfl) ?_
  refine Steps.reach 1 (.release rfl (.rel _ _)) ?_
  -- process 2 locks it
  refine Steps.reach 2 (.set rfl (.iget _ (1, 7))) ?_
  refine Steps.reach 2 (.acquire rfl (.igetAcq _ _) rfl) ?_
  refine Steps.reach 2 (.set rfl (.igetHit _ _ 0 rfl)) ?_
  refine Steps.reach 2 (.release rfl (.rel _ _)) ?_
  refine Steps.reach 2 (.set rfl (.ilock _ 0 (by decide))) ?_
  refine Steps.reach 2 (.acquire rfl (.lockAcq _ _) rfl) ?_
  refine Steps.reach 2 (.set rfl (.lockTake _ _ rfl)) ?_
  exact ⟨_, .refl, by decide, by decide, hstuck (by decide) (by decide)⟩

end Zv6.Sleep
