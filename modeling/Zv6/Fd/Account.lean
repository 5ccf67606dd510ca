/-
  The accounts of open files and pipes.

  `share s p f` is how many references to the file `f` are process `p`'s: its descriptors, and what
  its call has in hand or owes (`Place.delta`). `Inv`: a file's count is the sum of the shares; a
  pipe's end is open as long as one file is that end or its close is under way; a page is freed,
  or about to be, once both ends are closed. When no call is in progress nothing is in hand or
  under way, and what is left is `Accounted`.
-/
import Mathlib.Algebra.Order.BigOperators.Group.Finset
import Mathlib.Algebra.BigOperators.Ring.Finset
import Mathlib.Data.Fintype.BigOperators
import Zv6.Fd.Code

namespace Zv6.Fd

open Function

/-- 1 for the file `f`, 0 for every other. -/
def one (f g : Fno) : Int := if g = f then 1 else 0

/-- References to `g` in hand (or owed, if negative). -/
def Cont.delta (g : Fno) : Cont → Int
  | .ret fs _ => fs.count g
  | .clear _ f _ => - one f g

def Place.delta (g : Fno) : Place → Int
  | .open2 f _ _ _ _ => one f g
  | .pipe2 f0 _ => one f0 g
  | .pipe3 f0 f1 _ => one f0 g + one f1 g
  | .pipe4 f0 f1 => one f0 g + one f1 g
  | .pipe5 _ f1 _ => one f1 g
  | .pipe6 _ f1 _ => one f1 g
  | .dup2 _ f _ => - one f g
  | .fork2 _ _ f _ _ => one f g
  | .clos f c => one f g + c.delta g
  | .pclose _ _ c => c.delta g
  | .pfree _ c => c.delta g
  | .fin c => c.delta g
  | _ => 0

/-- The process is closing this end of the pipe `k`. -/
def Place.shuts (k : Nat) (w : Bool) : Place → Int
  | .pclose k' w' _ => if k' = k ∧ w' = w then 1 else 0
  | _ => 0

/-- The process is freeing the page of the pipe `k`. -/
def Place.frees (k : Nat) : Place → Int
  | .pfree k' _ => if k' = k then 1 else 0
  | _ => 0

/-- The one closes and frees what the other does. -/
@[simp] def Place.Alike (k t : Place) : Prop :=
  (∀ n w, k.shuts n w = t.shuts n w) ∧ ∀ n, k.frees n = t.frees n

/-- How many of these descriptors are of the file `f`. -/
def fds (o : Fin 16 → Option Fno) (f : Fno) : Int := ∑ i, if o i = some f then 1 else 0

def share (s : Files) (p : Pid) (f : Fno) : Int := fds (s.ofile p) f + (s.place p).delta f

/-- 1 for a file that is this end of the pipe `k`. -/
def File.isEnd (k : Nat) (w : Bool) (x : File) : Int :=
  if x.type = .pipe ∧ x.pipe = k ∧ x.writable = w then 1 else 0

def ends (t : Tab) (k : Nat) (w : Bool) : Int := ∑ f, (t.file f).isEnd k w

instance (t : Tab) (k : Nat) : Decidable (t.Closed k) := inferInstanceAs (Decidable (_ ∧ _))

/-- A file that `filealloc` returned and nobody else has. -/
def Fresh (s : Files) (f : Fno) : Prop := (s.tab.file f).type = .none ∧ (s.tab.file f).ref = 1

/-- The call of `p` has added the descriptor `i`, of the file `f`, and nothing else. -/
structure New (s : Files) (p : Pid) (f : Fno) (i : Fin 16) : Prop where
  unused : s.entry p i = none
  now : s.ofile p = update (s.entry p) i (some f)

def Cont.Local (s : Files) (p : Pid) : Cont → Prop
  | .ret _ r => r < 0 → s.ofile p = s.entry p
  | .clear i f l => s.ofile p i = some f ∧ (i :: l).Nodup ∧ ∀ j, j ∉ i :: l → s.ofile p j = none

/-- What is known at each place of a call. -/
def Place.Local (s : Files) (p : Pid) : Place → Prop
  | .user => True
  | .open1 _ _ fail _ => fail < 0 ∧ s.ofile p = s.entry p
  | .open2 f _ _ fail _ => fail < 0 ∧ s.ofile p = s.entry p ∧ Fresh s f
  | .open3 f i _ _ _ => New s p f i ∧ Fresh s f
  | .open4 f i _ => New s p f i
  | .pipe1 _ => s.ofile p = s.entry p
  | .pipe2 f0 _ => s.ofile p = s.entry p ∧ Fresh s f0
  | .pipe3 f0 f1 _ => s.ofile p = s.entry p ∧ Fresh s f0 ∧ Fresh s f1 ∧ f0 ≠ f1
  | .pipe4 _ _ => s.ofile p = s.entry p
  | .pipe5 f0 _ i => New s p f0 i
  | .pipe6 f0 _ i => New s p f0 i
  | .dup1 i f => s.ofile p = s.entry p ∧ s.ofile p i = some f
  | .dup2 i f j => s.ofile p i = some f ∧ s.ofile p j = some f ∧ i ≠ j
  | .close1 i f => s.ofile p i = some f
  | .fork1 np l _ => s.used np = .embryo p ∧ l.Nodup ∧ ∀ i ∈ l, s.ofile np i = none
  | .fork2 np i _ l _ => s.used np = .embryo p ∧ (i :: l).Nodup ∧ ∀ j ∈ i :: l, s.ofile np j = none
  | .exit1 l => l.Nodup ∧ ∀ j, j ∉ l → s.ofile p j = none
  | .clos f c => c.Local s p ∧ ∀ i g l, c = .clear i g l → g = f
  | .pclose _ _ c => c.Local s p
  | .pfree _ c => c.Local s p
  | .fin c => c.Local s p

/-- 1 if this end of the pipe `k` is open. -/
def opens (t : Tab) (k : Nat) (w : Bool) : Int :=
  if k < t.npipe ∧ (t.pipe k).isOpen w = true then 1 else 0

/-- 1 if both ends of the pipe `k` are closed. -/
def dead (t : Tab) (k : Nat) : Int := if k < t.npipe ∧ t.Closed k then 1 else 0

structure Inv (s : Files) : Prop where
  ref : ∀ f, (s.tab.file f).ref = ∑ p, share s p f
  untyped : ∀ f, (s.tab.file f).ref = 0 → (s.tab.file f).type = .none
  ends : ∀ k w, ends s.tab k w + ∑ p, (s.place p).shuts k w = opens s.tab k w
  freed : ∀ k, (s.tab.freed.count k : Int) + ∑ p, (s.place p).frees k = dead s.tab k
  loc : ∀ p, (s.place p).Local s p
  live : ∀ p, s.place p ≠ .user → s.used p = .live
  free : ∀ p, s.used p = .free → ∀ i, s.ofile p i = none

/-! ## Sums -/

/-- One term of a sum changes. -/
theorem sum_update {α β : Type} [Fintype α] [DecidableEq α] (g : β → Int) (u : α → β) (a : α)
    (b : β) : ∑ x, g (update u a b x) = ∑ x, g (u x) + (g b - g (u a)) := by
  have h : ∀ x, g (update u a b x) = update (g ∘ u) a (g b) x := by
    intro x
    by_cases e : x = a
    · subst e
      simp
    · simp [e]
  rw [Finset.sum_congr rfl fun x _ => h x, Finset.sum_update_of_mem (Finset.mem_univ a)]
  have h2 := Finset.add_sum_erase Finset.univ (fun x => g (u x)) (Finset.mem_univ a)
  rw [Finset.sdiff_singleton_eq_erase]
  simp only [Function.comp_apply]
  omega

theorem fds_nonneg (o : Fin 16 → Option Fno) (f : Fno) : 0 ≤ fds o f :=
  Finset.sum_nonneg fun i _ => by split <;> decide

theorem fds_update (o : Fin 16 → Option Fno) (i : Fin 16) (v : Option Fno) (f : Fno) :
    fds (update o i v) f =
      fds o f + ((if v = some f then 1 else 0) - if o i = some f then 1 else 0) :=
  sum_update (fun x : Option Fno => if x = some f then (1 : Int) else 0) o i v

/-- As many descriptors as are named are there. -/
theorem one_le_fds {o : Fin 16 → Option Fno} {i : Fin 16} {f : Fno} (h : o i = some f) :
    1 ≤ fds o f := by
  have h1 := fds_update o i none f
  rw [if_pos h, if_neg (by simp)] at h1
  have := fds_nonneg (update o i none) f
  omega

theorem two_le_fds {o : Fin 16 → Option Fno} {i j : Fin 16} {f : Fno} (hi : o i = some f)
    (hj : o j = some f) (hij : i ≠ j) : 2 ≤ fds o f := by
  have h1 := fds_update o i none f
  rw [if_pos hi, if_neg (by simp)] at h1
  have := one_le_fds (o := update o i none) (i := j) (f := f)
    (by rw [update_of_ne (Ne.symm hij)]; exact hj)
  omega

/-! ## Shares -/

variable {s s' : Files} {p q : Pid} {f g : Fno} {k : Place} {c : Cont} {i : Fin 16}

@[simp] theorem one_self (f : Fno) : one f f = 1 := if_pos rfl

theorem one_of_ne (h : g ≠ f) : one f g = 0 := if_neg h

@[simp] theorem one_nonneg (f g : Fno) : 0 ≤ one f g := by
  unfold one
  split <;> decide

theorem count_one (f g : Fno) : (([f].count g : Nat) : Int) = one f g := by
  by_cases e : g = f
  · subst e
    simp
  · rw [one_of_ne e, List.count_eq_zero_of_not_mem (by simpa using e)]
    rfl

theorem New.at (h : New s p f i) : s.ofile p i = some f := by
  rw [h.now, update_self]

/-- The descriptors and what a close owes. -/
theorem Cont.Local.nonneg (h : c.Local s p) (f : Fno) : 0 ≤ fds (s.ofile p) f + c.delta f := by
  have h0 := fds_nonneg (s.ofile p) f
  cases c with
  | ret fs r =>
    simp only [Cont.delta]
    omega
  | clear i g l =>
    simp only [Cont.delta, one]
    split
    · next e =>
      subst e
      have := one_le_fds h.1
      omega
    · omega

theorem share_nonneg (h : (s.place p).Local s p) (f : Fno) : 0 ≤ share s p f := by
  have h0 := fds_nonneg (s.ofile p) f
  unfold share
  generalize s.place p = t at h
  cases t with
  | dup2 i g j =>
    simp only [Place.delta, one]
    split
    · next e =>
      subst e
      have := two_le_fds h.1 h.2.1 h.2.2
      omega
    · omega
  | clos g c =>
    have := h.1.nonneg f
    have := one_nonneg g f
    simp only [Place.delta]
    omega
  | pclose | pfree | fin => exact Cont.Local.nonneg h f
  | _ =>
    simp only [Place.delta, one]
    repeat' split
    all_goals omega

/-- A process that is about to close `f` has it. -/
theorem share_clos (h : (s.place p).Local s p) (ht : s.place p = .clos f c) : 1 ≤ share s p f := by
  rw [ht] at h
  have h0 := fds_nonneg (s.ofile p) f
  unfold share
  rw [ht]
  simp only [Place.delta, one_self]
  cases c with
  | ret fs r =>
    simp only [Cont.delta]
    omega
  | clear i g l =>
    have hg : g = f := h.2 i g l rfl
    subst hg
    have := one_le_fds h.1.1
    simp only [Cont.delta, one_self]
    omega

theorem share_fd (h : s.ofile p i = some f) (hd : (s.place p).delta f = 0) : 1 ≤ share s p f := by
  have := one_le_fds h
  unfold share
  omega

/-- What a call has in hand is in its share. -/
theorem share_hand (h : 1 ≤ (s.place p).delta f) : 1 ≤ share s p f := by
  have := fds_nonneg (s.ofile p) f
  unfold share
  omega

theorem share_dup {j : Fin 16} (h : (s.place p).Local s p) (ht : s.place p = .dup2 i f j) :
    1 ≤ share s p f := by
  rw [ht] at h
  have := two_le_fds h.1 h.2.1 h.2.2
  unfold share
  rw [ht]
  simp only [Place.delta, one_self]
  omega

theorem Inv.share_le (h : Inv s) (p : Pid) (f : Fno) : share s p f ≤ (s.tab.file f).ref := by
  rw [h.ref f]
  exact Finset.single_le_sum (fun q _ => share_nonneg (h.loc q) f) (Finset.mem_univ p)

/-- Nobody else has a fresh file. -/
theorem Inv.fresh_ne (h : Inv s) (hq : q ≠ p) (hf : Fresh s f) (hs : 1 ≤ share s q f)
    (hg : 1 ≤ share s p g ∨ (s.tab.file g).ref = 0) : f ≠ g := by
  rintro rfl
  have hsum := h.ref f
  rw [hf.2] at hsum
  obtain hg | hg := hg
  · rw [← Finset.add_sum_erase _ _ (Finset.mem_univ p)] at hsum
    have := Finset.single_le_sum (f := fun q => share s q f) (s := Finset.univ.erase p)
      (fun q _ => share_nonneg (h.loc q) f) (Finset.mem_erase.mpr ⟨hq, Finset.mem_univ q⟩)
    omega
  · have := hf.2
    omega

theorem sum_share (s : Files) (f : Fno) :
    ∑ p, share s p f = ∑ p, fds (s.ofile p) f + ∑ p, (s.place p).delta f :=
  Finset.sum_add_distrib

theorem sum_fds_set (o : Ofile) (p : Pid) (i : Fin 16) (v : Option Fno) (f : Fno) :
    ∑ q, fds (o.set p i v q) f =
      ∑ q, fds (o q) f + ((if v = some f then 1 else 0) - if o p i = some f then 1 else 0) := by
  unfold Ofile.set
  rw [sum_update (fun x => fds x f), fds_update]
  omega

/-! ## Steps -/

/-- What a step leaves of a process `q` that does not make it. -/
structure Spares (s s' : Files) (q : Pid) : Prop where
  place : s'.place q = s.place q
  ofile : s.used q = .live → s'.ofile q = s.ofile q
  entry : s'.entry q = s.entry q
  child : ∀ np, s.used np = .embryo q → s'.used np = .embryo q ∧ s'.ofile np = s.ofile np
  fresh : ∀ f, Fresh s f → 1 ≤ share s q f → Fresh s' f

theorem Cont.Local.spared (h : c.Local s q) (ho : s'.ofile q = s.ofile q)
    (he : s'.entry q = s.entry q) : c.Local s' q := by
  cases c with
  | ret fs r =>
    intro hr
    rw [ho, he]
    exact h hr
  | clear i f l =>
    unfold Cont.Local
    rw [ho]
    exact h

theorem New.spared (h : New s q f i) (ho : s'.ofile q = s.ofile q)
    (he : s'.entry q = s.entry q) : New s' q f i :=
  ⟨by rw [he]; exact h.unused, by rw [ho, he]; exact h.now⟩

theorem Inv.spared (h : Inv s) (hs : Spares s s' q) : (s'.place q).Local s' q := by
  have hloc := h.loc q
  have hlive := h.live q
  have hhand : ∀ {f}, Fresh s f → 1 ≤ (s.place q).delta f → Fresh s' f :=
    fun hf hd => hs.fresh _ hf (share_hand hd)
  have hfd : ∀ {f i}, Fresh s f → s.ofile q i = some f → (s.place q).delta f = 0 → Fresh s' f :=
    fun hf hi hd => hs.fresh _ hf (share_fd hi hd)
  rw [hs.place]
  generalize s.place q = t at hloc hlive hhand hfd
  by_cases hu : t = .user
  · rw [hu]
    trivial
  have ho := hs.ofile (hlive hu)
  have he := hs.entry
  cases t with
  | user => trivial
  | open1 | pipe1 | pipe4 | dup1 | dup2 | close1 | exit1 =>
    simpa only [Place.Local, ho, he] using hloc
  | open2 f =>
    refine ⟨hloc.1, ?_, hhand hloc.2.2 (by simp [Place.delta])⟩
    rw [ho, he]
    exact hloc.2.1
  | open3 f i => exact ⟨hloc.1.spared ho he, hfd hloc.2 hloc.1.at rfl⟩
  | open4 | pipe5 | pipe6 => exact New.spared hloc ho he
  | pipe2 f0 => exact ⟨by rw [ho, he]; exact hloc.1, hhand hloc.2 (by simp [Place.delta])⟩
  | pipe3 f0 f1 =>
    exact ⟨by rw [ho, he]; exact hloc.1, hhand hloc.2.1 (by simp [Place.delta]),
      hhand hloc.2.2.1 (by simp [Place.delta]), hloc.2.2.2⟩
  | fork1 np | fork2 np =>
    obtain ⟨h1, h2⟩ := hs.child np hloc.1
    refine ⟨h1, hloc.2.1, ?_⟩
    rw [h2]
    exact hloc.2.2
  | clos f c => exact ⟨hloc.1.spared ho he, hloc.2⟩
  | pclose | pfree | fin => exact Cont.Local.spared hloc ho he

/-- The accounts balance when `p` goes on to `k`; `e` is the change of the descriptors. -/
structure Balanced (s s' : Files) (p : Pid) (k : Place) (e : Fno → Int) : Prop where
  fds : ∀ f, ∑ q, fds (s'.ofile q) f = ∑ q, fds (s.ofile q) f + e f
  ref : ∀ f, (s'.tab.file f).ref = (s.tab.file f).ref + e f + (k.delta f - (s.place p).delta f)
  untyped : ∀ f, (s'.tab.file f).ref = 0 → (s'.tab.file f).type = .none
  ends : ∀ n w, Fd.ends s'.tab n w + (k.shuts n w - (s.place p).shuts n w) =
    Fd.ends s.tab n w + (opens s'.tab n w - opens s.tab n w)
  freed : ∀ n, (s'.tab.freed.count n : Int) + (k.frees n - (s.place p).frees n) =
    s.tab.freed.count n + (dead s'.tab n - dead s.tab n)

theorem Inv.next {e : Fno → Int} (h : Inv s) (hplace : s'.place = update s.place p k)
    (hspare : ∀ q, q ≠ p → Spares s s' q) (hk : k.Local s' p)
    (hlive : ∀ q, s'.place q ≠ .user → s'.used q = .live)
    (hfree : ∀ q, s'.used q = .free → ∀ i, s'.ofile q i = none)
    (hb : Balanced s s' p k e) : Inv s' := by
  refine ⟨fun f => ?_, hb.untyped, fun n w => ?_, fun n => ?_, fun q => ?_, hlive, hfree⟩
  · have h1 := h.ref f
    rw [sum_share] at h1 ⊢
    rw [hb.ref f, hb.fds f, hplace, sum_update (Place.delta f)]
    omega
  · have h1 := h.ends n w
    have h2 := hb.ends n w
    rw [hplace, sum_update (Place.shuts n w)]
    omega
  · have h1 := h.freed n
    have h2 := hb.freed n
    rw [hplace, sum_update (Place.frees n)]
    omega
  · by_cases e : q = p
    · subst e
      rw [hplace, update_self]
      exact hk
    · exact h.spared (hspare q e)

/-- The same for a process that runs, in a step that leaves the process table. -/
theorem Inv.moves {e : Fno → Int} (h : Inv s) (hplace : s'.place = update s.place p k)
    (hused : s'.used = s.used) (hlive : s.used p = .live)
    (hspare : ∀ q, q ≠ p → Spares s s' q) (hk : k.Local s' p)
    (hfree : ∀ q, s.used q = .free → s'.ofile q = s.ofile q)
    (hb : Balanced s s' p k e) : Inv s' := by
  refine h.next hplace hspare hk (fun q hq => ?_) (fun q hq => ?_) hb
  · rw [hused]
    by_cases e : q = p
    · rw [e]
      exact hlive
    · rw [hplace, update_of_ne e] at hq
      exact h.live q hq
  · rw [hused] at hq
    rw [hfree q hq]
    exact h.free q hq

/-- A call begins. -/
theorem Inv.enters (h : Inv s) (ht : s.place p = .user) (hlive : s.used p = .live)
    (hk : k.Local (s.enter p k) p) (hd : ∀ f, k.delta f = 0) (hs : k.Alike .user) :
    Inv (s.enter p k) := by
  refine h.moves (e := fun _ => 0) rfl rfl hlive ?_ hk (fun _ _ => rfl)
    ⟨fun f => ?_, ?_, h.untyped, ?_, ?_⟩
  · intro q hq
    exact ⟨update_of_ne hq _ _, fun _ => rfl, update_of_ne hq _ _,
      fun _ hu => ⟨hu, rfl⟩, fun _ hf _ => hf⟩
  · rw [add_zero]
    rfl
  · intro f
    rw [ht, hd f]
    simp [Files.enter, Files.go, Place.delta]
  · intro n w
    rw [ht, hs.1 n w]
    simp [Files.enter, Files.go]
  · intro n
    rw [ht, hs.2 n]
    simp [Files.enter, Files.go]

/-- `p` changes the tables; the files that change are its own or were free. -/
theorem Inv.tables {t : Tab} (h : Inv s) (hlive : s.used p = .live)
    (hk : k.Local (s.setTab p t k) p)
    (hfile : ∀ f, t.file f ≠ s.tab.file f → 1 ≤ share s p f ∨ (s.tab.file f).ref = 0)
    (href : ∀ f, (t.file f).ref = (s.tab.file f).ref + (k.delta f - (s.place p).delta f))
    (hnone : ∀ f, (t.file f).ref = 0 → (t.file f).type = .none)
    (hends : ∀ n w, Fd.ends t n w + (k.shuts n w - (s.place p).shuts n w) =
      Fd.ends s.tab n w + (opens t n w - opens s.tab n w))
    (hfreed : ∀ n, (t.freed.count n : Int) + (k.frees n - (s.place p).frees n) =
      s.tab.freed.count n + (dead t n - dead s.tab n)) : Inv (s.setTab p t k) := by
  refine h.moves (e := fun _ => 0) rfl rfl hlive ?_ hk (fun _ _ => rfl)
    ⟨fun f => ?_, ?_, hnone, hends, hfreed⟩
  · intro q hq
    refine ⟨update_of_ne hq _ _, fun _ => rfl, rfl, fun _ hu => ⟨hu, rfl⟩, ?_⟩
    intro f hf hs
    have hsame : t.file f = s.tab.file f := by
      by_contra hne
      exact h.fresh_ne hq hf hs (hfile f hne) rfl
    exact ⟨by rw [← hf.1, ← hsame]; rfl, by rw [← hf.2, ← hsame]; rfl⟩
  · rw [add_zero]
    rfl
  · intro f
    rw [add_zero]
    exact href f

/-- No part of the state but the place of `p` changes. -/
theorem Inv.goes (h : Inv s) (hlive : s.used p = .live) (hk : k.Local (s.go p k) p)
    (hd : ∀ f, k.delta f = (s.place p).delta f) (hs : k.Alike (s.place p)) : Inv (s.go p k) :=
  h.tables (t := s.tab) hlive hk (fun _ hf => absurd rfl hf) (fun f => by simp [hd f]) h.untyped
    (fun n w => by simp [hs.1 n w]) fun n => by simp [hs.2 n]

/-- `p` assigns to one of its own descriptors. -/
theorem Inv.descriptor {v : Option Fno} (h : Inv s) (hlive : s.used p = .live)
    (hk : k.Local (s.setFd p p i v k) p)
    (hd : ∀ f, k.delta f + (if v = some f then 1 else 0) =
      (s.place p).delta f + if s.ofile p i = some f then 1 else 0)
    (hs : k.Alike (s.place p)) : Inv (s.setFd p p i v k) := by
  have hne : ∀ {q}, s.used q ≠ .live → q ≠ p := by
    rintro q hq rfl
    exact hq hlive
  refine h.moves rfl rfl hlive ?_ hk (fun q hq => update_of_ne (hne (by simp [hq])) _ _)
    ⟨fun f => sum_fds_set s.ofile p i v f, ?_, h.untyped, ?_, ?_⟩
  · intro q hq
    exact ⟨update_of_ne hq _ _, fun _ => update_of_ne hq _ _, rfl,
      fun np hnp => ⟨hnp, update_of_ne (hne (by simp [hnp])) _ _⟩, fun _ hf _ => hf⟩
  · intro f
    have := hd f
    simp only [Files.setFd, Files.go]
    omega
  · intro n w
    simp [Files.setFd, Files.go, hs.1 n w]
  · intro n
    simp [Files.setFd, Files.go, hs.2 n]

/-! ## Files -/

theorem ends_setFile (t : Tab) (f : Fno) (v : File) (n : Nat) (w : Bool) :
    Fd.ends (t.setFile f v) n w = Fd.ends t n w + (v.isEnd n w - (t.file f).isEnd n w) :=
  sum_update (File.isEnd n w) t.file f v

theorem isEnd_none {x : File} (h : x.type ≠ .pipe) (n : Nat) (w : Bool) : x.isEnd n w = 0 :=
  if_neg fun h' => h h'.1

/-- `p` changes one file, whose end of a pipe, if it is one, is as before. -/
theorem Inv.setsFile {v : File} (h : Inv s) (hlive : s.used p = .live)
    (hk : k.Local (s.setTab p (s.tab.setFile f v) k) p)
    (hf : 1 ≤ share s p f ∨ (s.tab.file f).ref = 0)
    (hd : ∀ g, k.delta g = (s.place p).delta g + if g = f then v.ref - (s.tab.file f).ref else 0)
    (hv : v.ref = 0 → v.type = .none)
    (he : ∀ n w, v.isEnd n w + k.shuts n w = (s.tab.file f).isEnd n w + (s.place p).shuts n w)
    (hfr : ∀ n, k.frees n = (s.place p).frees n) : Inv (s.setTab p (s.tab.setFile f v) k) := by
  refine h.tables hlive hk ?_ ?_ ?_ ?_ ?_
  · intro g hg
    by_cases e : g = f
    · rw [e]
      exact hf
    · exact absurd (update_of_ne e _ _) hg
  · intro g
    rw [hd g]
    by_cases e : g = f
    · subst e
      simp [Tab.setFile]
    · simp [Tab.setFile, e]
  · intro g
    by_cases e : g = f
    · subst e
      simpa [Tab.setFile] using hv
    · simpa [Tab.setFile, e] using h.untyped g
  · intro n w
    have := he n w
    have hop : opens (s.tab.setFile f v) n w = opens s.tab n w := rfl
    rw [ends_setFile, hop]
    omega
  · intro n
    have hde : dead (s.tab.setFile f v) n = dead s.tab n := rfl
    rw [hde, hfr n]
    simp [Tab.setFile]

/-- A count changes. -/
theorem Inv.setsRef {n : Int} (h : Inv s) (hlive : s.used p = .live)
    (hk : k.Local (s.setTab p (s.tab.setRef f n) k) p)
    (hf : 1 ≤ share s p f ∨ (s.tab.file f).ref = 0) (hn : n ≠ 0)
    (hd : ∀ g, k.delta g = (s.place p).delta g + if g = f then n - (s.tab.file f).ref else 0)
    (hs : k.Alike (s.place p)) : Inv (s.setTab p (s.tab.setRef f n) k) := by
  refine h.setsFile hlive hk hf hd (fun h0 => absurd h0 hn) (fun m w => ?_) hs.2
  rw [hs.1 m w]
  rfl

/-- `filealloc` returns `f`. -/
theorem Inv.allocs (h : Inv s) (hlive : s.used p = .live)
    (hk : Fresh (s.setTab p (s.tab.setRef f 1) k) f → k.Local (s.setTab p (s.tab.setRef f 1) k) p)
    (hf : s.tab.free = some f) (hd : ∀ g, k.delta g = (s.place p).delta g + one f g)
    (hs : k.Alike (s.place p)) : Inv (s.setTab p (s.tab.setRef f 1) k) := by
  have href : (s.tab.file f).ref = 0 := by
    have := List.find?_some hf
    simpa using this
  refine h.setsRef hlive (hk ?_) (Or.inr href) (by decide) (fun g => ?_) hs
  · refine ⟨?_, ?_⟩
    · simpa [Files.setTab, Tab.setRef, Tab.setFile] using h.untyped f href
    · simp [Files.setTab, Tab.setRef, Tab.setFile]
  · rw [hd g, href]
    rfl

/-- The fields of a fresh file are set for an inode. -/
theorem Inv.opensInode {ip : Fin 100} {omode : Nat} (h : Inv s) (hlive : s.used p = .live)
    (hk : k.Local (s.setTab p (s.tab.openInode f ip omode) k) p) (hf : 1 ≤ share s p f)
    (hfresh : Fresh s f) (hd : ∀ g, k.delta g = (s.place p).delta g)
    (hs : k.Alike (s.place p)) : Inv (s.setTab p (s.tab.openInode f ip omode) k) := by
  refine h.setsFile hlive hk (Or.inl hf) (fun g => ?_) (fun h0 => ?_) (fun n w => ?_) hs.2
  · rw [hd g]
    simp
  · have : (s.tab.file f).ref = 0 := h0
    rw [hfresh.2] at this
    cases this
  · rw [hs.1 n w, isEnd_none (by simp), isEnd_none (by simp [hfresh.1])]

/-- The last reference to a file goes. -/
theorem Inv.clears (h : Inv s) (hlive : s.used p = .live)
    (hk : k.Local (s.setTab p (s.tab.clear f) k) p) (hf : 1 ≤ share s p f)
    (href : (s.tab.file f).ref = 1) (hd : ∀ g, k.delta g = (s.place p).delta g - one f g)
    (hs : ∀ n w, k.shuts n w = (s.place p).shuts n w + (s.tab.file f).isEnd n w)
    (hfr : ∀ n, k.frees n = (s.place p).frees n) : Inv (s.setTab p (s.tab.clear f) k) := by
  refine h.setsFile hlive hk (Or.inl hf) (fun g => ?_) (fun _ => rfl) (fun n w => ?_) hfr
  · rw [hd g, href]
    by_cases e : g = f <;> simp [one, e, Int.sub_eq_add_neg]
  · rw [hs n w, isEnd_none (by simp)]
    omega

/-! ## Pipes -/

theorem ends_openPipe {t : Tab} (hf : (t.file f).type ≠ .pipe) {m n : Nat} {w w' : Bool} :
    Fd.ends (t.openPipe f w' m) n w = Fd.ends t n w + if m = n ∧ w' = w then 1 else 0 := by
  rw [Tab.openPipe, ends_setFile, isEnd_none hf]
  simp [File.isEnd]

/-- Two fresh files become the ends of a new pipe. -/
theorem Inv.newPipe {f0 f1 : Fno} (h : Inv s) (hlive : s.used p = .live)
    (hk : k.Local (s.setTab p (s.tab.newPipe f0 f1) k) p) (h0 : Fresh s f0) (h1 : Fresh s f1)
    (hne : f0 ≠ f1) (hs0 : 1 ≤ share s p f0) (hs1 : 1 ≤ share s p f1)
    (hd : ∀ g, k.delta g = (s.place p).delta g) (hs : k.Alike (s.place p)) :
    Inv (s.setTab p (s.tab.newPipe f0 f1) k) := by
  refine h.tables hlive hk ?_ ?_ ?_ ?_ ?_
  · intro g hg
    by_cases e0 : g = f0
    · rw [e0]
      exact Or.inl hs0
    · by_cases e1 : g = f1
      · rw [e1]
        exact Or.inl hs1
      · refine absurd ?_ hg
        simp [Tab.newPipe, Tab.openPipe, Tab.setFile, e0, e1]
  · intro g
    rw [hd g]
    by_cases e0 : g = f0 <;> by_cases e1 : g = f1 <;>
      simp_all [Tab.newPipe, Tab.openPipe, Tab.setFile]
  · intro g hg
    by_cases e1 : g = f1
    · subst e1
      have : (s.tab.file g).ref = 0 := by
        simpa [Tab.newPipe, Tab.openPipe, Tab.setFile, Ne.symm hne] using hg
      rw [h1.2] at this
      cases this
    · by_cases e0 : g = f0
      · subst e0
        have : (s.tab.file g).ref = 0 := by
          simpa [Tab.newPipe, Tab.openPipe, Tab.setFile, e1] using hg
        rw [h0.2] at this
        cases this
      · simp only [Tab.newPipe, Tab.openPipe, Tab.setFile, update_of_ne e0,
          update_of_ne e1] at hg ⊢
        exact h.untyped g hg
  · intro n w
    have he : Fd.ends (s.tab.newPipe f0 f1) n w =
        Fd.ends s.tab n w + if n = s.tab.npipe then 1 else 0 := by
      have h1' : ((s.tab.openPipe f0 false s.tab.npipe).file f1).type ≠ .pipe := by
        simp [Tab.openPipe, Tab.setFile, Ne.symm hne, h1.1]
      show Fd.ends ((s.tab.openPipe f0 false s.tab.npipe).openPipe f1 true s.tab.npipe) n w = _
      rw [ends_openPipe h1', ends_openPipe (by simp [h0.1])]
      cases w <;> simp [eq_comm]
    have ho : opens (s.tab.newPipe f0 f1) n w =
        opens s.tab n w + if n = s.tab.npipe then 1 else 0 := by
      unfold opens
      by_cases e : n = s.tab.npipe
      · subst e
        simp [Tab.newPipe]
      · have : n < s.tab.npipe + 1 ↔ n < s.tab.npipe := by omega
        simp [Tab.newPipe, e, this]
    rw [he, ho, hs.1 n w]
    omega
  · intro n
    have hde : dead (s.tab.newPipe f0 f1) n = dead s.tab n := by
      unfold dead Tab.Closed
      by_cases e : n = s.tab.npipe
      · subst e
        simp [Tab.newPipe]
      · have : n < s.tab.npipe + 1 ↔ n < s.tab.npipe := by omega
        simp [Tab.newPipe, e, this]
    rw [hde, hs.2 n]
    simp [Tab.newPipe, Tab.openPipe, Tab.setFile]

theorem shuts_nonneg (n : Nat) (w : Bool) (t : Place) : 0 ≤ t.shuts n w := by
  cases t <;> simp only [Place.shuts, Int.le_refl]
  split <;> decide

/-- The end that a process is closing is still open. -/
theorem Inv.opens_eq {n : Nat} {w : Bool} (h : Inv s) (ht : s.place p = .pclose n w c) :
    opens s.tab n w = 1 := by
  have hsum := h.ends n w
  have hp : (s.place p).shuts n w = 1 := by simp [ht, Place.shuts]
  have hle : (s.place p).shuts n w ≤ ∑ q, (s.place q).shuts n w :=
    Finset.single_le_sum (fun q _ => shuts_nonneg n w _) (Finset.mem_univ p)
  have hends : 0 ≤ Fd.ends s.tab n w :=
    Finset.sum_nonneg fun f _ => by unfold File.isEnd; split <;> decide
  have hop : opens s.tab n w = 0 ∨ opens s.tab n w = 1 := by
    unfold opens
    split
    · exact Or.inr rfl
    · exact Or.inl rfl
  omega

/-- One end of a pipe is closed. -/
theorem Inv.shutsEnd {n : Nat} {w : Bool} (h : Inv s) (ht : s.place p = .pclose n w c)
    (hlive : s.used p = .live) (hk : k.Local (s.setTab p (s.tab.shut n w) k) p)
    (hd : ∀ g, k.delta g = c.delta g) (hs : ∀ m v, k.shuts m v = 0)
    (hfr : ∀ m, k.frees m = if m = n ∧ (s.tab.shut n w).Closed n then 1 else 0) :
    Inv (s.setTab p (s.tab.shut n w) k) := by
  have hop := h.opens_eq ht
  have hn : n < s.tab.npipe ∧ (s.tab.pipe n).isOpen w = true := by
    by_contra hn
    rw [opens, if_neg hn] at hop
    cases hop
  refine h.tables hlive hk (fun f hf => absurd rfl hf) (fun g => ?_) h.untyped (fun m v => ?_)
    fun m => ?_
  · rw [hd g, ht]
    simp [Tab.shut, Place.delta]
  · have hsame : Fd.ends (s.tab.shut n w) m v = Fd.ends s.tab m v := rfl
    have hopens : opens (s.tab.shut n w) m v =
        opens s.tab m v - if n = m ∧ w = v then 1 else 0 := by
      by_cases e : n = m ∧ w = v
      · obtain ⟨rfl, rfl⟩ := e
        rw [hop]
        simp [opens, Tab.shut]
      · rw [if_neg e, Int.sub_zero]
        unfold opens
        by_cases em : m = n
        · have ev : v ≠ w := fun ev => e ⟨em.symm, ev.symm⟩
          simp [Tab.shut, em, ev]
        · simp [Tab.shut, em]
    rw [hsame, hopens, hs m v, ht]
    simp only [Place.shuts]
    omega
  · have hdead : dead (s.tab.shut n w) m =
        dead s.tab m + if m = n ∧ (s.tab.shut n w).Closed n then 1 else 0 := by
      by_cases e : m = n
      · subst e
        have h0 : dead s.tab m = 0 := by
          refine if_neg fun hc => ?_
          have := hn.2
          cases w
          · rw [hc.2.1] at this
            cases this
          · rw [hc.2.2] at this
            cases this
        rw [h0]
        have hlt : m < (s.tab.shut m w).npipe := hn.1
        simp [dead, hlt]
      · rw [if_neg (by simp [e]), Int.add_zero]
        refine if_congr ?_ rfl rfl
        simp [Tab.Closed, Tab.shut, e]
    rw [hdead, hfr m, ht]
    simp [Tab.shut, Place.frees]

/-- The page of a closed pipe is freed. -/
theorem Inv.freesPage {n : Nat} (h : Inv s) (ht : s.place p = .pfree n c)
    (hlive : s.used p = .live) (hk : (Place.fin c).Local (s.setTab p (s.tab.kfree n) (.fin c)) p) :
    Inv (s.setTab p (s.tab.kfree n) (.fin c)) := by
  refine h.tables hlive hk (fun f hf => absurd rfl hf) (fun g => ?_) h.untyped (fun m v => ?_)
    fun m => ?_
  · rw [ht]
    simp [Tab.kfree, Place.delta]
  · have h1 : Fd.ends (s.tab.kfree n) m v = Fd.ends s.tab m v := rfl
    have h2 : opens (s.tab.kfree n) m v = opens s.tab m v := rfl
    rw [ht, h1, h2]
    simp [Place.shuts]
  · have h1 : dead (s.tab.kfree n) m = dead s.tab m := rfl
    rw [ht, h1]
    by_cases e : n = m
    · subst e
      simp [Tab.kfree, Place.frees, List.count_append]
    · simp [Tab.kfree, Place.frees, List.count_append, e]

/-! ## The code -/

theorem Ofile.free_none {o : Ofile} (h : o.free p = some i) : o p i = none := by
  have := List.find?_some h
  simpa using this

theorem New.clear {s : Files} {p : Pid} {f : Fno} {i : Fin 16} (h : New s p f i) :
    s.ofile.set p i none p = s.entry p := by
  rw [Ofile.set, update_self, h.now, update_idem, ← h.unused,
    update_eq_self]

theorem New.of {s : Files} {p : Pid} {f : Fno} {i : Fin 16} {k : Place}
    (ho : s.ofile p = s.entry p) (hi : s.ofile.free p = some i) :
    New (s.setFd p p i (some f) k) p f i := by
  refine ⟨?_, ?_⟩
  · have := Ofile.free_none hi
    rw [ho] at this
    exact this
  · show s.ofile.set p i (some f) p = _
    rw [Ofile.set, update_self, ho]
    rfl

attribute [simp] Place.delta Place.shuts Place.frees Cont.delta

/-- `p` goes on to `k` and the slot `r` of the process table changes hands. -/
theorem Inv.hands {r : Pid} {u : Use} {e : Fno → Int} (h : Inv s)
    (hplace : s'.place = update s.place p k) (hused : s'.used = update s.used r u)
    (htab : s'.tab = s.tab) (hentry : ∀ q, q ≠ p → s'.entry q = s.entry q)
    (hofile : ∀ q, q ≠ r → s'.ofile q = s.ofile q)
    (hr : s.used r = .live → r = p ∧ s'.ofile r = s.ofile r)
    (hr' : ∀ q, s.used r = .embryo q → q = p)
    (hk : k.Local s' p) (hlive : k ≠ .user → s'.used p = .live)
    (hfree : u = .free → ∀ i, s'.ofile r i = none)
    (hfds : ∀ f, ∑ q, fds (s'.ofile q) f = ∑ q, fds (s.ofile q) f + e f)
    (hd : ∀ f, k.delta f + e f = (s.place p).delta f) (hs : k.Alike (s.place p)) : Inv s' := by
  refine h.next hplace ?_ hk ?_ ?_ ⟨hfds, ?_, by rw [htab]; exact h.untyped, ?_, ?_⟩
  · intro q hq
    refine ⟨by rw [hplace, update_of_ne hq], fun hl => hofile q ?_, hentry q hq, ?_, ?_⟩
    · rintro rfl
      exact hq (hr hl).1
    · intro np hnp
      have hne : np ≠ r := by
        rintro rfl
        exact hq (hr' q hnp)
      rw [hused, update_of_ne hne]
      exact ⟨hnp, hofile np hne⟩
    · intro f hfr _
      unfold Fresh
      rw [htab]
      exact hfr
  · intro q hq
    by_cases e : q = p
    · subst e
      rw [hplace, update_self] at hq
      exact hlive hq
    · rw [hplace, update_of_ne e] at hq
      have hl := h.live q hq
      have hne : q ≠ r := by
        rintro rfl
        exact e (hr hl).1
      rw [hused, update_of_ne hne]
      exact hl
  · intro q hq
    by_cases e : q = r
    · subst e
      rw [hused, update_self] at hq
      exact hfree hq
    · rw [hused, update_of_ne e] at hq
      rw [hofile q e]
      exact h.free q hq
  · intro f
    have := hd f
    rw [htab]
    omega
  · intro n w
    rw [htab, hs.1 n w]
    omega
  · intro n
    rw [htab, hs.2 n]
    omega

/-- A process that takes a step runs. -/
theorem Inv.stepper (h : Inv s) (hs : Step s p (s.place p) s') : s.used p = .live := by
  have hlive := h.live p
  generalize s.place p = t at hs hlive
  cases hs with
  | nofile | sysOpen | sysPipe | sysDup | sysClose | fork | exit => assumption
  | _ => exact hlive nofun

theorem Inv.step (h : Inv s) (hs : Step s p (s.place p) s') : Inv s' := by
  have hloc := h.loc p
  have hl := h.stepper hs
  generalize ht : s.place p = t at hs hloc
  cases hs with
  -- open
  | nofile r hp hr =>
    refine h.enters ht hl (fun _ => ?_) ?_ ?_ <;> simp [Files.enter, Files.go]
  | sysOpen ip omode fail sum hp hr =>
    refine h.enters ht hl ⟨hr, ?_⟩ ?_ ?_ <;> simp [Files.enter, Files.go]
  | open1 ip omode fail sum f hf =>
    refine h.allocs hl (fun hfr => ⟨hloc.1, hloc.2, hfr⟩) hf ?_ ?_ <;> simp [ht]
  | openFull ip omode fail sum hf =>
    refine h.goes hl (fun _ => hloc.2) ?_ ?_ <;> simp [ht]
  | open2 f ip omode fail sum i hi =>
    refine h.descriptor hl ⟨New.of hloc.2.1 hi, hloc.2.2⟩ ?_ ?_ <;>
      simp [ht, Ofile.free_none hi, one, eq_comm]
  | openNofd f ip omode fail sum hi =>
    refine h.goes hl ⟨fun _ => hloc.2.1, nofun⟩ ?_ ?_ <;> simp [ht]
  | open3 f i ip omode =>
    have hr : ¬ (i.val : Int) < 0 := by omega
    refine h.opensInode hl (fun hneg => absurd hneg hr) ?_ hloc.2 ?_ ?_
    · exact share_fd hloc.1.at (by simp [ht])
    all_goals simp [ht]
  | openSum f i ip omode cs =>
    refine h.opensInode hl ⟨hloc.1.unused, hloc.1.now⟩ ?_ hloc.2 ?_ ?_
    · exact share_fd hloc.1.at (by simp [ht])
    all_goals simp [ht]
  | open4 f i cs =>
    refine h.descriptor hl ⟨fun _ => New.clear hloc, nofun⟩ ?_ ?_ <;>
      simp [ht, New.at hloc, one, eq_comm]
  -- pipe
  | sysPipe mem hp =>
    refine h.enters ht hl ?_ ?_ ?_ <;> simp [Place.Local, Files.enter, Files.go]
  | pipe1 mem f0 hf =>
    refine h.allocs hl (fun hfr => ⟨hloc, hfr⟩) hf ?_ ?_ <;> simp [ht]
  | pipeNone mem hf =>
    refine h.goes hl (fun _ => hloc) ?_ ?_ <;> simp [ht]
  | pipe2 f0 mem f1 hf =>
    have hne : f0 ≠ f1 := by
      rintro rfl
      have := List.find?_some hf
      rw [hloc.2.2] at this
      simp at this
    refine h.allocs hl (fun hfr => ⟨hloc.1, ⟨?_, ?_⟩, hfr, hne⟩) hf ?_ ?_
    · simpa [Files.setTab, Tab.setRef, Tab.setFile, hne] using hloc.2.1
    · simpa [Files.setTab, Tab.setRef, Tab.setFile, hne] using hloc.2.2
    all_goals simp [ht]
  | pipeOne f0 mem hf =>
    refine h.goes hl ⟨fun _ => hloc.1, nofun⟩ ?_ ?_ <;> simp [ht]
  | pipe3 f0 f1 =>
    refine h.newPipe hl hloc.1 hloc.2.1 hloc.2.2.1 hloc.2.2.2 ?_ ?_ ?_ ?_
    · exact share_hand (by simp [ht])
    · exact share_hand (by simp [ht])
    all_goals simp [ht]
  | pipeNomem f0 f1 =>
    refine h.goes hl ⟨fun _ => hloc.1, nofun⟩ ?_ ?_ <;>
      simp [ht, one, count_one, eq_comm]
  | pipe4 f0 f1 i hi =>
    refine h.descriptor hl (New.of hloc hi) ?_ ?_ <;>
      simp [ht, Ofile.free_none hi, one, eq_comm, add_comm]
  | pipeNofd f0 f1 hi =>
    refine h.goes hl ⟨fun _ => hloc, nofun⟩ ?_ ?_ <;>
      simp [ht, one, count_one, eq_comm]
  | pipe5 f0 f1 i j hj =>
    refine h.descriptor hl nofun ?_ ?_ <;>
      simp [ht, Ofile.free_none hj, one, eq_comm]
  | pipeOnefd f0 f1 i hi =>
    refine h.goes hl (New.spared hloc rfl rfl) ?_ ?_ <;> simp [ht]
  | pipe6 f0 f1 i =>
    refine h.descriptor hl ⟨fun _ => New.clear hloc, nofun⟩ ?_ ?_ <;>
      simp [ht, New.at hloc, one, eq_comm, count_one, add_comm]
  -- dup and close
  | sysDup i f hp hf =>
    refine h.enters ht hl ⟨?_, hf⟩ ?_ ?_ <;> simp [Files.enter, Files.go]
  | dup1 i f j hj =>
    have hij : i ≠ j := by
      rintro rfl
      have hf : s.ofile p i = some f := hloc.2
      rw [Ofile.free_none hj] at hf
      cases hf
    refine h.descriptor hl ⟨?_, ?_, hij⟩ ?_ ?_
    · simpa [Files.setFd, Ofile.set, hij] using hloc.2
    · simp [Files.setFd, Ofile.set]
    all_goals simp [ht, Ofile.free_none hj, one, eq_comm]
  | dupNofd i f hj =>
    refine h.goes hl (fun _ => hloc.1) ?_ ?_ <;> simp [ht]
  | dup2 i f j hr =>
    have hneg : ¬ (j.val : Int) < 0 := by omega
    refine h.setsRef hl (fun h' => absurd h' hneg)
      (Or.inl (share_dup (h.loc p) ht)) (by omega) ?_ ?_
    · intro g
      by_cases e : g = f <;> simp [ht, one, e]
    all_goals simp [ht]
  | sysClose i f hp hf =>
    refine h.enters ht hl hf ?_ ?_ <;> simp
  | close1 i f =>
    have hf : s.ofile p i = some f := hloc
    refine h.descriptor hl ⟨nofun, nofun⟩ ?_ ?_ <;>
      simp [ht, hf, one, eq_comm]
  -- fork
  | fork np pid hp hn =>
    have hne : p ≠ np := by
      rintro rfl
      rw [hp] at hn
      cases hn
    refine h.hands (p := p) (r := np) (e := fun _ => 0) rfl rfl rfl ?_
      (fun _ _ => rfl) ?_ ?_ ?_ ?_ nofun ?_ ?_
      ?_
    · exact fun q hq => update_of_ne hq _ _
    · simp [hn]
    · simp [hn]
    · refine ⟨update_self .., List.nodup_finRange 16, fun i _ => h.free np hn i⟩
    · intro _
      simp [hne, hp]
    all_goals simp [ht, Files.enter, Files.go]
  | forkFile np i fds pid f hf hr =>
    refine h.setsRef hl ⟨hloc.1, hloc.2.1, hloc.2.2⟩
      (Or.inl (share_fd hf (by simp [ht]))) (by omega) ?_ ?_
    · intro g
      by_cases e : g = f <;> simp [ht, one, e]
    all_goals simp [ht]
  | forkNone np i fds pid hf =>
    refine h.goes hl ⟨hloc.1, hloc.2.1.of_cons, fun j hj => ?_⟩ ?_ ?_
    · exact hloc.2.2 j (List.mem_cons_of_mem i hj)
    all_goals simp [ht]
  | forkSet np i f fds pid =>
    refine h.hands (p := p) (r := np) (u := .embryo p) rfl ?_ rfl
      (fun _ _ => rfl) ?_ ?_ ?_ ?_ ?_ nofun
      (sum_fds_set s.ofile np i (some f)) ?_ ?_
    · rw [← hloc.1, update_eq_self]
      rfl
    · exact fun q hq => update_of_ne hq _ _
    · simp [hloc.1]
    · simp [hloc.1]
    · refine ⟨hloc.1, hloc.2.1.of_cons, fun j hj => ?_⟩
      have hji : j ≠ i := by
        rintro rfl
        exact (List.nodup_cons.mp hloc.2.1).1 hj
      have := hloc.2.2 j (List.mem_cons_of_mem i hj)
      simpa [Files.setFd, Ofile.set, hji] using this
    · exact fun _ => hl
    · intro g
      rw [hloc.2.2 i List.mem_cons_self]
      simp [ht, one, eq_comm]
    all_goals simp [ht]
  | forkEnd np pid =>
    have hneg : ¬ (pid : Int) < 0 := by omega
    refine h.hands (p := p) (r := np) (e := fun _ => 0) rfl rfl rfl (fun _ _ => rfl)
      (fun _ _ => rfl) ?_ ?_
      (fun h' => absurd h' hneg) ?_ nofun ?_ ?_ ?_
    · simp [hloc.1]
    · simp [hloc.1]
    · intro _
      by_cases e : p = np
      · simp [e]
      · simpa [Files.go, e] using hl
    all_goals simp [ht, Files.go]
  -- exit
  | exit hp =>
    refine h.enters ht hl
      ⟨List.nodup_finRange 16, fun j hj => absurd (List.mem_finRange j) hj⟩ ?_ ?_ <;> simp
  | exitFile i fds f hf =>
    refine h.goes hl ⟨⟨hf, hloc.1, hloc.2⟩, ?_⟩ ?_ ?_
    · rintro j g l ⟨⟩
      rfl
    all_goals simp [ht]
  | exitNone i fds hf =>
    refine h.goes hl ⟨hloc.1.of_cons, fun j hj => ?_⟩ ?_ ?_
    · by_cases e : j = i
      · rw [e]
        exact hf
      · exact hloc.2 j (by simp [e, hj])
    all_goals simp [ht]
  | exitEnd =>
    refine h.hands (p := p) (r := p) (e := fun _ => 0) rfl rfl rfl (fun _ _ => rfl)
      (fun _ _ => rfl) ?_ ?_ trivial
      ?_ ?_ ?_ ?_ ?_
    · exact fun _ => ⟨rfl, rfl⟩
    · simp [hl]
    · exact fun h' => absurd rfl h'
    · exact fun _ j => hloc.2 j (by simp)
    all_goals simp [ht, Files.go]
  -- fileclose
  | more f c hr =>
    refine h.setsRef hl hloc.1 (Or.inl (share_clos (h.loc p) ht)) (by omega) ?_ ?_
    · intro g
      by_cases e : g = f <;> simp [ht, one, e]
    all_goals simp [ht]
  | last f c hr hty =>
    refine h.clears hl hloc.1 (share_clos (h.loc p) ht) hr ?_ ?_ ?_ <;>
      simp [ht, isEnd_none hty]
  | lastPipe f c hr hty =>
    refine h.clears hl hloc.1 (share_clos (h.loc p) ht) hr ?_ ?_ ?_ <;>
      simp [ht, File.isEnd, hty]
  | pclose n w c hc =>
    refine h.shutsEnd ht hl hloc ?_ ?_ ?_ <;> simp [hc, eq_comm]
  | phalf n w c hc =>
    refine h.shutsEnd ht hl hloc ?_ ?_ ?_ <;> simp [hc]
  | pfree n c => exact h.freesPage ht hl hloc
  | next f fs r =>
    refine h.goes hl ⟨hloc, nofun⟩ ?_ ?_
    · intro g
      by_cases e : g = f
      · simp [ht, e, add_comm]
      · simp [ht, one_of_ne e, List.count_cons_of_ne (Ne.symm e)]
    all_goals simp [ht]
  | clear i f fds =>
    refine h.descriptor hl ⟨hloc.2.1.of_cons, fun j hj => ?_⟩ ?_ ?_
    · by_cases e : j = i
      · simp [Files.setFd, Ofile.set, e]
      · have := hloc.2.2 j (by simp [e, hj])
        simpa [Files.setFd, Ofile.set, e] using this
    all_goals simp [ht, hloc.1, one, eq_comm]
  | ret r =>
    refine h.goes hl trivial ?_ ?_ <;> simp [ht]

/-! ## Runs -/

theorem boot_inv : Inv boot := by
  constructor
  · intro f
    simp [boot, share, fds]
  · exact fun _ _ => rfl
  · intro k w
    simp [boot, Fd.ends, File.isEnd, opens]
  · intro k
    simp [boot, dead]
  · exact fun _ => trivial
  · exact fun _ h => absurd rfl h
  · exact fun _ _ _ => rfl

theorem Runs.inv (h : Runs boot s) : Inv s := by
  induction h with
  | refl => exact boot_inv
  | tail _ hs ih =>
    obtain ⟨p, hs⟩ := hs
    exact ih.step hs

/-- No system call is in progress. -/
def Quiescent (s : Files) : Prop := ∀ p, s.place p = .user

/-- The descriptor is of the pipe `k`. -/
def OfPipe (s : Files) (k : Nat) (p : Pid) (i : Fin 16) : Prop :=
  ∃ f, s.ofile p i = some f ∧ (s.tab.file f).type = .pipe ∧ (s.tab.file f).pipe = k

structure Accounted (s : Files) : Prop where
  /-- A count is the number of descriptors. -/
  ref : ∀ f, (s.tab.file f).ref =
    ((Finset.univ.filter fun x : Pid × Fin 16 => s.ofile x.1 x.2 = some f).card : Int)
  untyped : ∀ f, (s.tab.file f).ref = 0 → (s.tab.file f).type = .none
  /-- The page of a pipe has been freed once if no descriptor of either end is left, else not. -/
  kept : ∀ k < s.tab.npipe, (∃ p i, OfPipe s k p i) → s.tab.freed.count k = 0
  freed : ∀ k < s.tab.npipe, (¬ ∃ p i, OfPipe s k p i) → s.tab.freed.count k = 1

theorem sum_fds (o : Ofile) (f : Fno) : ∑ p, fds (o p) f =
    ((Finset.univ.filter fun x : Pid × Fin 16 => o x.1 x.2 = some f).card : Int) := by
  rw [Finset.card_filter, Fintype.sum_prod_type, Nat.cast_sum]
  refine Finset.sum_congr rfl fun p _ => ?_
  rw [Nat.cast_sum]
  refine Finset.sum_congr rfl fun i _ => ?_
  split <;> rfl

/-- Between calls nothing is in hand or under way. -/
theorem Quiescent.sum (hq : Quiescent s) {g : Place → Int} (hg : g .user = 0) :
    ∑ p, g (s.place p) = 0 :=
  Finset.sum_eq_zero fun p _ => by rw [hq p]; exact hg

/-- Between calls a file has as many references as descriptors. -/
theorem Inv.ref_quiet (h : Inv s) (hq : Quiescent s) (f : Fno) :
    (s.tab.file f).ref = ∑ p, fds (s.ofile p) f := by
  rw [h.ref f, sum_share, hq.sum (g := Place.delta f) rfl, Int.add_zero]

theorem Inv.descriptor_of_ref (h : Inv s) (hq : Quiescent s) (hf : (s.tab.file f).ref ≠ 0) :
    ∃ p i, s.ofile p i = some f := by
  rw [h.ref_quiet hq] at hf
  obtain ⟨p, -, hp⟩ := Finset.exists_ne_zero_of_sum_ne_zero hf
  obtain ⟨i, -, hi⟩ := Finset.exists_ne_zero_of_sum_ne_zero hp
  refine ⟨p, i, ?_⟩
  by_contra hne
  exact hi (if_neg hne)

/-- Between calls an end of a pipe is open if and only if it has a descriptor. -/
theorem Inv.ofPipe_iff (h : Inv s) (hq : Quiescent s) {n : Nat} (hn : n < s.tab.npipe) :
    (∃ p i, OfPipe s n p i) ↔ ¬ s.tab.Closed n := by
  have hends : ∀ w, Fd.ends s.tab n w = opens s.tab n w := by
    intro w
    have := h.ends n w
    rwa [hq.sum (g := Place.shuts n w) rfl, Int.add_zero] at this
  constructor
  · rintro ⟨p, i, f, -, ht, hp⟩ hc
    have hpos : 1 ≤ Fd.ends s.tab n (s.tab.file f).writable := by
      refine le_trans ?_ (Finset.single_le_sum (f := fun g => (s.tab.file g).isEnd n _)
        (fun g _ => by simp only [File.isEnd]; split <;> decide) (Finset.mem_univ f))
      simp [File.isEnd, ht, hp]
    have hzero : opens s.tab n (s.tab.file f).writable = 0 := by
      refine if_neg fun ho => ?_
      have := ho.2
      cases hw : (s.tab.file f).writable <;> rw [hw] at this
      · rw [hc.1] at this
        cases this
      · rw [hc.2] at this
        cases this
    rw [hends, hzero] at hpos
    omega
  · intro hc
    obtain ⟨w, hw⟩ : ∃ w, (s.tab.pipe n).isOpen w = true := by
      by_contra hno
      rw [not_exists] at hno
      exact hc ⟨by simpa using hno false, by simpa using hno true⟩
    have hone : Fd.ends s.tab n w ≠ 0 := by
      rw [hends, opens, if_pos ⟨hn, hw⟩]
      decide
    obtain ⟨f, -, hf⟩ := Finset.exists_ne_zero_of_sum_ne_zero hone
    have hend : (s.tab.file f).type = .pipe ∧ (s.tab.file f).pipe = n ∧
        (s.tab.file f).writable = w := by
      by_contra hne
      exact hf (if_neg hne)
    have href : (s.tab.file f).ref ≠ 0 := by
      intro h0
      rw [h.untyped f h0] at hend
      cases hend.1
    obtain ⟨p, i, hi⟩ := h.descriptor_of_ref hq href
    exact ⟨p, i, f, hi, hend.1, hend.2.1⟩

theorem Inv.accounted (h : Inv s) (hq : Quiescent s) : Accounted s := by
  have hcount : ∀ k, (s.tab.freed.count k : Int) = dead s.tab k := by
    intro k
    have := h.freed k
    rwa [hq.sum (g := Place.frees k) rfl, Int.add_zero] at this
  refine ⟨fun f => ?_, h.untyped, fun k hk hd => ?_, fun k hk hd => ?_⟩
  · rw [h.ref_quiet hq, sum_fds]
  · have := hcount k
    rw [dead, if_neg fun hc => (h.ofPipe_iff hq hk).mp hd hc.2] at this
    exact_mod_cast this
  · have hc : s.tab.Closed k := by
      by_contra hc
      exact hd ((h.ofPipe_iff hq hk).mpr hc)
    have := hcount k
    rw [dead, if_pos ⟨hk, hc⟩] at this
    exact_mod_cast this

/-- What a call does to the descriptors when it fails, and that none panics. -/
structure Careful (s : Files) : Prop where
  /-- A call that is about to return an error leaves the descriptors as they were. -/
  failed : ∀ p r, s.place p = .fin (.ret [] r) → r < 0 → s.ofile p = s.entry p
  /-- No call but a fork writes to the descriptors of another process, and it writes to those of
      its child after everything that can fail. -/
  others : ∀ p q s', Step s p (s.place p) s' → q ≠ p → s'.ofile q = s.ofile q ∨
    ∃ i f l pid, s.place p = .fork2 q i f l pid
  /-- `fileclose` and `filedup` find a count of at least 1. -/
  closes : ∀ p f c, s.place p = .clos f c → 1 ≤ (s.tab.file f).ref
  dups : ∀ p i f j, s.place p = .dup2 i f j → 1 ≤ (s.tab.file f).ref
  forks : ∀ p np i l pid f, s.place p = .fork1 np (i :: l) pid → s.ofile p i = some f →
    1 ≤ (s.tab.file f).ref

theorem Step.others (hs : Step s p k s') (hq : q ≠ p) : s'.ofile q = s.ofile q ∨
    ∃ i f l pid, k = .fork2 q i f l pid := by
  cases hs with
  | forkSet np i f l pid =>
    by_cases e : q = np
    · exact Or.inr ⟨i, f, l, pid, by rw [e]⟩
    · exact Or.inl (update_of_ne e _ _)
  | open2 | open4 | pipe4 | pipe5 | pipe6 | dup1 | close1 | clear =>
    exact Or.inl (update_of_ne hq _ _)
  | _ => exact Or.inl rfl

theorem Inv.careful (h : Inv s) : Careful s := by
  refine ⟨fun p r ht hr => ?_, fun p q s' hs hq => hs.others hq, fun p f c ht => ?_,
    fun p i f j ht => ?_, fun p np i l pid f ht hf => ?_⟩
  · have := h.loc p
    rw [ht] at this
    exact this hr
  · exact le_trans (share_clos (h.loc p) ht) (h.share_le p f)
  · exact le_trans (share_dup (h.loc p) ht) (h.share_le p f)
  · exact le_trans (share_fd hf (by simp [ht])) (h.share_le p f)

/-- In every run, whenever no call is in progress the files and pipes are accounted for, and at
    every point no call has changed more than it should. -/
theorem open_files (h : Runs boot s) : (Quiescent s → Accounted s) ∧ Careful s :=
  ⟨h.inv.accounted, h.inv.careful⟩

theorem Runs.reach {R : Files → Prop} {s s1 : Files} (p : Pid) (hs : Step s p (s.place p) s1)
    (h : ∃ s', Runs s1 s' ∧ R s') : ∃ s', Runs s s' ∧ R s' := by
  obtain ⟨s', hr, hR⟩ := h
  exact ⟨s', .head ⟨p, hs⟩ hr, hR⟩

/-- A process makes a pipe and closes both ends. -/
theorem runs_pipe : ∃ s, Runs boot s ∧ Quiescent s ∧ s.tab.npipe = 1 ∧ s.tab.freed = [0] := by
  refine Runs.reach 0 (.sysPipe true rfl) ?_
  refine Runs.reach 0 (.pipe1 true 0 rfl) ?_
  refine Runs.reach 0 (.pipe2 0 true 1 rfl) ?_
  refine Runs.reach 0 (.pipe3 0 1) ?_
  refine Runs.reach 0 (.pipe4 0 1 0 rfl) ?_
  refine Runs.reach 0 (.pipe5 0 1 0 1 rfl) ?_
  refine Runs.reach 0 (.ret 0) ?_
  refine Runs.reach 0 (.sysClose 0 0 rfl rfl) ?_
  refine Runs.reach 0 (.close1 0 0) ?_
  refine Runs.reach 0 (.lastPipe 0 _ rfl rfl) ?_
  refine Runs.reach 0 (.phalf _ _ _ (by decide)) ?_
  refine Runs.reach 0 (.ret 0) ?_
  refine Runs.reach 0 (.sysClose 1 1 rfl rfl) ?_
  refine Runs.reach 0 (.close1 1 1) ?_
  refine Runs.reach 0 (.lastPipe 1 _ rfl rfl) ?_
  refine Runs.reach 0 (.pclose _ _ _ (by decide)) ?_
  refine Runs.reach 0 (.pfree _ _) ?_
  refine Runs.reach 0 (.ret 0) ?_
  refine ⟨_, .refl, fun p => ?_, rfl, rfl⟩
  by_cases e : p = 0 <;> simp [Files.go, Files.setTab, Files.setFd, Files.enter, boot, e]

theorem open_files_pipe : ∃ s, Runs boot s ∧ s.tab.freed = [0] ∧ Accounted s := by
  obtain ⟨s, hr, hq, -, hf⟩ := runs_pipe
  exact ⟨s, hr, hf, (open_files hr).1 hq⟩

end Zv6.Fd
