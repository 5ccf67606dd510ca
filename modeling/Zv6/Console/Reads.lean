/-
  Reading the console, in every interleaving with the interrupt handler.

  `Local` says of each context what it knows whoever has the lock: the buffer shows the editor, and
  the bytes taken out by each of its calls are those the call has copied. `Knows` is what the lock
  is needed for: the test for an empty buffer stays true until the byte is fetched, and no reader
  sleeps while bytes are committed.
-/
import Mathlib.Data.List.GetD
import Zv6.Console.Lines

namespace Zv6.Cons

open Lib Function

variable {P : Type}

/-! ## Calls -/

/-- The bytes a call took out of the buffer: a `^D` only if it had none before. -/
def Call.took (c : Call) : List UInt8 :=
  c.dst ++ if c.stop = .eof ∧ c.dst = [] then [ctrl 'D'] else []

/-- The call has met neither a newline nor a `^D` nor its length. -/
structure Read.Going (c : Read) : Prop where
  eof : ctrl 'D' ∉ c.dst
  newline : newline ∉ c.dst
  length : c.dst.length ≤ c.n.toNat

/-- The call ended where it should. -/
structure Call.Stopped (c : Call) : Prop where
  eof : ctrl 'D' ∉ c.dst
  length : c.dst.length ≤ c.n.toNat
  full : c.stop = .full → c.dst.length = c.n.toNat
  line : c.stop = .newline → ∃ l, c.dst = l ++ [newline] ∧ newline ∉ l
  newline : c.stop ≠ .newline → newline ∉ c.dst

theorem Read.Going.stopped {c : Read} {stop : Stop} (h : c.Going) (h1 : stop ≠ .newline)
    (h2 : stop = .full → c.dst.length = c.n.toNat) : Call.Stopped ⟨c, stop⟩ :=
  ⟨h.eof, h.length, h2, fun hs => absurd hs h1, fun _ => h.newline⟩

/-- The bytes the call of a place has taken. -/
def Place.took : Place P → List UInt8
  | .racquire c => c.dst
  | .rwhile c => c.dst
  | .rempty c => c.dst
  | .rcheck c => c.dst
  | .rsleep c => c.dst
  | .rfetch c => c.dst
  | .rrelease c => c.took
  | .rreturn c => c.took
  | _ => []

/-- The call of a place that is about to return. -/
def Place.ending : Place P → Option Call
  | .rrelease c => some c
  | .rreturn c => some c
  | _ => none

/-- What holds at a place, whoever has the lock. -/
def Here (p : P) (d : Input P) : Place P → Prop
  | .racquire c => c.Going
  | .rwhile c => c.Going
  | .rempty c => c.Going ∧ (c.dst.length : Int) < c.n
  | .rcheck c => c.Going ∧ (c.dst.length : Int) < c.n
  | .rsleep c => c.Going ∧ (c.dst.length : Int) < c.n
  | .rfetch c => c.Going ∧ (c.dst.length : Int) < c.n
  | .rrelease c => c.Stopped ∧ (c.stop = .killed → d.killed p = true)
  | .rreturn c => c.Stopped ∧ (c.stop = .killed → d.killed p = true)
  | _ => True

/-- What holds at a place that has the lock; `Z` are the channels slept on. -/
def Knows (_ : P) (t : Place P) (d : Input P) (Z : Set Chan) : Prop :=
  match t with
  | .iwake => True
  | .rcheck _ => d.Empty
  | .rsleep _ => d.Empty
  | .rfetch _ => ¬ d.Empty ∧ Chan.r ∉ Z
  | .rrelease c => (Chan.r ∈ Z → d.Empty) ∧
      (c.stop = .eof → c.dst ≠ [] → ¬ d.Empty ∧ d.next = ctrl 'D')
  | _ => Chan.r ∈ Z → d.Empty

/-- No reader sleeps while bytes are committed. -/
def Awake (d : Input P) (Z : Set Chan) : Prop := Chan.r ∈ Z → d.Empty

variable [DecidableEq P]

/-- The bytes taken by the call with number `k` of process `p`. -/
def takenBy (p : P) (k : Nat) (l : List (Take P)) : List UInt8 :=
  (l.filter fun x => x.p = p ∧ x.call = k).map Take.c

theorem takenBy_snoc (p q : P) (k j : Nat) (b : UInt8) (l : List (Take P)) :
    takenBy p k (l ++ [⟨q, j, b⟩]) =
      if q = p ∧ j = k then takenBy p k l ++ [b] else takenBy p k l := by
  unfold takenBy
  rw [List.filter_append, List.map_append]
  by_cases h : q = p ∧ j = k
  · rw [if_pos h]
    simp [h]
  · rw [if_neg h, List.filter_cons_of_neg (by simpa using h)]
    simp

structure Local (p : P) (t : Place P) (d : Input P) : Prop where
  shows : Shows d (edit d.events)
  read : d.taken.map Take.c = (edit d.events).read
  took : ∀ k, takenBy p k d.taken = ((d.calls p).map Call.took ++ [t.took]).getD k []
  calls : ∀ c ∈ d.calls p, c.Stopped ∧ (c.stop = .killed → d.killed p = true)
  here : Here p d t

variable {d : Input P} {p q : P} {t k : Place P}

/-- The context moves on. -/
theorem Local.go (h : Local p t d) (hk : k.took = t.took) (hh : Here p d k) : Local p k d :=
  ⟨h.shows, h.read, by rw [hk]; exact h.took, h.calls, hh⟩

/-- A character is typed; the context stays where it is. -/
theorem Local.key (h : Local q t d) (c : UInt8) (hk : k.took = t.took)
    (hh : Here q (d.key c).1 k) : Local q k (d.key c).1 := by
  obtain ⟨-, h2, h3, h4, h5, -⟩ := key_same d c
  refine ⟨?_, ?_, ?_, ?_, hh⟩
  · rw [h3, edit_snoc]
    exact h.shows.history.switch c
  · rw [h3, h4, edit_snoc]
    show _ = ((edit d.events).key c).read
    rw [Editor.key_read]
    exact h.read
  · rw [h4, h5, hk]
    exact h.took
  · rw [h2, h5]
    exact h.calls

omit [DecidableEq P] in
theorem Here.key {c : UInt8} (h : Here q d t) : Here q (d.key c).1 t := by
  obtain ⟨-, h2, -⟩ := key_same d c
  cases t with
  | rrelease | rreturn => exact ⟨h.1, fun hs => by rw [h2]; exact h.2 hs⟩
  | _ => exact h

/-- A byte is read. -/
theorem Local.advance (h : Local q t d) (hne : ¬ d.Empty) :
    Shows (d.fetch p) (edit (d.fetch p).events) ∧
      (d.fetch p).taken.map Take.c = (edit (d.fetch p).events).read := by
  obtain ⟨l, hl⟩ := h.shows.next hne
  show Shows (d.fetch p) (edit (d.events ++ [.take])) ∧
    (d.taken ++ [_]).map Take.c = (edit (d.events ++ [.take])).read
  rw [edit_snoc, List.map_append, h.read]
  exact ⟨h.shows.fetch hne, (Editor.take_read hl).symm⟩

/-- Another process reads a byte. -/
theorem Local.fetched (h : Local q t d) (hne : ¬ d.Empty) (hq : q ≠ p) : Local q t (d.fetch p) := by
  obtain ⟨h1, h2⟩ := h.advance (p := p) hne
  refine ⟨h1, h2, fun k => ?_, h.calls, h.here⟩
  show takenBy q k (d.taken ++ [_]) = _
  rw [takenBy_snoc, if_neg (fun hpq => hq hpq.1.symm)]
  exact h.took k

/-- The process reads a byte. -/
theorem Local.fetch (h : Local p t d) (hne : ¬ d.Empty) (hk : k.took = t.took ++ [d.next])
    (hh : Here p d k) : Local p k (d.fetch p) := by
  obtain ⟨h1, h2⟩ := h.advance (p := p) hne
  refine ⟨h1, h2, fun j => ?_, h.calls, hh⟩
  show takenBy p j (d.taken ++ [_]) = ((d.calls p).map Call.took ++ [k.took]).getD j []
  rw [takenBy_snoc, h.took j, hk]
  by_cases hj : (d.calls p).length = j
  · rw [if_pos ⟨rfl, hj⟩, ← hj]
    simp
  · rw [if_neg (fun hpq => hj hpq.2)]
    obtain hlt | hgt := Nat.lt_or_gt_of_ne (Ne.symm hj)
    · rw [List.getD_append _ _ _ _ (by simpa using hlt),
        List.getD_append _ _ _ _ (by simpa using hlt)]
    · rw [List.getD_eq_default _ _ (by simp; omega), List.getD_eq_default _ _ (by simp; omega)]

/-- The call of `p` returns. -/
theorem Local.returns {c : Call} (h : Local p (.rreturn c) d) :
    Local p .user { d with calls := update d.calls p (d.calls p ++ [c]) } := by
  refine ⟨h.shows.history, h.read, fun j => ?_, fun c' hc => ?_, trivial⟩
  · show _ = ((update d.calls p _ p).map Call.took ++ [[]]).getD j []
    rw [update_self, List.map_append, h.took j]
    show ((d.calls p).map Call.took ++ [c.took]).getD j [] = _
    obtain hlt | hge := Nat.lt_or_ge j ((d.calls p).length + 1)
    · rw [List.getD_append _ [[]] _ _ (by simpa using hlt)]
      rfl
    · rw [List.getD_eq_default _ _ (by simpa using hge),
        List.getD_append_right _ _ _ _ (by simpa using hge)]
      simp
  · have hc' : c' ∈ update d.calls p (d.calls p ++ [c]) p := hc
    rw [update_self] at hc'
    obtain hc' | hc' := List.mem_append.mp hc'
    · exact h.calls c' hc'
    · rw [List.mem_singleton.mp hc']
      exact h.here

/-- A call of another process returns. -/
theorem Local.returned {l : List Call} (h : Local q t d) (hq : q ≠ p) :
    Local q t { d with calls := update d.calls p l } := by
  have hu : update d.calls p l q = d.calls q := update_of_ne hq ..
  refine ⟨h.shows.history, h.read, ?_, ?_, h.here⟩
  · show ∀ k, _ = ((update d.calls p l q).map Call.took ++ _).getD k []
    rw [hu]
    exact h.took
  · show ∀ c ∈ update d.calls p l q, _
    rw [hu]
    exact h.calls

/-- A process is killed. -/
theorem Local.kill (h : Local q t d) (p : P) :
    Local q t { d with killed := update d.killed p true } := by
  have hu : d.killed q = true → update d.killed p true q = true := by
    intro hk
    by_cases e : q = p
    · rw [e, update_self]
    · rw [update_of_ne e, hk]
  refine ⟨h.shows.history, h.read, h.took, fun c hc => ?_, ?_⟩
  · exact ⟨(h.calls c hc).1, fun hs => hu ((h.calls c hc).2 hs)⟩
  · have hh := h.here
    cases t with
    | rrelease | rreturn => exact ⟨hh.1, fun hs => hu (hh.2 hs)⟩
    | _ => exact hh

/-! ## The lock -/

omit [DecidableEq P] in
theorem Knows.anti {Z Z' : Set Chan} (hZ : Z' ⊆ Z) (h : Knows p t d Z) : Knows p t d Z' := by
  cases t with
  | iwake => trivial
  | rcheck c => exact h
  | rsleep c => exact h
  | rfetch c => exact ⟨h.1, fun hr => h.2 (hZ hr)⟩
  | rrelease c => exact ⟨fun hr => h.1 (hZ hr), h.2⟩
  | _ => exact fun hr => h (hZ hr)

omit [DecidableEq P] in
theorem keep_eq (d : Input P) : { d with r := d.r + 1 - 1 } = d := by
  rw [UInt32.add_sub_cancel]

omit [DecidableEq P] in
theorem Read.Going.snoc {c : Read} {b : UInt8} (h : c.Going) (hn : (c.dst.length : Int) < c.n)
    (h1 : b ≠ ctrl 'D') (h2 : b ≠ Cons.newline) : Read.Going { c with dst := c.dst ++ [b] } := by
  refine ⟨?_, ?_, ?_⟩
  · simp [h.eof, Ne.symm h1]
  · simp [h.newline, Ne.symm h2]
  · rw [List.length_append, List.length_singleton]
    show c.dst.length + 1 ≤ c.n.toNat
    omega

theorem lines_monitor : Monitor Spin.ptable Spin.input holds Awake Knows Local
    (code (P := P)) := by
  refine ⟨code_fits, fun hZ h hr => h (hZ hr), fun hZ h => h.anti hZ, ?_⟩
  intro m p t i _ hS ht hc hA
  have hp : Local p t m.data := by
    have := hS p
    rwa [ht] at this
  have hh := hp.here
  cases hc with
  | consoleintr | kill => exact Instr.Ok.test hS (hp.go rfl trivial) (by simp [holds])
  | iacquire => exact ⟨hp.go rfl trivial, fun _ h => h, fun h => absurd rfl h⟩
  | igetc c =>
    obtain ⟨h1, -, -, -, -, h6⟩ := key_same m.data c
    refine ⟨hp.key c ?_ ?_, fun q _ => (hS q).key c rfl (hS q).here.key, fun hin => ?_,
      fun hno => absurd rfl hno⟩
    · split <;> rfl
    · split <;> trivial
    · by_cases hw : (m.data.key c).2 = true
      · rw [if_pos hw]
        trivial
      · rw [if_neg hw]
        intro hr
        have he : m.data.r = m.data.w := hA hin hr
        show (m.data.key c).1.r = (m.data.key c).1.w
        rw [h1, h6 (by simpa using hw)]
        exact he
  | iwake => exact ⟨hp.go rfl trivial, fun _ hr => absurd rfl hr.2⟩
  | idone => exact Instr.Ok.test hS (hp.go rfl trivial) hA
  | irelease => exact ⟨hp.go rfl trivial, fun _ => hA rfl, fun h => absurd rfl h⟩
  | consoleread n =>
    refine Instr.Ok.test hS (hp.go rfl ⟨?_, ?_, ?_⟩) (by simp [holds])
    · exact List.not_mem_nil
    · exact List.not_mem_nil
    · exact Nat.zero_le _
  | racquire c => exact ⟨hp.go rfl hh, fun _ h => h, fun h => absurd rfl h⟩
  | rwhile c h => exact Instr.Ok.test hS (hp.go rfl ⟨hh, h⟩) hA
  | rdone c h =>
    have hlen := hh.length
    have hst : Call.Stopped ⟨c, .full⟩ := hh.stopped (by simp) fun _ => by omega
    refine Instr.Ok.test hS (hp.go ?_ ⟨hst, by simp⟩) fun hin => ⟨hA hin, by simp⟩
    simp [Place.took, Call.took]
  | rempty c h => exact Instr.Ok.test hS (hp.go rfl hh) fun _ => h
  | rready c h => exact Instr.Ok.test hS (hp.go rfl hh) fun hin => ⟨h, fun hr => h (hA hin hr)⟩
  | rleave c h =>
    have hst : Call.Stopped ⟨c, .killed⟩ := hh.1.stopped (by simp) (by simp)
    refine Instr.Ok.test hS (hp.go ?_ ⟨hst, fun _ => h⟩) fun hin => ⟨fun _ => hA hin, by simp⟩
    simp [Place.took, Call.took]
  | rstay c h => exact Instr.Ok.test hS (hp.go rfl hh) hA
  | rsleep c =>
    exact ⟨hp.go rfl hh, fun _ => ⟨fun _ => hA rfl, fun _ _ _ hJ => hJ⟩⟩
  | rkeep c h hdst =>
    have hst : Call.Stopped ⟨c, .eof⟩ := hh.1.stopped (by simp) (by simp)
    rw [keep_eq]
    refine Instr.Ok.test hS (hp.go ?_ ⟨hst, by simp⟩) fun hin => ⟨fun hr => ?_, fun _ _ => ?_⟩
    · simp [Place.took, Call.took, hdst]
    · exact absurd hr (hA hin).2
    · exact ⟨(hA hin).1, h⟩
  | reof c h hdst =>
    have hst : Call.Stopped ⟨c, .eof⟩ := hh.1.stopped (by simp) (by simp)
    obtain ⟨hne, hr⟩ : ¬ m.data.Empty ∧ Chan.r ∉ m.slept .input := hA rfl
    refine ⟨hp.fetch hne ?_ ⟨hst, by simp⟩, fun q hq => (hS q).fetched hne hq, fun _ => ?_,
      fun hno => absurd rfl hno⟩
    · simp [Place.took, Call.took, hdst, h]
    · exact ⟨fun hz => absurd hz hr, fun _ hd => absurd hdst hd⟩
  | rline c h =>
    obtain ⟨hne, hr⟩ : ¬ m.data.Empty ∧ Chan.r ∉ m.slept .input := hA rfl
    have hst : Call.Stopped ⟨{ c with dst := c.dst ++ [m.data.next] }, .newline⟩ := by
      refine ⟨?_, ?_, by simp, fun _ => ⟨c.dst, by rw [h], hh.1.newline⟩, fun hs => absurd rfl hs⟩
      · rw [h]
        simp only [List.mem_append, List.mem_singleton, not_or]
        exact ⟨hh.1.eof, by decide⟩
      · rw [List.length_append, List.length_singleton]
        have := hh.2
        show c.dst.length + 1 ≤ c.n.toNat
        omega
    refine ⟨hp.fetch hne ?_ ⟨hst, by simp⟩, fun q hq => (hS q).fetched hne hq, fun _ => ?_,
      fun hno => absurd rfl hno⟩
    · simp [Place.took, Call.took]
    · exact ⟨fun hz => absurd hz hr, by simp⟩
  | rbyte c h hn =>
    obtain ⟨hne, hr⟩ : ¬ m.data.Empty ∧ Chan.r ∉ m.slept .input := hA rfl
    exact ⟨hp.fetch hne rfl (hh.1.snoc hh.2 h hn), fun q hq => (hS q).fetched hne hq,
      fun _ hz => absurd hz hr, fun hno => absurd rfl hno⟩
  | rrelease c => exact ⟨hp.go rfl hh, fun _ => (hA rfl).1, fun h => absurd rfl h⟩
  | rreturn c =>
    exact ⟨hp.returns, fun q hq => (hS q).returned hq, fun h => h.elim,
      fun _ => ⟨fun _ _ h => h, fun _ _ _ _ _ h => h⟩⟩
  | kacquire | krelease => exact ⟨hp.go rfl trivial, by simp, by simp [holds]⟩
  | kset q =>
    exact ⟨(hp.kill q).go rfl trivial, fun r _ => (hS r).kill q, by simp [holds],
      fun _ => ⟨fun _ _ h => h, fun _ _ _ _ _ h => h⟩⟩
  | krouse q => exact ⟨hp.go rfl trivial, by simp [holds]⟩

/-! ## Runs -/

/-- A step takes no byte back and uncommits none. -/
theorem code_grows {m : Kernel P} {d : Input P} (hc : code m p t (.set d k)) :
    m.data.taken <+: d.taken ∧ (edit m.data.events).committed <+: (edit d.events).committed := by
  have hfetch : m.data.taken <+: (m.data.fetch p).taken ∧
      (edit m.data.events).committed <+: (edit (m.data.fetch p).events).committed := by
    refine ⟨List.prefix_append .., ?_⟩
    show _ <+: (edit (m.data.events ++ [.take])).committed
    rw [edit_snoc, Editor.step, Editor.committed_take]
  cases hc with
  | igetc c =>
    obtain ⟨-, -, h3, h4, -⟩ := key_same m.data c
    rw [h3, h4, edit_snoc]
    exact ⟨List.prefix_rfl, Editor.committed_key ..⟩
  | reof c h hdst => exact hfetch
  | rline c h => exact hfetch
  | rbyte c h hn => exact hfetch
  | _ => exact ⟨List.prefix_rfl, List.prefix_rfl⟩

theorem Runs.grows {m m' : Kernel P} (hr : Runs m m') : m.data.taken <+: m'.data.taken ∧
    (edit m.data.events).committed <+: (edit m'.data.events).committed := by
  induction hr with
  | refl => exact ⟨List.prefix_rfl, List.prefix_rfl⟩
  | tail _ hstep ih =>
    obtain ⟨p, hstep⟩ := hstep
    obtain hd | ⟨t, k, -, hc⟩ := hstep.data
    · rw [hd]
      exact ih
    · exact ⟨ih.1.trans (code_grows hc).1, ih.2.trans (code_grows hc).2⟩

/-- The calls of `p` that have ended, with the one that is about to return. -/
def ends (m : Kernel P) (p : P) : List Call := m.data.calls p ++ (m.thr p).place.ending.toList

/-- The `^D` that is next in `m` is still next in `m'`, or a call that returned 0 took it. -/
def Keeps (m m' : Kernel P) : Prop :=
  (m'.data.taken = m.data.taken ∧ ¬ m'.data.Empty ∧ m'.data.next = ctrl 'D') ∨
    ∃ q k l c, m'.data.taken = m.data.taken ++ ⟨q, k, ctrl 'D'⟩ :: l ∧
      (ends m' q)[k]? = some c ∧ c.stop = .eof ∧ c.result = 0

/-- What is promised of the console. -/
structure Discipline (m : Kernel P) : Prop where
  room : m.data.used ≤ 128
  between : m.data.ready ≤ m.data.used
  -- the bytes taken and those still to be read are the lines committed by the editor
  lines : m.data.taken.map Take.c ++
    window inputBuf_pos m.data.buf m.data.r m.data.ready = (edit m.data.events).committed
  typed : window inputBuf_pos m.data.buf m.data.w (m.data.used - m.data.ready) =
    (edit m.data.events).line
  -- each call took the bytes it delivers, and a `^D` only if it returns 0
  took : ∀ p k, takenBy p k m.data.taken =
    ((m.data.calls p).map Call.took ++ [(m.thr p).place.took]).getD k []
  stops : ∀ p, ∀ c ∈ ends m p, c.Stopped ∧ (c.stop = .killed → m.data.killed p = true)
  kept : ∀ p c, m.thr p = .at (.rrelease c) → c.stop = .eof → c.dst ≠ [] →
    ∀ m', Runs m m' → Keeps m m'
  awake : m.lock .input = none → Chan.r ∈ m.slept .input → m.data.Empty

theorem Boots.local {m : Kernel P} (h : Boots m) (p : P) : Local p (m.thr p).place m.data := by
  rw [h.thr p]
  refine ⟨h.shows, h.read, fun k => ?_, fun c hc => ?_, trivial⟩
  · rw [h.taken, h.calls p]
    cases k <;> rfl
  · rw [h.calls p] at hc
    exact absurd hc List.not_mem_nil

theorem Boots.lines {m : Kernel P} (h : Boots m) :
    MonInv Spin.ptable Spin.input holds Awake Knows Local m := by
  refine ⟨h.locks, h.local, fun p k hg => ?_, fun _ hr => ?_, fun p hp => ?_⟩
  · rw [h.thr p] at hg
    exact hg.elim
  · exact h.w.symm
  · rw [h.thr p] at hp
    exact hp.elim

variable {m m' : Kernel P}

/-- A `^D` was taken by a call that found it first, and such a call returns 0. -/
theorem Local.zero {m : Kernel P} {j : Nat} (h : Local q (m.thr q).place m.data)
    (hd : ctrl 'D' ∈ takenBy q j m.data.taken) :
    ∃ c, (ends m q)[j]? = some c ∧ c.stop = .eof ∧ c.result = 0 := by
  have hzero : ∀ c : Call, ctrl 'D' ∉ c.dst → ctrl 'D' ∈ c.took → c.stop = .eof ∧ c.result = 0 := by
    intro c hno hin
    obtain hin | hin := List.mem_append.mp hin
    · exact absurd hin hno
    · by_cases he : c.stop = .eof ∧ c.dst = []
      · refine ⟨he.1, ?_⟩
        simp [Call.result, he.1, he.2]
      · rw [if_neg he] at hin
        exact absurd hin List.not_mem_nil
  rw [h.took j] at hd
  unfold ends
  obtain hlt | heq | hgt := Nat.lt_trichotomy j (m.data.calls q).length
  · rw [List.getD_append _ _ _ _ (by simpa using hlt),
      List.getD_eq_getElem _ _ (by simpa using hlt), List.getElem_map] at hd
    refine ⟨(m.data.calls q)[j], ?_, hzero _ (h.calls _ (List.getElem_mem hlt)).1.eof hd⟩
    rw [List.getElem?_append_left hlt, List.getElem?_eq_getElem hlt]
  · rw [heq, List.getD_append_right _ _ _ _ (by simp)] at hd
    simp only [List.length_map, Nat.sub_self, List.getD_cons_zero] at hd
    rw [List.getElem?_append_right (by omega), heq, Nat.sub_self]
    have hh := h.here
    generalize (m.thr q).place = t at hd hh
    cases t with
    | rrelease c | rreturn c => exact ⟨c, rfl, hzero c hh.1.eof hd⟩
    | racquire | rwhile => exact absurd hd hh.eof
    | rempty | rcheck | rsleep | rfetch => exact absurd hd hh.1.eof
    | _ => exact absurd hd List.not_mem_nil
  · rw [List.getD_eq_default _ _ (by simp; omega)] at hd
    exact absurd hd List.not_mem_nil

omit [DecidableEq P] in
theorem Shows.lines {ed : Editor} (h : Shows d ed) (hr : d.taken.map Take.c = ed.read) :
    d.taken.map Take.c ++ window inputBuf_pos d.buf d.r d.ready = ed.committed := by
  rw [h.ready, h.queue, hr]
  rfl

/-- From a state where a `^D` is next, as `^D`s are not passed over. -/
theorem keeps_of_next (hr : Runs m m') (h : Local p (m.thr p).place m.data)
    (h' : ∀ q, Local q (m'.thr q).place m'.data) (hne : ¬ m.data.Empty)
    (hd : m.data.next = ctrl 'D') : Keeps m m' := by
  obtain ⟨⟨x, hx⟩, ⟨y, hy⟩⟩ := hr.grows
  obtain ⟨l, hl⟩ := h.shows.next hne
  have h1 := (h' p).shows
  have heq : m.data.taken.map Take.c ++ (x.map Take.c ++ (edit m'.data.events).queue) =
      m.data.taken.map Take.c ++ (ctrl 'D' :: (l ++ y)) := by
    calc m.data.taken.map Take.c ++ (x.map Take.c ++ (edit m'.data.events).queue)
        = (edit m'.data.events).committed := by
          rw [← List.append_assoc, ← List.map_append, hx, (h' p).read]
          rfl
      _ = (edit m.data.events).read ++ (edit m.data.events).queue ++ y := hy.symm
      _ = _ := by
          rw [hl, hd, ← h.read, List.append_assoc]
          rfl
  have htail := List.append_cancel_left heq
  cases x with
  | nil =>
    refine Or.inl ⟨by rw [← hx, List.append_nil], ?_⟩
    have hq : (edit m'.data.events).queue = ctrl 'D' :: (l ++ y) := htail
    have hne' : ¬ m'.data.Empty := by
      rw [h1.empty_iff, hq]
      simp
    obtain ⟨l', hl'⟩ := h1.next hne'
    rw [hq] at hl'
    exact ⟨hne', (List.cons.inj hl').1.symm⟩
  | cons b x =>
    obtain ⟨q, j, c⟩ := b
    have hc : c = ctrl 'D' := (List.cons.inj htail).1
    subst hc
    have hin : ctrl 'D' ∈ takenBy q j m'.data.taken := by
      rw [← hx]
      simp [takenBy]
    obtain ⟨c, hc⟩ := (h' q).zero hin
    exact Or.inr ⟨q, j, x, c, hx.symm, hc⟩

/-- In every run of interrupts and reads, of any lengths, what is read are the lines the editor
    commits. -/
theorem console_lines (h : Boots m) (hr : Runs m m') : Discipline m' := by
  have hI := h.lines.steps lines_monitor hr
  obtain ⟨hs, hread⟩ : Shows m'.data (edit m'.data.events) ∧
      m'.data.taken.map Take.c = (edit m'.data.events).read := by
    obtain rfl | ⟨m1, -, p, -⟩ := hr.cases_tail
    · exact ⟨h.shows, h.read⟩
    · exact ⟨(hI.loc p).shows, (hI.loc p).read⟩
  have hheld := hs.held
  have hsplit : (edit m'.data.events).held - (edit m'.data.events).queue.length =
      (edit m'.data.events).line.length := Nat.add_sub_cancel_left ..
  refine ⟨?_, ?_, hs.lines hread, ?_, fun p k => (hI.loc p).took k, fun p c hc => ?_,
    fun p c ht he hd m2 hr2 => ?_, hI.free⟩
  · rw [hs.used]
    exact hheld
  · rw [hs.used, hs.ready]
    exact Nat.le_add_right ..
  · rw [hs.used, hs.ready, hsplit]
    exact hs.line
  · obtain hc | hc := List.mem_append.mp hc
    · exact (hI.loc p).calls c hc
    · have hh := (hI.loc p).here
      generalize (m'.thr p).place = t at hc hh
      cases t with
      | rrelease | rreturn =>
        rw [List.mem_singleton.mp hc]
        exact hh
      | _ => exact absurd hc List.not_mem_nil
  · have hk := hI.held p
    rw [ht] at hk
    obtain ⟨hne, hnext⟩ := (hk rfl).2 he hd
    exact keeps_of_next hr2 (hI.loc p) (hI.steps lines_monitor hr2).loc hne hnext

/-! ## One context -/

/-- A console nobody has touched, with one context. -/
def quiet : Kernel Unit where
  data := ⟨fun _ => 0, 0, 0, 0, fun _ => false, [], [], fun _ => []⟩
  lock _ := none
  thr _ := .at .user

theorem quiet_boots : Boots quiet :=
  ⟨rfl, rfl, rfl, rfl, fun _ => rfl, fun _ => rfl, fun _ => rfl⟩

/-- A newline is typed and read. -/
theorem console_lines_newline : ∃ m, (Boots quiet ∧ Runs quiet m) ∧
    m.data.taken = [⟨(), 0, newline⟩] ∧ Discipline m := by
  suffices h : ∃ m, Runs quiet m ∧ m.data.taken = [⟨(), 0, newline⟩] by
    obtain ⟨m, hr, hm⟩ := h
    exact ⟨m, ⟨quiet_boots, hr⟩, hm, console_lines quiet_boots hr⟩
  refine Steps.reach () (.set rfl .consoleintr) ?_
  refine Steps.reach () (.acquire rfl .iacquire rfl) ?_
  refine Steps.reach () (.set rfl (.igetc newline)) ?_
  refine Steps.reach () (.wakeup rfl .iwake rfl) ?_
  refine Steps.reach () (.wake rfl) ?_
  refine Steps.reach () (.woken rfl) ?_
  refine Steps.reach () (.set rfl .idone) ?_
  refine Steps.reach () (.release rfl .irelease) ?_
  refine Steps.reach () (.set rfl (.consoleread 5)) ?_
  refine Steps.reach () (.acquire rfl (.racquire _) rfl) ?_
  refine Steps.reach () (.set rfl (.rwhile _ (by decide))) ?_
  refine Steps.reach () (.set rfl (.rready _ (by decide))) ?_
  refine Steps.reach () (.set rfl (.rline _ rfl)) ?_
  exact ⟨_, .refl, rfl⟩

end Zv6.Cons
