/-
  No wakeup of a pipe is lost, unless a writer is killed.

  `Awaited`: whoever sleeps on `nread` waits for a byte that is not there, whoever sleeps on
  `nwrite` for room that is not there. Each line of the code that ends such a wait owes a wakeup
  until it has the lock no more (`Owes`). One path forgets it: a writer that has stored bytes,
  finds the pipe full and sees that it was killed leaves without telling the readers. `calm` is
  the code without that path (`no_lost_wakeup`), `lost_wakeup` is a run that takes it.
-/
import Zv6.Pipe.Fifo

namespace Zv6.Ipc

open Lib Function

variable {P : Type}

/-- What the sleepers wait for has not come. -/
structure Awaited (d : Pipe P) (Z : Set Chan) : Prop where
  nread : .nread ∈ Z → d.Empty ∧ d.writeopen = true ∧ d.rfile = true
  nwrite : .nwrite ∈ Z → d.Full ∧ d.readopen = true

/-- What is known of the readers while a writer has bytes they were not told of. -/
structure Telling (w : Writing) (d : Pipe P) (Z : Set Chan) : Prop where
  nread : .nread ∈ Z → d.rfile = true ∧ (w.told = w.i → d.Empty ∧ d.writeopen = true)
  nwrite : .nwrite ∈ Z → d.Full ∧ d.readopen = true

/-- What is known at a place that has the lock. -/
def Owes (_ : P) (t : Place P) (d : Pipe P) (Z : Set Chan) : Prop :=
  match t with
  | .wfor w => Telling w d Z
  | .wfull w => Telling w d Z
  | .wcheck w => Telling w d Z ∧ d.Full
  | .wwake w => Telling w d Z ∧ d.Full ∧ d.readopen = true
  | .wsleep _ => Awaited d Z ∧ d.Full ∧ d.readopen = true
  | .wstore w => Telling w d Z
  | .wend w => Telling w d Z
  | .rcheck _ => Awaited d Z ∧ d.Empty ∧ d.writeopen = true
  | .rsleep _ => Awaited d Z ∧ d.Empty ∧ d.writeopen = true
  | .rcopy _ _ => .nread ∈ Z → d.Empty ∧ d.writeopen = true ∧ d.rfile = true
  | .rwake _ _ => .nread ∈ Z → d.Empty ∧ d.writeopen = true ∧ d.rfile = true
  | .cwake true => .nwrite ∈ Z → d.Full ∧ d.readopen = true
  | .cwake false => .nread ∈ Z → d.Empty ∧ d.writeopen = true ∧ d.rfile = true
  | _ => Awaited d Z

/-- The place a sleeper goes on at. -/
def Asks : Chan → Place P → Prop
  | .nread, k => ∃ n, k = .rempty n
  | .nwrite, k => ∃ w, k = .wfull w

/-- Readers are told of no more bytes than there are. -/
def Told (_ : P) (t : Place P) (_ : Pipe P) : Prop := ∀ w, t.writing = some w → w.told ≤ w.i

/-- The code, except that a killed writer does not leave with bytes nobody was told of. -/
def calm [DecidableEq P] : Code P Spin Chan (Pipe P) (Place P) := fun m p t i =>
  code m p t i ∧ ∀ w, t = .wcheck w → m.data.killed p = true → w.told = w.i

variable {d d' : Pipe P} {Z Z' : Set Chan} {w : Writing}

theorem Awaited.anti (hZ : Z' ⊆ Z) (h : Awaited d Z) : Awaited d Z' :=
  ⟨fun hc => h.nread (hZ hc), fun hc => h.nwrite (hZ hc)⟩

theorem Telling.anti (hZ : Z' ⊆ Z) (h : Telling w d Z) : Telling w d Z' :=
  ⟨fun hc => h.nread (hZ hc), fun hc => h.nwrite (hZ hc)⟩

theorem Awaited.telling (h : Awaited d Z) : Telling w d Z :=
  ⟨fun hc => ⟨(h.nread hc).2.2, fun _ => ⟨(h.nread hc).1, (h.nread hc).2.1⟩⟩, h.nwrite⟩

/-- Everybody was told. -/
theorem Telling.awaited (h : Telling w d Z) (hn : .nread ∈ Z → w.told = w.i) : Awaited d Z :=
  ⟨fun hc => ⟨((h.nread hc).2 (hn hc)).1, ((h.nread hc).2 (hn hc)).2, (h.nread hc).1⟩, h.nwrite⟩

theorem Owes.anti {p : P} {t : Place P} (hZ : Z' ⊆ Z) (h : Owes p t d Z) : Owes p t d Z' := by
  cases t with
  | wfor | wfull | wstore | wend => exact Telling.anti hZ h
  | wcheck | wwake | wsleep | rcheck | rsleep => exact ⟨h.1.anti hZ, h.2⟩
  | rcopy | rwake => exact fun hc => h (hZ hc)
  | cwake w => cases w <;> exact fun hc => h (hZ hc)
  | _ => exact Awaited.anti hZ h

/-- The fields sleepers ask about are the same. -/
structure Same (d d' : Pipe P) : Prop where
  nread : d'.nread = d.nread
  nwrite : d'.nwrite = d.nwrite
  readopen : d'.readopen = d.readopen
  writeopen : d'.writeopen = d.writeopen

theorem Same.empty (h : Same d d') : d'.Empty ↔ d.Empty := by
  unfold Pipe.Empty
  rw [h.nread, h.nwrite]

theorem Same.full (h : Same d d') : d'.Full ↔ d.Full := by
  unfold Pipe.Full
  rw [h.nread, h.nwrite]

theorem Awaited.same (h : Awaited d Z) (hs : Same d d')
    (hr : .nread ∈ Z → d.rfile = true → d'.rfile = true) : Awaited d' Z := by
  refine ⟨fun hc => ?_, fun hc => ?_⟩
  · rw [hs.empty, hs.writeopen]
    exact ⟨(h.nread hc).1, (h.nread hc).2.1, hr hc (h.nread hc).2.2⟩
  · rw [hs.full, hs.readopen]
    exact h.nwrite hc

theorem Telling.same (h : Telling w d Z) (hs : Same d d')
    (hr : .nread ∈ Z → d.rfile = true → d'.rfile = true) : Telling w d' Z := by
  refine ⟨fun hc => ?_, fun hc => ?_⟩
  · rw [hs.empty, hs.writeopen]
    exact ⟨hr hc (h.nread hc).1, (h.nread hc).2⟩
  · rw [hs.full, hs.readopen]
    exact h.nwrite hc

theorem Owes.same {p : P} {t : Place P} (h : Owes p t d Z) (hs : Same d d')
    (hr : .nread ∈ Z → d.rfile = true → d'.rfile = true) : Owes p t d' Z := by
  have hnr : (.nread ∈ Z → d.Empty ∧ d.writeopen = true ∧ d.rfile = true) →
      .nread ∈ Z → d'.Empty ∧ d'.writeopen = true ∧ d'.rfile = true := by
    intro h hc
    rw [hs.empty, hs.writeopen]
    exact ⟨(h hc).1, (h hc).2.1, hr hc (h hc).2.2⟩
  cases t with
  | wfor | wfull | wstore | wend => exact Telling.same h hs hr
  | wcheck w => exact ⟨h.1.same hs hr, hs.full.mpr h.2⟩
  | wwake | wsleep => exact ⟨h.1.same hs hr, hs.full.mpr h.2.1, hs.readopen.trans h.2.2⟩
  | rcheck | rsleep => exact ⟨h.1.same hs hr, hs.empty.mpr h.2.1, hs.writeopen.trans h.2.2⟩
  | rcopy n dst => exact hnr h
  | rwake n dst => exact hnr h
  | cwake w =>
    cases w with
    | false => exact hnr h
    | true => exact fun hc => ⟨hs.full.mpr (h hc).1, hs.readopen.trans (h hc).2⟩
  | _ => exact Awaited.same h hs hr

/-- A change of the data outside of the lock. -/
theorem ok_outside {m : Kernel P} {p : P} {t k : Place P} (hl : Spin.lock ∉ holds t)
    (hS : ∀ q, Told q (m.thr q).place m.data) (hk : Told p k d) (hs : Same m.data d)
    (hr : .nread ∈ m.dozing Spin.lock → m.data.rfile = true → d.rfile = true) :
    Instr.Ok Spin.lock holds Awaited Owes Told m p t (.set d k) :=
  ⟨hk, fun q _ => hS q, fun h => absurd h hl, fun _ =>
    ⟨fun _ hZ h => h.same hs fun hc => hr (hZ hc),
      fun _ _ _ _ hZ h => h.same hs fun hc => hr (hZ hc)⟩⟩

theorem Boots.awaited {m : Kernel P} (h : Boots m) :
    MonInv Spin.ptable Spin.lock holds Awaited Owes Told m := by
  refine ⟨h.locks, fun p => ?_, fun p k hg => ?_, fun _ => ?_, fun p hp => ?_⟩
  · rw [h.thr p]
    simp [Told, Place.writing, Thr.place]
  · rw [h.thr p] at hg
    exact hg.elim
  · have hnone : ∀ c, c ∉ m.slept Spin.lock := by
      rintro c ⟨p, k, hk⟩
      rw [h.thr p] at hk
      simp at hk
    exact ⟨fun hc => absurd hc (hnone _), fun hc => absurd hc (hnone _)⟩
  · rw [h.thr p] at hp
    exact hp.elim

variable [DecidableEq P]

/-- What the code may rely on. -/
def Base (m : Kernel P) : Prop :=
  MonInv Spin.ptable Spin.lock holds (fun _ _ => True) Knows Local m ∧ Waits Asks m

theorem wakeup_monitor : Monitor Spin.ptable Spin.lock holds Awaited Owes Told
    (fun (m : Kernel P) p t i => calm m p t i ∧ Base m) := by
  refine ⟨fun m p t i hc => code_fits m p t i hc.1.1, Awaited.anti, Owes.anti, ?_⟩
  rintro m p t i _ hS ht ⟨⟨hc, hcalm⟩, hfifo, hwaits⟩ hA
  have hp : Local p t m.data := by
    have := hfifo.loc p
    rwa [ht] at this
  have htold : Told p t m.data := by
    have := hS p
    rwa [ht] at this
  cases hc with
  | pipewrite src n hsrc hf =>
    refine Instr.Ok.test hS ?_ fun h => h.elim
    rintro w ⟨⟩
    exact Nat.le_refl 0
  | wacquire w => exact ⟨htold, fun _ hJ => hJ.telling, fun h => absurd rfl h⟩
  | wfor | wdone | wroom | rstay | rdone | ctest => exact Instr.Ok.test hS htold hA
  | wfull _ h | rempty _ h => exact Instr.Ok.test hS htold fun hl => ⟨hA hl, h⟩
  | wleave w h =>
    refine Instr.Ok.test hS htold fun hl => ?_
    obtain ⟨htell, -⟩ := hA hl
    refine htell.awaited fun hn => ?_
    obtain h | h := h
    · -- the read end is closed, so nobody is left to tell
      have := hp.buf.ropen h
      rw [(htell.nread hn).1] at this
      cases this
    · exact hcalm w rfl h
  | wstay w h =>
    refine Instr.Ok.test hS htold fun hl => ?_
    rw [not_or] at h
    exact ⟨(hA hl).1, (hA hl).2, by simpa using h.1⟩
  | wwake w =>
    refine ⟨?_, fun hl => ?_⟩
    · rintro w' ⟨⟩
      exact Nat.le_refl _
    · obtain ⟨htell, hfull, hopen⟩ := hA hl
      exact ⟨(htell.anti Set.sdiff_subset).awaited fun hn => absurd rfl hn.2, hfull, hopen⟩
  | wsleep w =>
    refine ⟨htold, fun _ => ⟨?_, fun _ _ _ hJ => hJ.telling⟩⟩
    obtain ⟨hJ, hfull, hopen⟩ := hA rfl
    refine ⟨fun hn => hJ.nread (hn.resolve_left (by simp)), fun _ => ⟨hfull, hopen⟩⟩
  | wstore w =>
    have hle : w.told ≤ w.i := htold w rfl
    have hroom : ¬ m.data.Full := by
      have := hfifo.held p (by rw [ht]; rfl)
      rw [ht] at this
      exact this
    refine ⟨?_, fun q _ => hS q, fun hl => ?_, fun hno => absurd rfl hno⟩
    · rintro w' ⟨⟩
      exact Nat.le_succ_of_le hle
    · refine ⟨fun hn => ⟨((hA hl).nread hn).1, fun he => ?_⟩, fun hn => ?_⟩
      · have : w.told = w.i + 1 := he
        omega
      · exact absurd ((hA hl).nwrite hn).1 hroom
  | wend w =>
    refine ⟨?_, fun hl => ?_⟩
    · rintro w' ⟨⟩
      exact Nat.le_refl _
    · exact Telling.awaited (Telling.anti Set.sdiff_subset (hA hl)) fun hn => absurd rfl hn.2
  | wrelease | rrelease => exact ⟨htold, fun _ => hA rfl, fun h => absurd rfl h⟩
  | wreturn w r =>
    exact ok_outside (by simp [holds]) hS (by simp [Told, Place.writing]) ⟨rfl, rfl, rfl, rfl⟩
      fun _ h => h
  | piperead | kill => exact Instr.Ok.test hS htold fun h => h.elim
  | racquire | cacquire => exact ⟨htold, fun _ hJ => hJ, fun h => absurd rfl h⟩
  | rready n h => exact Instr.Ok.test hS htold fun hl => (hA hl).nread
  | rleave n h => exact Instr.Ok.test hS htold fun hl => (hA hl).1
  | rsleep n =>
    refine ⟨htold, fun _ => ⟨?_, fun _ _ _ hJ => hJ⟩⟩
    obtain ⟨hJ, hempty, hopen⟩ := hA rfl
    have hf := hp.rfile (by simp [Place.reading])
    exact ⟨fun _ => ⟨hempty, hopen, hf⟩, fun hn => hJ.nwrite (hn.resolve_left (by simp))⟩
  | rcopy n dst h hne =>
    refine ⟨htold, fun q _ => hS q, fun hl hn => ?_, fun hno => absurd rfl hno⟩
    exact absurd (hA hl hn).1 hne
  | rwake n dst =>
    refine ⟨htold, fun hl => ⟨fun hn => hA hl hn.1, fun hn => absurd rfl hn.2⟩⟩
  | rreturn | pipecloseWrite | cfree | kset =>
    exact ok_outside (by simp [holds]) hS htold ⟨rfl, rfl, rfl, rfl⟩ fun _ h => h
  | pipecloseRead hf hno =>
    refine ok_outside (by simp [holds]) hS htold ⟨rfl, rfl, rfl, rfl⟩ fun hn _ => ?_
    -- whoever sleeps on `nread` is in a call of `piperead`
    obtain ⟨q, k, hk⟩ := hn
    obtain ⟨n, rfl⟩ := hwaits q _ _ _ hk
    have hq : q ≠ p := by
      rintro rfl
      rw [ht] at hk
      simp at hk
    have hnone := hno q hq
    rcases hk with hk | hk | hk <;> rw [hk] at hnone <;> cases hnone
  | csetWrite =>
    exact ⟨htold, fun q _ => hS q, fun hl => (hA hl).nwrite, fun hno => absurd rfl hno⟩
  | csetRead =>
    exact ⟨htold, fun q _ => hS q, fun hl => (hA hl).nread, fun hno => absurd rfl hno⟩
  | cwakeWrite => exact ⟨htold, fun hl => ⟨fun hn => absurd rfl hn.2, fun hn => hA hl hn.1⟩⟩
  | cwakeRead => exact ⟨htold, fun hl => ⟨fun hn => hA hl hn.1, fun hn => absurd rfl hn.2⟩⟩
  | crelease last =>
    refine ⟨?_, fun _ => hA rfl, fun h => absurd rfl h⟩
    cases last <;> simp [Told, Place.writing]
  | kacquire | krelease => exact ⟨htold, by simp, by simp [holds]⟩
  | krouse q => exact ⟨htold, by simp [holds]⟩

/-! ## Runs -/

/-- While the pipe's lock is free, whoever sleeps on `nread` finds the pipe empty and the write
    end open, and whoever sleeps on `nwrite` finds it full and the read end open. -/
def NoLostWakeup (m : Kernel P) : Prop :=
  m.lock .lock = none → ∀ p l k,
    (m.thr p = .asleep .nread l k → m.data.Empty ∧ m.data.writeopen = true) ∧
    (m.thr p = .asleep .nwrite l k → m.data.Full ∧ m.data.readopen = true)

theorem code_asks (m : Kernel P) (p : P) (t : Place P) (c : Chan) (l : Spin) (k : Place P)
    (h : code m p t (.sleep c l k)) : Asks c k := by
  cases h with
  | wsleep w => exact ⟨w, rfl⟩
  | rsleep n => exact ⟨n, rfl⟩

theorem Base.step {m m' : Kernel P} {p : P} (h : Base m) (hs : Step Spin.ptable calm p m m') :
    Base m' := by
  have hs' : Step Spin.ptable code p m m' := hs.mono fun t i hc => hc.1
  exact ⟨h.1.step fifo_monitor hs', h.2.step code_asks hs'⟩

theorem Boots.base {m : Kernel P} (h : Boots m) : Base m := by
  refine ⟨h.fifo, fun p c l k hk => ?_⟩
  rw [h.thr p] at hk
  simp at hk

/-- A sleeper of the pipe gave up the pipe's lock. -/
theorem Base.slept {m : Kernel P} {p : P} {c : Chan} {l : Spin} {k : Place P} (h : Base m)
    (hp : m.thr p = .asleep c l k) : c ∈ m.slept Spin.lock := by
  have hask := h.2 p c l k (Or.inr (Or.inr hp))
  have hw : holds k = {l} := by
    have := h.1.locks.wf p
    rwa [hp] at this
  have hk : holds k = {Spin.lock} := by
    cases c with
    | nread =>
      obtain ⟨n, rfl⟩ := hask
      rfl
    | nwrite =>
      obtain ⟨w, rfl⟩ := hask
      rfl
  obtain rfl : l = .lock := Set.singleton_injective (hw.symm.trans hk)
  exact ⟨p, k, Or.inr hp⟩

/-- Three processes, the first asleep in `piperead`. -/
def dozed : Kernel (Fin 3) := three (pipealloc (fun _ => false) fun _ => 0) none none
  (.asleep .nread .lock (.rempty 1)) (.at .user) (.at .user)

theorem idle_dozed : Steps Spin.ptable calm idle dozed := by
  refine Steps.step (.set rfl ⟨.piperead 1 rfl, by simp⟩) (three_go 0) ?_
  refine Steps.step (p := 0) (.acquire rfl ⟨.racquire 1, by simp⟩ rfl)
    (by rw [three_take, three_go]) ?_
  refine Steps.step (.set rfl ⟨.rempty 1 ⟨rfl, rfl⟩, by simp⟩) (three_go 0) ?_
  refine Steps.step (.set rfl ⟨.rstay 1 rfl, by simp⟩) (three_go 0) ?_
  refine Steps.step (p := 0) (.sleep rfl ⟨.rsleep 1, by simp⟩ (by decide) rfl)
    (by rw [three_take, three_go]) ?_
  refine Steps.step (p := 0) (.drop rfl) (by rw [three_give, three_go]) ?_
  refine Steps.step (p := 0) (.fall rfl) (by rw [three_give, three_go]) ?_
  exact .refl

/-- In every run in which no killed writer leaves with bytes that it stored and nobody was told
    of, no wakeup is lost. -/
theorem no_lost_wakeup {m m' : Kernel P} (h : Boots m) (hr : Steps Spin.ptable calm m m') :
    NoLostWakeup m' := by
  obtain ⟨hr', hbase⟩ := hr.under h.base fun p m m' hb hs => hb.step hs
  have hI := h.awaited.steps wakeup_monitor hr'
  intro hfree p l k
  have hJ := hI.free hfree
  refine ⟨fun hp => ?_, fun hp => hJ.nwrite (hbase.slept hp)⟩
  have := hJ.nread (hbase.slept hp)
  exact ⟨this.1, this.2.1⟩

theorem no_lost_wakeup_dozed :
    Steps Spin.ptable calm idle dozed ∧ dozed.thr 0 = .asleep .nread .lock (.rempty 1) ∧
      NoLostWakeup dozed :=
  ⟨idle_dozed, rfl, no_lost_wakeup idle_boots idle_dozed⟩

/-! ## The path that forgets the readers -/

/-- A writer with the lock stores `k` bytes that fit. -/
theorem runs_store {a c : Thr Spin Chan (Place (Fin 3))} (k : Nat) (d : Pipe (Fin 3)) (w : Writing)
    (hk : d.count + k ≤ 512) (hn : ((w.i + k : Nat) : Int) ≤ w.n) :
    ∃ d', Runs (three d (some 1) none a (.at (.wfor w)) c)
        (three d' (some 1) none a (.at (.wfor { w with i := w.i + k })) c) ∧
      d'.count = d.count + k := by
  induction k generalizing d w with
  | zero => exact ⟨d, .refl, rfl⟩
  | succ k ih =>
    have hroom : ¬ d.Full := by
      rw [Pipe.full_iff]
      omega
    have hc := Pipe.count_store (q := (1 : Fin 3)) (b := w.src.getD w.i 0) (d := d) (by omega)
    obtain ⟨d', hr, hd⟩ := ih (d.store 1 (w.src.getD w.i 0)) { w with i := w.i + 1 }
      (by omega) (by push_cast at hn ⊢; omega)
    refine ⟨d', ?_, by omega⟩
    refine .step 1 (three d (some 1) none a (.at (.wfull w)) c)
      (.set rfl (.wfor w (by push_cast at hn; omega))) (by rw [three_go]; rfl) ?_
    refine .step 1 (three d (some 1) none a (.at (.wstore w)) c)
      (.set rfl (.wroom w hroom)) (by rw [three_go]; rfl) ?_
    refine .step 1 (three (d.store 1 (w.src.getD w.i 0)) (some 1) none a
      (.at (.wfor { w with i := w.i + 1 })) c) (.set rfl (.wstore w)) (by rw [three_go]; rfl) ?_
    have hi : w.i + 1 + k = w.i + (k + 1) := by omega
    rw [hi] at hr
    exact hr

/-- Process 2 kills process 1. -/
theorem runs_kill (d : Pipe (Fin 3)) (l : Option (Fin 3)) (a b : Thr Spin Chan (Place (Fin 3)))
    (hb : b.roused = b) :
    Runs (three d l none a b (.at .user))
      (three { d with killed := update d.killed 1 true } l none a b (.at .user)) := by
  refine .step 2 (three d l none a b (.at (.kacquire 1))) (.set rfl (.kill 1)) (three_go 2) ?_
  refine .step 2 (three d l (some 2) a b (.at (.kset 1))) (.acquire rfl (.kacquire 1) rfl)
    (by rw [three_take, three_go]; rfl) ?_
  refine .step 2 (three { d with killed := update d.killed 1 true } l (some 2) a b
    (.at (.krouse 1))) (.set rfl (.kset 1)) (by rw [three_go]; rfl) ?_
  refine .step 2 (three { d with killed := update d.killed 1 true } l (some 2) a b
    (.at .krelease)) (.rouse rfl (.krouse 1)) ?_ ?_
  · rw [three_rouse, three_go, hb]
    rfl
  refine .step 2 (three { d with killed := update d.killed 1 true } l none a b
    (.at .user)) (.release rfl .krelease) (by rw [three_give, three_go]; rfl) ?_
  exact .refl

/-- A reader sleeps. A writer of 513 bytes stores 512 of them, is killed and leaves; the reader
    sleeps on although the pipe is full. -/
theorem lost_wakeup : ∃ m, Runs idle m ∧ ¬ NoLostWakeup m := by
  obtain ⟨d, hr, hcount⟩ := runs_store
    (a := .asleep .nread .lock (.rempty 1)) (c := .at .user) 512
    (pipealloc (fun _ => false) fun _ => 0) ⟨List.replicate 513 0, 513, 0, 0⟩
    (by decide) (by decide)
  have hfull : d.Full := Pipe.full_iff.mpr hcount
  have hk : update d.killed 1 true 1 = true := update_self ..
  refine ⟨three { d with killed := update d.killed 1 true } none none
    (.asleep .nread .lock (.rempty 1)) (.at (.wreturn ⟨List.replicate 513 0, 513, 512, 0⟩ (-1)))
    (.at .user), Runs.trans (idle_dozed.mono fun _ _ _ _ hc => hc.1) ?_, ?_⟩
  · refine .step 1 (three _ none none (.asleep .nread .lock (.rempty 1))
      (.at (.wacquire ⟨List.replicate 513 0, 513, 0, 0⟩)) (.at .user))
      (.set rfl (.pipewrite _ 513 (List.length_replicate ..) rfl)) (three_go 1) ?_
    refine .step 1 (three _ (some 1) none (.asleep .nread .lock (.rempty 1))
      (.at (.wfor ⟨List.replicate 513 0, 513, 0, 0⟩)) (.at .user))
      (.acquire rfl (.wacquire _) rfl) (by rw [three_take, three_go]; rfl) ?_
    refine hr.trans ?_
    refine .step 1 (three d (some 1) none (.asleep .nread .lock (.rempty 1))
      (.at (.wfull ⟨List.replicate 513 0, 513, 512, 0⟩)) (.at .user))
      (.set rfl (.wfor _ (by decide))) (three_go 1) ?_
    refine .step 1 (three d (some 1) none (.asleep .nread .lock (.rempty 1))
      (.at (.wcheck ⟨List.replicate 513 0, 513, 512, 0⟩)) (.at .user))
      (.set rfl (.wfull _ hfull)) (three_go 1) ?_
    refine (runs_kill d (some 1) _ _ rfl).trans ?_
    refine .step 1 (three _ (some 1) none (.asleep .nread .lock (.rempty 1))
      (.at (.wrelease ⟨List.replicate 513 0, 513, 512, 0⟩ (-1))) (.at .user))
      (.set rfl (.wleave _ (Or.inr hk))) (three_go 1) ?_
    exact .step 1 _ (.release rfl (.wrelease _ (-1))) (by rw [three_give, three_go]; rfl) .refl
  · intro h
    have hempty := ((h rfl 0 _ _).1 rfl).1
    have hempty' : d.Empty := hempty
    rw [Pipe.empty_iff] at hempty'
    have : d.count = 512 := hcount
    omega

end Zv6.Ipc
