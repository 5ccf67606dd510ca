/-
  Pipes are first in, first out.

  `Buf` is what holds of the buffer after every line: at most PIPESIZE bytes are buffered, and
  what was copied out followed by what is buffered is what was stored. It needs the lock only
  where a line relies on a test made before: a byte is stored after the test that the buffer is
  not full (`Knows`). `Local` ties each process's own bytes to the record.
-/
import Zv6.Pipe.Code

namespace Zv6.Ipc

open Lib Function

variable {P : Type}

/-! ## The buffer -/

namespace Pipe

variable {d : Pipe P} {q : P} {b : UInt8}

theorem count_eq (d : Pipe P) :
    d.count = (4294967296 - d.nread.toNat + d.nwrite.toNat) % 4294967296 :=
  UInt32.toNat_sub ..

theorem empty_iff : d.Empty ↔ d.count = 0 := by
  unfold Empty count
  rw [toNat_sub_eq_zero, eq_comm]

theorem full_iff : d.Full ↔ d.count = 512 := by
  have h1 := d.nread.toNat_lt
  have h2 := d.nwrite.toNat_lt
  rw [count_eq]
  unfold Full
  rw [← UInt32.toNat_inj, UInt32.toNat_add, show (512 : UInt32).toNat = 512 from rfl]
  omega

theorem count_store (h : d.count < 512) : (d.store q b).count = d.count + 1 := by
  have h1 := d.nread.toNat_lt
  have h2 := d.nwrite.toNat_lt
  rw [count_eq] at h ⊢
  rw [count_eq]
  show (4294967296 - d.nread.toNat + (d.nwrite + 1).toNat) % 4294967296 = _
  rw [UInt32.toNat_add, show (1 : UInt32).toNat = 1 from rfl]
  omega

theorem count_fetch (h : ¬ d.Empty) : (d.fetch q).count + 1 = d.count := by
  have h1 := d.nread.toNat_lt
  have h2 := d.nwrite.toNat_lt
  rw [empty_iff, count_eq] at h
  rw [count_eq, count_eq]
  show (4294967296 - (d.nread + 1).toNat + d.nwrite.toNat) % 4294967296 + 1 = _
  rw [UInt32.toNat_add, show (1 : UInt32).toNat = 1 from rfl]
  omega

/-- The byte `j` places behind the oldest. -/
theorem nwrite_eq (d : Pipe P) : d.nwrite = d.nread + UInt32.ofNat d.count := by
  have h1 := d.nread.toNat_lt
  have h2 := d.nwrite.toNat_lt
  rw [← UInt32.toNat_inj, UInt32.toNat_add, UInt32.toNat_ofNat', count_eq]
  omega

theorem queue_store (h : d.count < 512) : (d.store q b).queue = d.queue ++ [b] := by
  unfold queue
  rw [count_store h]
  show window _ (update d.data (slot pipesize_pos d.nwrite) b) d.nread (d.count + 1) = _
  rw [nwrite_eq, window_store (by decide) h]

theorem queue_fetch (h : ¬ d.Empty) : d.queue = d.next :: (d.fetch q).queue := by
  unfold queue
  rw [← count_fetch (q := q) h, window_cons]
  rfl

end Pipe

/-! ## What holds at each place -/

/-- The bytes of process `q` in a record. -/
def bytesOf [DecidableEq P] (q : P) (l : List (P × UInt8)) : List UInt8 :=
  (l.filter fun x => x.1 = q).map Prod.snd

theorem bytesOf_append [DecidableEq P] (q r : P) (l : List (P × UInt8)) (b : UInt8) :
    bytesOf q (l ++ [(r, b)]) = if r = q then bytesOf q l ++ [b] else bytesOf q l := by
  unfold bytesOf
  rw [List.filter_append, List.map_append]
  by_cases h : r = q <;> simp [h]

/-- What the call of a place has stored so far. -/
def Place.written (t : Place P) : List UInt8 :=
  match t.writing with
  | some w => w.src.take w.i
  | none => []

/-- What the call of a place has copied so far. -/
def Place.copied (t : Place P) : List UInt8 := t.reading.getD []

structure Buf (d : Pipe P) : Prop where
  count : d.count ≤ 512
  fifo : d.taken.map Prod.snd ++ d.queue = d.stored.map Prod.snd
  ropen : d.readopen = false → d.rfile = false
  wopen : d.writeopen = false → d.wfile = false

/-- `i` is an index of the `n` bytes to write. -/
def Writing.Below (w : Writing) : Prop := w.src.length = w.n.toNat ∧ w.i < w.src.length

/-- Nothing is buffered and nothing will be. -/
def Pipe.Drained (d : Pipe P) : Prop := d.Empty ∧ d.writeopen = false

/-- What holds at a place, whoever has the lock. -/
def Here (d : Pipe P) : Place P → Prop
  | .wacquire w => w.src.length = w.n.toNat ∧ w.i ≤ w.src.length
  | .wfor w => w.src.length = w.n.toNat ∧ w.i ≤ w.src.length
  | .wfull w => w.Below
  | .wcheck w => w.Below
  | .wwake w => w.Below
  | .wsleep w => w.Below
  | .wstore w => w.Below
  | .wend w => w.i = w.src.length
  | .wrelease w r => r = w.n → w.i = w.src.length
  | .wreturn w r => r = w.n → w.i = w.src.length
  | .rwake n dst => 0 < n → dst = [] → d.Drained
  | .rrelease n _ r => 0 < n → r = 0 → d.Drained
  | .rreturn n _ r => 0 < n → r = 0 → d.Drained
  | .cacquire w => (if w then d.wfile else d.rfile) = false
  | .cset w => (if w then d.wfile else d.rfile) = false
  | _ => True

/-- What holds at a place that has the lock. -/
def Knows (_ : P) (t : Place P) (d : Pipe P) (_ : Set Chan) : Prop :=
  match t with
  | .wstore _ => ¬ d.Full
  | .rcopy _ dst => dst = [] → ¬ (d.Empty ∧ d.writeopen = true)
  | _ => True

variable {d d' : Pipe P} {p q : P} {t k : Place P} {b : UInt8}

/-- The history of finished calls and the flags of processes do not matter. -/
theorem Buf.same {sent got : P → List UInt8} {killed : P → Bool} {freed : Bool} (h : Buf d) :
    Buf { d with sent, got, killed, freed } := ⟨h.count, h.fifo, h.ropen, h.wopen⟩

theorem Buf.store (h : Buf d) (hf : ¬ d.Full) : Buf (d.store p b) := by
  have hc : d.count < 512 := by
    have := h.count
    rw [Pipe.full_iff] at hf
    omega
  refine ⟨?_, ?_, h.ropen, h.wopen⟩
  · rw [Pipe.count_store hc]
    omega
  · rw [Pipe.queue_store hc]
    show d.taken.map Prod.snd ++ (d.queue ++ [b]) = (d.stored ++ [(p, b)]).map Prod.snd
    rw [← List.append_assoc, h.fifo, List.map_append]
    rfl

theorem Buf.fetch (h : Buf d) (he : ¬ d.Empty) : Buf (d.fetch p) := by
  refine ⟨?_, ?_, h.ropen, h.wopen⟩
  · have := h.count
    have := Pipe.count_fetch (q := p) he
    omega
  · show (d.taken ++ [(p, d.next)]).map Prod.snd ++ (d.fetch p).queue = d.stored.map Prod.snd
    rw [← h.fifo, Pipe.queue_fetch (q := p) he, List.map_append, List.append_assoc]
    rfl

theorem Boots.buf {m : Kernel P} (h : Boots m) : Buf m.data := by
  obtain ⟨killed, data, hd⟩ := h.data
  rw [hd]
  refine ⟨by simp [Pipe.count, pipealloc], by simp [Pipe.queue, Pipe.count, pipealloc],
    fun ho => ?_, fun ho => ?_⟩
  · cases ho
  · cases ho

variable [DecidableEq P]

structure Local (p : P) (t : Place P) (d : Pipe P) : Prop where
  buf : Buf d
  sent : bytesOf p d.stored = d.sent p ++ t.written
  got : bytesOf p d.taken = d.got p ++ t.copied
  wfile : t.writing ≠ none → d.wfile = true
  rfile : t.reading ≠ none → d.rfile = true
  here : Here d t

/-- The process moves on. -/
theorem Local.go (h : Local p t d) (hw : k.written = t.written) (hr : k.copied = t.copied)
    (h1 : k.writing ≠ none → t.writing ≠ none ∨ d.wfile = true)
    (h2 : k.reading ≠ none → t.reading ≠ none ∨ d.rfile = true) (hk : Here d k) : Local p k d :=
  ⟨h.buf, by rw [hw]; exact h.sent, by rw [hr]; exact h.got, fun hn => (h1 hn).elim h.wfile id,
    fun hn => (h2 hn).elim h.rfile id, hk⟩

/-- Another process stores a byte. -/
theorem Local.store (h : Local q t d) (hq : q ≠ p) (hb : Buf (d.store p b)) (hw : d.wfile = true) :
    Local q t (d.store p b) := by
  refine ⟨hb, ?_, h.got, h.wfile, h.rfile, ?_⟩
  · show bytesOf q (d.stored ++ [(p, b)]) = _
    rw [bytesOf_append, if_neg (Ne.symm hq)]
    exact h.sent
  · -- nothing is drained while a writer is in its call
    have hno : ¬ d.Drained := by
      intro hd
      have := h.buf.wopen hd.2
      rw [hw] at this
      cases this
    have hh := h.here
    cases t with
    | rwake | rrelease | rreturn => exact fun h1 h2 => absurd (hh h1 h2) hno
    | _ => exact hh

/-- Another process copies a byte. -/
theorem Local.fetch (h : Local q t d) (hq : q ≠ p) (hb : Buf (d.fetch p)) (he : ¬ d.Empty) :
    Local q t (d.fetch p) := by
  refine ⟨hb, h.sent, ?_, h.wfile, h.rfile, ?_⟩
  · show bytesOf q (d.taken ++ [(p, d.next)]) = _
    rw [bytesOf_append, if_neg (Ne.symm hq)]
    exact h.got
  · have hno : ¬ d.Drained := fun hd => he hd.1
    have hh := h.here
    cases t with
    | rwake | rrelease | rreturn => exact fun h1 h2 => absurd (hh h1 h2) hno
    | _ => exact hh

theorem Place.written_succ {w : Writing} (h : w.Below) :
    w.src.take (w.i + 1) = w.src.take w.i ++ [w.src.getD w.i 0] := by
  rw [List.take_add_one, List.getD_eq_getElem?_getD, List.getElem?_eq_getElem h.2]
  rfl

/-- The process moves on inside `pipewrite`. -/
theorem Local.goW (h : Local p t d) (h1 : t.writing ≠ none) (h2 : k.reading = none)
    (hw : k.written = t.written) (hr : k.copied = t.copied) (hk : Here d k) : Local p k d :=
  h.go hw hr (fun _ => Or.inl h1) (fun hn => absurd h2 hn) hk

/-- The process moves on inside `piperead`. -/
theorem Local.goR (h : Local p t d) (h1 : t.reading ≠ none) (h2 : k.writing = none)
    (hw : k.written = t.written) (hr : k.copied = t.copied) (hk : Here d k) : Local p k d :=
  h.go hw hr (fun hn => absurd h2 hn) (fun _ => Or.inl h1) hk

/-- The process moves on outside of both. -/
theorem Local.goC (h : Local p t d) (h1 : k.writing = none) (h2 : k.reading = none)
    (hw : k.written = t.written) (hr : k.copied = t.copied) (hk : Here d k) : Local p k d :=
  h.go hw hr (fun hn => absurd h1 hn) (fun hn => absurd h2 hn) hk

theorem fifo_monitor : Monitor Spin.ptable Spin.lock holds (fun _ _ => True) Knows Local
    (code (P := P)) := by
  refine ⟨code_fits, fun _ _ => trivial, fun _ h => h, ?_⟩
  intro m p t i _ hS ht hc hA
  have hp : Local p t m.data := by
    have := hS p
    rwa [ht] at this
  have hne : Spin.lock ≠ Spin.ptable := by decide
  have hh := hp.here
  cases hc with
  | pipewrite src n hsrc hf =>
    refine Instr.Ok.test hS (hp.go rfl rfl (fun _ => Or.inr hf) nofun ?_) ?_
    · exact ⟨hsrc, Nat.zero_le _⟩
    · exact fun h => h.elim
  | wacquire w =>
    exact ⟨hp.goW nofun rfl rfl rfl hh, fun _ _ => trivial, fun h => absurd rfl h⟩
  | wfor w h =>
    refine Instr.Ok.test hS (hp.goW nofun rfl rfl rfl ⟨hh.1, ?_⟩) fun _ => trivial
    have := hh.1
    omega
  | wdone w h =>
    refine Instr.Ok.test hS (hp.goW nofun rfl rfl rfl ?_) fun _ => trivial
    have h1 := hh.1
    have h2 := hh.2
    show w.i = w.src.length
    omega
  | wfull | wstay =>
    exact Instr.Ok.test hS (hp.goW nofun rfl rfl rfl hh) fun _ => trivial
  | wroom w h =>
    exact Instr.Ok.test hS (hp.goW nofun rfl rfl rfl hh) fun _ => h
  | wleave w h =>
    refine Instr.Ok.test hS (hp.goW nofun rfl rfl rfl fun hr => ?_)
      fun _ => trivial
    have h1 := hh.1
    have h2 := hh.2
    omega
  | wwake w => exact ⟨hp.goW nofun rfl rfl rfl hh, fun _ => trivial⟩
  | wsleep w =>
    exact ⟨hp.goW nofun rfl rfl rfl hh, fun _ => ⟨trivial, fun _ _ _ _ => trivial⟩⟩
  | wstore w =>
    have hroom : ¬ m.data.Full := hA rfl
    have hb := hp.buf.store (p := p) (b := w.src.getD w.i 0) hroom
    have hw := hp.wfile nofun
    refine ⟨⟨hb, ?_, hp.got, fun _ => hw, hp.rfile, ?_⟩, fun q hq => (hS q).store hq hb hw,
      fun _ => trivial, fun hno => absurd rfl hno⟩
    · show bytesOf p (m.data.stored ++ [(p, _)]) = m.data.sent p ++ w.src.take (w.i + 1)
      rw [bytesOf_append, if_pos rfl, hp.sent, Place.written_succ hh, ← List.append_assoc]
      rfl
    · exact ⟨hh.1, hh.2⟩
  | wend w =>
    exact ⟨hp.goW nofun rfl rfl rfl fun _ => hh, fun _ => trivial⟩
  | wrelease w r =>
    exact ⟨hp.goW nofun rfl rfl rfl hh, fun _ => trivial, fun h => absurd rfl h⟩
  | wreturn w r =>
    refine ⟨⟨hp.buf.same, ?_, hp.got, nofun, hp.rfile, trivial⟩, fun q hq => ?_,
      fun h => h.elim, fun _ => ⟨fun _ _ h => h, fun _ _ _ _ _ h => h⟩⟩
    · show bytesOf p m.data.stored = update m.data.sent p _ p ++ []
      rw [update_self, hp.sent, List.append_nil]
      rfl
    · have h1 := hS q
      refine ⟨h1.buf.same, ?_, h1.got, h1.wfile, h1.rfile, h1.here⟩
      show bytesOf q m.data.stored = update m.data.sent p _ q ++ _
      rw [update_of_ne hq]
      exact h1.sent
  | piperead n hf =>
    exact Instr.Ok.test hS (hp.go rfl rfl nofun (fun _ => Or.inr hf) trivial) fun h => h.elim
  | racquire n =>
    exact ⟨hp.goR nofun rfl rfl rfl trivial, fun _ _ => trivial,
      fun h => absurd rfl h⟩
  | rempty | rstay =>
    exact Instr.Ok.test hS (hp.goR nofun rfl rfl rfl trivial) fun _ => trivial
  | rready n h =>
    exact Instr.Ok.test hS (hp.goR nofun rfl rfl rfl trivial) fun _ _ => h
  | rleave n h =>
    refine Instr.Ok.test hS (hp.goR nofun rfl rfl rfl ?_) fun _ => trivial
    intro _ hr
    omega
  | rsleep n =>
    exact ⟨hp.goR nofun rfl rfl rfl trivial,
      fun _ => ⟨trivial, fun _ _ _ _ => trivial⟩⟩
  | rcopy n dst h hne =>
    have hb := hp.buf.fetch (p := p) hne
    refine ⟨⟨hb, hp.sent, ?_, hp.wfile, fun _ => hp.rfile nofun, trivial⟩,
      fun q hq => (hS q).fetch hq hb hne, fun _ => ?_, fun hno => absurd rfl hno⟩
    · show bytesOf p (m.data.taken ++ [(p, _)]) = m.data.got p ++ (dst ++ [m.data.next])
      rw [bytesOf_append, if_pos rfl, hp.got, ← List.append_assoc]
      rfl
    · exact fun h0 => absurd h0 (by simp)
  | rdone n dst h =>
    refine Instr.Ok.test hS (hp.goR nofun rfl rfl rfl ?_) fun _ => trivial
    intro hn h0
    have he : m.data.Empty := by
      refine h.resolve_left fun hlen => hlen ?_
      rw [h0]
      exact hn
    have hopen : m.data.writeopen ≠ true := fun ho => hA rfl h0 ⟨he, ho⟩
    exact ⟨he, by simpa using hopen⟩
  | rwake n dst =>
    refine ⟨hp.goR nofun rfl rfl rfl ?_, fun _ => trivial⟩
    intro hn h0
    exact hh hn (by simpa using h0)
  | rrelease n dst r =>
    exact ⟨hp.goR nofun rfl rfl rfl hh, fun _ => trivial, fun h => absurd rfl h⟩
  | rreturn n dst r =>
    refine ⟨⟨hp.buf.same, hp.sent, ?_, hp.wfile, nofun, trivial⟩, fun q hq => ?_,
      fun h => h.elim, fun _ => ⟨fun _ _ h => h, fun _ _ _ _ _ h => h⟩⟩
    · show bytesOf p m.data.taken = update m.data.got p _ p ++ []
      rw [update_self, hp.got, List.append_nil]
      rfl
    · have h1 := hS q
      refine ⟨h1.buf.same, h1.sent, ?_, h1.wfile, h1.rfile, h1.here⟩
      show bytesOf q m.data.taken = update m.data.got p _ q ++ _
      rw [update_of_ne hq]
      exact h1.got
  | pipecloseWrite hf hno =>
    have hb : Buf { m.data with wfile := false } :=
      ⟨hp.buf.count, hp.buf.fifo, hp.buf.ropen, fun _ => rfl⟩
    refine ⟨⟨hb, hp.sent, hp.got, nofun, hp.rfile, rfl⟩, fun q hq => ?_, fun h => h.elim,
      fun _ => ⟨fun _ _ h => h, fun _ _ _ _ _ h => h⟩⟩
    have h1 := hS q
    refine ⟨hb, h1.sent, h1.got, fun hn => absurd (hno q hq) hn, h1.rfile, ?_⟩
    have h2 := h1.here
    cases hk : (m.thr q).place with
    | cacquire w | cset w => cases w <;> simp_all [Here]
    | _ =>
      rw [hk] at h2
      exact h2
  | pipecloseRead hf hno =>
    have hb : Buf { m.data with rfile := false } :=
      ⟨hp.buf.count, hp.buf.fifo, fun _ => rfl, hp.buf.wopen⟩
    refine ⟨⟨hb, hp.sent, hp.got, hp.wfile, nofun, rfl⟩, fun q hq => ?_, fun h => h.elim,
      fun _ => ⟨fun _ _ h => h, fun _ _ _ _ _ h => h⟩⟩
    have h1 := hS q
    refine ⟨hb, h1.sent, h1.got, h1.wfile, fun hn => absurd (hno q hq) hn, ?_⟩
    have h2 := h1.here
    cases hk : (m.thr q).place with
    | cacquire w | cset w => cases w <;> simp_all [Here]
    | _ =>
      rw [hk] at h2
      exact h2
  | cacquire w =>
    exact ⟨hp.goC rfl rfl rfl rfl hh, fun _ _ => trivial, fun h => absurd rfl h⟩
  | csetWrite =>
    have hb : Buf { m.data with writeopen := false } :=
      ⟨hp.buf.count, hp.buf.fifo, hp.buf.ropen, fun _ => hh⟩
    refine ⟨⟨hb, hp.sent, hp.got, nofun, nofun, trivial⟩, fun q hq => ?_, fun _ => trivial,
      fun hno => absurd rfl hno⟩
    have h1 := hS q
    refine ⟨hb, h1.sent, h1.got, h1.wfile, h1.rfile, ?_⟩
    have h2 := h1.here
    cases hk : (m.thr q).place with
    | rwake | rrelease | rreturn =>
      rw [hk] at h2
      exact fun hn h0 => ⟨(h2 hn h0).1, rfl⟩
    | _ =>
      rw [hk] at h2
      exact h2
  | csetRead =>
    have hb : Buf { m.data with readopen := false } :=
      ⟨hp.buf.count, hp.buf.fifo, fun _ => hh, hp.buf.wopen⟩
    refine ⟨⟨hb, hp.sent, hp.got, nofun, nofun, trivial⟩, fun q hq => ?_, fun _ => trivial,
      fun hno => absurd rfl hno⟩
    have h1 := hS q
    refine ⟨hb, h1.sent, h1.got, h1.wfile, h1.rfile, ?_⟩
    have h2 := h1.here
    cases hk : (m.thr q).place <;> rw [hk] at h2 <;> exact h2
  | cwakeWrite | cwakeRead => exact ⟨hp.goC rfl rfl rfl rfl trivial, fun _ => trivial⟩
  | ctest => exact Instr.Ok.test hS (hp.goC rfl rfl rfl rfl trivial) fun _ => trivial
  | crelease last =>
    refine ⟨?_, fun _ => trivial, fun h => absurd rfl h⟩
    cases last <;> exact hp.goC rfl rfl rfl rfl trivial
  | cfree =>
    refine ⟨⟨hp.buf.same, hp.sent, hp.got, nofun, nofun,
      trivial⟩, fun q hq => ?_, fun h => h.elim, fun _ => ⟨fun _ _ h => h, fun _ _ _ _ _ h => h⟩⟩
    have h1 := hS q
    exact ⟨h1.buf.same, h1.sent, h1.got, h1.wfile, h1.rfile, h1.here⟩
  | kill q =>
    exact Instr.Ok.test hS (hp.goC rfl rfl rfl rfl trivial) fun h => h.elim
  | kacquire => exact ⟨hp.goC rfl rfl rfl rfl trivial, by simp, fun _ h => h.elim⟩
  | krelease => exact ⟨hp.goC rfl rfl rfl rfl trivial, by simp, fun _ h => absurd h hne⟩
  | kset q =>
    refine ⟨⟨hp.buf.same, hp.sent, hp.got, nofun, nofun,
      trivial⟩, fun r hr => ?_, fun h => absurd h hne, fun _ => ⟨fun _ _ h => h, fun _ _ _ _ _ h => h⟩⟩
    have h1 := hS r
    exact ⟨h1.buf.same, h1.sent, h1.got, h1.wfile, h1.rfile, h1.here⟩
  | krouse q => exact ⟨hp.goC rfl rfl rfl rfl trivial, fun h => absurd h hne⟩

/-! ## Runs -/

/-- What is promised of a pipe. -/
structure Fifo (m : Kernel P) : Prop where
  count : m.data.count ≤ 512
  fifo : m.data.taken.map Prod.snd ++ m.data.queue = m.data.stored.map Prod.snd
  sent : ∀ p, bytesOf p m.data.stored = m.data.sent p ++ (m.thr p).place.written
  got : ∀ p, bytesOf p m.data.taken = m.data.got p ++ (m.thr p).place.copied
  pipewrite : ∀ p w r, m.thr p = .at (.wreturn w r) → r = w.n →
    bytesOf p m.data.stored = m.data.sent p ++ w.src
  piperead : ∀ p n dst r, m.thr p = .at (.rreturn n dst r) → 0 < n → r = 0 →
    m.data.Empty ∧ m.data.writeopen = false

theorem Boots.local {m : Kernel P} (h : Boots m) (p : P) : Local p (m.thr p).place m.data := by
  have hb := h.buf
  obtain ⟨killed, data, hd⟩ := h.data
  rw [h.thr p]
  refine ⟨hb, ?_, ?_, fun hn => absurd rfl hn, fun hn => absurd rfl hn, trivial⟩ <;> rw [hd] <;> rfl

theorem Boots.fifo {m : Kernel P} (h : Boots m) :
    MonInv Spin.ptable Spin.lock holds (fun _ _ => True) Knows Local m := by
  refine ⟨h.locks, h.local, fun p k hg => ?_, fun _ => trivial, fun p hp => ?_⟩
  · rw [h.thr p] at hg
    exact hg.elim
  · rw [h.thr p] at hp
    exact hp.elim

/-- In every run of any number of processes on a pipe, whatever the lengths and the total, bytes
    come out in the order in which they went in, none lost and none twice. -/
theorem pipe_fifo {m m' : Kernel P} (h : Boots m) (hr : Runs m m') : Fifo m' := by
  have hI := h.fifo.steps fifo_monitor hr
  have hb : Buf m'.data := by
    obtain rfl | ⟨m1, -, p, -⟩ := hr.cases_tail
    · exact h.buf
    · exact (hI.loc p).buf
  refine ⟨hb.count, hb.fifo, fun p => (hI.loc p).sent, fun p => (hI.loc p).got,
    fun p w r ht hrn => ?_, fun p n dst r ht hn h0 => ?_⟩
  · have hp := hI.loc p
    rw [ht] at hp
    have hi : w.i = w.src.length := hp.here hrn
    rw [hp.sent]
    show _ ++ w.src.take w.i = _
    rw [hi, List.take_length]
  · have hp := hI.loc p
    rw [ht] at hp
    exact hp.here hn h0

/-- Process 1 writes the bytes 7 and 8 and returns; process 0 reads both, in that order. -/
theorem pipe_fifo_twoBytes : ∃ m, (Boots idle ∧ Runs idle m) ∧ m.data.stored = [(1, 7), (1, 8)] ∧
    m.data.taken = [(0, 7), (0, 8)] ∧ m.data.sent 1 = [7, 8] ∧ m.data.got 0 = [7, 8] ∧ Fifo m := by
  have hrun : ∃ m, Runs idle m ∧ m.data.stored = [(1, 7), (1, 8)] ∧
      m.data.taken = [(0, 7), (0, 8)] ∧ m.data.sent 1 = [7, 8] ∧ m.data.got 0 = [7, 8] := by
    refine Steps.reach 1 (.set rfl (.pipewrite [7, 8] 2 rfl rfl)) ?_
    refine Steps.reach 1 (.acquire rfl (.wacquire _) rfl) ?_
    refine Steps.reach 1 (.set rfl (.wfor _ (by decide))) ?_
    refine Steps.reach 1 (.set rfl (.wroom _ (by decide))) ?_
    refine Steps.reach 1 (.set rfl (.wstore _)) ?_
    refine Steps.reach 1 (.set rfl (.wfor _ (by decide))) ?_
    refine Steps.reach 1 (.set rfl (.wroom _ (by decide))) ?_
    refine Steps.reach 1 (.set rfl (.wstore _)) ?_
    refine Steps.reach 1 (.set rfl (.wdone _ (by decide))) ?_
    refine Steps.reach 1 (.wakeup rfl (.wend _) rfl) ?_
    refine Steps.reach 1 (.wake rfl) ?_
    refine Steps.reach 1 (.woken rfl) ?_
    refine Steps.reach 1 (.release rfl (.wrelease _ _)) ?_
    refine Steps.reach 1 (.set rfl (.wreturn _ _)) ?_
    refine Steps.reach 0 (.set rfl (.piperead 2 rfl)) ?_
    refine Steps.reach 0 (.acquire rfl (.racquire _) rfl) ?_
    refine Steps.reach 0 (.set rfl (.rready _ (by decide))) ?_
    refine Steps.reach 0 (.set rfl (.rcopy _ _ (by decide) (by decide))) ?_
    refine Steps.reach 0 (.set rfl (.rcopy _ _ (by decide) (by decide))) ?_
    refine Steps.reach 0 (.set rfl (.rdone _ _ (by decide))) ?_
    refine Steps.reach 0 (.wakeup rfl (.rwake _ _) rfl) ?_
    refine Steps.reach 0 (.wake rfl) ?_
    refine Steps.reach 0 (.woken rfl) ?_
    refine Steps.reach 0 (.release rfl (.rrelease _ _ _)) ?_
    refine Steps.reach 0 (.set rfl (.rreturn _ _ _)) ?_
    exact ⟨_, .refl, rfl, rfl, rfl, rfl⟩
  obtain ⟨m, hr, h1, h2, h3, h4⟩ := hrun
  exact ⟨m, ⟨idle_boots, hr⟩, h1, h2, h3, h4, pipe_fifo idle_boots hr⟩

end Zv6.Ipc
