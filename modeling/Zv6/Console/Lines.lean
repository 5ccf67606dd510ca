/-
  The line discipline of the console.

  `Editor` is what the console is for: the bytes read so far, the bytes committed but not read, and
  the line being typed. `Shows` ties it to the buffer: from `r` on lie the committed bytes, from
  `w` on the line, and together they are at most INPUT_BUF. The step lemmas are `Shows.switch`, for
  a character, and `Shows.fetch`, for a byte read.
-/
import Zv6.Console.Code

namespace Zv6.Cons

open Lib

variable {P : Type}

/-! ## The reference editor -/

structure Editor where
  read : List UInt8
  queue : List UInt8
  line : List UInt8

namespace Editor

def new : Editor := ⟨[], [], []⟩

/-- All that was ever committed. -/
def committed (ed : Editor) : List UInt8 := ed.read ++ ed.queue

/-- Characters kept. -/
def held (ed : Editor) : Nat := ed.queue.length + ed.line.length

/-- The line is committed. -/
def commit (ed : Editor) : Editor := { ed with queue := ed.queue ++ ed.line, line := [] }

/-- `c` is added to the line. -/
def insert (ed : Editor) (c : UInt8) : Editor := { ed with line := ed.line ++ [c] }

/-- A character that is not an editing key. -/
def type (ed : Editor) (c : UInt8) : Editor :=
  if c = newline ∨ c = ctrl 'D' ∨ (ed.insert c).held = 128 then (ed.insert c).commit
  else ed.insert c

def key (ed : Editor) (c : UInt8) : Editor :=
  if c = 0 ∨ c = ctrl 'P' then ed
  else if c = ctrl 'U' then { ed with line := [] }
  else if c = ctrl 'H' ∨ c = 0x7f then { ed with line := ed.line.dropLast }
  else if ed.held = 128 then ed
  else ed.type (if c = 13 then newline else c)

/-- The oldest committed byte is read. -/
def take (ed : Editor) : Editor :=
  { ed with read := ed.read ++ ed.queue.take 1, queue := ed.queue.drop 1 }

def step (ed : Editor) : Event → Editor
  | .key c => ed.key c
  | .take => ed.take

end Editor

/-- The editor after these events. -/
def edit (es : List Event) : Editor := es.foldl Editor.step .new

@[simp] theorem edit_snoc (es : List Event) (e : Event) : edit (es ++ [e]) = (edit es).step e := by
  simp [edit]

theorem Editor.key_read (ed : Editor) (c : UInt8) : (ed.key c).read = ed.read := by
  unfold Editor.key Editor.type
  split_ifs <;> rfl

theorem Editor.committed_key (ed : Editor) (c : UInt8) : ed.committed <+: (ed.key c).committed := by
  unfold Editor.key Editor.type
  split_ifs <;> simp [Editor.committed, Editor.commit, Editor.insert]

theorem Editor.take_read {ed : Editor} {b : UInt8} {l : List UInt8} (h : ed.queue = b :: l) :
    ed.take.read = ed.read ++ [b] := by simp [Editor.take, h]

theorem Editor.committed_take (ed : Editor) : ed.take.committed = ed.committed := by
  unfold Editor.take Editor.committed
  rw [List.append_assoc, List.take_append_drop]

/-! ## The buffer shows the editor -/

structure Shows (d : Input P) (ed : Editor) : Prop where
  w : d.w = d.r + UInt32.ofNat ed.queue.length
  e : d.e = d.w + UInt32.ofNat ed.line.length
  held : ed.held ≤ 128
  queue : window inputBuf_pos d.buf d.r ed.queue.length = ed.queue
  line : window inputBuf_pos d.buf d.w ed.line.length = ed.line
  plain : newline ∉ ed.line

/-- What was recorded, and who was killed, does not matter. -/
theorem Shows.history {d : Input P} {ed : Editor} {killed : P → Bool} {events : List Event}
    {taken : List (Take P)} {calls : P → List Call} (h : Shows d ed) :
    Shows { d with killed, events, taken, calls } ed :=
  ⟨h.w, h.e, h.held, h.queue, h.line, h.plain⟩

theorem inputBuf_dvd : 128 ∣ 4294967296 := by decide

theorem toNat_add_sub {b : UInt32} {k : Nat} (hk : k < 4294967296) :
    (b + UInt32.ofNat k - b).toNat = k := by
  rw [UInt32.add_comm, UInt32.add_sub_cancel, UInt32.toNat_ofNat', Nat.mod_eq_of_lt hk]

namespace Shows

variable {d : Input P} {ed : Editor} {p : P} {c : UInt8}

theorem e_r (h : Shows d ed) : d.e = d.r + UInt32.ofNat ed.held := by
  rw [h.e, h.w, Editor.held, UInt32.ofNat_add, UInt32.add_assoc]

theorem used (h : Shows d ed) : d.used = ed.held := by
  have := h.held
  unfold Input.used
  rw [h.e_r, toNat_add_sub (by omega)]

theorem ready (h : Shows d ed) : d.ready = ed.queue.length := by
  have hh := h.held
  unfold Editor.held at hh
  unfold Input.ready
  rw [h.w, toNat_add_sub (by omega)]

theorem edited (h : Shows d ed) : (d.e - d.w).toNat = ed.line.length := by
  have hh := h.held
  unfold Editor.held at hh
  rw [h.e, toNat_add_sub (by omega)]

theorem empty_iff (h : Shows d ed) : d.Empty ↔ ed.queue = [] := by
  rw [← List.length_eq_zero_iff, ← h.ready]
  unfold Input.ready Input.Empty
  rw [toNat_sub_eq_zero, eq_comm]

theorem e_eq_w (h : Shows d ed) : d.e = d.w ↔ ed.line = [] := by
  rw [← List.length_eq_zero_iff, ← h.edited, toNat_sub_eq_zero]

/-- The last character of the line is erased. -/
theorem erase (h : Shows d ed) (hne : d.e ≠ d.w) :
    Shows { d with e := d.e - 1 } { ed with line := ed.line.dropLast } := by
  rw [ne_eq, h.e_eq_w] at hne
  have hpos := List.length_pos_iff.mpr hne
  have hlen : ed.line.length = ed.line.dropLast.length + 1 := by
    rw [List.length_dropLast]
    omega
  have hline : window inputBuf_pos d.buf d.w ed.line.dropLast.length = ed.line.dropLast := by
    have h1 := h.line
    rw [hlen, window_succ] at h1
    conv_rhs => rw [← h1, List.dropLast_concat]
  refine ⟨h.w, ?_, ?_, h.queue, hline, fun hm => h.plain (List.mem_of_mem_dropLast hm)⟩
  · show d.e - 1 = d.w + _
    rw [h.e, hlen, UInt32.ofNat_add, ← UInt32.add_assoc]
    exact UInt32.add_sub_cancel _ _
  · have := h.held
    unfold Editor.held at this ⊢
    show ed.queue.length + ed.line.dropLast.length ≤ 128
    omega

/-- The loop of `^U` goes back to `w`, as no newline lies behind it. -/
theorem killLine (h : Shows d ed) : d.killLine ed.line.length d.e = d.w := by
  suffices hk : ∀ k e, (∀ j, j < k → d.buf (idx (d.w + UInt32.ofNat j)) ≠ newline) → k ≤ 128 →
      e = d.w + UInt32.ofNat k → d.killLine k e = d.w by
    have hh := h.held
    unfold Editor.held at hh
    refine hk _ _ (fun j hj heq => h.plain ?_) (by omega) h.e
    rw [← h.line, ← heq]
    exact List.mem_map.mpr ⟨j, List.mem_range.mpr hj, rfl⟩
  intro k
  induction k with
  | zero =>
    intro e _ _ he
    rw [he]
    exact UInt32.add_zero _
  | succ k ih =>
    intro e hb hk (he : e = d.w + UInt32.ofNat (k + 1))
    have hpred : e - 1 = d.w + UInt32.ofNat k := by
      rw [he, UInt32.ofNat_add, ← UInt32.add_assoc]
      exact UInt32.add_sub_cancel _ _
    have hne : e ≠ d.w := by
      rw [ne_eq, ← toNat_sub_eq_zero, he, toNat_add_sub (by omega)]
      omega
    unfold Input.killLine
    rw [if_pos ⟨hne, hpred ▸ hb k (Nat.lt_succ_self k)⟩]
    exact ih _ (fun j hj => hb j (by omega)) (by omega) hpred

/-- The line is dropped. -/
theorem kill (h : Shows d ed) : Shows { d with e := d.w } { ed with line := [] } := by
  refine ⟨h.w, (UInt32.add_zero _).symm, ?_, h.queue, rfl, by simp⟩
  have := h.held
  unfold Editor.held at this ⊢
  show ed.queue.length + 0 ≤ 128
  omega

theorem room (h : Shows d ed) : d.e - d.r < 128 ↔ ed.held ≠ 128 := by
  have := h.held
  rw [UInt32.lt_iff_toNat_lt, show (d.e - d.r).toNat = ed.held from h.used]
  show ed.held < 128 ↔ _
  omega

/-- The buffer after `c` is stored, before any commit. -/
theorem insert (h : Shows d ed) (hr : ed.held ≠ 128) :
    (d.e + 1 = d.r + UInt32.ofNat (ed.insert c).held) ∧
    window inputBuf_pos (Function.update d.buf (idx d.e) c) d.r ed.queue.length = ed.queue ∧
    window inputBuf_pos (Function.update d.buf (idx d.e) c) d.w (ed.insert c).line.length =
      (ed.insert c).line := by
  have hh := h.held
  have hlen : (ed.insert c).line.length = ed.line.length + 1 := by simp [Editor.insert]
  refine ⟨?_, ?_, ?_⟩
  · rw [h.e_r, show (ed.insert c).held = ed.held + 1 by simp [Editor.held, Editor.insert]; omega,
      UInt32.ofNat_add, ← UInt32.add_assoc]
    rfl
  · unfold Editor.held at hh hr
    unfold idx
    rw [h.e_r, window_update inputBuf_dvd (by simp [Editor.held]) (by simp [Editor.held]; omega),
      h.queue]
  · unfold Editor.held at hh hr
    unfold idx
    rw [h.e, hlen, window_store inputBuf_dvd (by omega), h.line]
    rfl

theorem store (h : Shows d ed) (hr : ed.held ≠ 128) : Shows (d.store c).1 (ed.type c) := by
  obtain ⟨he, hq, hl⟩ := h.insert (c := c) hr
  have hh := h.held
  have hins : (ed.insert c).held = ed.held + 1 := by
    simp [Editor.held, Editor.insert]
    omega
  have hfull : d.e + 1 = d.r + 128 ↔ (ed.insert c).held = 128 := by
    rw [he, UInt32.add_right_inj, ← UInt32.toNat_inj, UInt32.toNat_ofNat', hins]
    show (ed.held + 1) % 2 ^ 32 = 128 ↔ _
    omega
  have hcode : (c = newline ∨ c = ctrl 'D' ∨ d.e + 1 = d.r + 128) ↔
      (c = newline ∨ c = ctrl 'D' ∨ (ed.insert c).held = 128) := by rw [hfull]
  have hcommit : (ed.insert c).commit.queue.length = (ed.insert c).held := by
    simp [Editor.commit, Editor.held]
  unfold Input.store Editor.type
  by_cases hc : c = newline ∨ c = ctrl 'D' ∨ (ed.insert c).held = 128
  · rw [if_pos hc, if_pos (hcode.mpr hc)]
    refine ⟨?_, (UInt32.add_zero _).symm, ?_, ?_, rfl, by simp [Editor.commit]⟩
    · rw [hcommit]
      exact he
    · show (ed.insert c).commit.queue.length + 0 ≤ 128
      rw [hcommit]
      omega
    · rw [hcommit, Editor.held, window_add]
      show window _ _ d.r ed.queue.length ++ window _ _ (d.r + UInt32.ofNat ed.queue.length) _ = _
      rw [← h.w, hq, hl]
      rfl
  · rw [if_neg hc, if_neg (fun hc' => hc (hcode.mp hc'))]
    refine ⟨h.w, ?_, by omega, hq, hl, ?_⟩
    · show d.e + 1 = d.w + _
      rw [he, h.w, UInt32.add_assoc, ← UInt32.ofNat_add]
      rfl
    · intro hm
      obtain hm | hm := List.mem_append.mp hm
      · exact h.plain hm
      · exact hc (Or.inl (List.mem_singleton.mp hm).symm)

/-- A character typed. -/
theorem switch (h : Shows d ed) (c : UInt8) : Shows (d.switch c).1 (ed.key c) := by
  unfold Input.switch Editor.key
  by_cases h0 : c = 0
  · subst h0
    rw [if_neg (by decide), if_neg (by decide), if_neg (by decide), if_neg (by simp),
      if_pos (Or.inl rfl)]
    exact h
  by_cases hP : c = ctrl 'P'
  · rw [if_pos hP, if_pos (Or.inr hP)]
    exact h
  have hno : ¬ (c = 0 ∨ c = ctrl 'P') := by simp [h0, hP]
  rw [if_neg hP, if_neg hno]
  by_cases hU : c = ctrl 'U'
  · rw [if_pos hU, if_pos hU, h.edited, h.killLine]
    exact h.kill
  rw [if_neg hU, if_neg hU]
  by_cases hH : c = ctrl 'H' ∨ c = 0x7f
  · rw [if_pos hH, if_pos hH]
    by_cases he : d.e = d.w
    · rw [if_neg (fun hne => hne he)]
      have hl := h.e_eq_w.mp he
      rw [show { ed with line := ed.line.dropLast } = ed by rw [hl]; cases ed; simp_all]
      exact h
    · rw [if_pos he]
      exact h.erase he
  rw [if_neg hH, if_neg hH]
  by_cases hr : ed.held = 128
  · rw [if_neg (fun hc => h.room.mp hc.2 hr), if_pos hr]
    exact h
  · rw [if_pos ⟨h0, h.room.mpr hr⟩, if_neg hr]
    exact h.store hr

/-- The oldest byte committed is the next one read. -/
theorem next (h : Shows d ed) (hne : ¬ d.Empty) : ∃ l, ed.queue = d.next :: l := by
  rw [h.empty_iff] at hne
  obtain ⟨b, l, hl⟩ := List.exists_cons_of_ne_nil hne
  have hq := h.queue
  rw [hl, List.length_cons, window_cons] at hq
  exact ⟨l, by rw [hl, ← (List.cons.inj hq).1]; rfl⟩

/-- A byte read. -/
theorem fetch (h : Shows d ed) (hne : ¬ d.Empty) : Shows (d.fetch p) ed.take := by
  obtain ⟨l, hl⟩ := h.next hne
  have hq := h.queue
  have hh := h.held
  have hw := h.w
  unfold Editor.held at hh
  rw [hl, List.length_cons] at hq hh hw
  rw [window_cons] at hq
  have hdrop : ed.take.queue = l := by simp [Editor.take, hl]
  refine ⟨?_, h.e, ?_, ?_, h.line, h.plain⟩
  · rw [hdrop]
    show d.w = d.r + 1 + UInt32.ofNat l.length
    rw [hw, UInt32.ofNat_add, UInt32.add_comm (UInt32.ofNat _), ← UInt32.add_assoc]
    rfl
  · unfold Editor.held
    rw [hdrop]
    show l.length + ed.line.length ≤ 128
    omega
  · rw [hdrop]
    exact (List.cons.inj hq).2

end Shows

/-! ## At boot -/

theorem Boots.shows {m : Kernel P} (h : Boots m) : Shows m.data (edit m.data.events) := by
  rw [h.events]
  refine ⟨?_, ?_, by decide, rfl, rfl, by decide⟩
  · rw [h.w]
    exact (UInt32.add_zero _).symm
  · rw [h.e, h.w]
    exact (UInt32.add_zero _).symm

theorem Boots.read {m : Kernel P} (h : Boots m) :
    m.data.taken.map Take.c = (edit m.data.events).read := by
  rw [h.taken, h.events]
  rfl

/-! ## What a character leaves alone -/

theorem store_same (d : Input P) (c : UInt8) :
    (d.store c).1.r = d.r ∧ (d.store c).1.killed = d.killed ∧ (d.store c).1.events = d.events ∧
      (d.store c).1.taken = d.taken ∧ (d.store c).1.calls = d.calls ∧
      ((d.store c).2 = false → (d.store c).1.w = d.w) := by
  unfold Input.store
  dsimp only
  split_ifs <;> simp

theorem switch_same (d : Input P) (c : UInt8) :
    (d.switch c).1.r = d.r ∧ (d.switch c).1.killed = d.killed ∧
      (d.switch c).1.events = d.events ∧ (d.switch c).1.taken = d.taken ∧
      (d.switch c).1.calls = d.calls ∧ ((d.switch c).2 = false → (d.switch c).1.w = d.w) := by
  unfold Input.switch
  split_ifs
  all_goals first | exact store_same .. | simp

theorem key_same (d : Input P) (c : UInt8) :
    (d.key c).1.r = d.r ∧ (d.key c).1.killed = d.killed ∧
      (d.key c).1.events = d.events ++ [.key c] ∧ (d.key c).1.taken = d.taken ∧
      (d.key c).1.calls = d.calls ∧ ((d.key c).2 = false → (d.key c).1.w = d.w) :=
  switch_same { d with events := d.events ++ [.key c] } c

end Zv6.Cons
