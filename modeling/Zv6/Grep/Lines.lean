/-
  What `grep` writes, and when that does not depend on the reads.

  `strchr` does not know how much of the buffer is new: behind the new data it goes on over what
  earlier reads left there, up to a NUL. And when it finds no newline at all, the begun line is
  dropped. `Clean` says of the reads that neither happens (a begun line may be dropped when no
  newline follows). Under clean reads each round keeps the begun line at the front (`Kept`) or
  finds nothing more (`Lost`), for every pattern: a pattern only clears newlines in the buffer,
  so less of it is seen (`Held`). With a pattern that every line matches the buffer is exactly
  what the reads left, and the first read that is not clean shows in the output.
-/
import Mathlib.Data.List.Forall2
import Zv6.Grep.Match

namespace Zv6.Grep

open Lib Lib.Text

/-! ## The helpers -/

theorem strchr_none {c : UInt8} : ∀ {s : Bytes}, c ∉ cstr s → strchr c s = none := by
  intro s
  induction s with
  | nil => exact fun _ => rfl
  | cons d s ih =>
    intro h
    rw [strchr]
    by_cases hd : d = 0
    · rw [if_pos hd]
    · rw [cstr_of_ne (s := d :: s) hd, List.mem_cons, not_or] at h
      rw [if_neg hd, if_neg (fun e => h.1 e.symm), ih h.2]
      rfl

theorem strchr_some {c : UInt8} {l : Bytes} (y : Bytes) (h0 : 0 ∉ l) (hc : c ≠ 0) (hl : c ∉ l) :
    strchr c (l ++ c :: y) = some l.length := by
  induction l with
  | nil => rw [List.nil_append, strchr, if_neg hc, if_pos rfl, List.length_nil]
  | cons d l ih =>
    rw [List.mem_cons, not_or] at h0 hl
    rw [List.cons_append, strchr, if_neg (Ne.symm h0.1), if_neg (Ne.symm hl.1), ih h0.2 hl.2]
    rfl

/-- `memmove` to the front. -/
theorem memmove_eq : ∀ {n dst src : Nat} {b : Bytes}, dst ≤ src → src + n ≤ b.length →
    memmove n dst src b = b.take dst ++ (b.drop src).take n ++ b.drop (dst + n) := by
  intro n
  induction n with
  | zero =>
    intro dst src b _ _
    rw [memmove, List.take_zero, List.append_nil, Nat.add_zero, List.take_append_drop]
  | succ n ih =>
    intro dst src b hle hlen
    have hsrc : src < b.length := by omega
    have hget : b.getD src 0 = b[src] := by
      rw [List.getD_eq_getElem?_getD, List.getElem?_eq_getElem hsrc]
      rfl
    rw [memmove, ih (by omega) (by rw [List.length_set]; omega), hget,
      List.drop_eq_getElem_cons hsrc, List.take_succ_cons]
    have htake : (b.set dst b[src]).take (dst + 1) = b.take dst ++ [b[src]] := by
      rw [List.take_add_one, List.getElem?_set_self (by omega), List.take_set_of_le (Nat.le_refl _)]
      rfl
    have hdrop : ∀ k, dst < k → (b.set dst b[src]).drop k = b.drop k := fun k hk =>
      List.drop_set_of_lt hk
    rw [htake, hdrop _ (by omega), hdrop _ (by omega)]
    have he : dst + 1 + n = dst + (n + 1) := by omega
    rw [he]
    simp only [List.append_assoc, List.cons_append, List.nil_append]

theorem poke_eq (t w y : Bytes) : poke t.length w (t ++ y) = t ++ w ++ y.drop w.length := by
  have h : (-(t.length : Int)).toNat = 0 := by omega
  unfold poke
  rw [h, List.drop_zero, Int.toNat_natCast, List.take_left, List.drop_append, ← Nat.add_comm]
  simp

/-- The text only counts up to its NUL. -/
theorem matchText_congr {re x y : Bytes} (h : cstr x = cstr y) :
    matchText re x = matchText re y := by
  rw [Bool.eq_iff_iff, matchText_iff, matchText_iff, h]

/-! ## The lines in the buffer -/

/-- What `grep` is to write for a text. -/
def found (re x : Bytes) : Bytes := joined 10 ((lines 10 x).filter (matchText re))

/-- `x'` is `x` with some of its bytes cleared. -/
def Under (x' x : Bytes) : Prop := List.Forall₂ (fun c d => c = d ∨ c = 0) x' x

theorem Under.refl (x : Bytes) : Under x x := List.forall₂_same.mpr fun _ _ => .inl rfl

theorem Under.cstr {x' x : Bytes} (h : Under x' x) : cstr x' <+: cstr x := by
  induction h with
  | nil => exact List.prefix_rfl
  | @cons c d x' x hc _ ih =>
    by_cases h0 : c = 0
    · rw [cstr_of_nul (s := c :: x') h0]
      exact List.nil_prefix
    · obtain rfl := hc.resolve_right h0
      rw [cstr_of_ne (s := c :: x') h0, cstr_of_ne (s := c :: x) h0]
      exact List.prefix_cons_inj c |>.mpr ih

theorem found_cons {re l : Bytes} (hl : 10 ∉ l) (v : Bytes) : found re (l ++ 10 :: v) =
    (if matchText re l then l ++ [10] else []) ++ found re v := by
  unfold found
  rw [lines_cons hl, List.filter_cons]
  split
  · rfl
  · rfl

/-- The bytes of the lines of a text. -/
def ended (x : Bytes) : Nat := (joined 10 (lines 10 x)).length

theorem ended_cons {l : Bytes} (hl : 10 ∉ l) (v : Bytes) :
    ended (l ++ 10 :: v) = l.length + 1 + ended v := by
  unfold ended
  rw [lines_cons hl]
  show (l ++ [10] ++ joined 10 (lines 10 v)).length = _
  rw [List.length_append, List.length_append]
  rfl

/-- What the loop makes of the memory `x` with `n` bytes of lines: the newlines of the lines that
    do not match are cleared. -/
structure Marked (re x : Bytes) (n : Nat) (x' : Bytes) : Prop where
  under : Under x' x
  same : x'.drop n = x.drop n
  all : (∀ l, matchText re l = true) → x' = x

theorem Marked.cons {re l y y' : Bytes} {n : Nat} {c : UInt8} (h : Marked re y n y')
    (hc : c = 10 ∨ c = 0) (hall : (∀ l, matchText re l = true) → c = 10) :
    Marked re (l ++ 10 :: y) (l.length + 1 + n) (l ++ c :: y') := by
  refine ⟨?_, ?_, fun hm => ?_⟩
  · exact List.rel_append (Under.refl l) (List.Forall₂.cons hc h.under)
  · have hd : ∀ (d : UInt8) (z : Bytes), (l ++ d :: z).drop (l.length + 1 + n) = z.drop n := by
      intro d z
      rw [Nat.add_assoc, List.drop_append, Nat.add_comm 1 n, List.drop_of_length_le (by omega),
        Nat.add_sub_cancel_left]
      rfl
    rw [hd, hd, h.same]
  · rw [hall hm, h.all hm]

theorem lineLoop_none {re : Bytes} {fuel p : Nat} {s : State}
    (h : strchr 10 (s.buf.drop p) = none) : lineLoop re (fuel + 1) p s = .ok p s := by
  unfold lineLoop
  rw [Exec.gets_bind, h]
  rfl

/-- The state behind a line. -/
def State.line (s : State) (re : Bytes) (p i : Nat) : State :=
  if matchText re ((s.buf.set (p + i) 0).drop p) then
    { s with
      buf := (s.buf.set (p + i) 0).set (p + i) 10
      out := s.out ++ (((s.buf.set (p + i) 0).set (p + i) 10).drop p).take (i + 1) }
  else { s with buf := s.buf.set (p + i) 0 }

theorem lineLoop_some {re : Bytes} {fuel p i : Nat} {s : State}
    (h : strchr 10 (s.buf.drop p) = some i) :
    lineLoop re (fuel + 1) p s = lineLoop re fuel (p + i + 1) (s.line re p i) := by
  unfold State.line
  rw [lineLoop, Exec.gets_bind, h]
  by_cases hm : matchText re ((s.buf.set (p + i) 0).drop p) = true
  · simp only [Exec.modify_bind, Exec.gets_bind, hm, if_true]
  · simp only [Exec.modify_bind, Exec.gets_bind, hm]
    rfl

/-- A line that matches is written, the newline of another one is cleared. -/
theorem State.line_eq {s : State} {a l y : Bytes} (re : Bytes) (hs : s.buf = a ++ (l ++ 10 :: y))
    (h0 : 0 ∉ l) : s.line re a.length l.length =
      { s with
        buf := (a ++ l ++ [if matchText re l then 10 else 0]) ++ y
        out := s.out ++ (if matchText re l then l ++ [10] else []) } := by
  have hset : ∀ c d : UInt8, (a ++ (l ++ c :: y)).set (a.length + l.length) d =
      a ++ (l ++ d :: y) := by
    intro c d
    rw [List.set_append_right _ _ (Nat.le_add_right _ _), Nat.add_sub_cancel_left,
      List.set_append_right _ _ (Nat.le_refl _), Nat.sub_self]
    rfl
  have htext : cstr (l ++ 0 :: y) = cstr l := by
    rw [cstr_append h0, cstr_of_nul (s := 0 :: y) rfl, List.append_nil, cstr_eq_self h0]
  unfold State.line
  rw [hs, hset, hset, List.drop_left, List.drop_left, matchText_congr htext]
  by_cases hm : matchText re l = true
  · rw [if_pos hm, if_pos hm, if_pos hm, List.take_append, Nat.add_sub_cancel_left,
      List.take_of_length_le (Nat.le_succ _)]
    simp only [List.append_assoc, List.singleton_append, List.take_succ_cons, List.take_zero]
  · rw [if_neg hm, if_neg hm, if_neg hm]
    simp only [List.append_assoc, List.singleton_append, List.append_nil]

/-- The loop goes through the lines of the string at `p`. -/
theorem lineLoop_wp {re : Bytes} : ∀ {fuel : Nat} {a x : Bytes} {s : State}, s.buf = a ++ x →
    x.length < fuel → wp (lineLoop re fuel a.length) (fun p s' => p = a.length + ended (cstr x) ∧
      ∃ x', Marked re x (ended (cstr x)) x' ∧
        s' = { s with buf := a ++ x', out := s.out ++ found re (cstr x) })
        (fun _ _ => False) s := by
  intro fuel
  induction fuel with
  | zero =>
    intro a x s _ hx
    exact absurd hx (Nat.not_lt_zero _)
  | succ fuel ih =>
    intro a x s hs hx
    by_cases hm : 10 ∈ cstr x
    · obtain ⟨l, v, hlv, hl⟩ := List.eq_append_cons_of_mem hm
      obtain ⟨y, rfl, rfl, h0, -⟩ := exists_of_cstr hlv
      have hstr : strchr 10 (s.buf.drop a.length) = some l.length := by
        rw [hs, List.drop_left]
        exact strchr_some y h0 (by decide) hl
      rw [List.length_append, List.length_cons] at hx
      have hstep := ih (a := a ++ l ++ [if matchText re l then 10 else 0]) (x := y)
        (s := s.line re a.length l.length) (by rw [State.line_eq re hs h0]) (by omega)
      have hp : (a ++ l ++ [if matchText re l then 10 else 0]).length =
          a.length + l.length + 1 := by
        rw [List.length_append, List.length_append]
        rfl
      rw [hp] at hstep
      obtain ⟨p, s', hrun, rfl, y', hy, rfl⟩ := hstep.returns
      refine (wp_of_ok ((lineLoop_some hstr).trans hrun)).mpr ?_
      rw [hlv, ended_cons hl, found_cons hl]
      refine ⟨by omega, l ++ (if matchText re l then 10 else 0) :: y', hy.cons ?_ ?_, ?_⟩
      · split
        · exact .inl rfl
        · exact .inr rfl
      · intro hall
        rw [if_pos (hall l)]
      · rw [State.line_eq re hs h0]
        simp only [List.append_assoc, List.singleton_append]
    · have hstr : strchr 10 (s.buf.drop a.length) = none := by
        rw [hs, List.drop_left]
        exact strchr_none hm
      refine (wp_of_ok (lineLoop_none hstr)).mpr ?_
      unfold ended found
      rw [lines_of_not_mem hm]
      refine ⟨rfl, x, ⟨Under.refl x, rfl, fun _ => rfl⟩, ?_⟩
      rw [← hs]
      show s = { s with buf := s.buf, out := s.out ++ [] }
      rw [List.append_nil]

/-! ## A round -/

/-- The bytes `d` written over the front of `b`. -/
def onto (d b : Bytes) : Bytes := d ++ b.drop d.length

/-- What the next read returns with `t` in the buffer. -/
def piece (u t : Bytes) (k : Nat) : Bytes := u.take (min (k + 1) (SIZE - t.length))

theorem piece_ne_nil {u t : Bytes} (k : Nat) (hu : u ≠ []) (ht : t.length < SIZE) :
    piece u t k ≠ [] := by
  unfold piece
  rw [Ne, List.take_eq_nil_iff, not_or]
  refine ⟨?_, hu⟩
  omega

theorem piece_append (u t : Bytes) (k : Nat) : piece u t k ++ u.drop (piece u t k).length = u := by
  unfold piece
  rw [List.length_take]
  rcases Nat.le_total (min (k + 1) (SIZE - t.length)) u.length with h | h
  · rw [Nat.min_eq_left h, List.take_append_drop]
  · rw [Nat.min_eq_right h, List.take_of_length_le h, List.drop_length, List.append_nil]

theorem read_ok {t y : Bytes} {s : State} (k : Nat) (hbuf : s.buf = t ++ y) (hm : s.m = t.length) :
    read k s = .ok (piece s.input t k).length
      { s with
        buf := onto (t ++ piece s.input t k) s.buf
        input := s.input.drop (piece s.input t k).length } := by
  have hw : s.input.take (min (k + 1) (SIZE - s.m).toNat) = piece s.input t k := by
    have hcount : (SIZE - s.m).toNat = SIZE - t.length := by
      rw [hm]
      omega
    rw [hcount]
    rfl
  have hpoke : poke s.m (piece s.input t k) s.buf = onto (t ++ piece s.input t k) s.buf := by
    rw [hm, hbuf, poke_eq]
    unfold onto
    rw [List.length_append, List.drop_append]
    simp
  rw [← hpoke, ← hw]
  rfl

/-- Nothing comes any more. -/
theorem round_end {re t y : Bytes} {s : State} (k : Nat) (hbuf : s.buf = t ++ y)
    (hm : s.m = t.length) (hs : s.input = []) : round re k s = .ok false s := by
  have hw : piece s.input t k = [] := by rw [hs]; exact List.take_nil
  have hread := read_ok k hbuf hm
  rw [hw] at hread
  have hover : onto (t ++ []) s.buf = s.buf := by
    unfold onto
    rw [List.append_nil, hbuf, List.drop_left]
  rw [hover] at hread
  exact Exec.bind_ok hread _

/-- Nothing was found: what was read is dropped. -/
theorem settle_zero (s : State) : settle 0 s = .ok () { s with m := 0 } := rfl

theorem settle_pos {p : Nat} {s : State} (hp : p ≠ 0) (hm : 0 < s.m) : settle p s =
    .ok () { s with m := s.m - p, buf := memmove (s.m - p).toNat 0 p s.buf } := by
  unfold settle
  rw [Exec.when_neg hp, Exec.pure_bind_apply, Exec.gets_bind, Exec.when_pos hm]
  rfl

/-- A round with the piece `w` read behind `t`. -/
theorem round_wp (re : Bytes) {t y w : Bytes} {k : Nat} {s : State} (hbuf : s.buf = t ++ y)
    (hm : s.m = t.length) (hw : w = piece s.input t k) (hne : w ≠ []) :
    wp (round re k) (fun go s' => go = true ∧ s'.input = s.input.drop w.length ∧
      s'.out = s.out ++ found re (cstr (onto (t ++ w) s.buf)) ∧
      ∃ x n, n = ended (cstr (onto (t ++ w) s.buf)) ∧ Marked re (onto (t ++ w) s.buf) n x ∧
        s'.m = (if n = 0 then 0 else ((t ++ w).length : Int) - n) ∧
        s'.buf = (if n = 0 then x else memmove ((t ++ w).length - n : Int).toNat 0 n x))
      (fun _ _ => False) s := by
  have hlen : w.length ≠ 0 := fun h => hne (List.length_eq_zero_iff.mp h)
  subst hw
  unfold round
  rw [wp_bind]
  refine (wp_of_ok (read_ok k hbuf hm)).mpr ?_
  rw [if_neg hlen, wp_modify_bind, wp_gets_bind]
  refine wp.bind (lineLoop_wp (a := []) (x := onto (t ++ piece s.input t k) s.buf) rfl
    (Nat.lt_succ_self _)) ?_
  rintro p s' ⟨rfl, x, hx, rfl⟩
  rw [List.length_nil, Nat.zero_add, List.nil_append, wp_bind]
  by_cases hn : ended (cstr (onto (t ++ piece s.input t k) s.buf)) = 0
  · rw [hn] at hx ⊢
    exact (wp_of_ok (settle_zero _)).mpr ⟨rfl, rfl, rfl, x, 0, rfl, hx, rfl, rfl⟩
  · have hm' : s.m + ((piece s.input t k).length : Int) = (t ++ piece s.input t k).length := by
      rw [hm, List.length_append]
      omega
    have hpos : 0 < s.m + ((piece s.input t k).length : Int) := by omega
    refine (wp_of_ok (settle_pos hn hpos)).mpr ⟨rfl, rfl, rfl, x, _, rfl, hx, ?_, ?_⟩
    · rw [if_neg hn, ← hm']
    · rw [if_neg hn]
      exact congrArg (fun i : Int => memmove (i - _).toNat 0 _ x) hm'

theorem found_append (re v w : Bytes) :
    found re (v ++ w) = found re v ++ found re (rest 10 v ++ w) := by
  unfold found
  rw [lines_append, List.filter_append, joined_append]

/-! ## Rounds that go well -/

theorem Under.trans {x y z : Bytes} (h : Under x y) (h' : Under y z) : Under x z := by
  induction h generalizing z with
  | nil => exact h'
  | cons hc _ ih =>
    cases h' with
    | cons hd ht =>
      refine List.Forall₂.cons ?_ (ih ht)
      rcases hc with rfl | hc
      · exact hd
      · exact .inr hc

theorem Under.onto {x y : Bytes} (h : Under x y) (d : Bytes) : Under (onto d x) (onto d y) :=
  List.rel_append (Under.refl d) (List.forall₂_drop _ h)

/-- The buffer is `left`, up to cleared newlines of lines that do not match. -/
structure Held (re b left : Bytes) : Prop where
  under : Under b left
  all : (∀ l, matchText re l = true) → b = left

theorem Held.onto {re b left : Bytes} (h : Held re b left) (d : Bytes) :
    Held re (onto d b) (onto d left) := by
  refine ⟨h.under.onto d, fun hall => ?_⟩
  rw [h.all hall]

theorem Held.mark {re b left x : Bytes} {n : Nat} (h : Held re b left) (hx : Marked re b n x) :
    Held re x left :=
  ⟨hx.under.trans h.under, fun hall => (hx.all hall).trans (h.all hall)⟩

/-- Fewer bytes are seen, so no newline more. -/
theorem Held.lines_eq {re b left d : Bytes} (h : Held re b left)
    (hl : lines 10 (cstr (Grep.onto d left)) = lines 10 d) :
    lines 10 (cstr (Grep.onto d b)) = lines 10 d := by
  unfold Grep.onto at hl ⊢
  by_cases h0 : 0 ∈ d
  · rw [cstr_append_of_mem h0] at hl ⊢
    exact hl
  · rw [cstr_append h0, lines_append_eq_left] at hl ⊢
    have hpre : cstr (b.drop d.length) <+: cstr (left.drop d.length) :=
      Under.cstr (List.forall₂_drop _ h.under)
    exact fun hm => hl (hpre.subset hm)

/-- After the input `v`, with the rest `t` of it in front in the buffer. -/
structure Kept (re left t v : Bytes) (s : State) : Prop where
  held : Held re s.buf left
  front : ∃ y, s.buf = t ++ y
  m : s.m = t.length
  tail : t = rest 10 v
  short : t.length < SIZE
  out : s.out = found re v

/-- After the input `v`, with the rest of it dropped. -/
structure Lost (re left v : Bytes) (s : State) : Prop where
  held : Held re s.buf left
  m : s.m = 0
  out : s.out = found re v

theorem ended_eq {x y : Bytes} (h : lines 10 x = lines 10 y) : ended x = ended y := by
  unfold ended
  rw [h]

theorem ended_add (x : Bytes) : ended x + (rest 10 x).length = x.length := by
  have h : joined 10 (lines 10 x) ++ rest 10 x = x := joined_lines x
  unfold ended
  rw [← List.length_append, h]

theorem ended_eq_zero {x : Bytes} : ended x = 0 ↔ 10 ∉ x := by
  unfold ended
  rw [List.length_eq_zero_iff, ← lines_eq_nil]
  constructor
  · intro h
    cases hl : lines 10 x with
    | nil => rfl
    | cons l ls =>
      rw [hl] at h
      have hne : l ++ [10] ++ joined 10 ls ≠ [] := by simp
      exact absurd h hne
  · intro h
    rw [h]
    rfl

theorem drop_ended (x z : Bytes) : (x ++ z).drop (ended x) = rest 10 x ++ z := by
  have h : x ++ z = joined 10 (lines 10 x) ++ (rest 10 x ++ z) := by
    rw [← List.append_assoc, joined_lines]
  rw [h]
  exact List.drop_left

theorem not_mem_rest_append {w : Bytes} (v : Bytes) (h : 10 ∉ w) : 10 ∉ rest 10 v ++ w := by
  rw [List.mem_append, not_or]
  exact ⟨sep_not_mem_rest v, h⟩

section Rounds

variable {re left t v w : Bytes} {k : Nat} {s : State}

theorem piece_length_le (u t : Bytes) (k : Nat) : (piece u t k).length ≤ SIZE - t.length := by
  unfold piece
  rw [List.length_take]
  omega

/-- A piece with a newline in it: the lines are written and the rest goes to the front. -/
theorem Kept.round (h : Kept re left t v s) (hw : w = piece s.input t k)
    (hl : lines 10 (cstr (onto (t ++ w) left)) = lines 10 (t ++ w)) (hm : 10 ∈ w) :
    ∃ s', Grep.round re k s = .ok true s' ∧ s'.input = s.input.drop w.length ∧
      Kept re (onto (rest 10 (t ++ w)) (onto (t ++ w) left)) (rest 10 (t ++ w)) (v ++ w) s' := by
  obtain ⟨y, hy⟩ := h.front
  obtain ⟨_, s', hrun, rfl, hin, hout, x, n, hn, hx, hm', hbuf⟩ :=
    (round_wp re hy h.m hw (List.ne_nil_of_mem hm)).returns
  have hlines := h.held.lines_eq hl
  rw [ended_eq hlines] at hn
  have hne : n ≠ 0 := by
    rw [hn, Ne, ended_eq_zero, not_not]
    exact List.mem_append_right t hm
  have hadd := ended_add (t ++ w)
  have hxlen : x.length = (onto (t ++ w) s.buf).length := hx.under.length_eq
  have hover : (t ++ w).length ≤ x.length := by
    rw [hxlen]
    exact (List.prefix_append (t ++ w) _).length_le
  rw [if_neg hne] at hm' hbuf
  have hrest : ((t ++ w).length - n : Int) = (rest 10 (t ++ w)).length := by omega
  have hfront : s'.buf = onto (rest 10 (t ++ w)) x := by
    rw [hbuf, hrest, Int.toNat_natCast, memmove_eq (Nat.zero_le n) (by omega), hx.same, hn]
    unfold Grep.onto
    rw [drop_ended, List.take_left, Nat.zero_add]
    rfl
  refine ⟨s', hrun, hin, ?_, ⟨_, hfront⟩, hm'.trans hrest, ?_, ?_, ?_⟩
  · rw [hfront]
    exact ((h.held.onto (t ++ w)).mark hx).onto _
  · rw [rest_append (u := v), ← h.tail]
  · have hp := piece_length_le s.input t k
    have hs := h.short
    rw [← hw] at hp
    rw [List.length_append] at hadd
    omega
  · rw [hout, h.out, found_append, ← h.tail]
    unfold found
    rw [hlines]

/-- A piece that shows no newline: what is in front in the buffer is dropped. -/
theorem lost_round {y : Bytes} (hheld : Held re s.buf left) (hy : s.buf = t ++ y)
    (hsm : s.m = t.length) (hout : s.out = found re v) (hw : w = piece s.input t k) (hne : w ≠ [])
    (hl : 10 ∉ cstr (onto (t ++ w) left)) (hv : 10 ∉ rest 10 v ++ w) :
    ∃ s', Grep.round re k s = .ok true s' ∧ s'.input = s.input.drop w.length ∧
      Lost re (onto (t ++ w) left) (v ++ w) s' := by
  obtain ⟨_, s', hrun, rfl, hin, hout', x, n, hn, hx, hm', hbuf⟩ :=
    (round_wp re hy hsm hw hne).returns
  have hpre : cstr (onto (t ++ w) s.buf) <+: cstr (onto (t ++ w) left) :=
    (hheld.onto (t ++ w)).under.cstr
  have hnone : 10 ∉ cstr (onto (t ++ w) s.buf) := fun hm => hl (hpre.subset hm)
  obtain rfl : n = 0 := hn.trans (ended_eq_zero.mpr hnone)
  rw [if_pos rfl] at hm' hbuf
  refine ⟨s', hrun, hin, ?_, hm', ?_⟩
  · rw [hbuf]
    exact (hheld.onto (t ++ w)).mark hx
  · rw [hout', hout, found_append]
    unfold found
    rw [lines_of_not_mem hnone, lines_of_not_mem hv]

theorem Kept.drop (h : Kept re left t v s) (hw : w = piece s.input t k) (hne : w ≠ [])
    (hl : lines 10 (cstr (onto (t ++ w) left)) = lines 10 (t ++ w)) (hm : 10 ∉ w) :
    ∃ s', Grep.round re k s = .ok true s' ∧ s'.input = s.input.drop w.length ∧
      Lost re (onto (t ++ w) left) (v ++ w) s' := by
  obtain ⟨y, hy⟩ := h.front
  have hv := not_mem_rest_append v hm
  rw [← h.tail] at hv
  refine lost_round h.held hy h.m h.out hw hne ?_ (h.tail ▸ hv)
  rw [← lines_eq_nil, hl, lines_eq_nil]
  exact hv

theorem Lost.round (h : Lost re left v s) (hw : w = piece s.input [] k) (hne : w ≠ [])
    (hl : 10 ∉ cstr (onto w left)) (hm : 10 ∉ w) :
    ∃ s', Grep.round re k s = .ok true s' ∧ s'.input = s.input.drop w.length ∧
      Lost re (onto w left) (v ++ w) s' := by
  exact lost_round (t := []) h.held rfl h.m h.out hw hne hl (not_mem_rest_append v hm)

end Rounds

/-! ## Runs -/

/-- After a piece without a newline: none comes any more, and the pieces uncover none in the
    memory `left`. -/
def Quiet : (left u : Bytes) → (ks : List Nat) → Prop
  | _, _, [] => True
  | left, u, k :: ks => u = [] ∨
    10 ∉ piece u [] k ∧ 10 ∉ cstr (onto (piece u [] k) left) ∧
      Quiet (onto (piece u [] k) left) (u.drop (piece u [] k).length) ks

/-- The reads of `ks` bring the input `u` in pieces that `grep` copes with. `left` is what the
    memory from `buf` on holds and `t` the begun line at its front. Of the new data and what is
    left behind it, `strchr` sees just the lines of the data; and a piece without a newline is
    one of the last ones. -/
def Clean : (left t u : Bytes) → (ks : List Nat) → Prop
  | _, _, _, [] => True
  | left, t, u, k :: ks => u = [] ∨
    lines 10 (cstr (onto (t ++ piece u t k) left)) = lines 10 (t ++ piece u t k) ∧
      if 10 ∈ piece u t k then
        Clean (onto (rest 10 (t ++ piece u t k)) (onto (t ++ piece u t k) left))
          (rest 10 (t ++ piece u t k)) (u.drop (piece u t k).length) ks
      else Quiet (onto (t ++ piece u t k) left) (u.drop (piece u t k).length) ks

/-- Of the input `u`, what has been read has been searched. -/
def Right (re u : Bytes) (s : State) : Prop :=
  s.out = found re (u.take (u.length - s.input.length))

section Runs

variable {re left t u v w : Bytes} {k : Nat} {ks : List Nat} {s s' : State}

theorem right_iff (hu : u = v ++ s.input) : Right re u s ↔ s.out = found re v := by
  unfold Right
  rw [hu, List.length_append, Nat.add_sub_cancel, List.take_left]

theorem input_eq (hu : u = v ++ s.input)
    (hin : s'.input = s.input.drop (piece s.input t k).length) :
    u = v ++ piece s.input t k ++ s'.input := by
  rw [hin, List.append_assoc, piece_append, hu]

theorem grep_true (ks : List Nat) (h : Grep.round re k s = .ok true s') :
    grep re (k :: ks) s = grep re ks s' :=
  Exec.bind_ok h _

theorem grep_false (ks : List Nat) (h : Grep.round re k s = .ok false s') :
    grep re (k :: ks) s = .ok () s' :=
  Exec.bind_ok h _

theorem grep_wp {Q : Unit → State → Prop} (h : Grep.round re k s = .ok true s') :
    wp (grep re (k :: ks)) Q (fun _ _ => False) s ↔ wp (grep re ks) Q (fun _ _ => False) s' := by
  unfold wp
  rw [grep_true ks h]

/-! ### Clean reads do well -/

theorem Lost.runs (h : Lost re left v s) (hu : u = v ++ s.input) (hq : Quiet left s.input ks) :
    wp (grep re ks) (fun _ s' => Right re u s') (fun _ _ => False) s := by
  induction ks generalizing left v s with
  | nil => exact (right_iff hu).mpr h.out
  | cons k ks ih =>
    by_cases hin : s.input = []
    · refine (wp_of_ok (grep_false ks (round_end (t := []) k rfl h.m hin))).mpr ?_
      exact (right_iff hu).mpr h.out
    obtain ⟨hm, hl, hq⟩ := hq.resolve_left hin
    obtain ⟨s', hrun, hin', h'⟩ := h.round rfl (piece_ne_nil k hin (by decide)) hl hm
    rw [← hin'] at hq
    exact (grep_wp hrun).mpr (ih h' (input_eq hu hin') hq)

theorem Kept.runs (h : Kept re left t v s) (hu : u = v ++ s.input) (hc : Clean left t s.input ks) :
    wp (grep re ks) (fun _ s' => Right re u s') (fun _ _ => False) s := by
  induction ks generalizing left t v s with
  | nil => exact (right_iff hu).mpr h.out
  | cons k ks ih =>
    by_cases hin : s.input = []
    · obtain ⟨y, hy⟩ := h.front
      refine (wp_of_ok (grep_false ks (round_end k hy h.m hin))).mpr ?_
      exact (right_iff hu).mpr h.out
    obtain ⟨hl, hc⟩ := hc.resolve_left hin
    by_cases hm : 10 ∈ piece s.input t k
    · rw [if_pos hm] at hc
      obtain ⟨s', hrun, hin', h'⟩ := h.round rfl hl hm
      rw [← hin'] at hc
      exact (grep_wp hrun).mpr (ih h' (input_eq hu hin') hc)
    · rw [if_neg hm] at hc
      obtain ⟨s', hrun, hin', h'⟩ := h.drop rfl (piece_ne_nil k hin h.short) hl hm
      rw [← hin'] at hc
      exact (grep_wp hrun).mpr (h'.runs (input_eq hu hin') hc)

/-- Fewer reads are clean, too. -/
theorem Quiet.take {left u : Bytes} (h : Quiet left u ks) (j : Nat) : Quiet left u (ks.take j) := by
  induction ks generalizing left u j with
  | nil => rw [List.take_nil]; trivial
  | cons k ks ih =>
    cases j with
    | zero => trivial
    | succ j => exact h.imp_right fun h => ⟨h.1, h.2.1, ih h.2.2 j⟩

theorem Clean.take {left t u : Bytes} (h : Clean left t u ks) (j : Nat) :
    Clean left t u (ks.take j) := by
  induction ks generalizing left t u j with
  | nil => rw [List.take_nil]; trivial
  | cons k ks ih =>
    cases j with
    | zero => trivial
    | succ j =>
      refine h.imp_right fun h => ⟨h.1, ?_⟩
      by_cases hm : 10 ∈ piece u t k
      · rw [if_pos hm]
        exact ih (by rw [if_pos hm] at h; exact h.2) j
      · rw [if_neg hm]
        exact Quiet.take (by rw [if_neg hm] at h; exact h.2) j

/-! ### Others go wrong when every line matches -/

theorem found_all (hall : ∀ l, matchText re l = true) (x : Bytes) :
    found re x = joined 10 (lines 10 x) := by
  unfold found
  rw [List.filter_eq_self.mpr fun l _ => hall l]

/-- What a read must show for the output to be right after it. -/
theorem lines_of_right {y : Bytes} (hall : ∀ l, matchText re l = true) (hy : s.buf = t ++ y)
    (hm : s.m = t.length) (hout : s.out = found re v) (hu : u = v ++ s.input)
    (hne : piece s.input t k ≠ [])
    (h1 : wp (grep re [k]) (fun _ s' => Right re u s') (fun _ _ => False) s) :
    lines 10 (cstr (onto (t ++ piece s.input t k) s.buf)) =
      lines 10 (rest 10 v ++ piece s.input t k) := by
  obtain ⟨_, s', hrun, rfl, hin, hout', -⟩ := (round_wp re hy hm rfl hne).returns
  have hr : Right re u s' := (grep_wp hrun).mp h1
  rw [right_iff (input_eq hu hin), hout', hout, found_append, found_all hall, found_all hall,
    found_all hall] at hr
  exact joined_lines_inj (List.append_cancel_left hr)

/-- The end of a dropped line is not the line. -/
theorem lines_ne {r w left : Bytes} (hr : r ≠ []) (hr' : 10 ∉ r) (hw : 10 ∈ w) :
    lines 10 (cstr (onto w left)) ≠ lines 10 (r ++ w) := by
  obtain ⟨l, v, rfl, hl⟩ := List.eq_append_cons_of_mem hw
  have hrl : 10 ∉ r ++ l := by
    rw [List.mem_append, not_or]
    exact ⟨hr', hl⟩
  unfold onto
  rw [List.append_assoc l, ← List.append_assoc r, lines_cons hrl, List.cons_append]
  by_cases h0 : 0 ∈ l
  · have hnone : 10 ∉ cstr l := fun hm => hl ((List.takeWhile_prefix _).subset hm)
    rw [cstr_append_of_mem h0, lines_of_not_mem hnone]
    exact (List.cons_ne_nil _ _).symm
  · rw [cstr_append h0, cstr_of_ne (s := 10 :: _) (show (10 : UInt8) ≠ 0 by decide)]
    show lines 10 (l ++ 10 :: _) ≠ _
    rw [lines_cons hl]
    intro he
    have hlen := congrArg List.length (List.cons.inj he).1
    rw [List.length_append] at hlen
    exact hr (List.length_eq_zero_iff.mp (by omega))

theorem Lost.quiet (hall : ∀ l, matchText re l = true) (h : Lost re left v s)
    (hu : u = v ++ s.input) (hne : rest 10 v ≠ [])
    (hr : ∀ j, wp (grep re (ks.take j)) (fun _ s' => Right re u s') (fun _ _ => False) s) :
    Quiet left s.input ks := by
  induction ks generalizing left v s with
  | nil => trivial
  | cons k ks ih =>
    by_cases hin : s.input = []
    · exact .inl hin
    have hw := piece_ne_nil (t := []) k hin (by decide)
    have hl := lines_of_right (t := []) hall rfl h.m h.out hu hw (hr 1)
    rw [h.held.all hall, List.nil_append] at hl
    have hm : 10 ∉ piece s.input [] k := fun hm => lines_ne hne (sep_not_mem_rest v) hm hl
    have hv := not_mem_rest_append v hm
    have hs : 10 ∉ cstr (onto (piece s.input [] k) left) := by
      rw [← lines_eq_nil, hl, lines_eq_nil]
      exact hv
    obtain ⟨s', hrun, hin', h'⟩ := h.round rfl hw hs hm
    refine .inr ⟨hm, hs, ?_⟩
    rw [← hin']
    refine ih h' (input_eq hu hin') ?_ fun j => (grep_wp hrun).mp (hr (j + 1))
    rw [rest_append, rest_of_not_mem hv]
    exact List.append_ne_nil_of_left_ne_nil hne _

theorem Kept.clean (hall : ∀ l, matchText re l = true) (h : Kept re left t v s)
    (hu : u = v ++ s.input)
    (hr : ∀ j, wp (grep re (ks.take j)) (fun _ s' => Right re u s') (fun _ _ => False) s) :
    Clean left t s.input ks := by
  induction ks generalizing left t v s with
  | nil => trivial
  | cons k ks ih =>
    by_cases hin : s.input = []
    · exact .inl hin
    have hw := piece_ne_nil k hin h.short
    obtain ⟨y, hy⟩ := h.front
    have hl := lines_of_right hall hy h.m h.out hu hw (hr 1)
    rw [h.held.all hall, ← h.tail] at hl
    refine .inr ⟨hl, ?_⟩
    by_cases hm : 10 ∈ piece s.input t k
    · rw [if_pos hm]
      obtain ⟨s', hrun, hin', h'⟩ := h.round rfl hl hm
      rw [← hin']
      exact ih h' (input_eq hu hin') fun j => (grep_wp hrun).mp (hr (j + 1))
    · rw [if_neg hm]
      obtain ⟨s', hrun, hin', h'⟩ := h.drop rfl hw hl hm
      rw [← hin']
      refine h'.quiet hall (input_eq hu hin') ?_ fun j => (grep_wp hrun).mp (hr (j + 1))
      rw [rest_append, rest_of_not_mem (not_mem_rest_append v hm)]
      exact List.append_ne_nil_of_right_ne_nil _ hw

end Runs

theorem matchText_nil (l : Bytes) : matchText [] l = true := by
  have h : matchhere [] l = true := by
    rw [matchhere]
    rfl
  unfold matchText
  rw [if_neg (by decide), matchLoop, if_pos h]

theorem kept_start (re buf u : Bytes) : Kept re buf [] [] (start buf u) where
  held := ⟨Under.refl _, fun _ => rfl⟩
  front := ⟨buf, rfl⟩
  m := rfl
  tail := rfl
  short := by decide
  out := rfl

/-- Whatever the memory holds from `buf` on and however the reads cut the input: for every
    pattern `grep` has written, after each read, just the matching lines of what it has read
    if and only if the reads are clean. -/
theorem grep_lines_iff (buf u : Bytes) (ks : List Nat) :
    (∀ re j, wp (grep re (ks.take j)) (fun _ s => Right re u s) (fun _ _ => False)
      (start buf u)) ↔ Clean buf [] u ks := by
  constructor
  · intro h
    exact (kept_start [] buf u).clean matchText_nil rfl (h [])
  · intro h re j
    exact (kept_start re buf u).runs rfl (h.take j)

/-- The line `abc`, read at once and with its first two bytes read alone. -/
theorem grep_lines_split : ∃ s s', grep [] [3] (start (List.replicate SIZE 0) [97, 98, 99, 10]) =
      .ok () s ∧ s.input = [] ∧ s.out = [97, 98, 99, 10] ∧
    grep [] [1, 3] (start (List.replicate SIZE 0) [97, 98, 99, 10]) = .ok () s' ∧
      s'.input = [] ∧ s'.out = [99, 10] := by
  have h := kept_start [] (List.replicate SIZE 0) [97, 98, 99, 10]
  obtain ⟨s, hrun, hin, hk⟩ := h.round (k := 3) rfl (by decide +kernel) (by decide)
  have hout := hk.out
  rw [found_all matchText_nil] at hout
  obtain ⟨s₁, hrun₁, hin₁, hl⟩ := h.drop (k := 1) rfl (by decide) (by decide +kernel) (by decide)
  have hin₁' : s₁.input = [99, 10] := hin₁
  obtain ⟨_, s', hrun', rfl, hin', hout', -⟩ := (round_wp [] (t := []) (y := s₁.buf) (k := 3) rfl
    hl.m rfl (by rw [hin₁']; decide)).returns
  rw [hl.out, found_all matchText_nil, found_all matchText_nil, hl.held.all matchText_nil,
    hin₁'] at hout'
  rw [hin₁'] at hin'
  refine ⟨s, s', (grep_true [] hrun).trans rfl, hin, ?_, ?_, hin', ?_⟩
  · rw [hout]
    decide
  · exact ((grep_true [3] hrun₁).trans (grep_true [] hrun')).trans rfl
  · rw [hout']
    decide +kernel

end Zv6.Grep
