/-
  The language of the shell.

  `tokens` cuts a line into words and operators, with one pass over its bytes; `IsLine` says which
  token lists are command lines and which command each of them stands for. Nothing here is about
  the parser. The second half ties `gettoken` and `peek` to the tokens: what they do is
  determined by `tokens` of what is left of the line (`peek_tokens`, `gettoken_tokens`).
-/
import Zv6.Sh.Code

namespace Zv6.Sh

open Lib
open Lib.Text (deref)

/-! ## Tokens -/

abbrev Word := List UInt8

inductive Token where
  | word (w : Word)
  | bar
  | lpar
  | rpar
  | semi
  | amp
  | less
  | great
  | append
  deriving DecidableEq

/-- The operator of one byte. -/
def operator (c : UInt8) : Option Token :=
  if c = 124 then some .bar
  else if c = 40 then some .lpar
  else if c = 41 then some .rpar
  else if c = 59 then some .semi
  else if c = 38 then some .amp
  else if c = 60 then some .less
  else if c = 62 then some .great
  else none

/-- The word read so far. -/
def flush (w : Word) : List Token := if w = [] then [] else [.word w]

/-- The tokens of a line, behind the bytes `w` of a word. -/
def scan : Word → List UInt8 → List Token
  | w, [] => flush w
  | w, 62 :: 62 :: s => flush w ++ .append :: scan [] s
  | w, c :: s =>
    if c ∈ whitespace then flush w ++ scan [] s
    else match operator c with
      | some t => flush w ++ t :: scan [] s
      | none => scan (w ++ [c]) s

def tokens (line : List UInt8) : List Token := scan [] line

/-! ## Grammar -/

/-- A redirection: O_RDONLY for descriptor 0, O_WRONLY|O_CREATE for descriptor 1. -/
structure Redir where
  file : Word
  mode : Nat
  fd : Nat

/-- `redir = ('<' | '>' | '>>') word`, any number of times. -/
inductive IsRedirs : List Token → List Redir → Prop where
  | nil : IsRedirs [] []
  | less {w ts rs} (h : IsRedirs ts rs) : IsRedirs (.less :: .word w :: ts) (⟨w, 0, 0⟩ :: rs)
  | great {w ts rs} (h : IsRedirs ts rs) : IsRedirs (.great :: .word w :: ts) (⟨w, 0x201, 1⟩ :: rs)
  | append {w ts rs} (h : IsRedirs ts rs) :
      IsRedirs (.append :: .word w :: ts) (⟨w, 0x201, 1⟩ :: rs)

/-- `(word redir*)*`. -/
inductive IsWords : List Token → List Word → List Redir → Prop where
  | nil : IsWords [] [] []
  | cons {w ts rs ts' ws rs'} (h : IsRedirs ts rs) (h' : IsWords ts' ws rs') :
      IsWords (.word w :: (ts ++ ts')) (w :: ws) (rs ++ rs')

/-- The redirections around a command, the last one outermost. -/
def Cmd.wrap (cmd : Cmd Word) (rs : List Redir) : Cmd Word :=
  rs.foldl (fun c r => .redir c r.file r.mode r.fd) cmd

/-- As many `&`s behind a command. -/
def Cmd.backs {ω : Type} (cmd : Cmd ω) (n : Nat) : Cmd ω := Nat.repeat .back n cmd

mutual

/-- `line = pipe '&'* (';' line)?` -/
inductive IsLine : List Token → Cmd Word → Prop where
  | last {ts c n} (h : IsPipe ts c) : IsLine (ts ++ List.replicate n .amp) (c.backs n)
  | more {ts c n ts' c'} (h : IsPipe ts c) (h' : IsLine ts' c') :
      IsLine (ts ++ List.replicate n .amp ++ .semi :: ts') (.list (c.backs n) c')

/-- `pipe = exec ('|' pipe)?` -/
inductive IsPipe : List Token → Cmd Word → Prop where
  | last {ts c} (h : IsExec ts c) : IsPipe ts c
  | more {ts c ts' c'} (h : IsExec ts c) (h' : IsPipe ts' c') :
      IsPipe (ts ++ .bar :: ts') (.pipe c c')

/-- `exec = '(' line ')' redir* | redir* (word redir*)*` with fewer than MAXARGS words. -/
inductive IsExec : List Token → Cmd Word → Prop where
  | block {ts c ts' rs} (h : IsLine ts c) (h' : IsRedirs ts' rs) :
      IsExec (.lpar :: (ts ++ .rpar :: ts')) (c.wrap rs)
  | words {ts rs ts' ws rs'} (h : IsRedirs ts rs) (h' : IsWords ts' ws rs') (hn : ws.length < 10) :
      IsExec (ts ++ ts') ((Cmd.exec ws).wrap (rs ++ rs'))

end

/-! ## Tokens of what is left -/

/-- A byte of a word. -/
def Plain (c : UInt8) : Prop := c ∉ whitespace ∧ c ∉ symbols

instance (c : UInt8) : Decidable (Plain c) := inferInstanceAs (Decidable (_ ∧ _))

/-- No word goes on here. -/
def Ends (s : Ptr) : Prop := ∀ c ∈ s.head?, ¬ Plain c

theorem operator_eq_none {c : UInt8} : operator c = none ↔ c ∉ symbols := by
  unfold operator symbols
  constructor
  · intro h
    repeat' split at h
    all_goals simp_all
  · intro h
    simp only [List.mem_cons, List.not_mem_nil, or_false, not_or] at h
    simp [h]

theorem Plain.operator {c : UInt8} (h : Plain c) : operator c = none := operator_eq_none.mpr h.2

theorem flush_nil : flush [] = [] := rfl

theorem scan_nil (w : Word) : scan w [] = flush w := by
  unfold scan
  rfl

theorem scan_append (w : Word) (s : List UInt8) :
    scan w (62 :: 62 :: s) = flush w ++ .append :: scan [] s := by
  rw [scan]

/-- A byte that does not begin `>>`. -/
theorem scan_cons (w : Word) {c : UInt8} {s : List UInt8} (h : ¬ (c = 62 ∧ deref s = 62)) :
    scan w (c :: s) = if c ∈ whitespace then flush w ++ scan [] s
      else match operator c with
        | some t => flush w ++ t :: scan [] s
        | none => scan (w ++ [c]) s := by
  rw [scan]
  intro t hc hs
  subst hc hs
  exact h ⟨rfl, rfl⟩

theorem scan_plain (w : Word) {c : UInt8} (s : List UInt8) (h : Plain c) :
    scan w (c :: s) = scan (w ++ [c]) s := by
  have hc : ¬ (c = 62 ∧ deref s = 62) := fun hc => h.2 (by rw [hc.1]; decide)
  rw [scan_cons w hc, if_neg h.1, h.operator]

theorem tokens_nil : tokens [] = [] := scan_nil []

theorem tokens_space {c : UInt8} (s : Ptr) (h : c ∈ whitespace) : tokens (c :: s) = tokens s := by
  have hc : ¬ (c = 62 ∧ deref s = 62) := by
    intro hc
    rw [hc.1] at h
    exact absurd h (by decide)
  unfold tokens
  rw [scan_cons [] hc, if_pos h, flush_nil, List.nil_append]

theorem tokens_skip (s : Ptr) : tokens (skip s) = tokens s := by
  induction s with
  | nil => rfl
  | cons c s ih =>
    unfold skip
    split
    · next h => rw [ih, tokens_space s h]
    · rfl

/-- Behind the bytes of a word the scan starts anew. -/
theorem scan_ends {w : Word} {s : Ptr} (h : Ends s) : scan w s = flush w ++ tokens s := by
  unfold tokens
  cases s with
  | nil => rw [scan_nil, scan_nil, flush_nil, List.append_nil]
  | cons c s =>
    have hc : ¬ Plain c := h c rfl
    by_cases happ : c = 62 ∧ deref s = 62
    · obtain ⟨rfl, hs⟩ := happ
      cases s with
      | nil => exact absurd hs (by decide)
      | cons d s =>
        obtain rfl : d = 62 := hs
        rw [scan_append, scan_append, flush_nil, List.nil_append]
    · rw [scan_cons w happ, scan_cons [] happ]
      by_cases hw : c ∈ whitespace
      · rw [if_pos hw, if_pos hw, flush_nil, List.nil_append]
      · rw [if_neg hw, if_neg hw]
        cases ho : operator c with
        | none => exact absurd ⟨hw, operator_eq_none.mp ho⟩ hc
        | some t => simp only [flush_nil, List.nil_append]

theorem scan_word {u : Word} (hu : ∀ c ∈ u, Plain c) (w : Word) (s : Ptr) :
    scan w (u ++ s) = scan (w ++ u) s := by
  induction u generalizing w with
  | nil => rw [List.append_nil, List.nil_append]
  | cons c u ih =>
    rw [List.cons_append, scan_plain w _ (hu c List.mem_cons_self),
      ih (fun d hd => hu d (List.mem_cons_of_mem c hd)), List.append_assoc, List.singleton_append]

/-- A word and what follows it. -/
theorem tokens_word {u : Word} {s : Ptr} (h0 : u ≠ []) (hu : ∀ c ∈ u, Plain c) (hs : Ends s) :
    tokens (u ++ s) = .word u :: tokens s := by
  unfold tokens
  rw [scan_word hu, List.nil_append, scan_ends hs, flush, if_neg h0]
  rfl

/-! ## The lexer -/

/-- The code `gettoken` returns for a token. -/
def Token.code : Token → UInt8
  | .word _ => 97
  | .bar => 124
  | .lpar => 40
  | .rpar => 41
  | .semi => 59
  | .amp => 38
  | .less => 60
  | .great => 62
  | .append => 43

/-- The first byte of an operator, which `peek` looks at. -/
def Token.lead : Token → UInt8
  | .append => 62
  | t => t.code

/-- One of `toks` comes next. -/
def leads (toks : List UInt8) : List Token → Bool
  | [] => false
  | t :: _ => decide (t.lead ∈ toks)

theorem operator_some {c : UInt8} {t : Token} (h : operator c = some t) :
    t.code = c ∧ t.lead = c ∧ ∀ w, t ≠ .word w := by
  unfold operator at h
  repeat' split at h
  all_goals cases h
  all_goals
    next hc =>
      subst hc
      exact ⟨rfl, rfl, by simp⟩

/-- `skip` stops at the end or at a byte that is no space. -/
theorem skip_cases (s : Ptr) : skip s = [] ∨ ∃ c t, skip s = c :: t ∧ c ∉ whitespace := by
  induction s with
  | nil => exact Or.inl rfl
  | cons c s ih =>
    unfold skip
    split
    · exact ih
    · next h => exact Or.inr ⟨c, s, rfl, h⟩

theorem skip_suffix (s : Ptr) : skip s <:+ s := by
  induction s with
  | nil => exact List.suffix_rfl
  | cons c s ih =>
    unfold skip
    split
    · exact ih.trans (List.suffix_cons c s)
    · exact List.suffix_rfl

/-- `run` cuts the bytes of a word off. -/
theorem run_spec (s : Ptr) : ∃ u, s = u ++ run s ∧ (∀ c ∈ u, Plain c) ∧ Ends (run s) := by
  induction s with
  | nil => exact ⟨[], rfl, by simp, by simp [run, Ends]⟩
  | cons c s ih =>
    unfold run
    split
    · next h =>
      obtain ⟨u, hs, hu, he⟩ := ih
      refine ⟨c :: u, by rw [List.cons_append, ← hs], ?_, he⟩
      intro d hd
      rcases List.mem_cons.mp hd with rfl | hd
      · exact h
      · exact hu d hd
    · next h =>
      refine ⟨[], rfl, by simp, ?_⟩
      intro d hd
      obtain rfl : c = d := by simpa using hd
      exact h

/-- The bytes of a span of the line are those of the word `u`, and it ends there. -/
structure Spells (line : Ptr) (w : Span) (u : Word) : Prop where
  inside : w.1 <:+ line
  bytes : w.1 = u ++ w.2
  plain : ∀ c ∈ u, Plain c
  ends : Ends w.2

/-- What the switch of `gettoken` finds at a byte that is no space. -/
theorem switch_tokens {line : Ptr} {c : UInt8} {t : Ptr} (hc : c ∉ whitespace) (h0 : c ≠ 0)
    (hl : c :: t <:+ line) : ∃ tok, tokens (c :: t) = tok :: tokens (switch (c :: t)).2 ∧
      (switch (c :: t)).1 = tok.code ∧ tok.lead = (if Plain c then 97 else c) ∧
      (switch (c :: t)).2 <:+ t ∧
      ∀ w, tok = .word w → Spells line (c :: t, (switch (c :: t)).2) w := by
  have hd : deref (c :: t) = c := rfl
  have hop : ∀ {tok : Token}, operator c = some tok → ¬ (c = 62 ∧ deref t = 62) →
      tokens (c :: t) = tok :: tokens t := by
    intro tok ho happ
    unfold tokens
    rw [scan_cons [] happ, if_neg hc, ho]
    rfl
  unfold switch
  rw [hd, if_neg h0]
  by_cases hs : c ∈ symbols
  · have hnp : ¬ Plain c := fun h => h.2 hs
    rw [if_neg hnp]
    by_cases h62 : c = 62
    · rw [if_neg (by rw [h62]; decide), if_pos h62]
      by_cases happ : deref t = 62
      · cases t with
        | nil => exact absurd happ (by decide)
        | cons d t =>
          obtain rfl : d = 62 := happ
          subst h62
          refine ⟨.append, ?_, rfl, rfl, List.suffix_cons _ _, by simp⟩
          exact scan_append [] t
      · subst h62
        rw [List.tail_cons, if_neg happ]
        exact ⟨.great, hop rfl (fun h => happ h.2), rfl, rfl, List.suffix_rfl, by simp⟩
    · have hmem : c ∈ [124, 40, 41, 59, 38, 60] := by
        simp only [symbols, List.mem_cons, List.not_mem_nil, or_false] at hs ⊢
        rcases hs with h | h | h | h | h | h | h <;> simp_all
      rw [if_pos hmem]
      cases ho : operator c with
      | none => exact absurd hs (operator_eq_none.mp ho)
      | some tok =>
        obtain ⟨hcode, hlead, hword⟩ := operator_some ho
        exact ⟨tok, hop ho (fun h => h62 h.1), hcode.symm, hlead, List.suffix_rfl,
          fun w hw => absurd hw (hword w)⟩
  · have hp : Plain c := ⟨hc, hs⟩
    have hne : ∀ d ∈ symbols, c ≠ d := fun d hd e => hs (e ▸ hd)
    have hmem : c ∉ [124, 40, 41, 59, 38, 60] := by
      intro h
      simp only [List.mem_cons, List.not_mem_nil, or_false] at h
      rcases h with h | h | h | h | h | h <;> exact hne _ (by decide) h
    rw [if_neg hmem, if_neg (hne 62 (by decide)), if_pos hp]
    obtain ⟨u, hu, hplain, hends⟩ := run_spec (c :: t)
    have hu0 : u ≠ [] := by
      rintro rfl
      rw [List.nil_append] at hu
      rw [← hu] at hends
      exact hends c rfl hp
    refine ⟨.word u, ?_, rfl, rfl, ?_, ?_⟩
    · conv => lhs; rw [hu]
      exact tokens_word hu0 hplain hends
    · show run (c :: t) <:+ t
      rw [run, if_pos (show c ∉ whitespace ∧ c ∉ symbols from hp)]
      obtain ⟨v, hv, -, -⟩ := run_spec t
      exact ⟨v, hv.symm⟩
    · rintro w ⟨⟩
      exact ⟨hl, hu, hplain, hends⟩

/-- `peek` looks at the first token. -/
theorem peek_tokens {toks : List UInt8} (ht : toks ⊆ symbols) {s : Ptr} (h0 : 0 ∉ s) :
    peek toks s = .ok (leads toks (tokens s)) (skip s) := by
  unfold peek
  congr 1
  rw [← tokens_skip s]
  rcases skip_cases s with h | ⟨c, t, h, hc⟩
  · rw [h, tokens_nil]
    rfl
  · have hmem : c ∈ s := (skip_suffix s).subset (by rw [h]; exact List.mem_cons_self)
    have hc0 : c ≠ 0 := fun e => h0 (e ▸ hmem)
    obtain ⟨tok, htok, -, hlead, -⟩ := switch_tokens hc hc0 List.suffix_rfl
    rw [h, htok]
    show decide (c ≠ 0 ∧ c ∈ toks) = decide (tok.lead ∈ toks)
    rw [hlead, decide_eq_decide]
    split
    · next hp =>
      constructor
      · intro h
        exact absurd (ht h.2) hp.2
      · intro h
        exact absurd (ht h) (by decide)
    · exact ⟨fun h => h.2, fun h => ⟨hc0, h⟩⟩

/-- At the end of the line `gettoken` returns 0. -/
theorem gettoken_nil {s : Ptr} (h0 : 0 ∉ s) (h : tokens s = []) :
    gettoken s = .ok (0, [], []) [] := by
  unfold gettoken
  rcases skip_cases s with hs | ⟨c, t, hs, hc⟩
  · rw [hs]
    rfl
  · have hmem : c ∈ s := (skip_suffix s).subset (by rw [hs]; exact List.mem_cons_self)
    obtain ⟨tok, htok, -⟩ := switch_tokens hc (fun e => h0 (e ▸ hmem)) List.suffix_rfl
    rw [← tokens_skip s, hs, htok] at h
    cases h

/-- `gettoken` takes the first token. -/
theorem gettoken_tokens {line s : Ptr} {t : Token} {ts : List Token} (h0 : 0 ∉ s)
    (hl : s <:+ line) (h : tokens s = t :: ts) :
    ∃ w s', gettoken s = .ok (t.code, w) s' ∧ tokens s' = ts ∧ s' <:+ s ∧ s'.length < s.length ∧
      ∀ u, t = .word u → Spells line w u := by
  rcases skip_cases s with hs | ⟨c, r, hs, hc⟩
  · rw [← tokens_skip s, hs, tokens_nil] at h
    cases h
  · have hsuf := skip_suffix s
    rw [hs] at hsuf
    have hmem : c ∈ s := hsuf.subset List.mem_cons_self
    obtain ⟨tok, htok, hcode, -, hrest, hspell⟩ :=
      switch_tokens hc (fun e => h0 (e ▸ hmem)) (hsuf.trans hl)
    rw [← tokens_skip s, hs, htok] at h
    obtain ⟨rfl, hts⟩ := List.cons.inj h
    have htail := (skip_suffix (switch (c :: r)).2).trans hrest
    refine ⟨(c :: r, (switch (c :: r)).2), skip (switch (c :: r)).2, ?_, ?_, ?_, ?_, hspell⟩
    · unfold gettoken
      rw [hs, hcode]
    · rw [tokens_skip, hts]
    · exact htail.trans ((List.suffix_cons c r).trans hsuf)
    · have h1 := htail.length_le
      have h2 := hsuf.length_le
      rw [List.length_cons] at h2
      omega

end Zv6.Sh
