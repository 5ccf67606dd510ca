/-
  The parser accepts exactly the language of the shell.

  `Shows line cmd tree`: the command `cmd` is `tree`, with spans of the line for its words. What
  each parsing function returns is derived by the grammar (the `_sound` lemmas, by induction on
  the depth), and from a cursor in front of something derived, followed by a token that cannot
  belong to it, the function returns just that (the `_complete` lemmas). A function that does
  not return has printed a message (`Fault`): the depth is never used up. `nulterminate` cuts
  the words out of the line without touching another one (`Shows.strings`).
-/
import Mathlib.Data.List.Forall2
import Mathlib.Data.List.Induction
import Zv6.Sh.Grammar

namespace Zv6.Sh

open Lib
open Lib.Text (cstr)

/-- `cmd` is `tree` with spans of the line for words. -/
inductive Shows (line : Ptr) : Cmd Span → Cmd Word → Prop where
  | exec {argv ws} (h : List.Forall₂ (Spells line) argv ws) : Shows line (.exec argv) (.exec ws)
  | redir {c t f w mode fd} (h : Shows line c t) (hf : Spells line f w) :
      Shows line (.redir c f mode fd) (.redir t w mode fd)
  | pipe {c t c' t'} (h : Shows line c t) (h' : Shows line c' t') :
      Shows line (.pipe c c') (.pipe t t')
  | list {c t c' t'} (h : Shows line c t) (h' : Shows line c' t') :
      Shows line (.list c c') (.list t t')
  | back {c t} (h : Shows line c t) : Shows line (.back c) (.back t)

/-- The messages of a syntax error. -/
def faults : List String :=
  ["missing file for redirection", "syntax", "too many args", "syntax - missing )"]

/-- The shell has ended with a message. -/
def Fault (e : Stop Empty) (_ : Ptr) : Prop := ∃ m ∈ faults, e = .panic m

/-- A cursor in a line. -/
structure On (line s : Ptr) : Prop where
  nul : 0 ∉ line
  suffix : s <:+ line

variable {line s s1 s' : Ptr} {ts ts' rest : List Token} {t : Cmd Word} {c : Cmd Span} {w : Span}
  {u : Word} {rs : List Redir} {ws : List Word}

theorem On.trans (h : On line s) (hs : s' <:+ s) : On line s' :=
  ⟨h.nul, hs.trans h.suffix⟩

theorem On.not_mem (h : On line s) : 0 ∉ s := fun h0 => h.nul (h.suffix.subset h0)

theorem leads_cons {toks : List UInt8} (h : leads toks ts = true) :
    ∃ t ts', ts = t :: ts' ∧ t.lead ∈ toks := by
  cases ts with
  | nil => cases h
  | cons t ts => exact ⟨t, ts, rfl, of_decide_eq_true h⟩

theorem code_word {t : Token} (h : t.code = 97) : ∃ u, t = .word u := by
  cases t with
  | word u => exact ⟨u, rfl⟩
  | _ => exact absurd h (by decide)

theorem code_ne_zero (t : Token) : t.code ≠ 0 := by
  cases t <;> simp [Token.code]

/-- The token of one operator. -/
theorem lead_eq {t t' : Token} (h : t.lead = t'.lead) (ht : t ∈ [.bar, .lpar, .rpar, .semi, .amp])
    : t' = t := by
  simp only [List.mem_cons, List.not_mem_nil, or_false] at ht
  rcases ht with rfl | rfl | rfl | rfl | rfl
  all_goals cases t' <;> first | rfl | exact absurd h (by simp [Token.lead, Token.code])

section Rules

variable {α : Type} {toks : List UInt8} {m m' : P α} {Q : α → Ptr → Prop}
  {E : Stop Empty → Ptr → Prop}

/-- A test for the next token. -/
theorem wp_peek (hs : On line s) (ht : toks ⊆ symbols)
    (hm : ∀ s', s' <:+ s → tokens s' = tokens s → leads toks (tokens s) = true → wp m Q E s')
    (hm' : ∀ s', s' <:+ s → tokens s' = tokens s → leads toks (tokens s) = false → wp m' Q E s') :
    wp (peek toks >>= fun b => if b = true then m else m') Q E s := by
  rw [wp_bind]
  refine (wp_of_ok (peek_tokens ht hs.not_mem)).mpr ?_
  cases hl : leads toks (tokens s) with
  | true => exact hm _ (skip_suffix s) (tokens_skip s) hl
  | false => exact hm' _ (skip_suffix s) (tokens_skip s) hl

/-- A test that fails. -/
theorem wp_peek_false (hs : On line s) (ht : toks ⊆ symbols) (hl : leads toks (tokens s) = false)
    (hm' : ∀ s', s' <:+ s → tokens s' = tokens s → wp m' Q E s') :
    wp (peek toks >>= fun b => if b = true then m else m') Q E s := by
  refine wp_peek hs ht (fun _ _ _ h => ?_) fun s' h1 h2 _ => hm' s' h1 h2
  rw [hl] at h
  cases h

/-- The next token is taken. -/
theorem wp_gettoken {f : UInt8 × Span → P α} (hs : On line s)
    (hn : tokens s = [] → wp (f (0, [], [])) Q E [])
    (hc : ∀ t w s', tokens s = t :: tokens s' → s' <:+ s → s'.length < s.length →
      (∀ u, t = .word u → Spells line w u) → wp (f (t.code, w)) Q E s') :
    wp (gettoken >>= f) Q E s := by
  rw [wp_bind]
  cases ht : tokens s with
  | nil => exact (wp_of_ok (gettoken_nil hs.not_mem ht)).mpr (hn ht)
  | cons t ts =>
    obtain ⟨w, s', hrun, hts, hsuf, hlen, hw⟩ := gettoken_tokens hs.not_mem hs.suffix ht
    refine (wp_of_ok hrun).mpr (hc t w s' ?_ hsuf hlen hw)
    rw [ht, hts]

/-- The next token is taken and known. -/
theorem wp_gettoken_cons {f : UInt8 × Span → P α} {t : Token} (hs : On line s)
    (ht : tokens s = t :: ts)
    (hc : ∀ w s', tokens s' = ts → s' <:+ s → s'.length < s.length →
      (∀ u, t = .word u → Spells line w u) → wp (f (t.code, w)) Q E s') :
    wp (gettoken >>= f) Q E s := by
  refine wp_gettoken hs (fun h => ?_) fun t' w s' ht' hsuf hlen hw => ?_
  · rw [ht] at h
    cases h
  · rw [ht] at ht'
    obtain ⟨rfl, rfl⟩ := List.cons.inj ht'
    exact hc w s' rfl hsuf hlen hw

/-- The operator `op` is taken if it comes next. -/
theorem wp_eat (op : Token) (hop : op ∈ [.bar, .lpar, .rpar, .semi, .amp]) (hs : On line s)
    (hm : ∀ s', tokens s = op :: tokens s' → s' <:+ s → s'.length < s.length → wp m Q E s')
    (hm' : ∀ s', s' <:+ s → tokens s' = tokens s → leads [op.lead] (tokens s) = false →
      wp m' Q E s') :
    wp (peek [op.lead] >>= fun b => if b = true then gettoken >>= fun _ => m else m') Q E s := by
  have hsym : [op.lead] ⊆ symbols := by
    simp only [List.mem_cons, List.not_mem_nil, or_false] at hop
    rcases hop with rfl | rfl | rfl | rfl | rfl <;> decide
  refine wp_peek hs hsym (fun s1 hs1 ht1 hlead => ?_) hm'
  obtain ⟨tok, ts, hts, hmem⟩ := leads_cons hlead
  obtain rfl : tok = op := lead_eq (List.mem_singleton.mp hmem).symm hop
  refine wp_gettoken_cons (hs.trans hs1) (ht1.trans hts) fun _ s2 ht2 hs2 hlen2 _ => ?_
  exact hm s2 (by rw [hts, ht2]) (hs2.trans hs1) (Nat.lt_of_lt_of_le hlen2 hs1.length_le)

/-- It does. -/
theorem wp_eat_cons (op : Token) (hop : op ∈ [.bar, .lpar, .rpar, .semi, .amp]) (hs : On line s)
    (ht : tokens s = op :: ts)
    (hm : ∀ s', tokens s' = ts → s' <:+ s → s'.length < s.length → wp m Q E s') :
    wp (peek [op.lead] >>= fun b => if b = true then gettoken >>= fun _ => m else m') Q E s := by
  refine wp_eat op hop hs (fun s' ht' => ?_) fun _ _ _ hl => ?_
  · rw [ht] at ht'
    exact hm s' (List.cons.inj ht').2.symm
  · rw [ht] at hl
    exact absurd (List.mem_singleton_self _) (of_decide_eq_false hl)

theorem wp_fault {msg : String} (h : msg ∈ faults) : wp (Exec.panic msg) Q Fault s :=
  ⟨msg, h, rfl⟩

end Rules

/-! ## Redirections -/

/-- The code has read the redirections around `t`, from `s` up to `s'`. -/
def Redirected (line s : Ptr) (t : Cmd Word) (c : Cmd Span) (s' : Ptr) : Prop :=
  ∃ ts rs, s' <:+ s ∧ tokens s = ts ++ tokens s' ∧ IsRedirs ts rs ∧ Shows line c (t.wrap rs)

/-- The code has read `t`, from `s` up to `s'` and the tokens `rest`. -/
def Reads (line s : Ptr) (t : Cmd Word) (rest : List Token) (c : Cmd Span) (s' : Ptr) : Prop :=
  s' <:+ s ∧ tokens s' = rest ∧ Shows line c t

theorem Reads.back (h : Reads line s1 t rest c s') (hs : s1 <:+ s) : Reads line s t rest c s' :=
  ⟨h.1.trans hs, h.2⟩

/-- The code returns and has read `t`. -/
def Surely (m : P (Cmd Span)) (line s : Ptr) (t : Cmd Word) (rest : List Token) : Prop :=
  wp m (Reads line s t rest) (fun _ _ => False) s

theorem wrap_append (t : Cmd Word) (rs rs' : List Redir) :
    t.wrap (rs ++ rs') = (t.wrap rs).wrap rs' := List.foldl_append

theorem redirLoop_sound (n : Nat) : ∀ (s : Ptr) (c : Cmd Span) (t : Cmd Word), On line s →
    s.length < n → Shows line c t → wp (redirLoop n c) (Redirected line s t) Fault s := by
  induction n with
  | zero =>
    intro s c t _ hlen
    omega
  | succ n ih =>
    intro s c t hs hlen hc
    unfold redirLoop
    apply wp_peek hs (by decide)
    · intro s1 hs1 ht1 hlead
      obtain ⟨tok, ts, hts, hmem⟩ := leads_cons hlead
      apply wp_gettoken_cons (hs.trans hs1) (ht1.trans hts)
      intro _ s2 ht2 hs2 hlen2 _
      have hle1 := hs1.length_le
      have hsuf2 := hs2.trans hs1
      apply wp_gettoken (hs.trans hsuf2)
      · intro _
        show wp (if (0 : UInt8) ≠ 97 then Exec.panic _ else _) _ _ _
        rw [if_pos (by decide)]
        exact wp_fault (by decide)
      intro tok' w s3 ht3 hs3 hlen3 hw
      show wp (if tok'.code ≠ 97 then Exec.panic _ else redirLoop n (redirect tok.code c w)) _ _ s3
      apply wp_ite
      · intro _
        exact wp_fault (by decide)
      intro hcode
      obtain ⟨u, rfl⟩ := code_word (not_not.mp hcode)
      have hsp := hw u rfl
      have hsuf := hs3.trans hsuf2
      -- the three operators differ in what `redirect` does
      have hgo : ∀ mode fd, redirect tok.code c w = .redir c w mode fd →
          (∀ ts rs, IsRedirs ts rs → IsRedirs (tok :: .word u :: ts) (⟨u, mode, fd⟩ :: rs)) →
          wp (redirLoop n (redirect tok.code c w)) (Redirected line s t) Fault s3 := by
        intro mode fd he hcons
        rw [he]
        refine (ih s3 _ (.redir t u mode fd) (hs.trans hsuf) (by omega) (.redir hc hsp)).post ?_
        rintro c' s' ⟨ts', rs, hs', ht', hr, hsh⟩
        refine ⟨_, _, hs'.trans hsuf, ?_, hcons ts' rs hr, hsh⟩
        rw [hts, ← ht2, ht3, ht']
        rfl
      cases tok with
      | less => exact hgo 0 0 rfl fun _ _ h => .less h
      | great => exact hgo 0x201 1 rfl fun _ _ h => .great h
      | append => exact hgo 0x201 1 rfl fun _ _ h => .append h
      | _ => exact absurd hmem (by simp [Token.lead, Token.code])
    · intro s1 hs1 ht1 _
      exact ⟨[], [], hs1, ht1.symm, .nil, hc⟩

/-- The loop reads the redirections `ts`. -/
def LoopReads (line : Ptr) (ts : List Token) (rs : List Redir) : Prop :=
  ∀ (n : Nat) (s : Ptr) (c : Cmd Span) (t : Cmd Word) (rest : List Token), On line s →
    s.length < n → Shows line c t → tokens s = ts ++ rest → leads [60, 62] rest = false →
    Surely (redirLoop n c) line s (t.wrap rs) rest

/-- One redirection, then the rest. -/
theorem LoopReads.cons {tok : Token} {mode fd : Nat} (ih : LoopReads line ts rs)
    (hmem : tok.lead ∈ [60, 62]) (hred : ∀ c w, redirect tok.code c w = .redir c w mode fd) :
    LoopReads line (tok :: .word u :: ts) (⟨u, mode, fd⟩ :: rs) := by
  intro n s c t rest hs hlen hc htok hrest
  obtain ⟨n, rfl⟩ : ∃ k, n = k + 1 := ⟨n - 1, by omega⟩
  unfold redirLoop
  apply wp_peek hs (by decide)
  · intro s1 hs1 ht1 _
    apply wp_gettoken_cons (hs.trans hs1) (ht1.trans htok)
    intro _ s2 ht2 hs2 hlen2 _
    have hle1 := hs1.length_le
    have hsuf2 := hs2.trans hs1
    apply wp_gettoken_cons (hs.trans hsuf2) ht2
    intro w s3 ht3 hs3 hlen3 hw
    have hsuf := hs3.trans hsuf2
    show wp (if Token.code (.word u) ≠ 97 then _ else redirLoop n (redirect tok.code c w)) _ _ s3
    rw [if_neg (by simp [Token.code]), hred]
    exact (ih n s3 _ (.redir t u mode fd) rest (hs.trans hsuf) (by omega)
      (.redir hc (hw u rfl)) ht3 hrest).post fun _ _ h => h.back hsuf
  · intro _ _ _ hl
    rw [htok] at hl
    exact absurd hmem (of_decide_eq_false hl)

theorem redirLoop_complete (hr : IsRedirs ts rs) : LoopReads line ts rs := by
  induction hr with
  | nil =>
    intro n s c t rest hs hlen hc htok hrest
    obtain ⟨n, rfl⟩ : ∃ k, n = k + 1 := ⟨n - 1, by omega⟩
    unfold redirLoop
    rw [List.nil_append] at htok
    exact wp_peek_false hs (by decide) (by rwa [htok]) fun s1 hs1 ht1 => ⟨hs1, ht1.trans htok, hc⟩
  | less _ ih | great _ ih | append _ ih => exact ih.cons (by decide) fun _ _ => rfl

theorem parseredirs_sound (hs : On line s) (hc : Shows line c t) :
    wp (parseredirs c) (Redirected line s t) Fault s := by
  apply (wp_congr (m := parseredirs c) (n := redirLoop (s.length + 1) c) rfl).mpr
  exact redirLoop_sound (s.length + 1) s c t hs (Nat.lt_succ_self _) hc

theorem parseredirs_complete (hr : IsRedirs ts rs) (hs : On line s) (hc : Shows line c t)
    (ht : tokens s = ts ++ rest) (hrest : leads [60, 62] rest = false) :
    Surely (parseredirs c) line s (t.wrap rs) rest := by
  apply (wp_congr (m := parseredirs c) (n := redirLoop (s.length + 1) c) rfl).mpr
  exact redirLoop_complete hr (s.length + 1) s c t rest hs (Nat.lt_succ_self _) hc ht hrest

/-! ## Words -/

/-- A word goes into the EXEC node inside the redirections. -/
theorem Shows.push : ∀ {c : Cmd Span} {ws : List Word} {w : Span} {u : Word},
    Shows line c ((Cmd.exec ws).wrap rs) → Spells line w u →
      Shows line (c.push w) ((Cmd.exec (ws ++ [u])).wrap rs) := by
  induction rs using List.reverseRecOn with
  | nil =>
    intro c ws w u h hw
    cases h with
    | exec h => exact .exec (List.rel_append h (.cons hw .nil))
  | append_singleton rs r ih =>
    intro c ws w u h hw
    rw [wrap_append] at h ⊢
    cases h with
    | redir h hf => exact .redir (ih h hw) hf

theorem argLoop_sound (n : Nat) : ∀ (s : Ptr) (c : Cmd Span) (ws : List Word)
    (rs : List Redir), On line s → s.length < n → ws.length < 10 →
    Shows line c ((Cmd.exec ws).wrap rs) →
      wp (argLoop n ws.length c) (fun c' s' => ∃ ts ws' rs', s' <:+ s ∧
        tokens s = ts ++ tokens s' ∧ IsWords ts ws' rs' ∧ (ws ++ ws').length < 10 ∧
        Shows line c' ((Cmd.exec (ws ++ ws')).wrap (rs ++ rs'))) Fault s := by
  induction n with
  | zero =>
    intro s c ws rs _ hlen
    omega
  | succ n ih =>
    intro s c ws rs hs hlen hn hc
    have hdone : ∀ s', s' <:+ s → tokens s' = tokens s → ∃ ts ws' rs', s' <:+ s ∧
        tokens s = ts ++ tokens s' ∧ IsWords ts ws' rs' ∧ (ws ++ ws').length < 10 ∧
        Shows line c ((Cmd.exec (ws ++ ws')).wrap (rs ++ rs')) := by
      intro s' hs' ht'
      refine ⟨[], [], [], hs', ht'.symm, .nil, ?_, ?_⟩
      · rwa [List.append_nil]
      · rwa [List.append_nil, List.append_nil]
    unfold argLoop
    apply wp_peek hs (by decide)
    · intro s1 hs1 ht1 _
      exact hdone s1 hs1 ht1
    intro s1 hs1 ht1 _
    have hle1 := hs1.length_le
    apply wp_gettoken (hs.trans hs1)
    · intro hnil
      exact hdone [] (List.nil_suffix) (by rw [tokens_nil, ← ht1, hnil])
    intro tok w s2 ht2 hs2 hlen2 hw
    refine wp_ite (fun h => absurd h (code_ne_zero tok)) fun _ => ?_
    apply wp_ite
    · intro _
      exact wp_fault (by decide)
    intro hcode
    apply wp_ite
    · intro _
      exact wp_fault (by decide)
    intro hargc
    obtain ⟨u, rfl⟩ := code_word (not_not.mp hcode)
    have hsuf := hs2.trans hs1
    refine (parseredirs_sound (hs.trans hsuf) (hc.push (hw u rfl))).bind ?_
    rintro c1 s3 ⟨ts1, rs1, hs3, ht3, hr1, hsh⟩
    have hle3 := hs3.length_le
    have hlen' : (ws ++ [u]).length = ws.length + 1 := by simp
    rw [← wrap_append] at hsh
    rw [← hlen']
    refine (ih s3 c1 (ws ++ [u]) (rs ++ rs1) (hs.trans (hs3.trans hsuf)) (by omega)
      (by omega) hsh).post ?_
    rintro c' s' ⟨ts2, ws2, rs2, hs', ht', hwords, hlt, hsh'⟩
    refine ⟨_, u :: ws2, rs1 ++ rs2, hs'.trans (hs3.trans hsuf), ?_, .cons hr1 hwords, ?_, ?_⟩
    · rw [← ht1, ht2, ht3, ht', List.cons_append, List.append_assoc]
    · rwa [List.append_assoc] at hlt
    · rwa [List.append_assoc, List.append_assoc] at hsh'

/-- The list ends or one of `toks` comes next. -/
def Stops (toks : List UInt8) (rest : List Token) : Prop := rest = [] ∨ leads toks rest = true

theorem Stops.not_leads {toks toks' : List UInt8} (h : Stops toks rest)
    (hd : (toks.all fun c => decide (c ∉ toks')) = true) : leads toks' rest = false := by
  rcases h with rfl | h
  · rfl
  · obtain ⟨t, ts, rfl, hmem⟩ := leads_cons h
    exact decide_eq_false (of_decide_eq_true (List.all_eq_true.mp hd _ hmem))

theorem Stops.mono {toks toks' : List UInt8} (h : Stops toks rest) (hsub : toks ⊆ toks') :
    Stops toks' rest := by
  rcases h with rfl | h
  · exact Or.inl rfl
  · obtain ⟨t, ts, rfl, hmem⟩ := leads_cons h
    exact Or.inr (decide_eq_true (hsub hmem))

/-- Behind a redirection comes a word or what follows the command. -/
theorem IsWords.not_redir (h : IsWords ts ws rs) (hrest : Stops [124, 41, 38, 59] rest) :
    leads [60, 62] (ts ++ rest) = false := by
  cases h with
  | nil => exact hrest.not_leads (by decide)
  | cons _ _ => rfl

theorem argLoop_complete (h : IsWords ts ws rs) :
    ∀ (n : Nat) (s : Ptr) (c : Cmd Span) (ws0 : List Word)
    (rs0 : List Redir) (rest : List Token), On line s → s.length < n →
    (ws0 ++ ws).length < 10 → Shows line c ((Cmd.exec ws0).wrap rs0) → tokens s = ts ++ rest →
    Stops [124, 41, 38, 59] rest → Surely (argLoop n ws0.length c) line s
      ((Cmd.exec (ws0 ++ ws)).wrap (rs0 ++ rs)) rest := by
  induction h with
  | nil =>
    intro n s c ws0 rs0 rest hs hlen _ hc ht hrest
    obtain ⟨n, rfl⟩ : ∃ k, n = k + 1 := ⟨n - 1, by omega⟩
    rw [List.append_nil, List.append_nil]
    unfold argLoop
    apply wp_peek hs (by decide)
    · intro s1 hs1 ht1 _
      exact ⟨hs1, ht1.trans ht, hc⟩
    · intro s1 hs1 ht1 hl
      rw [ht, List.nil_append] at hl ht1
      rcases hrest with rfl | hrest
      · apply wp_gettoken (hs.trans hs1)
        · intro _
          exact ⟨List.nil_suffix, tokens_nil, hc⟩
        · intro t w s' ht'
          rw [ht1] at ht'
          cases ht'
      · rw [hrest] at hl
        cases hl
  | cons hr hw ih =>
    rename_i u ts rs ts' ws rs'
    intro n s c ws0 rs0 rest hs hlen hn hc ht hrest
    obtain ⟨n, rfl⟩ : ∃ k, n = k + 1 := ⟨n - 1, by omega⟩
    unfold argLoop
    apply wp_peek hs (by decide)
    · intro _ _ _ hl
      rw [ht] at hl
      exact absurd hl (by simp [leads, Token.lead, Token.code])
    intro s1 hs1 ht1 _
    have hle1 := hs1.length_le
    apply wp_gettoken_cons (hs.trans hs1) (ht1.trans ht)
    intro w s2 ht2 hs2 hlen2 hsp
    have hlen' : (ws0 ++ [u]).length = ws0.length + 1 := by simp
    have hargc : ws0.length + 1 < 10 := by
      rw [List.length_append, List.length_cons] at hn
      omega
    show wp (if Token.code (.word u) = 0 then _ else if Token.code (.word u) ≠ 97 then _
      else if 10 ≤ ws0.length + 1 then _ else _) _ _ s2
    rw [if_neg (by simp [Token.code]), if_neg (by simp [Token.code]), if_neg (by omega)]
    have hsuf := hs2.trans hs1
    refine (parseredirs_complete hr (hs.trans hsuf) (hc.push (hsp u rfl))
      (ht2.trans (List.append_assoc ..)) (hw.not_redir hrest)).bind ?_
    rintro c1 s3 ⟨hs3, ht3, hsh⟩
    have hle3 := hs3.length_le
    rw [← wrap_append] at hsh
    rw [← hlen']
    refine (ih n s3 c1 (ws0 ++ [u]) (rs0 ++ rs) rest (hs.trans (hs3.trans hsuf)) (by omega)
      (by rwa [List.append_assoc]) hsh ht3 hrest).post ?_
    intro c' s' h'
    rw [List.append_assoc, List.append_assoc] at h'
    exact h'.back (hs3.trans hsuf)

/-! ## Background commands -/

theorem backs_succ {ω : Type} (c : Cmd ω) (n : Nat) : c.backs (n + 1) = (Cmd.back c).backs n := by
  induction n with
  | zero => rfl
  | succ n ih =>
    show Cmd.back (c.backs (n + 1)) = Cmd.back ((Cmd.back c).backs n)
    rw [ih]

theorem backLoop_sound (n : Nat) : ∀ (s : Ptr) (c : Cmd Span) (t : Cmd Word),
    On line s → s.length < n → Shows line c t →
      wp (backLoop n c) (fun c' s' => ∃ k, s' <:+ s ∧
        tokens s = List.replicate k .amp ++ tokens s' ∧ Shows line c' (t.backs k)) Fault s := by
  induction n with
  | zero =>
    intro s c t _ hlen
    omega
  | succ n ih =>
    intro s c t hs hlen hc
    unfold backLoop
    apply wp_eat .amp (by decide) hs
    · intro s1 ht1 hs1 hlen1
      refine (ih s1 (.back c) (.back t) (hs.trans hs1) (by omega) (.back hc)).post ?_
      rintro c' s' ⟨k, hs', ht', hsh⟩
      refine ⟨k + 1, hs'.trans hs1, ?_, ?_⟩
      · rw [ht1, ht']
        rfl
      · rwa [backs_succ]
    · intro s1 hs1 ht1 _
      exact ⟨0, hs1, ht1.symm, hc⟩

theorem backLoop_complete (k : Nat) : ∀ (n : Nat) (s : Ptr) (c : Cmd Span)
    (t : Cmd Word) (rest : List Token), On line s → s.length < n → Shows line c t →
    tokens s = List.replicate k .amp ++ rest → leads [38] rest = false →
      Surely (backLoop n c) line s (t.backs k) rest := by
  induction k with
  | zero =>
    intro n s c t rest hs hlen hc ht hrest
    obtain ⟨n, rfl⟩ : ∃ k, n = k + 1 := ⟨n - 1, by omega⟩
    unfold backLoop
    rw [List.replicate_zero, List.nil_append] at ht
    exact wp_peek_false hs (by decide) (by rwa [ht]) fun s1 hs1 ht1 => ⟨hs1, ht1.trans ht, hc⟩
  | succ k ih =>
    intro n s c t rest hs hlen hc ht hrest
    obtain ⟨n, rfl⟩ : ∃ k, n = k + 1 := ⟨n - 1, by omega⟩
    unfold backLoop
    apply wp_eat_cons .amp (by decide) hs ht
    intro s1 ht1 hs1 hlen1
    rw [backs_succ]
    exact (ih n s1 (.back c) (.back t) rest (hs.trans hs1) (by omega) (.back hc) ht1
      hrest).post fun _ _ h => h.back hs1

/-! ## Commands -/

/-- From the cursor `s` the code has read something that `R` derives, up to `s'`. -/
def Parsed (R : List Token → Cmd Word → Prop) (line s : Ptr) (c : Cmd Span) (s' : Ptr) : Prop :=
  ∃ ts t, s' <:+ s ∧ tokens s = ts ++ tokens s' ∧ R ts t ∧ Shows line c t

/-- The parsing functions at one depth return what the grammar derives. -/
structure Sound (line : Ptr) (n : Nat) : Prop where
  lines : ∀ s, On line s → 4 * s.length + 4 ≤ n → wp (parseline n) (Parsed IsLine line s) Fault s
  pipes : ∀ s, On line s → 4 * s.length + 3 ≤ n → wp (parsepipe n) (Parsed IsPipe line s) Fault s
  execs : ∀ s, On line s → 4 * s.length + 2 ≤ n → wp (parseexec n) (Parsed IsExec line s) Fault s
  blocks : ∀ s, On line s → 4 * s.length + 1 ≤ n → leads [40] (tokens s) = true →
    wp (parseblock n) (Parsed IsExec line s) Fault s

/-- From a cursor in front of something derived, and of a token that ends it, the parsing
    functions at one depth return just that. -/
structure Complete (line : Ptr) (n : Nat) : Prop where
  lines : ∀ s ts t rest, On line s → 4 * s.length + 4 ≤ n → IsLine ts t →
    tokens s = ts ++ rest → Stops [41] rest → Surely (parseline n) line s t rest
  pipes : ∀ s ts t rest, On line s → 4 * s.length + 3 ≤ n → IsPipe ts t →
    tokens s = ts ++ rest → Stops [41, 38, 59] rest → Surely (parsepipe n) line s t rest
  execs : ∀ s ts t rest, On line s → 4 * s.length + 2 ≤ n → IsExec ts t →
    tokens s = ts ++ rest → Stops [124, 41, 38, 59] rest → Surely (parseexec n) line s t rest
  blocks : ∀ s ts t ts' rs rest, On line s → 4 * s.length + 1 ≤ n → IsLine ts t →
    IsRedirs ts' rs → tokens s = .lpar :: (ts ++ .rpar :: ts') ++ rest →
    Stops [124, 41, 38, 59] rest → Surely (parseblock n) line s (t.wrap rs) rest

section Depth

variable {n : Nat}

theorem Sound.parseline (h : Sound line n) (hs : On line s) (hn : 4 * s.length + 4 ≤ n + 1) :
    wp (parseline (n + 1)) (Parsed IsLine line s) Fault s := by
  unfold Sh.parseline
  refine (h.pipes s hs (by omega)).bind ?_
  rintro c1 s1 ⟨ts, t, hs1, ht1, hp, hsh⟩
  refine (backLoop_sound _ s1 c1 t (hs.trans hs1) (Nat.lt_succ_self _) hsh).bind ?_
  rintro c2 s2 ⟨k, hs2, ht2, hsh2⟩
  have hsuf := hs2.trans hs1
  have hle := hsuf.length_le
  apply wp_eat .semi (by decide) (hs.trans hsuf)
  · intro s3 ht3 hs3 hlen3
    have hsuf3 := hs3.trans hsuf
    refine (h.lines s3 (hs.trans hsuf3) (by omega)).bind ?_
    rintro c4 s4 ⟨ts4, t4, hs4, ht4, hl4, hsh4⟩
    refine ⟨_, _, hs4.trans hsuf3, ?_, .more hp hl4, .list hsh2 hsh4⟩
    rw [ht1, ht2, ht3, ht4]
    simp only [List.append_assoc, List.cons_append]
  · intro s3 hs3 ht3 _
    refine ⟨_, _, hs3.trans hsuf, ?_, .last hp, hsh2⟩
    rw [ht1, ht2, ht3, List.append_assoc]

theorem Sound.parsepipe (h : Sound line n) (hs : On line s) (hn : 4 * s.length + 3 ≤ n + 1) :
    wp (parsepipe (n + 1)) (Parsed IsPipe line s) Fault s := by
  unfold Sh.parsepipe
  refine (h.execs s hs (by omega)).bind ?_
  rintro c1 s1 ⟨ts, t, hs1, ht1, hp, hsh⟩
  have hle1 := hs1.length_le
  apply wp_eat .bar (by decide) (hs.trans hs1)
  · intro s2 ht2 hs2 hlen2
    have hsuf := hs2.trans hs1
    refine (h.pipes s2 (hs.trans hsuf) (by omega)).bind ?_
    rintro c3 s3 ⟨ts3, t3, hs3, ht3, hp3, hsh3⟩
    refine ⟨_, _, hs3.trans hsuf, ?_, .more hp hp3, .pipe hsh hsh3⟩
    rw [ht1, ht2, ht3]
    simp only [List.append_assoc, List.cons_append]
  · intro s2 hs2 ht2 _
    exact ⟨_, _, hs2.trans hs1, by rw [ht1, ht2], .last hp, hsh⟩

theorem Sound.parseexec (h : Sound line n) (hs : On line s) (hn : 4 * s.length + 2 ≤ n + 1) :
    wp (parseexec (n + 1)) (Parsed IsExec line s) Fault s := by
  unfold Sh.parseexec
  apply wp_peek hs (by decide)
  · intro s1 hs1 ht1 hlead
    have hle1 := hs1.length_le
    refine (h.blocks s1 (hs.trans hs1) (by omega) (by rwa [ht1])).post ?_
    rintro c' s' ⟨ts, t, hs', ht', hp, hsh⟩
    exact ⟨ts, t, hs'.trans hs1, ht1.symm.trans ht', hp, hsh⟩
  · intro s1 hs1 ht1 _
    unfold parsewords
    refine (parseredirs_sound (hs.trans hs1) (.exec .nil)).bind ?_
    rintro c2 s2 ⟨ts2, rs2, hs2, ht2, hr2, hsh2⟩
    have hsuf := hs2.trans hs1
    refine (argLoop_sound _ s2 c2 [] rs2 (hs.trans hsuf) (Nat.lt_succ_self _) (by decide)
      hsh2).post ?_
    rintro c3 s3 ⟨ts3, ws, rs3, hs3, ht3, hw, hlt, hsh3⟩
    refine ⟨_, _, hs3.trans hsuf, ?_, .words hr2 hw hlt, hsh3⟩
    rw [← ht1, ht2, ht3, List.append_assoc]

theorem Sound.parseblock (h : Sound line n) (hs : On line s) (hn : 4 * s.length + 1 ≤ n + 1)
    (hl : leads [40] (tokens s) = true) :
    wp (parseblock (n + 1)) (Parsed IsExec line s) Fault s := by
  unfold Sh.parseblock
  apply wp_eat .lpar (by decide) hs
  · intro s1 ht1 hs1 hlen1
    refine (h.lines s1 (hs.trans hs1) (by omega)).bind ?_
    rintro c2 s2 ⟨ts2, t2, hs2, ht2, hl2, hsh2⟩
    have hsuf2 := hs2.trans hs1
    apply wp_eat .rpar (by decide) (hs.trans hsuf2)
    · intro s3 ht3 hs3 _
      have hsuf3 := hs3.trans hsuf2
      refine (parseredirs_sound (hs.trans hsuf3) hsh2).post ?_
      rintro c4 s4 ⟨ts4, rs4, hs4, ht4, hr4, hsh4⟩
      refine ⟨_, _, hs4.trans hsuf3, ?_, .block hl2 hr4, hsh4⟩
      rw [ht1, ht2, ht3, ht4]
      simp only [List.append_assoc, List.cons_append]
    · intro _ _ _ _
      exact wp_fault (by decide)
  · intro _ _ _ hl'
    exact absurd (hl.symm.trans hl') (by decide)

theorem parse_sound (n : Nat) : Sound line n := by
  induction n with
  | zero => exact ⟨fun _ _ h => by omega, fun _ _ h => by omega, fun _ _ h => by omega,
      fun _ _ h => by omega⟩
  | succ n ih => exact ⟨fun _ => ih.parseline, fun _ => ih.parsepipe, fun _ => ih.parseexec,
      fun _ => ih.parseblock⟩

/-- A pipe and its `&`s, in front of something that is neither. -/
theorem Complete.head {k : Nat} {m : Cmd Span → P (Cmd Span)} {Q : Cmd Span → Ptr → Prop}
    (h : Complete line n) (hs : On line s) (hn : 4 * s.length + 4 ≤ n + 1) (hp : IsPipe ts t)
    (ht : tokens s = ts ++ (List.replicate k .amp ++ rest)) (hrest : Stops [41, 59] rest)
    (hm : ∀ c s', s' <:+ s → tokens s' = rest → Shows line c (t.backs k) →
      wp (m c) Q (fun _ _ => False) s') :
    wp (parsepipe n >>= fun c => parsebacks c >>= m) Q (fun _ _ => False) s := by
  have hstop : Stops [41, 38, 59] (List.replicate k .amp ++ rest) := by
    cases k with
    | zero => exact hrest.mono (by decide)
    | succ k => exact Or.inr rfl
  refine (h.pipes s ts t _ hs (by omega) hp ht hstop).bind ?_
  rintro c1 s1 ⟨hs1, ht1, hsh1⟩
  refine (backLoop_complete k _ s1 c1 t rest (hs.trans hs1) (Nat.lt_succ_self _) hsh1 ht1
    (hrest.not_leads (by decide))).bind ?_
  rintro c2 s2 ⟨hs2, ht2, hsh2⟩
  exact hm c2 s2 (hs2.trans hs1) ht2 hsh2

theorem Complete.parseline (h : Complete line n) (hs : On line s) (hn : 4 * s.length + 4 ≤ n + 1)
    (hd : IsLine ts t) (ht : tokens s = ts ++ rest) (hrest : Stops [41] rest) :
    Surely (parseline (n + 1)) line s t rest := by
  unfold Sh.parseline
  cases hd with
  | last hp =>
    apply h.head hs hn hp (by rw [ht, List.append_assoc]) (hrest.mono (by decide))
    intro c s1 hs1 ht1 hsh
    apply wp_peek_false (hs.trans hs1) (by decide) (by rw [ht1, hrest.not_leads (by decide)])
    intro s2 hs2 ht2
    exact ⟨hs2.trans hs1, ht2.trans ht1, hsh⟩
  | @more ts1 t1 k ts2 t2 hp hl' =>
    have ht' : tokens s = ts1 ++ (List.replicate k .amp ++ .semi :: (ts2 ++ rest)) := by
      rw [ht]
      simp only [List.append_assoc, List.cons_append]
    apply h.head hs hn hp ht' (Or.inr rfl)
    intro c s1 hs1 ht1 hsh
    have hle1 := hs1.length_le
    apply wp_eat_cons .semi (by decide) (hs.trans hs1) ht1
    intro s2 ht2 hs2 hlen2
    have hsuf := hs2.trans hs1
    refine (h.lines s2 ts2 t2 rest (hs.trans hsuf) (by omega) hl' ht2 hrest).bind ?_
    rintro c3 s3 ⟨hs3, ht3, hsh3⟩
    exact ⟨hs3.trans hsuf, ht3, .list hsh hsh3⟩

theorem Complete.parsepipe (h : Complete line n) (hs : On line s) (hn : 4 * s.length + 3 ≤ n + 1)
    (hd : IsPipe ts t) (ht : tokens s = ts ++ rest) (hrest : Stops [41, 38, 59] rest) :
    Surely (parsepipe (n + 1)) line s t rest := by
  unfold Sh.parsepipe
  cases hd with
  | last hp =>
    refine (h.execs s ts t rest hs (by omega) hp ht (hrest.mono (by decide))).bind ?_
    rintro c1 s1 ⟨hs1, ht1, hsh1⟩
    apply wp_peek_false (hs.trans hs1) (by decide) (by rw [ht1, hrest.not_leads (by decide)])
    intro s2 hs2 ht2
    exact ⟨hs2.trans hs1, ht2.trans ht1, hsh1⟩
  | @more ts1 t1 ts2 t2 hp hp' =>
    refine (h.execs s ts1 t1 (.bar :: (ts2 ++ rest)) hs (by omega) hp
      (by rw [ht, List.append_assoc]; rfl) (Or.inr rfl)).bind ?_
    rintro c1 s1 ⟨hs1, ht1, hsh1⟩
    have hle1 := hs1.length_le
    apply wp_eat_cons .bar (by decide) (hs.trans hs1) ht1
    intro s2 ht2 hs2 hlen2
    have hsuf := hs2.trans hs1
    refine (h.pipes s2 ts2 t2 rest (hs.trans hsuf) (by omega) hp' ht2 hrest).bind ?_
    rintro c3 s3 ⟨hs3, ht3, hsh3⟩
    exact ⟨hs3.trans hsuf, ht3, .pipe hsh1 hsh3⟩

theorem Complete.parseexec (h : Complete line n) (hs : On line s) (hn : 4 * s.length + 2 ≤ n + 1)
    (hd : IsExec ts t) (ht : tokens s = ts ++ rest) (hrest : Stops [124, 41, 38, 59] rest) :
    Surely (parseexec (n + 1)) line s t rest := by
  unfold Sh.parseexec
  cases hd with
  | block hl hr =>
    apply wp_peek hs (by decide)
    · intro s1 hs1 ht1 _
      have hle1 := hs1.length_le
      exact (h.blocks s1 _ _ _ _ rest (hs.trans hs1) (by omega) hl hr (ht1.trans ht)
        hrest).post fun _ _ h' => h'.back hs1
    · intro _ _ _ hl'
      rw [ht] at hl'
      cases hl'
  | @words ts1 rs1 ts2 ws rs2 hr hw hlt =>
    -- a command without parentheses does not begin with one
    have hpar : leads [40] (tokens s) = false := by
      rw [ht]
      cases hr with
      | nil =>
        cases hw with
        | nil => exact hrest.not_leads (by decide)
        | cons _ _ => rfl
      | _ => rfl
    apply wp_peek_false hs (by decide) hpar
    intro s1 hs1 ht1
    unfold parsewords
    refine (parseredirs_complete hr (hs.trans hs1) (.exec .nil)
      (ht1.trans (ht.trans (List.append_assoc ..))) (hw.not_redir hrest)).bind ?_
    rintro c2 s2 ⟨hs2, ht2, hsh2⟩
    have hsuf := hs2.trans hs1
    exact (argLoop_complete hw _ s2 c2 [] rs1 rest (hs.trans hsuf) (Nat.lt_succ_self _) hlt
      hsh2 ht2 hrest).post fun _ _ h3 => h3.back hsuf

theorem Complete.parseblock (h : Complete line n) (hs : On line s) (hn : 4 * s.length + 1 ≤ n + 1)
    (hd : IsLine ts t) (hr : IsRedirs ts' rs)
    (ht : tokens s = .lpar :: (ts ++ .rpar :: ts') ++ rest) (hrest : Stops [124, 41, 38, 59] rest) :
    Surely (parseblock (n + 1)) line s (t.wrap rs) rest := by
  unfold Sh.parseblock
  apply wp_eat_cons .lpar (by decide) hs ht
  intro s1 ht1 hs1 hlen1
  refine (h.lines s1 ts t (.rpar :: (ts' ++ rest)) (hs.trans hs1) (by omega) hd
    (ht1.trans (List.append_assoc ..)) (Or.inr rfl)).bind ?_
  rintro c2 s2 ⟨hs2, ht2, hsh2⟩
  have hsuf2 := hs2.trans hs1
  apply wp_eat_cons .rpar (by decide) (hs.trans hsuf2) ht2
  intro s3 ht3 hs3 _
  have hsuf3 := hs3.trans hsuf2
  exact (parseredirs_complete hr (hs.trans hsuf3) hsh2 ht3
    (hrest.not_leads (by decide))).post fun _ _ h4 => h4.back hsuf3

theorem parse_complete (n : Nat) : Complete line n := by
  induction n with
  | zero => exact ⟨fun _ _ _ _ _ h => by omega, fun _ _ _ _ _ h => by omega,
      fun _ _ _ _ _ h => by omega, fun _ _ _ _ _ _ _ h => by omega⟩
  | succ n ih => exact ⟨fun _ _ _ _ => ih.parseline, fun _ _ _ _ => ih.parsepipe,
      fun _ _ _ _ => ih.parseexec, fun _ _ _ _ _ _ => ih.parseblock⟩

end Depth

/-! ## The words in the buffer -/

/-- The string at an offset of the buffer. -/
def cstring (buf : List UInt8) (o : Nat) : Word := cstr (buf.drop o)

/-- The command with the strings its words point to. -/
def Cmd.strings (line : Ptr) (buf : List UInt8) : Cmd Span → Cmd Word
  | .exec argv => .exec (argv.map fun w => cstring buf (offset line w.1))
  | .redir cmd file mode fd =>
    .redir (cmd.strings line buf) (cstring buf (offset line file.1)) mode fd
  | .pipe left right => .pipe (left.strings line buf) (right.strings line buf)
  | .list left right => .list (left.strings line buf) (right.strings line buf)
  | .back cmd => .back (cmd.strings line buf)

/-- The words of a command: each `argv[i]` of its EXEC nodes and each `file` of its REDIR
    nodes, as `gettoken` recorded them. -/
def Cmd.words {ω : Type} : Cmd ω → List ω
  | .exec argv => argv
  | .redir cmd file _ _ => cmd.words ++ [file]
  | .pipe left right => left.words ++ right.words
  | .list left right => left.words ++ right.words
  | .back cmd => cmd.words

/-- The bytes from `q` up to `eq`. -/
def token (w : Span) : Word := w.1.take (w.1.length - w.2.length)

theorem Spells.token (h : Spells line w u) : Spells line w (Sh.token w) := by
  have hlen : w.1.length - w.2.length = u.length := by
    rw [h.bytes, List.length_append, Nat.add_sub_cancel]
  unfold Sh.token
  rw [hlen, h.bytes, List.take_left]
  exact h

theorem Shows.spells (h : Shows line c t) : ∀ w ∈ c.words, Spells line w (token w) := by
  induction h with
  | exec h =>
    induction h with
    | nil => exact fun _ hw => absurd hw List.not_mem_nil
    | cons hw _ ih => exact List.forall_mem_cons.mpr ⟨hw.token, ih⟩
  | redir _ hf ih => exact List.forall_mem_append.mpr ⟨ih, List.forall_mem_singleton.mpr hf.token⟩
  | pipe _ _ ih ih' | list _ _ ih ih' => exact List.forall_mem_append.mpr ⟨ih, ih'⟩
  | back _ ih => exact ih

/-- The offsets at which `nulterminate` writes: behind each word. -/
def Cmd.cuts (line : Ptr) (c : Cmd Span) : List Nat := c.words.map fun w => offset line w.2

/-- NULs written at some offsets. -/
def cutAt (l : List Nat) (buf : List UInt8) : List UInt8 := l.foldl (fun b o => b.set o 0) buf

theorem nulterminate_eq (c : Cmd Span) : ∀ buf,
    nulterminate line c buf = cutAt (c.cuts line) buf := by
  unfold cutAt Cmd.cuts
  simp only [List.foldl_map]
  induction c with
  | exec argv => exact fun _ => rfl
  | redir c f _ _ ih =>
    intro buf
    rw [nulterminate, Cmd.words, List.foldl_append, ih]
    rfl
  | pipe _ _ ihl ihr | list _ _ ihl ihr =>
    intro buf
    rw [nulterminate, Cmd.words, List.foldl_append, ihl, ihr]
  | back c ih => exact ih

theorem getElem?_cutAt (l : List Nat) (buf : List UInt8) (i : Nat) (hi : i < buf.length) :
    (cutAt l buf)[i]? = if i ∈ l then some 0 else buf[i]? := by
  induction l generalizing buf with
  | nil => rfl
  | cons o l ih =>
    show (cutAt l (buf.set o 0))[i]? = _
    rw [ih _ (by rwa [List.length_set])]
    by_cases hl : i ∈ l
    · rw [if_pos hl, if_pos (List.mem_cons_of_mem o hl)]
    · rw [if_neg hl]
      by_cases ho : i = o
      · subst ho
        rw [if_pos List.mem_cons_self, List.getElem?_set_self hi]
      · rw [if_neg (by simp [ho, hl]), List.getElem?_set_ne (fun e => ho e.symm)]

/-- The word ends at its cut. -/
theorem takeWhile_word : ∀ {l : List UInt8}, 0 ∉ u → (∀ i < u.length, l[i]? = u[i]?) →
    l[u.length]? = some 0 → l.takeWhile (· ≠ 0) = u := by
  induction u with
  | nil =>
    intro l _ _ h0
    cases l with
    | nil => rfl
    | cons c l =>
      obtain rfl : c = 0 := by simpa using h0
      rfl
  | cons c u ih =>
    intro l hu hl h0
    cases l with
    | nil => exact absurd (hl 0 (Nat.succ_pos _)) (by simp)
    | cons d l =>
      obtain rfl : d = c := by simpa using hl 0 (Nat.succ_pos _)
      rw [List.mem_cons, not_or] at hu
      have hd : decide (d ≠ 0) = true := decide_eq_true (Ne.symm hu.1)
      rw [List.takeWhile_cons, if_pos hd]
      congr 1
      refine ih hu.2 (fun i hi => ?_) (by simpa using h0)
      simpa using hl (i + 1) (by simpa using hi)

/-- Where the words of a line may end: at its end or at a byte of no word. -/
def IsCut (line : Ptr) (o : Nat) : Prop := ∀ c, (line)[o]? = some c → ¬ Plain c

/-- The bytes of a word in the line. -/
theorem Spells.line_eq (h : Spells line w u) :
    ∃ a, line = a ++ (u ++ w.2) ∧ offset line w.1 = a.length ∧
      offset line w.2 = a.length + u.length := by
  obtain ⟨a, ha⟩ := h.inside
  have hb := h.bytes
  refine ⟨a, by rw [← hb, ha], ?_, ?_⟩
  · unfold offset
    rw [← ha, List.length_append]
    omega
  · unfold offset
    rw [← ha, hb, List.length_append, List.length_append]
    omega

theorem Spells.isCut (h : Spells line w u) : IsCut line (offset line w.2) := by
  obtain ⟨a, ha, -, ho⟩ := h.line_eq
  intro c hc
  rw [ho, ha, ← List.append_assoc, List.getElem?_append_right (by simp)] at hc
  refine h.ends c ?_
  rw [List.head?_eq_getElem?]
  simpa using hc

theorem Shows.isCut (h : Shows line c t) : ∀ o ∈ c.cuts line, IsCut line o := by
  intro o ho
  obtain ⟨w, hw, rfl⟩ := List.mem_map.mp ho
  exact (h.spells w hw).isCut

/-- A word of a line cut at its own end and at no byte of a word. -/
theorem Spells.cstring {l : List Nat} (h : Spells line w u) (h0 : 0 ∉ line)
    (hl : ∀ o ∈ l, IsCut line o) (hw : offset line w.2 ∈ l) :
    Sh.cstring (cutAt l (line ++ [0])) (offset line w.1) = u := by
  obtain ⟨a, ha, ho1, ho2⟩ := h.line_eq
  have hlen : a.length + u.length ≤ line.length := by
    rw [ha, List.length_append, List.length_append]
    omega
  unfold Sh.cstring cstr
  refine takeWhile_word (fun hz => h0 ?_) (fun i hi => ?_) ?_
  · rw [ha]
    exact List.mem_append_right a (List.mem_append_left _ hz)
  · have hline : (line)[a.length + i]? = u[i]? := by
      rw [ha, List.getElem?_append_right (by omega), Nat.add_sub_cancel_left,
        List.getElem?_append_left hi]
    have hnot : a.length + i ∉ l := by
      intro hm
      refine hl _ hm u[i] ?_ (h.plain _ (List.getElem_mem hi))
      rw [hline, List.getElem?_eq_getElem hi]
    rw [List.getElem?_drop, ho1, getElem?_cutAt _ _ _ (by rw [List.length_append]; simp; omega),
      if_neg hnot, List.getElem?_append_left (by omega), hline]
  · rw [List.getElem?_drop, ho1, ← ho2, getElem?_cutAt _ _ _ (by
      rw [ho2, List.length_append]; simp; omega), if_pos hw]

/-- The strings of the terminated words are the words. -/
theorem Shows.strings {l : List Nat} (h : Shows line c t) (h0 : 0 ∉ line)
    (hl : ∀ o ∈ l, IsCut line o) (hc : ∀ w ∈ c.words, offset line w.2 ∈ l) :
    c.strings line (cutAt l (line ++ [0])) = t := by
  induction h with
  | exec h =>
    unfold Cmd.strings
    congr 1
    induction h with
    | nil => rfl
    | cons hw _ ih =>
      obtain ⟨h1, h2⟩ := List.forall_mem_cons.mp hc
      rw [List.map_cons, hw.cstring h0 hl h1, ih h2]
  | redir _ hf ih =>
    obtain ⟨h1, h2⟩ := List.forall_mem_append.mp hc
    unfold Cmd.strings
    rw [ih h1, hf.cstring h0 hl (h2 _ (List.mem_singleton_self _))]
  | pipe _ _ ih ih' | list _ _ ih ih' =>
    obtain ⟨h1, h2⟩ := List.forall_mem_append.mp hc
    unfold Cmd.strings
    rw [ih h1, ih' h2]
  | back _ ih =>
    unfold Cmd.strings
    rw [ih hc]

/-! ## Whole lines -/

/-- The command `parsecmd` returns, with the strings of its words. -/
def Returns (line : List UInt8) (t : Cmd Word) : Prop :=
  ∃ c buf s, parsecmd line = .ok (c, buf) s ∧ c.strings line buf = t

theorem tokens_eq_nil (h0 : 0 ∉ s) (h : tokens s = []) : skip s = [] := by
  have hg := gettoken_nil h0 h
  unfold gettoken at hg
  injection hg with ha
  exact (Prod.mk.inj (Prod.mk.inj ha).2).1

/-- What `parsecmd` does with what `parseline` left. -/
theorem parsecmd_wp {line : List UInt8} (h0 : 0 ∉ line) {E : Stop Empty → Ptr → Prop}
    {Q : Cmd Span × List UInt8 → Ptr → Prop}
    (h : wp (parseline (4 * line.length + 4)) (fun c s => s <:+ line ∧
      (tokens s ≠ [] → E (.panic "syntax") (skip s)) ∧
      (tokens s = [] → Q (c, nulterminate line c (line ++ [0])) [])) E line) :
    wp (fun s => (parseline (4 * line.length + 4) >>= fun cmd => peek [] >>= fun _ =>
      Exec.gets id >>= fun s => if s ≠ [] then Exec.panic "syntax"
        else pure (cmd, nulterminate line cmd (line ++ [0])) : P _) s) Q E line := by
  refine h.bind ?_
  rintro c s ⟨hs, hne, hnil⟩
  have h0' : 0 ∉ s := fun hz => h0 (hs.subset hz)
  rw [wp_bind]
  refine (wp_of_ok (peek_tokens (List.nil_subset _) h0')).mpr ?_
  rw [wp_gets_bind]
  by_cases ht : tokens s = []
  · rw [id, tokens_eq_nil h0' ht, if_neg (by simp)]
    exact hnil ht
  · rw [id, if_pos]
    · exact hne ht
    · intro he
      rw [← tokens_skip s, he] at ht
      exact ht tokens_nil

theorem Shows.returned {line : List UInt8} (h : Shows line c t) (h0 : 0 ∉ line) :
    c.strings line (nulterminate line c (line ++ [0])) = t := by
  rw [nulterminate_eq]
  exact h.strings h0 h.isCut fun _ hw => List.mem_map_of_mem hw

/-- A command that `parsecmd` returns is derived by the grammar, with the spans of its words
    terminated in the buffer. -/
theorem parsecmd_sound {line : List UInt8} (h0 : 0 ∉ line) :
    wp (fun _ => parsecmd line) (fun x _ => ∃ t, IsLine (tokens line) t ∧ Shows line x.1 t ∧
      x.2 = nulterminate line x.1 (line ++ [0])) Fault line := by
  refine parsecmd_wp h0 (((parse_sound _).lines line ⟨h0, List.suffix_rfl⟩ (Nat.le_refl _)).post ?_)
  rintro c s ⟨ts, t, hs, ht, hd, hsh⟩
  refine ⟨hs, fun _ => ⟨_, by decide, rfl⟩, fun hnil => ⟨t, ?_, hsh, rfl⟩⟩
  rw [hnil, List.append_nil] at ht
  rw [ht]
  exact hd

/-- The parser returns a command for the lines of the grammar, and just the command the grammar
    gives; every other line ends the shell with a message. -/
theorem parsecmd_grammar (line : List UInt8) (h0 : 0 ∉ line) :
    (∀ t, Returns line t ↔ IsLine (tokens line) t) ∧
      ((¬ ∃ t, IsLine (tokens line) t) → ∃ m ∈ faults, ∃ s, parsecmd line = .panic m s) := by
  have hsound := parsecmd_sound h0
  refine ⟨fun t => ⟨?_, fun hd => ?_⟩, fun hno => ?_⟩
  · rintro ⟨c, buf, s, hrun, rfl⟩
    obtain ⟨t, hd, hsh, hbuf⟩ := hsound.ok hrun
    obtain rfl : buf = nulterminate line c (line ++ [0]) := hbuf
    exact hsh.returned h0 ▸ hd
  · have hc : wp (fun _ => parsecmd line) (fun x _ => x.1.strings line x.2 = t)
        (fun _ _ => False) line := by
      refine parsecmd_wp h0 (((parse_complete _).lines line _ t [] ⟨h0, List.suffix_rfl⟩
        (Nat.le_refl _) hd (List.append_nil _).symm (Or.inl rfl)).post ?_)
      rintro c s ⟨hs, ht, hsh⟩
      exact ⟨hs, fun hne => hne ht, fun _ => hsh.returned h0⟩
    obtain ⟨⟨c, buf⟩, s, hrun, he⟩ := hc.returns
    exact ⟨c, buf, s, hrun, he⟩
  · unfold wp at hsound
    cases hrun : parsecmd line with
    | ok x s =>
      rw [hrun] at hsound
      obtain ⟨t, hd, -⟩ := hsound
      exact absurd ⟨t, hd⟩ hno
    | panic m s =>
      rw [hrun] at hsound
      obtain ⟨m', hm, he⟩ := hsound
      exact ⟨m, (Stop.panic.inj he) ▸ hm, s, rfl⟩
    | blocked c s => exact c.elim
    | loops s =>
      rw [hrun] at hsound
      obtain ⟨_, _, he⟩ := hsound
      cases he

/-- The line `ls<a&`. -/
theorem parsecmd_grammar_ls : IsLine (tokens [108, 115, 60, 97, 38])
    (.back (.redir (.exec [[108, 115]]) [97] 0 0)) :=
  ((parsecmd_grammar [108, 115, 60, 97, 38] (by decide)).1 _).mp ⟨_, _, _, rfl, rfl⟩

/-! ## Every word on its own -/

/-- In the buffer that `parsecmd` returns, the string at each word of the command is the token
    `gettoken` found there: a longest run of plain bytes of the line. -/
theorem nulterminate_words (line : List UInt8) (h0 : 0 ∉ line) {c : Cmd Span} {buf : List UInt8}
    {s : Ptr} (h : parsecmd line = .ok (c, buf) s) {w : Span} (hw : w ∈ c.words) :
    Spells line w (token w) ∧ cstring buf (offset line w.1) = token w := by
  obtain ⟨t, -, hsh, hbuf⟩ := (parsecmd_sound h0).ok h
  have hu := hsh.spells w hw
  refine ⟨hu, ?_⟩
  rw [show buf = _ from hbuf, nulterminate_eq]
  exact hu.cstring h0 hsh.isCut (List.mem_map_of_mem hw)

/-- In `a<b;c` no space separates the words. -/
theorem nulterminate_words_tight : token ([98, 59, 99], [59, 99]) = [98] ∧
    ∃ c buf s, parsecmd [97, 60, 98, 59, 99] = .ok (c, buf) s ∧
      cstring buf (offset [97, 60, 98, 59, 99] [98, 59, 99]) = token ([98, 59, 99], [59, 99]) :=
  ⟨rfl, _, _, _, rfl, (nulterminate_words [97, 60, 98, 59, 99] (by decide) rfl
    (List.mem_cons_of_mem _ List.mem_cons_self)).2⟩

end Zv6.Sh
