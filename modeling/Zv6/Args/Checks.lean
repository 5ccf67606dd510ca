/-
  What the checks of syscall.c guarantee.

  `fetchint` and `fetchstr` touch nothing outside the process. `argptr` takes the size as an int
  and adds it as an unsigned number: a negative size passes wherever the sum does not go below 0,
  and the block it then vouches for is not one. `write` does nothing with a negative length, and
  so do pipes and the console. `readi` takes the length as unsigned and cuts it to what the file
  has, so a `read` of -1 bytes into the last byte of the process copies the whole file there
  (`pointers_checked_iff`).
-/
import Zv6.Args.Code

namespace Zv6.Args

open Zv6.Lib
open Zv6.Mem (KERNBASE)

variable {u u' u'' : User} {a w : UInt32} {n : Nat} {f : File}

/-! ## Numbers -/

theorem signed_nonneg_iff : 0 ≤ signed w ↔ w.toNat < 2 ^ 31 := by
  have := w.toNat_lt
  unfold signed
  split <;> omega

theorem signed_of_lt (h : w.toNat < 2 ^ 31) : signed w = w.toNat := if_pos h

theorem signed_of_ge (h : 2 ^ 31 ≤ w.toNat) : signed w = (w.toNat : Int) - 2 ^ 32 :=
  if_neg (by omega)

/-- A sum that may wrap. -/
theorem toNat_add_cases (a b : UInt32) :
    (a.toNat + b.toNat < 2 ^ 32 ∧ (a + b).toNat = a.toNat + b.toNat) ∨
      (2 ^ 32 ≤ a.toNat + b.toNat ∧ (a + b).toNat = a.toNat + b.toNat - 2 ^ 32) := by
  have h1 := a.toNat_lt
  have h2 := b.toNat_lt
  rw [UInt32.toNat_add]
  omega

theorem toNat_add_of_lt (h : a.toNat + n < 2 ^ 32) : (a + UInt32.ofNat n).toNat = a.toNat + n := by
  rw [UInt32.toNat_add, UInt32.toNat_ofNat']
  omega

/-- The check of `argptr`, in integers: a negative size passes if the sum is not negative. -/
theorem argptr_check {sz i size : UInt32} (hsz : sz.toNat < KERNBASE) :
    ¬ (sz ≤ i ∨ sz < i + size) ↔
      i.toNat < sz.toNat ∧ 0 ≤ i.toNat + signed size ∧ i.toNat + signed size ≤ sz.toNat := by
  have h := toNat_add_cases i size
  rw [not_or, UInt32.not_le, UInt32.not_lt, UInt32.lt_iff_toNat_lt, UInt32.le_iff_toNat_le]
  unfold KERNBASE at hsz
  by_cases hs : size.toNat < 2 ^ 31
  · rw [signed_of_lt hs]
    omega
  · rw [signed_of_ge (by omega)]
    have := size.toNat_lt
    omega

/-! ## Touched addresses -/

/-- The addresses from `p` on, `n` of them. -/
def span (p : UInt32) (n : Nat) (a : UInt32) : Prop := ∃ j < n, a = p + UInt32.ofNat j

/-- Of the process only its memory and the list of touched addresses has changed, and only
    addresses `R` have been touched. -/
structure Touches (R : UInt32 → Prop) (u u' : User) : Prop where
  sz : u'.sz = u.sz
  esp : u'.esp = u.esp
  ofile : u'.ofile = u.ofile
  old : ∀ a ∈ u.touched, a ∈ u'.touched
  new : ∀ a ∈ u'.touched, a ∈ u.touched ∨ R a

theorem Touches.refl {R : UInt32 → Prop} : Touches R u u :=
  ⟨rfl, rfl, rfl, fun _ h => h, fun _ h => .inl h⟩

theorem Touches.trans {R : UInt32 → Prop} (h : Touches R u u') (h' : Touches R u' u'') :
    Touches R u u'' := by
  refine ⟨h'.sz.trans h.sz, h'.esp.trans h.esp, h'.ofile.trans h.ofile,
    fun a ha => h'.old a (h.old a ha), ?_⟩
  intro a ha
  rcases h'.new a ha with ha | ha
  · exact h.new a ha
  · exact .inr ha

theorem Touches.mono {R R' : UInt32 → Prop} (h : Touches R u u') (hR : ∀ a, R a → R' a) :
    Touches R' u u' :=
  ⟨h.sz, h.esp, h.ofile, h.old, fun a ha => (h.new a ha).imp_right (hR a)⟩

/-- All addresses touched lie in the process. -/
def Within (u : User) : Prop := ∀ a ∈ u.touched, a < u.sz

theorem Touches.within {R : UInt32 → Prop} (h : Touches R u u') (hu : Within u)
    (hR : ∀ a, R a → a < u.sz) : Within u' := by
  intro a ha
  rw [h.sz]
  rcases h.new a ha with ha | ha
  · exact hu a ha
  · exact hR a ha

theorem span_lt {p sz : UInt32} (h : p.toNat + n ≤ sz.toNat) (ha : span p n a) : a < sz := by
  obtain ⟨j, hj, rfl⟩ := ha
  have := sz.toNat_lt
  rw [UInt32.lt_iff_toNat_lt, toNat_add_of_lt (by omega)]
  omega

theorem ofNat_add_assoc (p m : UInt32) (j : Nat) :
    p + m + UInt32.ofNat j = p + UInt32.ofNat (m.toNat + j) := by
  rw [UInt32.ofNat_add, UInt32.ofNat_toNat, UInt32.add_assoc]

/-- A span is its first part and the rest. -/
theorem span_add {p m : UInt32} (h : m.toNat ≤ n) (a : UInt32) :
    span p n a ↔ span p m.toNat a ∨ span (p + m) (n - m.toNat) a := by
  constructor
  · rintro ⟨j, hj, rfl⟩
    by_cases hjm : j < m.toNat
    · exact .inl ⟨j, hjm, rfl⟩
    · refine .inr ⟨j - m.toNat, by omega, ?_⟩
      rw [ofNat_add_assoc]
      congr 2
      omega
  · rintro (⟨j, hj, rfl⟩ | ⟨j, hj, rfl⟩)
    · exact ⟨j, by omega, rfl⟩
    · exact ⟨m.toNat + j, by omega, ofNat_add_assoc p m j⟩

theorem span_succ {p : UInt32} (a : UInt32) : span p (n + 1) a ↔ a = p ∨ span (p + 1) n a := by
  have h1 : (1 : UInt32).toNat = 1 := rfl
  have h := span_add (p := p) (m := 1) (n := n + 1) (by omega) a
  rw [h, h1, Nat.add_sub_cancel]
  refine or_congr_left ?_
  constructor
  · rintro ⟨j, hj, rfl⟩
    obtain rfl : j = 0 := by omega
    exact UInt32.add_zero p
  · rintro rfl
    exact ⟨0, by omega, (UInt32.add_zero a).symm⟩

/-- All of `R` has been touched. -/
def Covers (R : UInt32 → Prop) (u : User) : Prop := ∀ a, R a → a ∈ u.touched

theorem load_wp (a : UInt32) {E : Stop Empty → User → Prop} :
    wp (load a) (fun c u' => c = u.mem a ∧ u'.mem = u.mem ∧ u'.touched = a :: u.touched ∧
      Touches (· = a) u u') E u :=
  ⟨rfl, rfl, rfl, rfl, rfl, rfl, fun _ h => List.mem_cons_of_mem a h,
    fun _ h => (List.mem_cons.mp h).symm⟩

theorem store_wp (a : UInt32) (b : UInt8) {E : Stop Empty → User → Prop} :
    wp (store a b) (fun _ u' => u'.touched = a :: u.touched ∧ Touches (· = a) u u') E u :=
  ⟨rfl, rfl, rfl, rfl, fun _ h => List.mem_cons_of_mem a h, fun _ h => (List.mem_cons.mp h).symm⟩

/-- `m` touches only addresses `R`, however it ends. -/
def Only (R : UInt32 → Prop) (m : K α) : Prop :=
  ∀ u0, Keeps (Touches R u0) (fun _ => Touches R u0) m

section

variable {R R' : UInt32 → Prop} {m m' : K α}

theorem Only.wp (h : Only R m) (u : User) :
    wp m (fun _ u' => Touches R u u') (fun _ u' => Touches R u u') u :=
  h u u .refl

theorem Only.mono (h : Only R m) (hR : ∀ a, R a → R' a) : Only R' m :=
  fun _ u hu => (h.wp u).mono (fun _ _ ht => hu.trans (ht.mono hR))
    fun _ _ ht => hu.trans (ht.mono hR)

theorem Only.pure (r : α) : Only R (pure r) := fun _ => Keeps.pure r

theorem Only.panic (e : String) : Only R (Exec.panic e : K α) :=
  fun _ => Keeps.panic e fun _ h => h

theorem Only.bind {f : α → K β} (h : Only R m) (hf : ∀ r, Only R (f r)) : Only R (m >>= f) :=
  fun u0 => (h u0).bind fun r => hf r u0

theorem Only.ite {c : Prop} [Decidable c] (h : c → Only R m) (h' : ¬ c → Only R m') :
    Only R (if c then m else m') :=
  fun u0 => Keeps.ite (fun hc => h hc u0) fun hc => h' hc u0

theorem Only.load (h : R a) : Only R (load a) :=
  fun _ _ hu => (load_wp a).post fun _ _ ht => hu.trans (ht.2.2.2.mono fun _ hb => hb ▸ h)

theorem Only.store (h : R a) (b : UInt8) : Only R (store a b) :=
  fun _ _ hu => (store_wp a b).post fun _ _ ht => hu.trans (ht.2.mono fun _ hb => hb ▸ h)

end

theorem copyIn_only (n : Nat) : ∀ src : UInt32, Only (span src n) (copyIn src n) := by
  induction n with
  | zero =>
    intro src
    exact .pure _
  | succ n ih =>
    intro src
    exact (Only.load ((span_succ src).mpr (.inl rfl))).bind fun _ =>
      (ih _).mono fun a ha => (span_succ a).mpr (.inr ha)

theorem copyOut_wp (data : Nat → UInt8) (n : Nat) : ∀ {dst : UInt32} {off : Nat} {u : User},
    wp (copyOut data dst off n)
      (fun _ u' => Touches (span dst n) u u' ∧ Covers (span dst n) u') (fun _ _ => False) u := by
  induction n with
  | zero =>
    intro dst off u
    refine ⟨.refl, ?_⟩
    rintro a ⟨j, hj, -⟩
    omega
  | succ n ih =>
    intro dst off u
    unfold copyOut
    refine (store_wp dst _).bind ?_
    rintro _ u1 ⟨ht, h1⟩
    refine ih.post ?_
    rintro _ u2 ⟨h2, hc⟩
    refine ⟨(h1.mono fun a ha => (span_succ a).mpr (.inl ha)).trans
      (h2.mono fun a ha => (span_succ a).mpr (.inr ha)), ?_⟩
    intro a ha
    rcases (span_succ a).mp ha with rfl | ha
    · refine h2.old a ?_
      rw [ht]
      exact List.mem_cons_self
    · exact hc a ha

/-! ## The fetches -/

/-- The word at `a`. -/
def User.word (u : User) (a : UInt32) : UInt32 :=
  UInt32.ofNat ((u.mem a).toNat + 256 * (u.mem (a + 1)).toNat + 65536 * (u.mem (a + 2)).toNat +
    16777216 * (u.mem (a + 3)).toNat)

/-- Bytes of the process have been read. -/
structure Reads (u u' : User) : Prop where
  touches : Touches (· < u.sz) u u'
  mem : u'.mem = u.mem

theorem Reads.refl : Reads u u := ⟨.refl, rfl⟩

theorem Reads.trans (h : Reads u u') (h' : Reads u' u'') : Reads u u'' := by
  refine ⟨h.touches.trans (h'.touches.mono ?_), h'.mem.trans h.mem⟩
  intro a ha
  rwa [h.touches.sz] at ha

theorem load_reads (ha : a < u.sz) :
    wp (load a) (fun c u' => c = u.mem a ∧ u'.touched = a :: u.touched ∧ Reads u u')
      (fun _ _ => False) u := by
  refine (load_wp a).post ?_
  rintro c u1 ⟨hc, hm, ht, h⟩
  refine ⟨hc, ht, h.mono ?_, hm⟩
  rintro b rfl
  exact ha

theorem loadWord_wp (ha : a.toNat + 4 ≤ u.sz.toNat) : wp (loadWord a) (fun w u' => w = u.word a ∧
      u'.touched = [a + 3, a + 2, a + 1, a] ++ u.touched ∧ Reads u u') (fun _ _ => False) u := by
  have hlt : ∀ j : Nat, j < 4 → a + UInt32.ofNat j < u.sz := fun j hj => span_lt ha ⟨j, hj, rfl⟩
  unfold loadWord
  refine (load_reads (UInt32.add_zero a ▸ hlt 0 (by omega))).bind ?_
  rintro _ u1 ⟨rfl, h1, r1⟩
  refine (load_reads (r1.touches.sz.symm ▸ hlt 1 (by omega))).bind ?_
  rintro _ u2 ⟨rfl, h2, r2⟩
  have r2 := r1.trans r2
  refine (load_reads (r2.touches.sz.symm ▸ hlt 2 (by omega))).bind ?_
  rintro _ u3 ⟨rfl, h3, r3⟩
  have r3 := r2.trans r3
  refine (load_reads (r3.touches.sz.symm ▸ hlt 3 (by omega))).bind ?_
  rintro _ u4 ⟨rfl, h4, r4⟩
  refine ⟨?_, ?_, r3.trans r4⟩
  · rw [r1.mem, r2.mem, r3.mem]
    rfl
  · rw [h4, h3, h2, h1]
    rfl

theorem fetchint_check {sz addr : UInt32} (hsz : sz.toNat < KERNBASE) :
    ¬ (sz ≤ addr ∨ sz < addr + 4) ↔ addr.toNat + 4 ≤ sz.toNat := by
  have h := @argptr_check sz addr 4 hsz
  have h4 : signed 4 = 4 := rfl
  rw [h, h4]
  omega

/-- The word at `addr` if it lies in the process. -/
def User.fetch (u : User) (addr : UInt32) : Option UInt32 :=
  if addr.toNat + 4 ≤ u.sz.toNat then some (u.word addr) else none

theorem fetchint_wp (addr : UInt32) :
    wp (fetchint addr) (fun r u' => r = u.fetch addr ∧ Reads u u' ∧
      (r ≠ none → u'.touched = [addr + 3, addr + 2, addr + 1, addr] ++ u.touched))
      (fun _ _ => False) u := by
  unfold fetchint
  rw [wp_gets_bind]
  by_cases h : addr.toNat + 4 ≤ u.sz.toNat
  · rw [if_neg ((fetchint_check u.below).mpr h)]
    refine (loadWord_wp h).bind ?_
    rintro _ u1 ⟨rfl, ht, hr⟩
    exact ⟨(if_pos h).symm, hr, fun _ => ht⟩
  · rw [if_pos (Decidable.not_not.mp (mt (fetchint_check u.below).mp h))]
    exact ⟨(if_neg h).symm, .refl, fun hn => absurd rfl hn⟩

/-- The `k`-th argument word, if it lies in the process. -/
def User.arg (u : User) (k : Nat) : Option UInt32 := u.fetch (u.esp + 4 + 4 * UInt32.ofNat k)

theorem Reads.arg (h : Reads u u') (k : Nat) : u'.arg k = u.arg k := by
  unfold User.arg User.fetch User.word
  rw [h.touches.esp, h.touches.sz, h.mem]

theorem argint_wp (k : Nat) :
    wp (argint k) (fun r u' => r = u.arg k ∧ Reads u u') (fun _ _ => False) u := by
  unfold argint
  rw [wp_gets_bind]
  exact (fetchint_wp _).post fun _ _ h => ⟨h.1, h.2.1⟩

/-- The pointer `argptr` accepts for `size` bytes. -/
def User.ptr (u : User) (k : Nat) (size : UInt32) : Option UInt32 :=
  (u.arg k).filter fun i =>
    i.toNat < u.sz.toNat ∧ 0 ≤ i.toNat + signed size ∧ i.toNat + signed size ≤ u.sz.toNat

theorem argptr_wp (k : Nat) (size : UInt32) :
    wp (argptr k size) (fun r u' => r = u.ptr k size ∧ Reads u u') (fun _ _ => False) u := by
  unfold argptr User.ptr
  refine (argint_wp k).bind ?_
  rintro _ u1 ⟨rfl, h1⟩
  cases u.arg k with
  | none => exact ⟨rfl, h1⟩
  | some i =>
    show wp (Exec.gets User.sz >>= _) _ _ u1
    rw [wp_gets_bind, h1.touches.sz]
    by_cases hc : u.sz ≤ i ∨ u.sz < i + size
    · rw [if_pos hc]
      refine ⟨?_, h1⟩
      rw [Option.filter_some, if_neg]
      simpa using mt (argptr_check u.below).mpr (not_not_intro hc)
    · rw [if_neg hc]
      refine ⟨?_, h1⟩
      rw [Option.filter_some, if_pos]
      simpa using (argptr_check u.below).mp hc

/-- The bytes `addr`, …, `addr + l` are a string of the process. -/
structure IsStr (u : User) (addr : UInt32) (l : Nat) : Prop where
  inside : addr.toNat + l < u.sz.toNat
  nul : u.mem (addr + UInt32.ofNat l) = 0
  first : ∀ j < l, u.mem (addr + UInt32.ofNat j) ≠ 0

/-- The invariant of the loop: the bytes before `s` are in the process and not NUL. -/
theorem fetchstrLoop_wp (addr : UInt32) (k : Nat) : ∀ {l : Nat} {u : User},
    addr.toNat + l + k = u.sz.toNat → (∀ j < l, u.mem (addr + UInt32.ofNat j) ≠ 0) →
    wp (fetchstrLoop addr k (addr + UInt32.ofNat l))
      (fun r u' => Reads u u' ∧ ∀ m, r = some m → IsStr u addr m) (fun _ _ => False) u := by
  induction k with
  | zero =>
    intro l u _ _
    exact ⟨.refl, fun m h => nomatch h⟩
  | succ k ih =>
    intro l u hl hne
    have hsz := u.sz.toNat_lt
    have hlt : addr + UInt32.ofNat l < u.sz := span_lt (n := l + 1) (by omega) ⟨l, by omega, rfl⟩
    unfold fetchstrLoop
    refine (load_reads hlt).bind ?_
    rintro _ u1 ⟨rfl, -, h1⟩
    by_cases h0 : u.mem (addr + UInt32.ofNat l) = 0
    · rw [if_pos h0]
      refine ⟨h1, ?_⟩
      intro m hm
      have hm' : (addr + UInt32.ofNat l - addr).toNat = m := Option.some.inj hm
      rw [UInt32.toNat_sub_of_le _ _ (by rw [UInt32.le_iff_toNat_le, toNat_add_of_lt] <;> omega),
        toNat_add_of_lt (by omega)] at hm'
      obtain rfl : l = m := by omega
      exact ⟨by omega, h0, hne⟩
    · rw [if_neg h0, UInt32.add_assoc, ← UInt32.ofNat_one, ← UInt32.ofNat_add]
      refine (ih (l := l + 1) (by rw [h1.touches.sz]; omega) ?_).post ?_
      · intro j hj
        rw [h1.mem]
        rcases Nat.lt_succ_iff_lt_or_eq.mp hj with hj | rfl
        · exact hne j hj
        · exact h0
      · rintro r u2 ⟨h2, hr⟩
        refine ⟨h1.trans h2, ?_⟩
        intro m hm
        obtain ⟨hi, hn, hf⟩ := hr m hm
        rw [h1.touches.sz] at hi
        rw [h1.mem] at hn hf
        exact ⟨hi, hn, hf⟩

theorem fetchstr_wp (addr : UInt32) :
    wp (fetchstr addr) (fun r u' => Reads u u' ∧ ∀ m, r = some m → IsStr u addr m)
      (fun _ _ => False) u := by
  unfold fetchstr
  rw [wp_gets_bind]
  by_cases h : u.sz ≤ addr
  · rw [if_pos h]
    exact ⟨.refl, fun m h => nomatch h⟩
  · rw [if_neg h]
    rw [UInt32.not_le, UInt32.lt_iff_toNat_lt] at h
    have := fetchstrLoop_wp addr (u.sz - addr).toNat (l := 0) (u := u) (by
      rw [UInt32.toNat_sub_of_le _ _ (by rw [UInt32.le_iff_toNat_le]; omega)]
      omega) (fun j hj => absurd hj (by omega))
    rwa [show addr + UInt32.ofNat 0 = addr from UInt32.add_zero addr] at this

/-! ## Pipes and the console

With a negative length the loops make no round. -/

/-- The span that an int `n` asks for from `p` on. -/
abbrev want (p n : UInt32) : UInt32 → Prop := span p (signed n).toNat

theorem pipereadLoop_only (addr n : UInt32) (cs : List UInt8) : ∀ i : Nat,
    Only (want addr n) (pipereadLoop addr n cs i) := by
  induction cs with
  | nil =>
    intro i
    exact .pure _
  | cons c cs ih =>
    intro i
    unfold pipereadLoop
    exact .ite (fun hi => (Only.store ⟨i, by omega, rfl⟩ c).bind fun _ => ih _) fun _ => .pure _

theorem pipewriteLoop_only (addr n : UInt32) (room : Nat) : ∀ i : Nat,
    Only (want addr n) (pipewriteLoop addr n room i) := by
  induction room with
  | zero =>
    intro i
    exact .pure _
  | succ room ih =>
    intro i
    unfold pipewriteLoop
    exact .ite (fun hi => (Only.load ⟨i, by omega, rfl⟩).bind fun _ => ih _) fun _ => .pure _

theorem consolereadLoop_only (n : Int) (cs : List UInt8) : ∀ (dst : UInt32) (left : Int),
    Only (span dst left.toNat) (consolereadLoop n cs dst left) := by
  induction cs with
  | nil =>
    intro dst left
    exact .pure _
  | cons c cs ih =>
    intro dst left
    unfold consolereadLoop
    refine .ite (fun hl => ?_) fun _ => .pure _
    rw [show left.toNat = (left - 1).toNat + 1 by omega]
    refine .ite (fun _ => .pure _) fun _ => ?_
    refine (Only.store ((span_succ dst).mpr (.inl rfl)) c).bind fun _ => ?_
    exact .ite (fun _ => .pure _) fun _ => (ih _ _).mono fun a ha => (span_succ a).mpr (.inr ha)

theorem consolewrite_only (buf n : UInt32) : Only (want buf n) (consolewrite buf n) :=
  (copyIn_only _ buf).bind fun _ => .pure _

/-! ## Inodes -/

/-- One round takes at least one byte and no more than are left. -/
theorem round_pos {left : UInt32} (h : left ≠ 0) (off : UInt32) :
    0 < (min left (BSIZE - off % BSIZE)).toNat ∧
      (min left (BSIZE - off % BSIZE)).toNat ≤ left.toNat := by
  have hl : 0 < left.toNat := Nat.pos_of_ne_zero fun h0 => h (UInt32.toNat_inj.mp h0)
  have hb : BSIZE.toNat = 512 := rfl
  have hm : (off % BSIZE).toNat < 512 := by
    rw [UInt32.toNat_mod, hb]
    omega
  have hs : (BSIZE - off % BSIZE).toNat = 512 - (off % BSIZE).toNat := by
    rw [UInt32.toNat_sub_of_le _ _ (by rw [UInt32.le_iff_toNat_le, hb]; omega), hb]
  have hmin : ∀ a b : UInt32, min a b = if a ≤ b then a else b := fun _ _ => rfl
  rw [hmin]
  split
  · exact ⟨hl, le_refl _⟩
  · rename_i hle
    rw [UInt32.not_le, UInt32.lt_iff_toNat_lt] at hle
    omega

theorem toNat_sub_of_le {a b : UInt32} (h : b.toNat ≤ a.toNat) :
    (a - b).toNat = a.toNat - b.toNat :=
  UInt32.toNat_sub_of_le _ _ (UInt32.le_iff_toNat_le.mpr h)

/-- The loop fills exactly the `left` bytes from `dst` on. -/
theorem readiLoop_wp (data : Nat → UInt8) (fuel : Nat) :
    ∀ {dst off left : UInt32} {u : User}, left.toNat ≤ fuel →
    wp (readiLoop data fuel dst off left)
      (fun _ u' => Touches (span dst left.toNat) u u' ∧ Covers (span dst left.toNat) u')
      (fun _ _ => False) u := by
  induction fuel with
  | zero =>
    intro dst off left u hf
    refine ⟨.refl, ?_⟩
    rintro a ⟨j, hj, -⟩
    omega
  | succ fuel ih =>
    intro dst off left u hf
    unfold readiLoop
    by_cases h0 : left = 0
    · rw [if_pos h0]
      refine ⟨.refl, ?_⟩
      rintro a ⟨j, hj, -⟩
      rw [h0] at hj
      exact absurd hj (Nat.not_lt_zero j)
    rw [if_neg h0]
    obtain ⟨hpos, hle⟩ := round_pos h0 off
    have hsub := toNat_sub_of_le hle
    refine (copyOut_wp data _).bind ?_
    rintro _ u1 ⟨h1, c1⟩
    refine (ih (by omega)).post ?_
    rintro _ u2 ⟨h2, c2⟩
    rw [hsub] at h2 c2
    refine ⟨(h1.mono fun a ha => (span_add hle a).mpr (.inl ha)).trans
      (h2.mono fun a ha => (span_add hle a).mpr (.inr ha)), ?_⟩
    intro a ha
    rcases (span_add hle a).mp ha with ha | ha
    · exact h2.old a (c1 a ha)
    · exact c2 a ha

theorem writeiLoop_only (fuel : Nat) : ∀ src off left : UInt32,
    Only (span src left.toNat) (writeiLoop fuel src off left) := by
  induction fuel with
  | zero =>
    intro src off left
    exact .pure _
  | succ fuel ih =>
    intro src off left
    unfold writeiLoop
    refine .ite (fun _ => .pure _) fun h0 => ?_
    obtain ⟨-, hle⟩ := round_pos h0 off
    have ih := ih (src + min left (BSIZE - off % BSIZE)) (off + min left (BSIZE - off % BSIZE))
      (left - min left (BSIZE - off % BSIZE))
    rw [toNat_sub_of_le hle] at ih
    exact ((copyIn_only _ src).mono fun a ha => (span_add hle a).mpr (.inl ha)).bind fun _ =>
      ih.mono fun a ha => (span_add hle a).mpr (.inr ha)

/-- How many bytes `readi` copies from a file of `size` bytes: `n` is taken as unsigned. -/
def readLen (size off n : UInt32) : Nat :=
  if off.toNat ≤ size.toNat ∧ off.toNat + n.toNat < 2 ^ 32 then
    min n.toNat (size.toNat - off.toNat)
  else 0

theorem readi_file_wp (size : UInt32) (data : Nat → UInt8) (dittos : List Ino)
    (dst off n : UInt32) :
    wp (readi (.file size data dittos) dst off n)
      (fun _ u' => Touches (span dst (readLen size off n)) u u' ∧
        Covers (span dst (readLen size off n)) u') (fun _ _ => False) u := by
  have hadd := toNat_add_cases off n
  have hn := n.toNat_lt
  unfold readi
  dsimp only
  by_cases hc : size < off ∨ off + n < off
  · have hlen : readLen size off n = 0 := by
      refine if_neg ?_
      rw [UInt32.lt_iff_toNat_lt, UInt32.lt_iff_toNat_lt] at hc
      omega
    rw [if_pos hc, hlen]
    refine ⟨.refl, ?_⟩
    rintro a ⟨j, hj, -⟩
    omega
  · have hlen : readLen size off n = (if size < off + n then size - off else n).toNat := by
      rw [not_or, UInt32.not_lt, UInt32.not_lt, UInt32.le_iff_toNat_le,
        UInt32.le_iff_toNat_le] at hc
      unfold readLen
      rw [if_pos (by omega)]
      split <;> rename_i hlt <;> rw [UInt32.lt_iff_toNat_lt] at hlt
      · rw [toNat_sub_of_le hc.1]
        omega
      · omega
    rw [if_neg hc, hlen]
    exact (readiLoop_wp data _ (le_refl _)).bind fun _ _ h => h

theorem toNat_signed {n : UInt32} (hn : 0 ≤ signed n) : (signed n).toNat = n.toNat := by
  rw [signed_of_lt (signed_nonneg_iff.mp hn)]
  rfl

mutual

/-- For a length that is not negative `writei` keeps to the bytes it was given. -/
theorem writei_only {src off n : UInt32} (hn : 0 ≤ signed n) : ∀ ip : Ino,
    Only (want src n) (writei src off n ip)
  | .noDriver => .pure _
  | .console _ => consolewrite_only src n
  | .file size _ dittos => by
    unfold writei
    refine .ite (fun _ => .pure _) fun _ => .ite (fun _ => .pure _) fun _ => ?_
    rw [want, toNat_signed hn]
    refine (writeiLoop_only _ src off n).bind fun _ => ?_
    rw [← toNat_signed hn]
    exact (writeiDittos_only hn dittos).bind fun _ => .pure _

theorem writeiDittos_only {src off n : UInt32} (hn : 0 ≤ signed n) : ∀ ds : List Ino,
    Only (want src n) (writeiDittos src off n ds)
  | [] => .pure _
  | ci :: cs => by
    unfold writeiDittos
    exact (writei_only hn ci).bind fun _ => writeiDittos_only hn cs

end

/-! ## file.c and sysfile.c -/

/-- The rounds of `filewrite`: `i` bytes are done and `left` to go. -/
theorem filewriteLoop_only (ip : Nat → Ino) (off : Nat → UInt32) (addr : UInt32) (fuel : Nat) :
    ∀ {k i left : Nat}, i + left = n →
    Only (span addr n) (filewriteLoop ip off addr fuel k i left) := by
  induction fuel with
  | zero =>
    intro k i left _
    exact .pure _
  | succ fuel ih =>
    intro k i left hi
    unfold filewriteLoop
    refine .ite (fun _ => .pure _) fun _ => ?_
    have hlen : (UInt32.ofNat (min left 4096)).toNat = min left 4096 := by
      rw [UInt32.toNat_ofNat']
      omega
    have hs : signed (UInt32.ofNat (min left 4096)) = (min left 4096 : Nat) := by
      rw [signed_of_lt (by omega), hlen]
    refine ((writei_only (by omega) _).mono ?_).bind fun r => ?_
    · rw [want, hs, Int.toNat_natCast]
      rintro a ⟨j, hj, rfl⟩
      refine ⟨i + j, by omega, ?_⟩
      rw [UInt32.ofNat_add, UInt32.add_assoc]
    · exact .ite (fun _ => .pure _) fun _ => .ite (fun _ => .panic _) fun _ => ih (by omega)

/-- `filewrite` keeps to the bytes it is asked for, none if the length is negative. -/
theorem filewrite_only (f : File) (addr n : UInt32) : Only (want addr n) (filewrite f addr n) := by
  unfold filewrite
  refine .ite (fun _ => .pure _) fun _ => ?_
  cases f.obj with
  | none => exact .panic _
  | pipe found room => exact pipewriteLoop_only addr n room 0
  | inode ip off corrupted =>
    exact .ite (fun _ => .pure _) fun _ =>
      (filewriteLoop_only ip off addr _ (Nat.zero_add _)).bind fun _ => .pure _

/-- How many bytes from `addr` on `fileread` may touch. -/
def File.reach (f : File) (n : UInt32) : Nat :=
  match f.readable, f.obj with
  | true, .inode ip off _ =>
    match ip 0 with
    | .file size _ _ => readLen size (off 0) n
    | _ => (signed n).toNat
  | _, _ => (signed n).toNat

theorem fileread_only (f : File) (addr n : UInt32) :
    Only (span addr (f.reach n)) (fileread f addr n) := by
  obtain ⟨readable, writable, obj⟩ := f
  unfold fileread File.reach
  cases readable with
  | false => exact .pure _
  | true =>
    cases obj with
    | none => exact .panic _
    | pipe found room => exact pipereadLoop_only addr n found 0
    | inode ip off corrupted =>
      refine Only.bind ?_ fun r => .ite (fun _ => .panic _) fun _ => .pure _
      dsimp only
      cases ip 0 with
      | noDriver => exact .pure _
      | console input => exact consolereadLoop_only (signed n) input addr (signed n)
      | file size data dittos =>
        exact fun _ _ hu => (readi_file_wp size data dittos addr (off 0) n).mono
          (fun _ _ h => hu.trans h.1) fun _ _ h => h.elim

/-! ## read and write -/

/-- The open file of a descriptor. -/
def User.file (u : User) (fd : UInt32) : Option File :=
  if h : fd.toNat < NOFILE then u.ofile ⟨fd.toNat, h⟩ else none

theorem argfd_wp (k : Nat) :
    wp (argfd k) (fun r u' => r = (u.arg k).bind u.file ∧ Reads u u') (fun _ _ => False) u := by
  unfold argfd
  refine (argint_wp k).bind ?_
  rintro _ u1 ⟨rfl, h1⟩
  cases u.arg k with
  | none => exact ⟨rfl, h1⟩
  | some fd =>
    show wp (if h : fd.toNat < NOFILE then _ else _) _ _ u1
    rw [Option.bind_some]
    unfold User.file
    by_cases hfd : fd.toNat < NOFILE
    · rw [dif_pos hfd, dif_pos hfd]
      exact ⟨congrFun h1.touches.ofile _, h1⟩
    · rw [dif_neg hfd, dif_neg hfd]
      exact ⟨rfl, h1⟩

/-- File, buffer and length of a call of `read` or `write` that passes the checks. -/
def User.rw (u : User) : Option (File × UInt32 × UInt32) := do
  let f ← (u.arg 0).bind u.file
  let n ← u.arg 2
  let p ← u.ptr 1 n
  pure (f, p, n)

theorem rwArgs_wp :
    wp rwArgs (fun r u' => r = u.rw ∧ Reads u u') (fun _ _ => False) u := by
  unfold rwArgs User.rw
  refine (argfd_wp 0).bind ?_
  rintro _ u1 ⟨rfl, h1⟩
  cases (u.arg 0).bind u.file with
  | none => exact ⟨rfl, h1⟩
  | some f =>
    refine (argint_wp 2).bind ?_
    rintro _ u2 ⟨rfl, h2⟩
    rw [h1.arg]
    have h2 := h1.trans h2
    cases u.arg 2 with
    | none => exact ⟨rfl, h2⟩
    | some n =>
      refine (argptr_wp 1 n).bind ?_
      rintro _ u3 ⟨rfl, h3⟩
      have h3 := h2.trans h3
      have hptr : u2.ptr 1 n = u.ptr 1 n := by
        unfold User.ptr
        rw [h2.arg, h2.touches.sz]
      rw [hptr]
      cases hp : u.ptr 1 n with
      | none | some => exact ⟨by simp [hp], h3⟩

/-- The words of such a call. -/
structure RwCall (u : User) (f : File) (p n : UInt32) : Prop where
  fd : (u.arg 0).bind u.file = some f
  len : u.arg 2 = some n
  buf : u.arg 1 = some p
  inside : p.toNat < u.sz.toNat
  nonneg : 0 ≤ p.toNat + signed n
  fits : p.toNat + signed n ≤ u.sz.toNat

theorem User.ptr_eq_some {k : Nat} {size p : UInt32} :
    u.ptr k size = some p ↔ u.arg k = some p ∧ p.toNat < u.sz.toNat ∧
      0 ≤ p.toNat + signed size ∧ p.toNat + signed size ≤ u.sz.toNat := by
  unfold User.ptr
  rw [Option.filter_eq_some_iff, decide_eq_true_eq]

theorem User.rw_eq_some {p n : UInt32} : u.rw = some (f, p, n) ↔ RwCall u f p n := by
  constructor
  · intro h
    obtain ⟨f', hf, h⟩ := Option.bind_eq_some_iff.mp h
    obtain ⟨n', hn, h⟩ := Option.bind_eq_some_iff.mp h
    obtain ⟨p', hp, h⟩ := Option.bind_eq_some_iff.mp h
    cases h
    obtain ⟨hp, h1, h2, h3⟩ := User.ptr_eq_some.mp hp
    exact ⟨hf, hn, hp, h1, h2, h3⟩
  · intro ⟨hf, hn, hp, h1, h2, h3⟩
    unfold User.rw
    rw [hf, hn]
    show (u.ptr 1 n).bind _ = _
    rw [User.ptr_eq_some.mpr ⟨hp, h1, h2, h3⟩]
    rfl

theorem Reads.within (h : Reads u u') (hu : Within u) : Within u' :=
  h.touches.within hu fun _ ha => ha

/-- After the arguments are fetched, code that keeps to a span of the process is safe. -/
theorem Reads.only_within (h : Reads u u') (hu : Within u) {p : UInt32}
    (hp : p.toNat + n ≤ u.sz.toNat) {m : K Int} (hm : Only (span p n) m) :
    wp m (fun _ u' => Within u') (fun _ u' => Within u') u' := by
  have hw : ∀ u2, Touches (span p n) u' u2 → Within u2 := by
    intro u2 h2
    refine h2.within (h.within hu) fun a ha => ?_
    rw [h.touches.sz]
    exact span_lt hp ha
  exact (hm.wp u').mono (fun _ => hw) fun _ => hw

/-- `write` is safe whatever its length: with a negative one it touches nothing. -/
theorem sys_write_within (hu : Within u) :
    wp sys_write (fun _ u' => Within u') (fun _ u' => Within u') u := by
  unfold sys_write
  refine rwArgs_wp.andThen ?_
  rintro _ u1 ⟨rfl, h1⟩
  cases hr : u.rw with
  | none => exact h1.within hu
  | some c =>
    obtain ⟨f, p, n⟩ := c
    have hc := User.rw_eq_some.mp hr
    have hi := hc.inside
    have hf := hc.fits
    exact h1.only_within hu (by omega) (filewrite_only f p n)

/-- A `read` of negative length into the end of the process from an inode that has more bytes
    after the offset than the process has after the buffer. -/
structure LongRead (u : User) (f : File) (p n : UInt32) (ip : Nat → Ino) (off : Nat → UInt32)
    (size : UInt32) : Prop where
  call : RwCall u f p n
  readable : f.readable = true
  obj : ∃ corrupted, f.obj = .inode ip off corrupted
  file : ∃ data dittos, ip 0 = .file size data dittos
  negative : signed n < 0
  before : (off 0).toNat ≤ size.toNat
  nowrap : (off 0).toNat + signed n < 0
  long : u.sz.toNat < p.toNat + (size.toNat - (off 0).toNat)

/-- In a long read `readi` gets as far as the first byte after the process. -/
theorem LongRead.reach {p n size : UInt32} {ip : Nat → Ino} {off : Nat → UInt32}
    (h : LongRead u f p n ip off size) :
    p.toNat ≤ u.sz.toNat ∧ u.sz.toNat < p.toNat + readLen size (off 0) n := by
  have hn := n.toNat_lt
  have hs := h.negative
  have hw := h.nowrap
  have hl := h.long
  have hp := h.call.inside
  have hb := u.below
  have hneg : 2 ^ 31 ≤ n.toNat := by
    by_contra hc
    have := signed_nonneg_iff.mpr (by omega : n.toNat < 2 ^ 31)
    omega
  rw [signed_of_ge hneg] at hw
  unfold KERNBASE at hb
  unfold readLen
  rw [if_pos ⟨h.before, by omega⟩]
  omega

/-- Any other call of `fileread` keeps to the process. -/
theorem RwCall.reach_le {p n : UInt32} (h : RwCall u f p n)
    (hl : ∀ ip off size, ¬ LongRead u f p n ip off size) : p.toNat + f.reach n ≤ u.sz.toNat := by
  have hi := h.inside
  have hf := h.fits
  have hplain : p.toNat + (signed n).toNat ≤ u.sz.toNat := by omega
  unfold File.reach
  split
  · rename_i ip off c hrd hobj
    split
    · rename_i size data dittos hip
      unfold readLen
      split
      · rename_i hlen
        by_cases hn : 0 ≤ signed n
        · rw [toNat_signed hn] at hplain
          omega
        · have hn' : 2 ^ 31 ≤ n.toNat := by
            by_contra hc
            exact hn (signed_nonneg_iff.mpr (by omega))
          by_contra hlong
          refine hl ip off size ⟨h, hrd, ⟨c, hobj⟩, ⟨data, dittos, hip⟩, by omega, hlen.1, ?_, ?_⟩
          · rw [signed_of_ge hn']
            omega
          · omega
      · omega
    · exact hplain
  · exact hplain

theorem sys_read_within (hu : Within u) (hl : ∀ f p n ip off size, ¬ LongRead u f p n ip off size) :
    wp sys_read (fun _ u' => Within u') (fun _ u' => Within u') u := by
  unfold sys_read
  refine rwArgs_wp.andThen ?_
  rintro _ u1 ⟨rfl, h1⟩
  cases hr : u.rw with
  | none => exact h1.within hu
  | some c =>
    obtain ⟨f, p, n⟩ := c
    exact h1.only_within hu ((User.rw_eq_some.mp hr).reach_le (hl f p n)) (fileread_only f p n)

/-- A long read touches the first byte after the process. -/
theorem sys_read_long {p n size : UInt32} {ip : Nat → Ino} {off : Nat → UInt32}
    (h : LongRead u f p n ip off size) :
    wp sys_read (fun _ u' => ¬ Within u') (fun _ u' => ¬ Within u') u := by
  obtain ⟨c, hobj⟩ := h.obj
  obtain ⟨data, dittos, hip⟩ := h.file
  obtain ⟨hp, hlen⟩ := h.reach
  unfold sys_read
  refine rwArgs_wp.andThen ?_
  rintro _ u1 ⟨rfl, h1⟩
  rw [User.rw_eq_some.mpr h.call]
  show wp (fileread f p n) _ _ u1
  unfold fileread
  rw [h.readable, hobj]
  dsimp only
  rw [hip]
  refine (readi_file_wp size data dittos p (off 0) n).andThen ?_
  rintro r u2 ⟨h2, hcov⟩
  suffices hn : ¬ Within u2 from wp_ite (fun _ => hn) fun _ => hn
  intro hw
  have hsz : u2.sz = u.sz := h2.sz.trans h1.touches.sz
  have hmem : u.sz ∈ u2.touched := by
    refine hcov _ ⟨u.sz.toNat - p.toNat, by omega, ?_⟩
    have := u.sz.toNat_lt
    rw [← UInt32.toNat_inj, toNat_add_of_lt (by omega)]
    omega
  have hlt := hw _ hmem
  rw [hsz] at hlt
  exact UInt32.lt_irrefl _ hlt

/-- What the checks are for: a word fetched lies in the process, the block `argptr` vouches for
    is one and lies in the process, a string ends in the process, and `read` and `write` touch
    nothing else. -/
structure Checked (u : User) (addr : UInt32) (k : Nat) (size : UInt32) : Prop where
  int : wp (fetchint addr) (fun r u' => r ≠ none → addr.toNat + 4 ≤ u.sz.toNat ∧
    u'.touched = [addr + 3, addr + 2, addr + 1, addr] ++ u.touched) (fun _ _ => False) u
  ptr : wp (argptr k size) (fun r u' => Within u' ∧ ∀ i, r = some i →
    0 ≤ signed size ∧ i.toNat + signed size ≤ u.sz.toNat) (fun _ _ => False) u
  str : wp (fetchstr addr) (fun r u' => Within u' ∧ ∀ l, r = some l → IsStr u addr l)
    (fun _ _ => False) u
  read : wp sys_read (fun _ u' => Within u') (fun _ u' => Within u') u
  write : wp sys_write (fun _ u' => Within u') (fun _ u' => Within u') u

/-- For every process, address, argument number and size, the checks do what they are for unless
    the size is negative and small enough for the pointer, or the call is a long read. -/
theorem pointers_checked_iff (u : User) (hu : Within u) (addr : UInt32) (k : Nat)
    (size : UInt32) :
    Checked u addr k size ↔
      (∀ i, u.arg k = some i → i.toNat < u.sz.toNat → 0 ≤ i.toNat + signed size →
        0 ≤ signed size) ∧
      ∀ f p n ip off size, ¬ LongRead u f p n ip off size := by
  constructor
  · intro h
    constructor
    · intro i hi hlt hadd
      by_contra hneg
      obtain ⟨r, u', -, ⟨-, hr⟩, rfl, -⟩ := (h.ptr.and (argptr_wp k size)).returns_of (by simp)
      exact hneg (hr i (User.ptr_eq_some.mpr ⟨hi, hlt, hadd, by omega⟩)).1
    · intro f p n ip off size hl
      exact (h.read.and (sys_read_long hl)).state (R := fun _ => False)
        (fun _ _ h => h.2 h.1) fun _ _ h => h.2 h.1
  · intro ⟨hp, hl⟩
    refine ⟨?_, ?_, ?_, sys_read_within hu hl, sys_write_within hu⟩
    · refine (fetchint_wp addr).post ?_
      rintro _ u1 ⟨rfl, -, ht⟩ hne
      refine ⟨?_, ht hne⟩
      by_contra hc
      exact hne (if_neg hc)
    · refine (argptr_wp k size).post ?_
      rintro _ u1 ⟨rfl, h1⟩
      refine ⟨h1.within hu, ?_⟩
      intro i hi
      obtain ⟨ha, hlt, hadd, hle⟩ := User.ptr_eq_some.mp hi
      exact ⟨hp i ha hlt hadd, hle⟩
    · exact (fetchstr_wp addr).post fun _ _ h => ⟨h.1.within hu, h.2⟩

/-- A process of 16 bytes that calls `read` with descriptor 0 open on a file of two bytes: the
    words at 4, 8 and 12 are 0, `p` and `n`. -/
def reader (p n : UInt8) : User where
  sz := 16
  esp := 0
  mem a := if a = 8 then p else if a < 12 then 0 else n
  ofile _ := some ⟨true, false, .inode (fun _ => .file 2 (fun _ => 65) []) (fun _ => 0) false⟩
  touched := []
  below := by decide

/-- Such a process that reads two bytes to address 0. -/
def fetcher : User := { reader 0 0 with mem := fun a => if a = 12 then 2 else 0 }

theorem pointers_checked_fetcher : Within fetcher ∧ Checked fetcher 4 1 2 ∧
    ∃ r u', sys_read fetcher = .ok r u' ∧ r = 2 ∧ 0 ∈ u'.touched ∧ 1 ∈ u'.touched ∧
      u'.mem 1 = 65 := by
  have hu : Within fetcher := fun _ ha => nomatch ha
  refine ⟨hu, (pointers_checked_iff _ hu 4 1 2).mpr ⟨fun _ _ _ _ => by decide, ?_⟩, ?_⟩
  · intro f p n ip off size h
    have hn : fetcher.arg 2 = some 2 := by decide +kernel
    obtain rfl : 2 = n := Option.some.inj (hn.symm.trans h.call.len)
    exact absurd h.negative (by decide)
  · obtain ⟨r, u', h, hr⟩ := Res.of_check (r := sys_read fetcher) (p := fun r (u' : User) =>
      decide (r = 2 ∧ 0 ∈ u'.touched ∧ 1 ∈ u'.touched ∧ u'.mem 1 = 65)) (by decide +kernel)
    exact ⟨r, u', h, of_decide_eq_true hr⟩

/-- Reading -1 bytes to the last byte of the process: `argptr` takes the pointer, and `readi`
    copies both bytes of the file, the second one past the end. -/
theorem read_past_end :
    (∃ r u', argptr 1 (-1) (reader 15 255) = .ok r u' ∧ r = some 15) ∧
      ∃ r u', sys_read (reader 15 255) = .ok r u' ∧ r = 2 ∧ u'.sz = 16 ∧ 16 ∈ u'.touched := by
  constructor
  · obtain ⟨r, u', h, hr⟩ := Res.of_check
      (p := fun r _ => decide (r = some 15)) (r := argptr 1 (-1) (reader 15 255))
      (by decide +kernel)
    exact ⟨r, u', h, of_decide_eq_true hr⟩
  · obtain ⟨r, u', h, hr⟩ := Res.of_check
      (p := fun r (u' : User) => decide (r = 2 ∧ u'.sz = 16 ∧ 16 ∈ u'.touched))
      (r := sys_read (reader 15 255)) (by decide +kernel)
    exact ⟨r, u', h, of_decide_eq_true hr⟩

end Zv6.Args
