/-
  Preconditions for `Exec`.

  `wp m Q E s`: run from `s`, `m` returns a result and a state that satisfy `Q`, or ends
  without returning in a state that satisfies `E`, which is told how it ended. With `E` false
  this is total correctness, with `E` true partial correctness, and with an `E` that leaves out
  one panic the code is shown not to end in that one.

  Code is taken apart by `wp_bind`; a call is replaced by what is known about it with
  `wp.mono`.
-/
import Zv6.Lib.Exec

namespace Zv6.Lib

universe u

variable {κ σ α β : Type u}

/-- `m` run from `s` returns with `Q` or stops with `E`. -/
def wp (m : Exec κ σ α) (Q : α → σ → Prop) (E : Stop κ → σ → Prop) (s : σ) : Prop :=
  match m s with
  | .ok a s' => Q a s'
  | .panic e s' => E (.panic e) s'
  | .blocked c s' => E (.blocked c) s'
  | .loops s' => E .loops s'

variable {Q Q' : α → σ → Prop} {E E' : Stop κ → σ → Prop} {s s' : σ} {m n x : Exec κ σ α} {a : α}
  {f : α → Exec κ σ β}

theorem wp_of_ok (h : m s = .ok a s') : wp m Q E s ↔ Q a s' := by
  unfold wp
  rw [h]

/-- Only what the code does from `s` counts. -/
theorem wp_congr (h : m s = n s) : wp m Q E s ↔ wp n Q E s := by
  unfold wp
  rw [h]

theorem wp.ok (h : wp m Q E s) (hr : m s = .ok a s') : Q a s' :=
  (wp_of_ok hr).mp h

/-- With `E` false the code returns. -/
theorem wp.returns (h : wp m Q (fun _ _ => False) s) : ∃ a s', m s = .ok a s' ∧ Q a s' := by
  unfold wp at h
  cases hm : m s with
  | ok a s' => rw [hm] at h; exact ⟨a, s', rfl, h⟩
  | panic | blocked | loops => rw [hm] at h; exact h.elim

/-- What is said of a return is to be proved for the return. -/
theorem wp_of_return (h : ∀ a s', m s = .ok a s' → Q a s') : wp m Q (fun _ _ => True) s := by
  unfold wp
  cases hm : m s with
  | ok a s' => exact h a s' hm
  | _ => trivial

/-- A condition that holds after a return and after every stop. -/
theorem wp.state {R : σ → Prop} (h : wp m Q E s) (hQ : ∀ a s', Q a s' → R s')
    (hE : ∀ c s', E c s' → R s') : R (m s).state := by
  unfold wp at h
  cases hm : m s with
  | ok a s' => rw [hm] at h; exact hQ a s' h
  | panic _ s' | blocked _ s' | loops s' => rw [hm] at h; exact hE _ s' h

theorem wp.mono (h : wp m Q E s) (hQ : ∀ a s', Q a s' → Q' a s') (hE : ∀ c s', E c s' → E' c s') :
    wp m Q' E' s := by
  unfold wp at h ⊢
  cases hm : m s with
  | ok a s' => rw [hm] at h; exact hQ a s' h
  | panic _ s' | blocked _ s' | loops s' => rw [hm] at h; exact hE _ s' h

/-- Code that cannot stop returns. -/
theorem wp.returns_of (h : wp m Q E s) (hE : ∀ c s', ¬ E c s') : ∃ a s', m s = .ok a s' ∧ Q a s' :=
  (h.mono (fun _ _ h => h) hE).returns

theorem wp.post (h : wp m Q E s) (hQ : ∀ a s', Q a s' → Q' a s') : wp m Q' E s :=
  h.mono hQ fun _ _ h => h

/-- Two facts about one run. -/
theorem wp.and (h : wp m Q E s) (h' : wp m Q' E' s) :
    wp m (fun a s' => Q a s' ∧ Q' a s') (fun c s' => E c s' ∧ E' c s') s := by
  unfold wp at h h' ⊢
  cases hm : m s with
  | ok | panic | blocked | loops => rw [hm] at h h'; exact ⟨h, h'⟩

theorem wp_bind {Q : β → σ → Prop} :
    wp (x >>= f) Q E s ↔ wp x (fun a s' => wp (f a) Q E s') E s := by
  unfold wp
  rw [Exec.bind_apply]
  cases x s <;> rfl

/-- A call whose result is known, followed by the rest. -/
theorem wp_ok_bind {Q : β → σ → Prop} (h : x s = .ok a s') (hf : wp (f a) Q E s') :
    wp (x >>= f) Q E s :=
  wp_bind.mpr ((wp_of_ok h).mpr hf)

/-- A call followed by the rest, by what is known about the call. -/
theorem wp.bind {R : α → σ → Prop} {Q : β → σ → Prop} (hx : wp x R E s)
    (hf : ∀ a s', R a s' → wp (f a) Q E s') : wp (x >>= f) Q E s :=
  wp_bind.mpr (hx.post hf)

/-- A call that returns, followed by the rest. -/
theorem wp.andThen {R : α → σ → Prop} {Q : β → σ → Prop} (hx : wp x R (fun _ _ => False) s)
    (hf : ∀ a s', R a s' → wp (f a) Q E s') : wp (x >>= f) Q E s :=
  wp_bind.mpr (hx.mono hf fun _ _ h => h.elim)

@[simp] theorem wp_pure : wp (pure a) Q E s ↔ Q a s := Iff.rfl

@[simp] theorem wp_gets {g : σ → α} : wp (Exec.gets g) Q E s ↔ Q (g s) s := Iff.rfl

@[simp] theorem wp_modify {g : σ → σ} {Q : PUnit → σ → Prop} :
    wp (Exec.modify g) Q E s ↔ Q ⟨⟩ (g s) := Iff.rfl

@[simp] theorem wp_gets_bind {g : σ → α} {Q : β → σ → Prop} :
    wp (Exec.gets g >>= f) Q E s ↔ wp (f (g s)) Q E s := Iff.rfl

@[simp] theorem wp_modify_bind {g : σ → σ} {f : PUnit → Exec κ σ β} {Q : β → σ → Prop} :
    wp (Exec.modify g >>= f) Q E s ↔ wp (f ⟨⟩) Q E (g s) := Iff.rfl

@[simp] theorem wp_pure_bind {Q : β → σ → Prop} :
    wp (pure a >>= f) Q E s ↔ wp (f a) Q E s := Iff.rfl

theorem wp_ite {p : Prop} [Decidable p] {m m' : Exec κ σ α} (h : p → wp m Q E s)
    (h' : ¬ p → wp m' Q E s) : wp (if p then m else m') Q E s := by
  split
  · next hp => exact h hp
  · next hp => exact h' hp

theorem wp_when {p : Prop} [Decidable p] {m : Exec κ σ PUnit} {Q : PUnit → σ → Prop}
    (h : p → wp m Q E s) (h' : ¬ p → Q ⟨⟩ s) : wp (Exec.when p m) Q E s :=
  wp_ite h h'

/-! ## Invariants -/

/-- `m` keeps `I` when it returns and stops only with `E`. -/
def Keeps (I : σ → Prop) (E : Stop κ → σ → Prop) (m : Exec κ σ α) : Prop :=
  ∀ s, I s → wp m (fun _ s' => I s') E s

variable {I : σ → Prop}

theorem Keeps.bind (hx : Keeps I E x) (hf : ∀ a, Keeps I E (f a)) : Keeps I E (x >>= f) :=
  fun s hs => (hx s hs).bind fun a s' hs' => hf a s' hs'

theorem Keeps.pure (a : α) : Keeps I E (pure a) := fun _ hs => hs

theorem Keeps.panic (e : String) (h : ∀ s, I s → E (.panic e) s) :
    Keeps I E (Exec.panic e : Exec κ σ α) := h

theorem Keeps.gets (g : σ → α) : Keeps I E (Exec.gets g) := fun _ hs => hs

theorem Keeps.ite {p : Prop} [Decidable p] {m m' : Exec κ σ α} (h : p → Keeps I E m)
    (h' : ¬ p → Keeps I E m') : Keeps I E (if p then m else m') := by
  split
  · next hp => exact h hp
  · next hp => exact h' hp

theorem Keeps.when {p : Prop} [Decidable p] {m : Exec κ σ PUnit} (h : p → Keeps I E m) :
    Keeps I E (Exec.when p m) :=
  Keeps.ite h fun _ => Keeps.pure _

end Zv6.Lib
