/-
  Kernel code run by one process, as a state transformer with an outcome.

  A call either returns (`ok`), stops the machine (`panic`), sleeps on a channel that
  nobody else will wake (`blocked`), or never leaves a loop (`loops`). `Exec κ σ α` is
  code over states `σ` with channels `κ`; sequencing stops at the first outcome other
  than `ok`. Nothing here knows which kernel it is.

  The rules used by the proofs: `bind_ok` runs one step forward, `bind_eq_ok` takes a
  returned sequence apart.
-/
import Mathlib.Tactic.Common

namespace Zv6.Lib

universe u

/-- How a call ends. -/
inductive Res (κ σ α : Type u) where
  | ok (a : α) (s : σ)
  | panic (msg : String) (s : σ)
  | blocked (chan : κ) (s : σ)
  | loops (s : σ)

/-- How a call ends that does not return. -/
inductive Stop (κ : Type u) where
  | panic (msg : String)
  | blocked (chan : κ)
  | loops

/-- Code over states `σ` that may sleep on channels `κ`. -/
def Exec (κ σ α : Type u) : Type u := σ → Res κ σ α

variable {κ σ α β : Type u}

/-- Go on with `f` after a return; every other outcome is final. -/
def Res.andThen (r : Res κ σ α) (f : α → σ → Res κ σ β) : Res κ σ β :=
  match r with
  | .ok a s => f a s
  | .panic m s => .panic m s
  | .blocked c s => .blocked c s
  | .loops s => .loops s

/-- The state a call leaves behind, whether or not it returned. -/
def Res.state : Res κ σ α → σ
  | .ok _ s => s
  | .panic _ s => s
  | .blocked _ s => s
  | .loops s => s

/-- The call returned with `p`. -/
def Res.check (p : α → σ → Bool) : Res κ σ α → Bool
  | .ok a s => p a s
  | _ => false

/-- The message of a call that stopped the machine. -/
def Res.panic? : Res κ σ α → Option String
  | .panic e _ => some e
  | _ => none

theorem Res.of_check {p : α → σ → Bool} {r : Res κ σ α} (h : r.check p = true) :
    ∃ a s, r = .ok a s ∧ p a s = true := by
  cases r with
  | ok a s => exact ⟨a, s, rfl, h⟩
  | _ => cases h

theorem Res.of_panic {e : String} {r : Res κ σ α} (h : r.panic? = some e) :
    ∃ s, r = .panic e s := by
  cases r with
  | panic e' s =>
    obtain rfl : e' = e := Option.some.inj h
    exact ⟨s, rfl⟩
  | _ => cases h

namespace Exec

instance : Monad (Exec κ σ) where
  pure a := fun s => .ok a s
  bind x f := fun s => (x s).andThen f

/-- Stop the machine. -/
def panic (msg : String) : Exec κ σ α := fun s => .panic msg s

/-- Sleep on a channel. -/
def sleep (chan : κ) : Exec κ σ α := fun s => .blocked chan s

/-- Read something off the state. -/
def gets (f : σ → α) : Exec κ σ α := fun s => .ok (f s) s

/-- Change the state. -/
def modify (f : σ → σ) : Exec κ σ PUnit := fun s => .ok ⟨⟩ (f s)

/-- Run `m` if `p` holds. -/
def when (p : Prop) [Decidable p] (m : Exec κ σ PUnit) : Exec κ σ PUnit :=
  if p then m else pure ⟨⟩

@[simp] theorem pure_apply (a : α) (s : σ) : (pure a : Exec κ σ α) s = .ok a s := rfl

@[simp] theorem gets_apply (f : σ → α) (s : σ) : (gets f : Exec κ σ α) s = .ok (f s) s := rfl

@[simp] theorem modify_apply (f : σ → σ) (s : σ) :
    (modify f : Exec κ σ PUnit) s = .ok ⟨⟩ (f s) := rfl

theorem bind_apply (x : Exec κ σ α) (f : α → Exec κ σ β) (s : σ) :
    (x >>= f) s = (x s).andThen f := rfl

/-- One step forward. -/
theorem bind_ok {x : Exec κ σ α} {s s' : σ} {a : α} (h : x s = .ok a s')
    (f : α → Exec κ σ β) : (x >>= f) s = f a s' := by
  rw [bind_apply, h]
  rfl

theorem bind_panic {x : Exec κ σ α} {s s' : σ} {m : String} (h : x s = .panic m s')
    (f : α → Exec κ σ β) : (x >>= f) s = .panic m s' := by
  rw [bind_apply, h]
  rfl

@[simp] theorem gets_bind (g : σ → α) (f : α → Exec κ σ β) (s : σ) :
    (gets g >>= f) s = f (g s) s := rfl

@[simp] theorem modify_bind (g : σ → σ) (f : PUnit → Exec κ σ β) (s : σ) :
    (modify g >>= f) s = f ⟨⟩ (g s) := rfl

@[simp] theorem pure_bind_apply (a : α) (f : α → Exec κ σ β) (s : σ) :
    ((pure a : Exec κ σ α) >>= f) s = f a s := rfl

theorem bind_assoc {γ : Type u} (x : Exec κ σ α) (f : α → Exec κ σ β) (g : β → Exec κ σ γ) :
    x >>= f >>= g = x >>= fun a => f a >>= g := by
  funext s
  rw [bind_apply, bind_apply, bind_apply]
  cases x s <;> rfl

theorem when_pos {p : Prop} [Decidable p] (h : p) (m : Exec κ σ PUnit) : when p m = m :=
  if_pos h

theorem when_neg {p : Prop} [Decidable p] (h : ¬ p) (m : Exec κ σ PUnit) :
    when p m = pure ⟨⟩ :=
  if_neg h

/-- A sequence that returns is a return followed by a return. -/
theorem bind_eq_ok {x : Exec κ σ α} {f : α → Exec κ σ β} {s s'' : σ} {b : β} :
    (x >>= f) s = .ok b s'' ↔ ∃ a s', x s = .ok a s' ∧ f a s' = .ok b s'' := by
  rw [bind_apply]
  constructor
  · intro h
    cases hx : x s with
    | ok a s' =>
      rw [hx] at h
      exact ⟨a, s', rfl, h⟩
    | panic | blocked | loops => rw [hx] at h; cases h
  · rintro ⟨a, s', hx, hf⟩
    rw [hx]
    exact hf

end Exec

end Zv6.Lib
