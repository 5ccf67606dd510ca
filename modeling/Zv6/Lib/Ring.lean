/-
  Circular buffers with free-running 32-bit indices.

  The byte with index `i` lies in slot `i % N`, where `N` divides 2^32, so that the slots go round
  without a jump when the index wraps. `window f i n` are the `n` bytes from index `i` on. As long
  as no more than `N` bytes are kept, a byte stored behind the window touches none of it.
-/
import Mathlib.Data.UInt

namespace Zv6.Lib

open Function

/-! ## Wrapping indices -/

section Index

variable {a b i : UInt32}

theorem toNat_sub_eq_zero : (a - b).toNat = 0 ↔ a = b := by
  have h1 := a.toNat_lt
  have h2 := b.toNat_lt
  rw [UInt32.toNat_sub, ← UInt32.toNat_inj]
  omega

end Index

/-! ## Windows -/

variable {N : Nat} {α : Type}

/-- `i % N`. -/
def slot (hN : 0 < N) (i : UInt32) : Fin N := ⟨i.toNat % N, Nat.mod_lt _ hN⟩

/-- The `n` bytes from index `i` on. -/
def window (hN : 0 < N) (f : Fin N → α) (i : UInt32) (n : Nat) : List α :=
  (List.range n).map fun j => f (slot hN (i + UInt32.ofNat j))

variable {hN : 0 < N} {f : Fin N → α} {i : UInt32} {k n : Nat} {x : α}

theorem slot_add_ne (hd : N ∣ 4294967296) (h0 : 0 < k) (hk : k < N) :
    slot hN (i + UInt32.ofNat k) ≠ slot hN i := by
  unfold slot
  simp only [ne_eq, Fin.mk.injEq]
  have hle : N ≤ 4294967296 := Nat.le_of_dvd (by decide) hd
  rw [UInt32.toNat_add, UInt32.toNat_ofNat', Nat.mod_mod_of_dvd _ hd,
    Nat.mod_eq_of_lt (show k < 2 ^ 32 by omega)]
  intro h
  have hz : (k + i.toNat) % N = (0 + i.toNat) % N := by
    rw [Nat.add_comm k, Nat.zero_add]
    exact h
  have h1 : k % N = 0 % N := Nat.ModEq.add_right_cancel' _ hz
  rw [Nat.mod_eq_of_lt hk, Nat.zero_mod] at h1
  omega

@[simp] theorem window_zero : window hN f i 0 = [] := rfl

theorem window_add (a b : Nat) :
    window hN f i (a + b) = window hN f i a ++ window hN f (i + UInt32.ofNat a) b := by
  unfold window
  rw [List.range_add, List.map_append, List.map_map]
  congr 1
  refine List.map_congr_left fun j _ => ?_
  show f (slot hN (i + UInt32.ofNat (a + j))) = f (slot hN (i + UInt32.ofNat a + UInt32.ofNat j))
  rw [UInt32.ofNat_add, UInt32.add_assoc]

theorem window_one : window hN f i 1 = [f (slot hN i)] := by
  show [f (slot hN (i + 0))] = _
  rw [UInt32.add_zero]

/-- One byte more at the end. -/
theorem window_succ :
    window hN f i (n + 1) = window hN f i n ++ [f (slot hN (i + UInt32.ofNat n))] := by
  rw [window_add, window_one]

/-- One byte less at the start. -/
theorem window_cons : window hN f i (n + 1) = f (slot hN i) :: window hN f (i + 1) n := by
  rw [Nat.add_comm, window_add, window_one]
  rfl

/-- A byte stored behind the window leaves it alone. -/
theorem window_update (hd : N ∣ 4294967296) (hn : n ≤ k) (hk : k < N) :
    window hN (update f (slot hN (i + UInt32.ofNat k)) x) i n = window hN f i n := by
  unfold window
  refine List.map_congr_left fun j hj => ?_
  have hj : j < n := List.mem_range.mp hj
  have hne := @slot_add_ne N hN (i + UInt32.ofNat j) (k - j) hd (by omega) (by omega)
  have hadd : i + UInt32.ofNat j + UInt32.ofNat (k - j) = i + UInt32.ofNat k := by
    rw [UInt32.add_assoc, ← UInt32.ofNat_add]
    congr 2
    omega
  rw [hadd] at hne
  exact update_of_ne hne.symm ..

/-- A byte stored right behind the window is its next. -/
theorem window_store (hd : N ∣ 4294967296) (hn : n < N) :
    window hN (update f (slot hN (i + UInt32.ofNat n)) x) i (n + 1) =
      window hN f i n ++ [x] := by
  rw [window_succ, window_update hd le_rfl hn, update_self]

end Zv6.Lib
