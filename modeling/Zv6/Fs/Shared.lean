/-
  Writers that share a descriptor.

  Any number of processes hold one open file, after `fork` or `dup`, and each makes its calls of
  `filewrite`. A transaction runs under the lock of the log, so what interleaves are the chunks,
  and the lock and unlock of the inode before the first of them (`prologue`). `Step` lets one
  process run one of these; `Run` is any sequence of steps, with the bytes each one wrote.

  `shared_writers`: whatever the interleaving, the file holds the chunks one after the other in
  the order of their commits, the offset stands behind them, every process's bytes are written in
  its own order, and no process is ever stopped.
-/
import Mathlib.Algebra.Order.BigOperators.Group.Finset
import Zv6.Fs.Chunks

namespace Zv6.Shared

open Lib Function

/-! ## The system -/

/-- What `filewrite` on an inode does before its loop: an error, or none to go on. -/
def prologue (f : Fin 100) : K (Option Int) := do
  let ff ← Exec.gets fun s => s.ftable f
  if ff.writable = false then pure (some (-1))
  else do
    let r ← ilock_trans ff.ip
    if r = E_CORRUPTED then pure (some E_CORRUPTED)
    else do
      iunlock ff.ip
      pure none

/-- Where a process is: between two calls, with the writes still to come, or in the loop of a
    call, with the bytes left of it. -/
inductive Pc where
  | idle (calls : List (List UInt8))
  | loop (src : List UInt8) (calls : List (List UInt8))

/-- What a process has still to write. -/
def Pc.bytes : Pc → List UInt8
  | .idle calls => calls.flatten
  | .loop src calls => src ++ calls.flatten

structure Sys (P : Type) where
  fs : State
  pc : P → Pc

section Machine

variable {P : Type}

/-- The bytes written, in the order of the commits. -/
def written (tr : List (P × List UInt8)) : List UInt8 := tr.flatMap Prod.snd

theorem written_append (tr : List (P × List UInt8)) (p : P) (out : List UInt8) :
    written (tr ++ [(p, out)]) = written tr ++ out := by
  simp [written]

/-- How many bytes the processes are to write. -/
def total [Fintype P] (m : Sys P) : Nat := ∑ p, (m.pc p).bytes.length

variable [DecidableEq P]

/-- Process `p` goes on to `c` with the file system in `s`. -/
def Sys.go (m : Sys P) (p : P) (s : State) (c : Pc) : Sys P := ⟨s, update m.pc p c⟩

/-- A step of process `p`, and the bytes it wrote. -/
inductive Step (f : Fin 100) (p : P) (m : Sys P) : List UInt8 → Sys P → Prop
  | call {src : List UInt8} {calls : List (List UInt8)} {s : State}
      (hpc : m.pc p = .idle (src :: calls)) (hrun : prologue f m.fs = .ok none s) :
      Step f p m [] (m.go p s (.loop src calls))
  | fail {src : List UInt8} {calls : List (List UInt8)} {s : State} {e : Int}
      (hpc : m.pc p = .idle (src :: calls)) (hrun : prologue f m.fs = .ok (some e) s) :
      Step f p m [] (m.go p s (.idle calls))
  | write {src : List UInt8} {calls : List (List UInt8)} {s : State}
      (hpc : m.pc p = .loop src calls) (hne : src ≠ [])
      (hrun : chunk f (src.take (min src.length 4096)) m.fs =
        .ok ((min src.length 4096 : Nat) : Int) s) :
      Step f p m (src.take (min src.length 4096))
        (m.go p s (.loop (src.drop (min src.length 4096)) calls))
  | refuse {src : List UInt8} {calls : List (List UInt8)} {s : State} {r : Int}
      (hpc : m.pc p = .loop src calls) (hne : src ≠ [])
      (hrun : chunk f (src.take (min src.length 4096)) m.fs = .ok r s) (hr : r < 0) :
      Step f p m [] (m.go p s (.idle calls))
  | done {calls : List (List UInt8)} (hpc : m.pc p = .loop [] calls) :
      Step f p m [] (m.go p m.fs (.idle calls))

/-- Steps of the processes in any order; `tr` are the steps with the bytes they wrote. -/
inductive Run (f : Fin 100) (m0 : Sys P) : List (P × List UInt8) → Sys P → Prop
  | nil : Run f m0 [] m0
  | step {tr : List (P × List UInt8)} {m m' : Sys P} {p : P} {out : List UInt8}
      (h : Run f m0 tr m) (hs : Step f p m out m') : Run f m0 (tr ++ [(p, out)]) m'

/-- The bytes process `p` wrote. -/
def own (p : P) (tr : List (P × List UInt8)) : List UInt8 := written (tr.filter fun x => x.1 = p)

/-- How many steps a process can still make. -/
def Pc.weight : Pc → Nat
  | .idle calls => (calls.map fun c => c.length + 2).sum
  | .loop src calls => src.length + 1 + (calls.map fun c => c.length + 2).sum

/-! ## Counting -/

theorem own_append (tr : List (P × List UInt8)) (p q : P) (out : List UInt8) :
    own q (tr ++ [(p, out)]) = own q tr ++ if p = q then out else [] := by
  unfold own
  by_cases h : p = q
  · rw [List.filter_append, List.filter_cons_of_pos (by simpa using h), List.filter_nil,
      written_append, if_pos h]
  · rw [List.filter_append, List.filter_cons_of_neg (by simpa using h), List.filter_nil, if_neg h,
      List.append_nil, List.append_nil]

theorem sum_own [Fintype P] (tr : List (P × List UInt8)) :
    ∑ p, (own p tr).length = (written tr).length := by
  induction tr using List.reverseRecOn with
  | nil => simp [own, written]
  | append_singleton tr x ih =>
    obtain ⟨p, out⟩ := x
    simp only [own_append, written_append, List.length_append, Finset.sum_add_distrib, ih]
    congr 1
    rw [Finset.sum_eq_single p]
    · rw [if_pos rfl]
    · intro q _ hq
      rw [if_neg (Ne.symm hq)]
      rfl
    · intro hp
      exact absurd (Finset.mem_univ p) hp

theorem sum_go [Fintype P] (m : Sys P) (p : P) (s : State) (c : Pc) :
    (m.pc p).weight + ∑ q, ((m.go p s c).pc q).weight = c.weight + ∑ q, (m.pc q).weight := by
  have hgo : ∀ q ∈ Finset.univ.erase p, ((m.go p s c).pc q).weight = (m.pc q).weight := by
    intro q hq
    show (update m.pc p c q).weight = _
    rw [update_of_ne (Finset.ne_of_mem_erase hq)]
  have hself : ((m.go p s c).pc p).weight = c.weight := by
    show (update m.pc p c p).weight = _
    rw [update_self]
  rw [← Finset.add_sum_erase _ _ (Finset.mem_univ p),
    ← Finset.add_sum_erase _ (fun q => (m.pc q).weight) (Finset.mem_univ p), hself,
    Finset.sum_congr rfl hgo]
  omega

/-! ## The invariant -/

variable {sb : Superblock} {L : Set Nat} {D : Nat → Dinode} {N : Nat → UInt16} {f ip : Fin 100}
  {n off : Nat} {bns : Finset Nat} {c : List UInt8} {m0 m m' : Sys P}
  {tr : List (P × List UInt8)} {p : P} {out : List UInt8}

theorem prologue_writing {s : State} (h : Writing sb L D N f ip n off s)
    (hw : (s.ftable f).writable = true) :
    ∃ s1, prologue f s = .ok none s1 ∧ Writing sb L D N f ip n off s1 ∧ s1.view = s.view ∧
      s1.ftable = s.ftable := by
  obtain ⟨s1, hlock, hunlock, h1, hview, hft⟩ := h.start
  refine ⟨s1, ?_, h1, hview, hft⟩
  unfold prologue
  rw [Exec.gets_bind, if_neg (by simp [hw]), h.slot, Exec.bind_ok hlock, if_neg (by decide),
    Exec.bind_ok hunlock]
  rfl

/-- After the steps `tr` from `m0`: the bytes written stand in the file from `off` on, the offset
    stands behind them, and each process has the rest of its bytes left. -/
structure Inv [Fintype P] (sb : Superblock) (L : Set Nat) (N : Nat → UInt16) (f ip : Fin 100)
    (n off : Nat) (bns : Finset Nat) (c : List UInt8) (m0 : Sys P) (tr : List (P × List UInt8))
    (m : Sys P) : Prop where
  file : ∃ D, Writing sb L D N f ip n (off + (written tr).length) m.fs ∧
    contents (m.fs.view 1) (D n) = overwrite c off (written tr) ∧
    Stock sb 0 (m.fs.view 1) (D n) bns
  writable : (m.fs.ftable f).writable = true
  own : ∀ p, own p tr ++ (m.pc p).bytes = (m0.pc p).bytes
  weight : tr.length + ∑ p, (m.pc p).weight ≤ ∑ p, (m0.pc p).weight

section Inv

variable [Fintype P]

theorem Inv.count (h : Inv sb L N f ip n off bns c m0 tr m) :
    (written tr).length + total m = total m0 := by
  have hown : ∀ p, (Shared.own p tr).length + (m.pc p).bytes.length = (m0.pc p).bytes.length := by
    intro p
    rw [← h.own p, List.length_append]
  rw [← sum_own, Shared.total, ← Finset.sum_add_distrib]
  exact Finset.sum_congr rfl fun p _ => hown p

/-- What process `p` has left fits into the file. -/
theorem Inv.fits (h : Inv sb L N f ip n off bns c m0 tr m) (p : P) :
    (written tr).length + (m.pc p).bytes.length ≤ total m0 := by
  have ht := h.count
  have hp : (m.pc p).bytes.length ≤ total m :=
    Finset.single_le_sum (f := fun p => (m.pc p).bytes.length) (fun _ _ => Nat.zero_le _)
      (Finset.mem_univ p)
  omega

/-- Process `p` goes on without writing. -/
theorem Inv.go (h : Inv sb L N f ip n off bns c m0 tr m) {s : State} {x : Pc}
    (hfile : ∀ D, Writing sb L D N f ip n (off + (written tr).length) m.fs →
      Writing sb L D N f ip n (off + (written tr).length) s)
    (hview : s.view = m.fs.view) (hft : s.ftable = m.fs.ftable) (hbytes : x.bytes = (m.pc p).bytes)
    (hweight : x.weight < (m.pc p).weight) :
    Inv sb L N f ip n off bns c m0 (tr ++ [(p, [])]) (m.go p s x) := by
  obtain ⟨D, hw, hc, hs⟩ := h.file
  refine ⟨⟨D, ?_, ?_, ?_⟩, ?_, fun q => ?_, ?_⟩
  · rw [written_append, List.append_nil]
    exact hfile D hw
  · rw [written_append, List.append_nil]
    show contents (s.view 1) (D n) = _
    rw [hview]
    exact hc
  · show Stock sb 0 (s.view 1) (D n) bns
    rw [hview]
    exact hs
  · show (s.ftable f).writable = true
    rw [hft]
    exact h.writable
  · rw [own_append, ← h.own q]
    show _ ++ (update m.pc p x q).bytes = _
    by_cases hq : q = p
    · rw [hq, update_self, hbytes, if_pos rfl, List.append_nil]
    · rw [update_of_ne hq, if_neg (Ne.symm hq), List.append_nil]
  · have := sum_go m p s x
    have := h.weight
    rw [List.length_append, List.length_singleton]
    omega

/-- A chunk of process `p` is written. -/
theorem Inv.write (h : Inv sb L N f ip n off (span off (total m0)) c m0 tr m)
    (hfits : ChunkFits sb n) (hmax : off + total m0 ≤ 70656) (hoff : off ≤ c.length)
    {src : List UInt8} {calls : List (List UInt8)} (hpc : m.pc p = .loop src calls)
    (hne : src ≠ []) :
    ∃ s, chunk f (src.take (min src.length 4096)) m.fs =
        .ok ((min src.length 4096 : Nat) : Int) s ∧
      Inv sb L N f ip n off (span off (total m0)) c m0
        (tr ++ [(p, src.take (min src.length 4096))])
        (m.go p s (.loop (src.drop (min src.length 4096)) calls)) := by
  obtain ⟨D, hw, hc, hs⟩ := h.file
  have hleft := h.fits p
  have hbytes : (m.pc p).bytes = src ++ calls.flatten := by rw [hpc]; rfl
  have hpos : 0 < src.length := List.length_pos_iff.mpr hne
  rw [hbytes, List.length_append] at hleft
  generalize hk : min src.length 4096 = k
  have htake : (src.take k).length = k := by
    rw [List.length_take]
    omega
  -- the chunk's blocks are among those of the whole range
  have hpart : span (off + (written tr).length) (src.take k).length ⊆ span off (total m0) :=
    span_subset (by omega) (by omega)
  obtain ⟨s, D', hrun, hw', hc', hg, hfree, hft⟩ := hw.put
    (hfits.cost (show (src.take k).length ≤ 4096 by omega) _ _ _)
    (Nat.le_trans (Nat.add_le_add_left (lack_mono hpart) 0) hs) (by omega)
    (show off + (written tr).length + (src.take k).length ≤ 70656 by omega)
  rw [htake] at hrun
  refine ⟨s, hrun, ⟨D', ?_, ?_, hs.after hg hfree hpart⟩, ?_, fun q => ?_, ?_⟩
  · rw [written_append, List.length_append, ← Nat.add_assoc]
    exact hw'
  · rw [written_append, ← overwrite_append hoff, ← hc]
    exact hc'
  · show (s.ftable f).writable = true
    rw [hft, update_self]
    exact h.writable
  · rw [own_append, ← h.own q]
    show _ ++ (update m.pc p _ q).bytes = _
    by_cases hq : q = p
    · rw [hq, update_self, if_pos rfl, hbytes, List.append_assoc]
      show _ ++ (src.take k ++ (src.drop k ++ calls.flatten)) = _
      rw [← List.append_assoc (src.take k), List.take_append_drop]
    · rw [update_of_ne hq, if_neg (Ne.symm hq), List.append_nil]
  · have hgo := sum_go m p s (.loop (src.drop k) calls)
    have hold := h.weight
    have hw1 : (m.pc p).weight = src.length + 1 + (calls.map fun c => c.length + 2).sum := by
      rw [hpc]
      rfl
    have hw2 : (Pc.loop (src.drop k) calls).weight =
        (src.drop k).length + 1 + (calls.map fun c => c.length + 2).sum := rfl
    rw [List.length_drop] at hw2
    rw [List.length_append, List.length_singleton]
    omega

/-- One step keeps the invariant. -/
theorem Inv.step (h : Inv sb L N f ip n off (span off (total m0)) c m0 tr m)
    (hfits : ChunkFits sb n) (hmax : off + total m0 ≤ 70656) (hoff : off ≤ c.length)
    (hs : Step f p m out m') :
    Inv sb L N f ip n off (span off (total m0)) c m0 (tr ++ [(p, out)]) m' := by
  obtain ⟨D, hw, -, -⟩ := h.file
  obtain ⟨s1, hpro, -, hview, hft⟩ := prologue_writing hw h.writable
  cases hs with
  | @call src calls s hpc hrun =>
    rw [hpro] at hrun
    cases hrun
    refine h.go (fun D hw => ?_) hview hft ?_ ?_
    · obtain ⟨s2, hpro2, hw2, -, -⟩ := prologue_writing hw h.writable
      rw [hpro] at hpro2
      cases hpro2
      exact hw2
    · rw [hpc]
      rfl
    · rw [hpc]
      simp only [Pc.weight, List.map_cons, List.sum_cons]
      omega
  | fail hpc hrun =>
    rw [hpro] at hrun
    cases hrun
  | write hpc hne hrun =>
    obtain ⟨s, hrun', h'⟩ := h.write hfits hmax hoff hpc hne
    rw [hrun] at hrun'
    cases hrun'
    exact h'
  | refuse hpc hne hrun hr =>
    obtain ⟨s, hrun', -⟩ := h.write hfits hmax hoff hpc hne
    rw [hrun] at hrun'
    cases hrun'
    omega
  | done hpc =>
    refine h.go (fun _ hw => hw) rfl rfl ?_ ?_
    · rw [hpc]
      rfl
    · rw [hpc]
      simp only [Pc.weight, List.length_nil]
      omega

/-- A process that has not finished can go on. -/
theorem Inv.progress (h : Inv sb L N f ip n off (span off (total m0)) c m0 tr m)
    (hfits : ChunkFits sb n) (hmax : off + total m0 ≤ 70656) (hoff : off ≤ c.length)
    (hp : m.pc p ≠ .idle []) : ∃ out m', Step f p m out m' := by
  obtain ⟨D, hw, -, -⟩ := h.file
  cases hpc : m.pc p with
  | idle calls =>
    cases calls with
    | nil => exact absurd hpc hp
    | cons src calls =>
      obtain ⟨s1, hpro, -⟩ := prologue_writing hw h.writable
      exact ⟨_, _, .call hpc hpro⟩
  | loop src calls =>
    by_cases hne : src = []
    · rw [hne] at hpc
      exact ⟨_, _, .done hpc⟩
    · obtain ⟨s, hrun, -⟩ := h.write hfits hmax hoff hpc hne
      exact ⟨_, _, .write hpc hne hrun⟩

/-- Every run keeps the invariant. -/
theorem Inv.run (h : Inv sb L N f ip n off (span off (total m0)) c m0 [] m0)
    (hfits : ChunkFits sb n) (hmax : off + total m0 ≤ 70656) (hoff : off ≤ c.length)
    (hrun : Run f m0 tr m) : Inv sb L N f ip n off (span off (total m0)) c m0 tr m := by
  induction hrun with
  | nil => exact h
  | step _ hs ih => exact ih.step hfits hmax hoff hs

theorem Inv.init (h : OpenFile sb L D N f ip n off m0.fs)
    (hstock : Stock sb 0 (m0.fs.view 1) (D n) bns) :
    Inv sb L N f ip n off bns (contents (m0.fs.view 1) (D n)) m0 [] m0 := by
  refine ⟨⟨D, h.writing, ?_, hstock⟩, h.writable, fun p => rfl, ?_⟩
  · exact (overwrite_nil _ _).symm
  · rw [List.length_nil, Nat.zero_add]

end Inv

end Machine

/-- Two processes each begin a call, then each writes its bytes in one chunk. -/
theorem Run.taking_turns {f : Fin 100} {m : Sys (Fin 2)} {a b : List UInt8}
    {s1 s2 s3 s4 : State} (hpa : m.pc 0 = .idle [a]) (hpb : m.pc 1 = .idle [b])
    (ha : a ≠ []) (hb : b ≠ []) (hla : a.length ≤ 4096) (hlb : b.length ≤ 4096)
    (h1 : prologue f m.fs = .ok none s1) (h2 : prologue f s1 = .ok none s2)
    (h3 : chunk f a s2 = .ok a.length s3) (h4 : chunk f b s3 = .ok b.length s4) :
    ∃ tr m', Run f m tr m' ∧ m'.fs = s4 ∧ (∀ p, m'.pc p = .idle []) ∧ written tr = a ++ b := by
  have hta : a.take (min a.length 4096) = a := List.take_of_length_le (by omega)
  have htb : b.take (min b.length 4096) = b := List.take_of_length_le (by omega)
  have hda : a.drop (min a.length 4096) = [] := List.drop_of_length_le (by omega)
  have hdb : b.drop (min b.length 4096) = [] := List.drop_of_length_le (by omega)
  have r1 := Run.nil.step (.call hpa h1)
  have r2 := r1.step (.call (p := 1) hpb h2)
  have r3 := r2.step (.write (p := 0) rfl ha (by rw [hta, Nat.min_eq_left hla]; exact h3))
  have r4 := r3.step (.write (p := 1) rfl hb (by rw [htb, Nat.min_eq_left hlb]; exact h4))
  rw [hta, hda, htb, hdb] at r4
  have r6 := (r4.step (.done (p := 0) rfl)).step (.done (p := 1) rfl)
  exact ⟨_, _, r6, rfl, Fin.forall_fin_two.mpr ⟨rfl, rfl⟩, by simp [written]⟩

/-- Two processes with an empty file, to write two bytes each. -/
def twoWriters (top : Nat) : Sys (Fin 2) :=
  ⟨fileMachine top emptyFile 2 0, fun p => if p = 0 then .idle [[7, 8]] else .idle [[9, 10]]⟩

/-- What the file of the two writers holds after they have taken turns. -/
def turns (top : Nat) (file : List UInt8) : Bool :=
  (prologue 0 (twoWriters top).fs).check fun e s1 => e.isNone &&
  (prologue 0 s1).check fun e s2 => e.isNone &&
  (chunk 0 [7, 8] s2).check fun r s3 => decide (r = 2) &&
  (chunk 0 [9, 10] s3).check fun r s4 => decide (r = 2) &&
  (readi 0 0 4 s4).check fun b _ => decide (b = (4, file))

theorem Run.turns {top : Nat} {file : List UInt8} (hall : turns top file = true) :
    ∃ tr m, Run 0 (twoWriters top) tr m ∧ (∀ p, m.pc p = .idle []) ∧ written tr = [7, 8, 9, 10] ∧
      ∃ s, readi 0 0 4 m.fs = .ok (4, file) s := by
  obtain ⟨e1, s1, h1, he⟩ := Res.of_check hall
  obtain ⟨hn1, hall⟩ := Bool.and_eq_true_iff.mp he
  obtain ⟨e2, s2, h2, he⟩ := Res.of_check hall
  obtain ⟨hn2, hall⟩ := Bool.and_eq_true_iff.mp he
  obtain ⟨r3, s3, h3, he⟩ := Res.of_check hall
  obtain ⟨hr3, hall⟩ := Bool.and_eq_true_iff.mp he
  obtain ⟨r4, s4, h4, he⟩ := Res.of_check hall
  obtain ⟨hr4, hall⟩ := Bool.and_eq_true_iff.mp he
  obtain ⟨b, s5, h5, hb⟩ := Res.of_check hall
  obtain rfl : e1 = none := Option.isNone_iff_eq_none.mp hn1
  obtain rfl : e2 = none := Option.isNone_iff_eq_none.mp hn2
  obtain rfl : r3 = 2 := of_decide_eq_true hr3
  obtain rfl : r4 = 2 := of_decide_eq_true hr4
  obtain rfl : b = (4, file) := of_decide_eq_true hb
  obtain ⟨tr, m', hrun, rfl, hidle, hw⟩ := Run.taking_turns (m := twoWriters top)
    rfl rfl (by simp) (by simp) (by simp) (by simp) h1 h2 h3 h4
  exact ⟨tr, m', hrun, hidle, hw, s5, h5⟩

/-- Whatever the interleaving of the writers' chunks, the file holds them one after the other in
    the order of their commits, and the offset stands behind them. -/
theorem shared_writers {P : Type} [Fintype P] [DecidableEq P] (sb : Superblock) (L : Set Nat)
    (D : Nat → Dinode) (N : Nat → UInt16) (f ip : Fin 100) (n off : Nat) (m0 m : Sys P)
    (tr : List (P × List UInt8)) (h : OpenFile sb L D N f ip n off m0.fs)
    (hfits : ChunkFits sb n) (hmax : off + total m0 ≤ 70656)
    (hstock : Stock sb 0 (m0.fs.view 1) (D n) (span off (total m0))) (hrun : Run f m0 tr m) :
    (∃ D', Vol sb L D' N ∅ ∅ m.fs ∧ Good (m.fs.view 1) D' n ∧ contents (m.fs.view 1) (D' n) =
      overwrite (contents (m0.fs.view 1) (D n)) off (written tr)) ∧
    (m.fs.ftable f).off = off + (written tr).length ∧
    (∀ p, own p tr ++ (m.pc p).bytes = (m0.pc p).bytes) ∧
    -- every run goes on until all processes have finished, and then everything is written
    (∀ p, m.pc p ≠ .idle [] → ∃ out m', Step f p m out m') ∧
    tr.length ≤ ∑ p, (m0.pc p).weight ∧
    ((∀ p, m.pc p = .idle []) → (m.fs.ftable f).off = off + total m0) := by
  have hin : off ≤ (contents (m0.fs.view 1) (D n)).length := by
    rw [length_contents]
    exact h.inside
  have hinv := (Inv.init h hstock).run hfits hmax hin hrun
  obtain ⟨D', hw, hc, -⟩ := hinv.file
  refine ⟨⟨D', hw.vol, hw.good, hc⟩, hw.pos, hinv.own,
    fun p hp => hinv.progress hfits hmax hin hp, ?_, fun hall => ?_⟩
  · have := hinv.weight
    omega
  · have hcount := hinv.count
    have hnone : total m = 0 := Finset.sum_eq_zero fun p _ => by rw [hall p]; rfl
    rw [hw.pos]
    omega

theorem shared_writers_turns : ∃ tr m, Run 0 (twoWriters 26) tr m ∧ (∀ p, m.pc p = .idle []) ∧
    written tr = [7, 8, 9, 10] ∧ (∃ s, readi 0 0 4 m.fs = .ok (4, [7, 8, 9, 10]) s) ∧
    (m.fs.ftable 0).off = 4 ∧ own 0 tr = [7, 8] ∧ own 1 tr = [9, 10] := by
  obtain ⟨tr, m, hrun, hidle, hw, hread⟩ := @Run.turns 26 [7, 8, 9, 10] (by decide +kernel)
  have hstock : Stock imageSb 0 ((fileMachine 26 emptyFile 2 0).view 1)
      (table (image 26 emptyFile) 2) (span 0 4) := by
    show 0 + lack (image 26 emptyFile) (table (image 26 emptyFile) 2) (span 0 4) ≤
      (freeBlocks imageSb (image 26 emptyFile)).card
    decide +kernel
  obtain ⟨-, -, hown, -, -, hoff⟩ := shared_writers imageSb _ _ _ 0 0 2 0 (twoWriters 26) m tr
    (emptyFile_open (by decide)) imageSb_chunkFits (by decide) hstock hrun
  have hall : ∀ p, own p tr = ((twoWriters 26).pc p).bytes := by
    intro p
    rw [← hown p, hidle p]
    exact (List.append_nil _).symm
  exact ⟨tr, m, hrun, hidle, hw, hread, hoff hidle, hall 0, hall 1⟩

/-- With no block free below the log all four bytes are lost: the file gets the log's header
    block, and every commit writes the count over them. -/
theorem shared_writers_full :
    (OpenFile imageSb (leaked imageSb (image 160 emptyFile) (table (image 160 emptyFile)))
      (table (image 160 emptyFile)) (imageLinks 160 emptyFile) 0 0 2 0 (twoWriters 160).fs ∧
      ChunkFits imageSb 2) ∧
    ∃ tr m, Run 0 (twoWriters 160) tr m ∧ (∀ p, m.pc p = .idle []) ∧ written tr = [7, 8, 9, 10] ∧
      ∃ s, readi 0 0 4 m.fs = .ok (4, [0, 0, 0, 0]) s := by
  exact ⟨⟨emptyFile_open (by decide), imageSb_chunkFits⟩, Run.turns (by decide +kernel)⟩

end Zv6.Shared
