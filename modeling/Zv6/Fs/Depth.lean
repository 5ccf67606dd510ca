/-
  The calls that begin with `distance_to_root`.

  `create` asks for the depth of a path before it looks for the parent itself. Where the path has
  no parent, `distance_to_root` locks inode 0: open with O_CREATE, mkdir and mknod never return
  then (`create_no_parent_iff`).
-/
import Zv6.Fs.Paths

namespace Zv6

open Lib

/-! ## Paths without a parent -/

/-- The calls that create `path`. -/
inductive Creates (p : Fin 64) (path : List UInt8) : K Int → Prop
  | mkdir : Creates p path (sys_mkdir p (some path))
  | mknod (major minor : UInt16) : Creates p path (sys_mknod p (some path) major minor)
  | opens (omode : Nat) (h : oCreate omode = true) : Creates p path (sys_open p (some path) omode)

/-- The call returns -1, no transaction is open, nothing is locked, and disk, references, open
    files and descriptors are as they were. -/
def FailsCleanly (s : State) (m : K Int) : Prop :=
  ∃ s', m s = .ok (-1) s' ∧ s'.log.busy = false ∧ (∀ j, (s'.icache j).busy = false) ∧
    s'.view = s.view ∧ (∀ j, (s'.icache j).ref = (s.icache j).ref) ∧ s'.ftable = s.ftable ∧
    s'.proc = s.proc

/-- A run from `s` ended in the panic of a lock of inode 0, or `s` was not ready for the call. -/
def LocksNull (s : State) (c : Stop Chan) (_ : State) : Prop :=
  c = .panic "ilock" ∨ ¬ (Calm s ∧ s.log.busy = false)

section NoParent

variable {E : Stop Chan → State → Prop} {sb : Superblock} {L : Set Nat} {D : Nat → Dinode}
  {N : Nat → UInt16} {s : State} {p : Fin 64} {path : List UInt8} {k : Nat}

theorem distance_no_parent (hE : MayWait E ∨ Calm s) (hp : ∀ s', E (.panic "ilock") s')
    (hv : Vol sb L D N ∅ ∅ s) (hs : Sound sb ∅ (s.view 1) D) (htree : Tree sb (s.view 1) D N)
    (hk : Starts D s p path k) (hnone : parent (s.view 1) D k (parts path) = none) :
    wp (distance_to_root p path) (fun _ _ => False) E s := by
  have hwalk := namex_wp hE hv hs htree hk true true
  rw [target_parent, hnone] at hwalk
  unfold distance_to_root
  refine wp.bind hwalk ?_
  rintro ⟨r, name⟩ s' ⟨hr0, -⟩
  have hr0 : r = none := hr0
  subst hr0
  exact hp s'

theorem Creates.no_parent {m : K Int} (hm : Creates p path m) (hv : Vol sb L D N ∅ ∅ s)
    (hs : Sound sb ∅ (s.view 1) D) (htree : Tree sb (s.view 1) D N)
    (hk : Starts D s p path k) (hnone : parent (s.view 1) D k (parts path) = none) :
    wp m (fun _ _ => False) (LocksNull s) s := by
  -- the transaction begins, and `create` gets no further than the depth
  have hwait : MayWait (LocksNull s) ∨ Calm s.begun := by
    by_cases h : Calm s ∧ s.log.busy = false
    · exact Or.inr h.1
    · exact Or.inl fun _ => ⟨Or.inr h, fun _ => Or.inr h⟩
  have hcreate : ∀ (type major minor : UInt16) (f : Option (Fin 100) → K Int),
      wp (do begin_trans; let ip ← create p path type major minor; f ip : K Int)
        (fun _ _ => False) (LocksNull s) s := by
    intro type major minor f
    by_cases hb : s.log.busy = true
    · have hrun : begin_trans s = .blocked .log s := if_pos hb
      refine wp_bind.mpr ?_
      unfold wp
      rw [hrun]
      exact Or.inr fun h => by rw [h.2] at hb; cases hb
    · refine wp_ok_bind (begin_trans_apply (by simpa using hb)) ?_
      refine wp.bind (R := fun _ _ => False) ?_ fun _ _ h => h.elim
      unfold create
      exact wp.bind (distance_no_parent hwait (fun _ => Or.inl rfl) hv.begun hs htree hk hnone)
        fun _ _ h => h.elim
  cases hm with
  | mkdir => exact hcreate T_DIR 0 0 _
  | mknod major minor => exact hcreate T_DEV major minor _
  | opens omode h =>
    unfold sys_open
    show wp (if _ then _ else _) _ _ _
    rw [if_pos h]
    exact hcreate T_FILE 1 0 _

end NoParent

/-- No call that creates a path fails cleanly where the path has no parent; from a state without
    locks it ends in the panic of `ilock`. -/
theorem create_no_parent_iff (sb : Superblock) (L : Set Nat) (D : Nat → Dinode) (N : Nat → UInt16)
    (s : State) (p : Fin 64) (path : List UInt8) (k : Nat) (m : K Int)
    (hv : Vol sb L D N ∅ ∅ s) (hs : Sound sb ∅ (s.view 1) D) (htree : Tree sb (s.view 1) D N)
    (hk : Starts D s p path k) (hm : Creates p path m) :
    ((parent (s.view 1) D k (parts path) = none → FailsCleanly s m) ↔
      parent (s.view 1) D k (parts path) ≠ none) ∧
    (parent (s.view 1) D k (parts path) = none → Calm s → s.log.busy = false →
      ∃ s', m s = .panic "ilock" s') := by
  have hwp := fun hnone => hm.no_parent hv hs htree hk hnone
  refine ⟨⟨fun h hnone => ?_, fun h hnone => absurd hnone h⟩, fun hnone hcalm hb => ?_⟩
  · obtain ⟨s', hrun, -⟩ := h hnone
    exact (hwp hnone).ok hrun
  · have h := hwp hnone
    unfold wp at h
    cases hrun : m s with
    | ok a s' =>
      rw [hrun] at h
      exact h.elim
    | panic e s' =>
      rw [hrun] at h
      cases h.resolve_right fun hno => hno ⟨hcalm, hb⟩
      exact ⟨s', rfl⟩
    | blocked | loops =>
      rw [hrun] at h
      cases h.resolve_right fun hno => hno ⟨hcalm, hb⟩

/-- The path "/b/c" has no parent. -/
theorem crowd_no_parent : parent crowd (table crowd) 1 (parts [47, 98, 47, 99]) = none := by
  have hparts : parts [47, 98, 47, 99] = [[98], [99]] := by decide
  have hchild : child crowd (table crowd) 1 [98] = none := by
    unfold child
    rw [contents_crowd_root]
    have : lookup crowdRoot [98] = none := by decide +kernel
    rw [this]
    exact ite_self none
  rw [hparts]
  unfold parent
  rw [if_neg (by simp)]
  have hinit : ([[98], [99]] : List Name).dropLast = [[98]] := rfl
  rw [hinit, List.foldlM_cons, hchild]
  rfl

theorem create_no_parent_iff_mkdir :
    parent crowd (table crowd) 1 (parts [47, 98, 47, 99]) = none ∧
    ∃ s', sys_mkdir 0 (some [47, 98, 47, 99]) crowdIdle = .panic "ilock" s' := by
  -- the call is not to be evaluated
  suffices h : ∀ s, s = crowdIdle → ∃ s', sys_mkdir 0 (some [47, 98, 47, 99]) s =
      .panic "ilock" s' from ⟨crowd_no_parent, h _ rfl⟩
  intro s hs
  have hview : s.view 1 = crowd := by rw [hs]; rfl
  have hmain := create_no_parent_iff crowdSb (leaked crowdSb crowd (table crowd)) (table crowd)
    crowdLinks s 0 [47, 98, 47, 99] 1 _ (by rw [hs]; exact crowdIdle_vol)
    (by rw [hview]; exact crowd_sound) (by rw [hview]; exact crowd_tree)
    (by unfold Starts; rfl) .mkdir
  rw [hview] at hmain
  exact hmain.2 crowd_no_parent (hs ▸ crowdIdle_calm) (by rw [hs]; rfl)

theorem mkdir_no_parent :
    (Vol crowdSb (leaked crowdSb crowd (table crowd)) (table crowd) crowdLinks ∅ ∅ crowdIdle ∧
      Sound crowdSb ∅ (crowdIdle.view 1) (table crowd) ∧
      Tree crowdSb (crowdIdle.view 1) (table crowd) crowdLinks ∧ Calm crowdIdle ∧
      crowdIdle.log.busy = false ∧ Starts (table crowd) crowdIdle 0 [47, 98, 47, 99] 1 ∧
      parent (crowdIdle.view 1) (table crowd) 1 (parts [47, 98, 47, 99]) = none) ∧
    ∃ s', sys_mkdir 0 (some [47, 98, 47, 99]) crowdIdle = .panic "ilock" s' :=
  ⟨⟨crowdIdle_vol, crowd_sound, crowd_tree, crowdIdle_calm, rfl, by unfold Starts; rfl,
    crowd_no_parent⟩, Res.of_panic (by decide +kernel)⟩

end Zv6
