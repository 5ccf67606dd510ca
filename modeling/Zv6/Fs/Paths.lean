/-
  Path names.

  The elements of a path are its runs of bytes other than '/' (`runs`), cut to the length of a
  name; they are what `skipelem` copies out one after the other. `namei` goes from the root or the
  working directory to the inode of the last element, `nameiparent` to the one before it. Either
  takes one reference to the inode it returns and none otherwise, and leaves nothing locked.
-/
import Zv6.Fs.Walk

namespace Zv6

open Lib

/-! ## The elements of a path -/

/-- The maximal runs of bytes other than '/'. -/
def runs (path : List UInt8) : List (List UInt8) := (path.splitOn 47).filter (· ≠ [])

/-- The elements of a path: its runs, cut to DIRSIZ bytes. -/
def parts (path : List UInt8) : List Name := (runs path).map (List.take 14)

/-- Calls of `skipelem` on what the last one left copy out `names`, and then there are no more. -/
inductive Skips : List UInt8 → List Name → Prop
  | done {path : List UInt8} (h : skipelem path = none) : Skips path []
  | next {path rest : List UInt8} {name : Name} {names : List Name}
      (h : skipelem path = some (name, rest)) (hrest : Skips rest names) :
      Skips path (name :: names)

theorem runs_slash (path : List UInt8) : runs (47 :: path) = runs path := by
  unfold runs
  rw [List.splitOn, List.splitOnP_cons_eq_if_modifyHead]
  rfl

theorem runs_dropWhile_slash (path : List UInt8) : runs (path.dropWhile (· == 47)) = runs path := by
  induction path with
  | nil => rfl
  | cons c path ih =>
    by_cases hc : c = 47
    · subst hc
      rw [runs_slash]
      exact ih
    · rw [List.dropWhile_cons_of_neg (by simpa using hc)]

/-- The first piece ends at the first slash. -/
theorem splitOn_head (path : List UInt8) : ∃ T, path.splitOn 47 = path.takeWhile (· != 47) :: T ∧
    T.filter (· ≠ []) = runs (path.dropWhile (· != 47)) := by
  induction path with
  | nil => exact ⟨[], rfl, rfl⟩
  | cons c path ih =>
    obtain ⟨T, hsplit, hT⟩ := ih
    have hcons : (c :: path).splitOn 47 = if c == 47 then [] :: path.splitOn 47
        else (path.splitOn 47).modifyHead (List.cons c) := List.splitOnP_cons_eq_if_modifyHead ..
    by_cases hc : c = 47
    · subst hc
      refine ⟨path.splitOn 47, hcons, ?_⟩
      rw [List.dropWhile_cons_of_neg (by simp), runs_slash]
      rfl
    · refine ⟨T, ?_, ?_⟩
      · rw [hcons, if_neg (by simpa using hc), hsplit,
          List.takeWhile_cons_of_pos (by simpa using hc)]
        rfl
      · rw [List.dropWhile_cons_of_pos (by simpa using hc)]
        exact hT

/-- One call of `skipelem` copies out the first run. -/
theorem skipelem_spec (path : List UInt8) : match skipelem path with
    | none => runs path = []
    | some (name, rest) => ∃ run, runs path = run :: runs rest ∧ name = run.take 14 ∧
        rest.length < path.length := by
  obtain ⟨T, hsplit, hT⟩ := splitOn_head (path.dropWhile (· == 47))
  have hruns := runs_dropWhile_slash path
  unfold skipelem
  cases hp : path.dropWhile (· == 47) with
  | nil =>
    rw [hp] at hruns
    exact hruns.symm
  | cons c p =>
    have hc : c ≠ 47 := by
      have := List.head?_dropWhile_not (· == (47 : UInt8)) path
      rw [hp] at this
      simpa using this
    rw [hp] at hruns hsplit hT
    have hlen : (c :: p).length ≤ path.length := by
      rw [← hp]
      exact (List.dropWhile_suffix _).length_le
    have hrun : (c :: p).takeWhile (· != 47) ≠ [] := by
      rw [List.takeWhile_cons_of_pos (by simpa using hc)]
      simp
    refine ⟨(c :: p).takeWhile (· != 47), ?_, rfl, ?_⟩
    · rw [runs_dropWhile_slash, ← hruns, ← hT]
      unfold runs
      rw [hsplit, List.filter_cons_of_pos (by simpa using hrun)]
    · have h1 := (List.dropWhile_suffix (l := (c :: p).dropWhile (· != 47)) (· == 47)).length_le
      rw [List.dropWhile_cons_of_pos (by simpa using hc)] at h1 ⊢
      have h2 := (List.dropWhile_suffix (l := p) (· != 47)).length_le
      rw [List.length_cons] at hlen
      omega

theorem skips_parts (path : List UInt8) : Skips path (parts path) := by
  unfold parts
  induction hn : path.length using Nat.strong_induction_on generalizing path with
  | _ n ih =>
    have hspec := skipelem_spec path
    cases hs : skipelem path with
    | none =>
      rw [hs] at hspec
      rw [hspec]
      exact .done hs
    | some r =>
      obtain ⟨name, rest⟩ := r
      rw [hs] at hspec
      obtain ⟨run, hruns, rfl, hlt⟩ := hspec
      rw [hruns]
      exact .next hs (ih rest.length (by omega) rest rfl)

theorem elemsLoop_eq (fuel : Nat) : ∀ path : List UInt8, path.length < fuel →
    elemsLoop fuel path = parts path := by
  unfold parts
  induction fuel with
  | zero => intro path h; omega
  | succ fuel ih =>
    intro path hlt
    have hspec := skipelem_spec path
    unfold elemsLoop
    cases hs : skipelem path with
    | none =>
      rw [hs] at hspec
      rw [hspec]
      rfl
    | some r =>
      obtain ⟨name, rest⟩ := r
      rw [hs] at hspec
      obtain ⟨run, hruns, rfl, hless⟩ := hspec
      show _ :: elemsLoop fuel rest = _
      rw [hruns, ih rest (by omega)]
      rfl

theorem elems_eq (path : List UInt8) : elems path = parts path :=
  elemsLoop_eq _ path (Nat.lt_succ_self _)

/-! ## Walks from a path -/

/-- The inode a path starts at. -/
def Starts (D : Nat → Dinode) (s : State) (p : Fin 64) (path : List UInt8) (k : Nat) : Prop :=
  if path.head? = some 47 then k = 1
  else ∃ cwd, (s.proc p).cwd = some cwd ∧ Caches s.icache cwd k ∧ (D k).type ≠ T_DITTO

/-- What `namex` did that was to find inode `o`: one reference to it was taken, or none at all. -/
def Finds (s : State) : Option Nat → Option (Fin 100) → State → Prop
  | none, r, s' => r = none ∧ Trip (fun _ => 0) none s s'
  | some k, r, s' => ∃ ip, r = some ip ∧ Caches s'.icache ip k ∧ Trip (one ip) none s s'

/-- A walk from `s` that is not calm stopped for a locked inode or a full inode cache. -/
def Stuck (s : State) (c : Stop Chan) (_ : State) : Prop :=
  ¬ Calm s ∧ (c = .panic "iget: no inodes" ∨ ∃ j, c = .blocked (.inode j))

theorem Stuck.waits (s : State) : MayWait (Stuck s) ∨ Calm s := by
  by_cases h : Calm s
  · exact Or.inr h
  · exact Or.inl fun _ => ⟨⟨h, Or.inl rfl⟩, fun j => ⟨h, Or.inr ⟨j, rfl⟩⟩⟩

section Namex

variable {E : Stop Chan → State → Prop} {sb : Superblock} {L : Set Nat} {D : Nat → Dinode}
  {N : Nat → UInt16} {s : State} {p : Fin 64} {path : List UInt8} {k : Nat}

theorem namex_wp (hE : MayWait E ∨ Calm s) (hv : Vol sb L D N ∅ ∅ s) (hs : Sound sb ∅ (s.view 1) D)
    (htree : Tree sb (s.view 1) D N) (hk : Starts D s p path k) (parent trans : Bool) :
    wp (namex p path parent trans) (Arrives sb L D N s
      (target (s.view 1) D parent k (parts path))) E s := by
  unfold namex
  unfold Starts at hk
  rw [elems_eq]
  by_cases habs : path.head? = some 47
  · rw [if_pos habs] at hk ⊢
    subst hk
    refine wp.bind ((iget_dev_wp (fun x hx => (hv.slot x hx).1) 1).mono (fun _ _ h => h) ?_) ?_
    · rintro c s' ⟨rfl, hfull, -⟩
      rcases hE with hE | hE
      · exact (hE s').1
      · have := hE.2
        rw [hfull] at this
        cases this
    · intro ip s1 hg
      obtain ⟨hlive, hd, hN⟩ := htree.root
      refine namexLoop_wp hE hs htree parent trans _ ip 1 s1
        ((Trip.refl s).got (by simp) hg) (hv.got hg hlive) hg.caches ⟨?_, Or.inr hN⟩
      rw [hd]
      decide
  · rw [if_neg habs] at hk ⊢
    obtain ⟨cwd, hcwd, hip, ht⟩ := hk
    refine wp_bind.mpr (wp_gets.mpr ?_)
    rw [hcwd]
    have hg : Got k s cwd (s.setInode cwd { s.icache cwd with ref := (s.icache cwd).ref + 1 }) :=
      Or.inl ⟨hip, rfl⟩
    have hdup : idup cwd s =
        .ok cwd (s.setInode cwd { s.icache cwd with ref := (s.icache cwd).ref + 1 }) := rfl
    refine wp_ok_bind hdup ?_
    exact namexLoop_wp hE hs htree parent trans _ cwd k _
      ((Trip.refl s).got (by simp) hg) (hv.got hg (hv.live hip).2) hg.caches
      ⟨ht, Or.inl hip.1⟩

theorem Arrives.finds {o : Option Nat} {name : Name} {r : Option (Fin 100) × Name} {s' : State}
    (h : Arrives sb L D N s (o.map fun k => (k, name)) r s') :
    Finds s o r.1 s' ∧ (r.1 ≠ none → r.2 = name) := by
  cases o with
  | none => exact ⟨⟨h.1, h.2.1⟩, fun hr => absurd h.1 hr⟩
  | some k =>
    obtain ⟨ip, rfl, hip, -, ht, -⟩ := h
    exact ⟨⟨ip, rfl, hip, ht⟩, fun _ => rfl⟩

end Namex

/-- The directory that all elements but the last lead to. -/
def parent (V : Nat → Block) (D : Nat → Dinode) (k : Nat) (names : List Name) : Option Nat :=
  if names = [] then none
  else (names.dropLast.foldlM (child V D) k).filter fun k' => (D k').type = T_DIR

theorem target_parent (V : Nat → Block) (D : Nat → Dinode) (k : Nat) (names : List Name) :
    target V D true k names =
      (parent V D k names).map fun k' => (k', names.getLast?.getD []) := by
  rcases List.eq_nil_or_concat names with rfl | ⟨init, last, rfl⟩
  · rfl
  · unfold parent
    rw [List.concat_eq_append, target_true, if_neg (by simp), List.dropLast_concat]
    simp

/-- `namei` returns the inode the elements of a path lead to, `nameiparent` the last directory on
    the way to it together with the last element, each with one reference to what it returns and
    none where there is nothing to return. -/
theorem path_resolution (sb : Superblock) (L : Set Nat) (D : Nat → Dinode) (N : Nat → UInt16)
    (s : State) (p : Fin 64) (path : List UInt8) (k : Nat) (hv : Vol sb L D N ∅ ∅ s)
    (hs : Sound sb ∅ (s.view 1) D) (htree : Tree sb (s.view 1) D N) (hk : Starts D s p path k) :
    Skips path (parts path) ∧
    (wp (namei p path) (Finds s ((parts path).foldlM (child (s.view 1) D) k)) (Stuck s) s ∧
      wp (namei_trans p path) (Finds s ((parts path).foldlM (child (s.view 1) D) k)) (Stuck s) s) ∧
    wp (nameiparent p path) (fun r s' => Finds s (parent (s.view 1) D k (parts path)) r.1 s' ∧
      (r.1 ≠ none → (parts path).getLast? = some r.2)) (Stuck s) s ∧
    wp (nameiparent_trans p path) (fun r s' =>
      Finds s (parent (s.view 1) D k (parts path)) r.1 s' ∧
      (r.1 ≠ none → (parts path).getLast? = some r.2)) (Stuck s) s := by
  have hwalk := namex_wp (Stuck.waits s) hv hs htree hk
  have hnamei : ∀ trans, wp (namex p path false trans >>= fun r => (pure r.1 : K _))
      (Finds s ((parts path).foldlM (child (s.view 1) D) k)) (Stuck s) s := by
    intro trans
    refine wp.bind (hwalk false trans) fun r s' h => ?_
    rw [target_false] at h
    exact h.finds.1
  have hparent : ∀ trans, wp (namex p path true trans) (fun r s' =>
      Finds s (parent (s.view 1) D k (parts path)) r.1 s' ∧
      (r.1 ≠ none → (parts path).getLast? = some r.2)) (Stuck s) s := by
    intro trans
    refine (hwalk true trans).post fun r s' h => ?_
    rw [target_parent] at h
    obtain ⟨hf, hname⟩ := h.finds
    refine ⟨hf, fun hr0 => ?_⟩
    cases hl : (parts path).getLast? with
    | none =>
      have h0 : parent (s.view 1) D k (parts path) = none :=
        if_pos (List.getLast?_eq_none_iff.mp hl)
      rw [h0] at hf
      exact absurd hf.1 hr0
    | some last =>
      rw [hname hr0, hl]
      rfl
  exact ⟨skips_parts path, ⟨hnamei false, hnamei true⟩, hparent false, hparent true⟩

/-- The volume of `crowd` is in order. -/
theorem crowd_tree : Tree crowdSb crowd (table crowd) crowdLinks := by
  have hdir : ∀ k, Live crowdSb (table crowd) k → (table crowd k).type = T_DIR → k = 1 := by
    intro k hk ht
    obtain ⟨h1, h128⟩ := live_crowd.mp hk
    rw [table_crowd h128] at ht
    by_contra hne
    revert ht
    unfold crowdInode
    rw [if_neg (by omega), if_neg hne]
    split_ifs <;> exact fun h => absurd h (by decide)
  have hlinks : ∀ k, k = 1 ∨ k = 120 → crowdLinks k ≠ 0 := by
    rintro k (rfl | rfl) <;> decide +kernel
  refine ⟨⟨live_crowd.mpr (by omega), ?_, hlinks 1 (Or.inl rfl)⟩, ?_, ?_⟩
  · rw [table_crowd (by omega)]
    rfl
  · intro k hk ht
    rw [hdir k hk ht, table_crowd (by omega)]
    rfl
  · intro k hk ht i hi _
    obtain rfl := hdir k hk ht
    rw [contents_crowd_root] at hi ⊢
    have hentry : (entryAt crowdRoot i).inum.toNat = 1 ∨
        (entryAt crowdRoot i).inum.toNat = 120 := by
      have hi : i < 3 := hi
      have : i = 0 ∨ i = 1 ∨ i = 2 := by omega
      rcases this with rfl | rfl | rfl <;> decide +kernel
    refine ⟨live_crowd.mpr (by omega), ?_, Or.inl (hlinks _ hentry)⟩
    rcases hentry with h | h <;> rw [h, table_crowd (by omega)] <;> decide

theorem crowd_walk : [[97]].foldlM (child crowd (table crowd)) 1 = some 120 := by
  have hdir : (table crowd 1).type = T_DIR := by
    rw [table_crowd (by omega)]
    rfl
  have hlook : lookup crowdRoot [97] = some (120, 32) := by decide +kernel
  have hchild : child crowd (table crowd) 1 [97] = some 120 := by
    unfold child
    rw [if_pos hdir, contents_crowd_root, hlook]
    rfl
  rw [List.foldlM_cons, hchild]
  rfl

/-- The volume of `crowd` with the root as the working directory and nothing else in use. -/
def crowdIdle : State :=
  { State.blank imageLog with
    disk := fun _ => crowd
    icache := fun j => if j = 0 then { Inode.unused with dev := 1, inum := 1, ref := 1 }
      else Inode.unused
    proc := fun _ => { ofile := fun _ => none, cwd := some 0 } }

theorem crowdIdle_vol :
    Vol crowdSb (leaked crowdSb crowd (table crowd)) (table crowd) crowdLinks ∅ ∅ crowdIdle := by
  have hidle : Idle crowdIdle := ⟨rfl, rfl, rfl, fun _ => rfl, Block.word_zero 0⟩
  have hslot : ∀ j, 0 < (crowdIdle.icache j).ref → j = 0 := by
    intro j hj
    by_contra hne
    have : crowdIdle.icache j = Inode.unused := if_neg hne
    rw [this] at hj
    exact absurd hj (by decide)
  refine ⟨hidle.jrn ⟨rfl, rfl⟩ (by decide), crowd_fs.own, ?_, ?_, ?_, ?_, by simp⟩
  · intro i j k hi hj
    rw [hslot i hi.1, hslot j hj.1]
  · intro j hj
    rw [hslot j hj]
    exact ⟨rfl, live_crowd.mpr ⟨by decide, by decide⟩⟩
  · intro j hj hv
    rw [hslot j hj] at hv
    cases hv
  · intro k _ _
    exact ⟨rfl, fun _ => rfl⟩

theorem crowdIdle_busy (j : Fin 100) : (crowdIdle.icache j).busy = false := by
  show (if j = 0 then _ else _ : Inode).busy = false
  split <;> rfl

theorem crowdIdle_calm : Calm crowdIdle := by
  refine ⟨crowdIdle_busy, Finset.one_lt_card.mpr ⟨1, ?_, 2, ?_, by decide⟩⟩ <;>
    exact Finset.mem_filter.mpr ⟨Finset.mem_univ _, rfl⟩

theorem path_resolution_idle : runs [47, 47, 97] = [[97]] ∧
    ∃ ip s', namei 0 [47, 47, 97] crowdIdle = .ok (some ip) s' ∧ Caches s'.icache ip 120 ∧
      Trip (one ip) none crowdIdle s' := by
  have hruns : runs [47, 47, 97] = [[97]] := by decide
  -- the walk is not to be evaluated
  suffices h : ∀ s, s = crowdIdle → ∃ ip s', namei 0 [47, 47, 97] s = .ok (some ip) s' ∧
      Caches s'.icache ip 120 ∧ Trip (one ip) none s s' from ⟨hruns, h _ rfl⟩
  intro s hs
  have hview : s.view 1 = crowd := by rw [hs]; rfl
  have hend : (parts [47, 47, 97]).foldlM (child crowd (table crowd)) 1 = some 120 := by
    unfold parts
    rw [hruns]
    exact crowd_walk
  have hmain :=
    path_resolution crowdSb (leaked crowdSb crowd (table crowd)) (table crowd) crowdLinks
    s 0 [47, 47, 97] 1 (by rw [hs]; exact crowdIdle_vol) (by rw [hview]; exact crowd_sound)
    (by rw [hview]; exact crowd_tree) (by unfold Starts; rfl)
  rw [hview, hend] at hmain
  obtain ⟨r, s', hrun, ip, rfl, hip, ht⟩ := wp.returns_of hmain.2.1.1
    fun c s' h => h.1 (hs ▸ crowdIdle_calm)
  exact ⟨ip, s', hrun, hip, ht⟩

/-- No slot for the root. -/
def crowdFiles : Fin 100 → Nat := seats 2 2

theorem path_resolution_crowded :
    (Vol crowdSb (leaked crowdSb crowd (table crowd)) (table crowd) crowdLinks ∅ ∅
        (crowded crowdFiles) ∧
      Sound crowdSb ∅ ((crowded crowdFiles).view 1) (table crowd) ∧
      Tree crowdSb ((crowded crowdFiles).view 1) (table crowd) crowdLinks ∧
      (∀ j, ((crowded crowdFiles).icache j).busy = false) ∧
      Starts (table crowd) (crowded crowdFiles) 0 [47, 97] 1 ∧
      ((parts [47, 97]).foldlM (child ((crowded crowdFiles).view 1) (table crowd)) 1).isSome) ∧
    ∃ s', namei 0 [47, 97] (crowded crowdFiles) = .panic "iget: no inodes" s' := by
  have hv := crowded_vol (f := crowdFiles) rfl (by decide) (by decide) (by decide)
  refine ⟨⟨hv, crowd_sound, crowd_tree, fun _ => rfl, by unfold Starts; rfl, ?_⟩,
    Res.of_panic (by decide +kernel)⟩
  have hruns : runs [47, 97] = [[97]] := by decide
  unfold parts
  rw [hruns]
  exact congrArg Option.isSome crowd_walk

end Zv6
