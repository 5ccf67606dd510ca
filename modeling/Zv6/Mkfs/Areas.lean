/-
  Which inodes and blocks `main` gives out.

  It checks neither `freeinode` against `ninodes` nor `freeblock` against the log. With fewer than
  213 files no inode lies on a data block, and `Made` says which inodes and blocks are given out
  (`main_areas`), and when the root's rounded size is backed by blocks (`Made.no_holes_iff`).
-/
import Zv6.Mkfs.Main

namespace Zv6.Host

open Lib

/-! ## The areas -/

/-- Every inode number that was given out is below `ninodes`, and every block below the log. -/
structure Within (s : Image) : Prop where
  inodes : ∀ i, 1 ≤ i → i < s.freeinode → i < 200
  blocks : ∀ b, 29 ≤ b → b < s.freeblock → b < 2048 - 20

variable {fs : List HostFile} {s : Image}

/-- Code that stops with an error only. -/
theorem ends_or_aborts {m : M Unit} {Q : Unit → Image → Prop} {E : Stop Empty → Image → Prop}
    (h : wp m Q E s) (hE : ∀ e s', E e s' → ∃ msg, e = .panic msg) :
    (∃ s', m s = .ok () s' ∧ Q () s') ∨ ∃ msg s', m s = .panic msg s' ∧ E (.panic msg) s' := by
  unfold wp at h
  cases hm : m s with
  | ok a s' =>
    rw [hm] at h
    exact Or.inl ⟨s', rfl, h⟩
  | panic msg s' =>
    rw [hm] at h
    exact Or.inr ⟨msg, s', rfl, h⟩
  | blocked c s' => exact c.elim
  | loops s' =>
    rw [hm] at h
    obtain ⟨msg, he⟩ := hE _ _ h
    cases he

theorem Made.within_iff (h : Made s fs) : Within (s.store 28 (bitmap s.freeblock)) ↔
    fs.length + 3 < 200 ∧ total fs ≤ 2028 := by
  have hino : (s.store 28 (bitmap s.freeblock)).freeinode = fs.length + 4 := h.inodes
  have hfree : (s.store 28 (bitmap s.freeblock)).freeblock = total fs := h.count
  constructor
  · intro hw
    have hi := hw.inodes (fs.length + 3) (by omega) (by omega)
    refine ⟨hi, ?_⟩
    by_contra hgt
    have hb := hw.blocks 2028 (by omega) (by omega)
    omega
  · rintro ⟨hi, hb⟩
    exact ⟨fun i _ hlt => by omega, fun b _ hlt => by omega⟩

/-- Up to 212 files `main` ends on the files it accepts. -/
theorem main_ends (fs : List HostFile) (hlt : fs.length + 3 < 216) (ha : Accepts fs) :
    ∃ s, Made s fs ∧ main fs blank = .ok () (s.store 28 (bitmap s.freeblock)) := by
  obtain ⟨s', hm, s, hmade, rfl⟩ | ⟨msg, s', -, -, hno⟩ :=
    ends_or_aborts (main_wp hlt) fun _ _ he => he.1
  · exact ⟨s, hmade, hm⟩
  · exact absurd ha hno

/-- One of the first files is rejected, or the files leave no room for the copies of the root. -/
def Stops (fs : List HostFile) : Prop :=
  (∃ l f r, fs = l ++ f :: r ∧ l.length ≤ 213 ∧ Rejects l f) ∨
    fs.length ≤ 212 ∧ 2048 < total fs

theorem stops_of_not_accepts (hlt : fs.length ≤ 212) (h : ¬ Accepts fs) : Stops fs := by
  by_contra hstop
  -- none of the files is rejected
  have hno : ∀ f ∈ fs, 47 ∉ f.name ∧ f.opens = true ∧ f.bytes.length ≤ 70656 := by
    intro f hf
    obtain ⟨l, r, rfl⟩ := List.append_of_mem hf
    have hrej : ¬ Rejects l f := fun hr =>
      hstop (Or.inl ⟨l, f, r, rfl, by rw [List.length_append] at hlt; omega, hr⟩)
    unfold Rejects at hrej
    simp only [not_or, Bool.not_eq_false, not_lt] at hrej
    exact ⟨hrej.1, hrej.2.1, hrej.2.2.1⟩
  refine h ⟨fun f hf => ⟨(hno f hf).1, (hno f hf).2.1⟩, fun f hf => (hno f hf).2.2, ?_⟩
  by_contra hgt
  exact hstop (Or.inr ⟨hlt, by omega⟩)

theorem Stops.aborts (h : Stops fs) :
    wp (main fs) (fun _ _ => False) (fun e _ => ∃ msg, e = .panic msg) blank := by
  obtain ⟨l, f, r, rfl, hl, hr⟩ | ⟨hlt, hgt⟩ := h
  · exact main_rejects (by omega) hr
  · refine (main_wp (by omega)).mono ?_ fun _ _ he => he.1
    rintro _ _ ⟨s, hmade, rfl⟩
    exact absurd hmade.accepts.room (by omega)

/-- For every list of files: if one of the first files is rejected, or the files fit, `main`
    aborts, or ends with all inodes in the inode area and all blocks in front of the log. Up to
    212 files it does so in no other case. -/
theorem main_areas (fs : List HostFile) :
    (Stops fs ∨ (fs.length + 3 < 200 ∧ total fs ≤ 2028) →
      wp (main fs) (fun _ s => Within s) (fun e _ => ∃ msg, e = .panic msg) blank) ∧
    (fs.length ≤ 212 →
      wp (main fs) (fun _ s => Within s) (fun e _ => ∃ msg, e = .panic msg) blank →
      Stops fs ∨ (fs.length + 3 < 200 ∧ total fs ≤ 2028)) := by
  refine ⟨?_, fun hlt h => ?_⟩
  · rintro (hstop | hfit)
    · exact hstop.aborts.mono (fun _ _ hf => hf.elim) fun _ _ he => he
    · refine (main_wp (by omega)).mono ?_ fun _ _ he => he.1
      rintro _ _ ⟨s, hmade, rfl⟩
      exact hmade.within_iff.mpr hfit
  · by_cases ha : Accepts fs
    · obtain ⟨s, hmade, hm⟩ := main_ends fs (by omega) ha
      exact Or.inr (hmade.within_iff.mp (h.ok hm))
    · exact Or.inl (stops_of_not_accepts hlt ha)

/-- A file of `n` sectors. -/
def sectors (n : Nat) : HostFile where
  name := [97]
  opens := true
  pieces := List.replicate n (List.replicate 512 0)
  nul := by decide
  read p hp := by
    obtain ⟨-, rfl⟩ := List.mem_replicate.mp hp
    rw [List.length_replicate]
    decide

theorem length_sectors (n : Nat) : (sectors n).bytes.length = n * 512 := by
  unfold HostFile.bytes sectors
  rw [List.length_flatten, List.map_replicate, List.sum_replicate_nat, List.length_replicate]

/-- Files of `sectors` that fit are accepted. -/
theorem accepts_sectors {ns : List Nat} (hs : ∀ n ∈ ns, n ≤ 138)
    (ht : total (ns.map sectors) ≤ 2048) : Accepts (ns.map sectors) := by
  refine ⟨fun f hf => ?_, fun f hf => ?_, ht⟩
  · obtain ⟨n, -, rfl⟩ := List.mem_map.mp hf
    refine ⟨?_, rfl⟩
    show 47 ∉ [(97 : UInt8)]
    decide
  · obtain ⟨n, hn, rfl⟩ := List.mem_map.mp hf
    rw [length_sectors]
    have := hs n hn
    omega

theorem total_sectors (ns : List Nat) : total (ns.map sectors) =
    29 + need (16 * (ns.length + 2)) + (ns.map fun n => need (n * 512)).sum +
      2 * need ((16 * (ns.length + 2) / 512 + 1) * 512) := by
  unfold total taken rootSize
  rw [List.map_map, List.length_map]
  simp only [Function.comp_def, length_sectors]

/-- Files of 1 and of 11 blocks fit; of files of 1 and of 139 blocks the second is rejected. -/
theorem main_areas_two :
    wp (main ([1, 11].map sectors)) (fun _ s => Within s) (fun e _ => ∃ msg, e = .panic msg) blank ∧
    wp (main ([1, 139].map sectors)) (fun _ s => Within s) (fun e _ => ∃ msg, e = .panic msg)
      blank := by
  refine ⟨(main_areas _).1 (Or.inr ⟨by decide, by rw [total_sectors]; decide⟩),
    (main_areas _).1 (Or.inl (Or.inl ⟨[sectors 1], sectors 139, [], rfl, by decide, ?_⟩))⟩
  exact Or.inr (Or.inr (Or.inl (by rw [length_sectors]; decide)))

/-- 197 empty files: the second ditto is inode 200. Fourteen files of MAXFILE blocks and one of
    51: two blocks of the log are given out. -/
theorem main_beyond_areas :
    (∃ s, main ((List.replicate 197 0).map sectors) blank = .ok () s ∧ s.freeinode = 201) ∧
      ∃ s, main ((51 :: List.replicate 14 138).map sectors) blank = .ok () s ∧
        s.freeblock = 2030 := by
  constructor
  · obtain ⟨s, hmade, hm⟩ := main_ends ((List.replicate 197 0).map sectors)
      (by rw [List.length_map, List.length_replicate]; decide)
      (accepts_sectors (by decide +kernel) (by rw [total_sectors]; decide +kernel))
    refine ⟨_, hm, hmade.inodes.trans ?_⟩
    rw [List.length_map, List.length_replicate]
  · obtain ⟨s, hmade, hm⟩ := main_ends ((51 :: List.replicate 14 138).map sectors) (by decide)
      (accepts_sectors (by decide) (by rw [total_sectors]; decide))
    refine ⟨_, hm, hmade.count.trans ?_⟩
    rw [total_sectors]
    decide

/-! ## The root's size -/

/-- The bitmap is in front of the data blocks. -/
theorem Made.blockAddr_bitmap (h : Made s fs) (j bn : Nat) :
    blockAddr (s.store 28 (bitmap s.freeblock)).sect (table s.sect j) bn =
      blockAddr s.sect (table s.sect j) bn :=
  h.held.laid.blockAddr_congr (fun b hb => Image.store_ne (by omega) _) j bn

theorem Made.table_bitmap (j : Nat) (hj : j < 208) (b : Block) :
    table (s.store 28 b).sect j = table s.sect j := by
  have hne : i2b j ≠ 28 := by
    unfold i2b
    omega
  rw [table_lt (by omega), table_lt (by omega), Image.store_ne hne]

theorem Made.root_size (h : Made s fs) (hlt : fs.length + 3 < 216) :
    (table s.sect 1).size.toNat = rootSize fs := by
  have hsize := rootSize_le hlt
  rw [h.dinode 1, madeOf_root]
  exact UInt32.toNat_ofNat_of_lt' (by unfold UInt32.size; omega)

/-- The root has the blocks of its entries. -/
theorem Made.root_block (h : Made s fs) {bn : Nat} (hbn : bn < 138) :
    blockAddr s.sect (table s.sect 1) bn ≠ 0 ↔ bn < (fs.length + 2 + 31) / 32 := by
  have hb := (h.held.backed 1).block bn hbn
  rw [imageOf, if_neg (by omega), filesOf_root, length_rootBytes] at hb
  rw [hb]
  omega

/-- The rounded size ends behind the last block if the entries fill it. -/
theorem Made.no_holes_iff (h : Made s fs) (hlt : fs.length + 3 < 216) :
    (∀ bn, bn * 512 < (table s.sect 1).size.toNat → blockAddr s.sect (table s.sect 1) bn ≠ 0) ↔
      (fs.length + 2) % 32 ≠ 0 := by
  rw [h.root_size hlt, rootSize]
  constructor
  · intro hall
    have hlast := (h.root_block (by omega)).mp (hall ((fs.length + 2) / 32) (by omega))
    omega
  · intro hmod bn hbn
    rw [h.root_block (by omega)]
    omega

end Zv6.Host
