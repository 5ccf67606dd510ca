/-
  The list of buffers (`bio.c`) through its pointers.

  Elsewhere the buffers are ordered by a list (`Bio.State.order`). Here the list is what it is in
  the source, `prev` and `next` fields that lead through `bcache.head`, with the loops of `bget`
  and the assignments of `brelse` and `binit`. A step is one critical section of `bcache.lock`, or
  one of the assignments to B_DIRTY and B_VALID outside of it: those of `bwrite` and `log_write`,
  and that of the disk's interrupt. What `bread`, `bwrite` and `log_write` do otherwise consists
  of such steps.

  A process that finds its buffer busy sleeps, and scans from the beginning when it runs again:
  a scan that ends in sleep changes nothing, and a run is a sequence of steps of any processes.

  In every run the pointers are a ring that has each buffer once, the one released last first
  (`Inv`).
-/
import Mathlib.Data.List.Perm.Basic
import Zv6.Cache.Bio
import Zv6.Lib.Links

namespace Zv6.Buffers

open Lib Bio

/-- A pointer to a buffer, or to `bcache.head`. -/
abbrev Node := Option (Fin 20)

abbrev head : Node := none

/-- The device number of a buffer that holds no sector, -1. -/
def NODEV : Nat := 4294967295

structure Bcache where
  links : Links Node
  buf : Fin 20 → Buf

abbrev B (α : Type) := Exec (Fin 20) Bcache α

/-- Buffer `i` becomes `b`. -/
def Bcache.setBuf (m : Bcache) (i : Fin 20) (b : Buf) : Bcache :=
  { m with buf := fun j => if j = i then b else m.buf j }

/-- A test of the buffer behind a pointer. -/
def test (p : Fin 20 → Bool) : Node → Bool
  | some i => p i
  | none => false

/-! ## bio.c -/

/-- The loop of `binit`. -/
def binitLoop : List (Fin 20) → Bcache → Bcache
  | [], m => m
  | b :: bs, m =>
    binitLoop bs { m.setBuf b { m.buf b with dev := NODEV } with
      links := m.links.pushFront head (some b) }

def binit (m : Bcache) : Bcache :=
  binitLoop (List.finRange 20) { m with links := (m.links.setPrev head head).setNext head head }

/-- Is the sector already cached? -/
def Bcache.cached (m : Bcache) (dev sector : Nat) (i : Fin 20) : Bool :=
  decide ((m.buf i).dev = dev) && decide ((m.buf i).sector = sector)

/-- Non-busy and clean. -/
def Bcache.spare (m : Bcache) (i : Fin 20) : Bool := !(m.buf i).busy && !(m.buf i).dirty

/-- `blocked` is `sleep` on the buffer, after which the caller starts again. -/
def bget (dev sector : Nat) : B (Fin 20) := fun m =>
  match scan m.links.next head (test (m.cached dev sector)) 21 (m.links.next head) with
  | none => .loops m
  | some (some (some i)) =>
    if (m.buf i).busy then .blocked i m
    else .ok i (m.setBuf i { m.buf i with busy := true })
  | some _ =>
    match scan m.links.prev head (test m.spare) 21 (m.links.prev head) with
    | none => .loops m
    | some (some (some i)) => .ok i (m.setBuf i { m.buf i with
        dev := dev, sector := sector, busy := true, valid := false, dirty := false })
    | some _ => .panic "bget: no buffers" m

/-- What `bwrite` does before `iderw`. -/
def bwrite (i : Fin 20) : B Unit := fun m =>
  if (m.buf i).busy = false then .panic "bwrite" m
  else .ok () (m.setBuf i { m.buf i with dirty := true })

/-- What `log_write` does to its buffer. -/
def log_write (i : Fin 20) : B Unit := fun m =>
  .ok () (m.setBuf i { m.buf i with dirty := true })

/-- What the disk's interrupt does to the buffer it is done with. -/
def ideintr (i : Fin 20) : B Unit := fun m =>
  .ok () (m.setBuf i { m.buf i with valid := true, dirty := false })

def brelse (i : Fin 20) : B Unit := fun m =>
  if (m.buf i).busy = false then .panic "brelse" m
  else .ok () { m.setBuf i { m.buf i with busy := false } with
    links := (m.links.unlink (some i)).pushFront head (some i) }

/-! ## Runs -/

/-- One step. The list has the buffers in the order in which they were put to the front, the
    last one first. -/
inductive Step (hist : List (Fin 20)) (m : Bcache) : List (Fin 20) → Bcache → Prop where
  | bget (dev sector : Nat) {i : Fin 20} {m' : Bcache} (h : bget dev sector m = .ok i m') :
      Step hist m hist m'
  | sleep (dev sector : Nat) {i : Fin 20} {m' : Bcache}
      (h : Buffers.bget dev sector m = .blocked i m') :
      Step hist m hist m'
  | bwrite (i : Fin 20) {m' : Bcache} (h : bwrite i m = .ok () m') : Step hist m hist m'
  | log_write (i : Fin 20) {m' : Bcache} (h : log_write i m = .ok () m') : Step hist m hist m'
  | ideintr (i : Fin 20) {m' : Bcache} (h : ideintr i m = .ok () m') : Step hist m hist m'
  | brelse (i : Fin 20) {m' : Bcache} (h : brelse i m = .ok () m') : Step hist m (i :: hist) m'

/-- A run of the system from `binit` on, whatever was in memory before. -/
inductive Run : List (Fin 20) → Bcache → Prop where
  | binit (m : Bcache) : Run (List.finRange 20).reverse (binit m)
  | step {hist hist' : List (Fin 20)} {m m' : Bcache} : Run hist m → Step hist m hist' m' →
      Run hist' m'

/-! ## The functions on the list -/

section Ring

variable {m m' : Bcache} {xs : List (Fin 20)} {dev sector : Nat} {i : Fin 20} {hist : List (Fin 20)}

/-- The pointers lead through the buffers `xs`, and those are all. -/
structure Linked (m : Bcache) (xs : List (Fin 20)) : Prop where
  ring : m.links.Ring head (xs.map some)
  all : ∀ i, i ∈ xs

theorem Linked.nodup (h : Linked m xs) : xs.Nodup :=
  List.Nodup.of_map some (List.nodup_cons.mp h.ring.nodup).2

theorem Linked.perm (h : Linked m xs) : xs.Perm (List.finRange 20) :=
  (List.perm_ext_iff_of_nodup h.nodup (List.nodup_finRange 20)).mpr fun i => by
    simp [h.all i, List.mem_finRange]

theorem Linked.length (h : Linked m xs) : xs.length = 20 := by
  rw [h.perm.length_eq, List.length_finRange]

theorem find_map (p : Fin 20 → Bool) (xs : List (Fin 20)) :
    (xs.map some).find? (test p) = (xs.find? p).map some := by
  rw [List.find?_map]
  rfl

theorem Linked.scan_next (h : Linked m xs) (p : Fin 20 → Bool) :
    scan m.links.next head (test p) 21 (m.links.next head) = some ((xs.find? p).map some) := by
  have hl := h.length
  rw [h.ring.scan_next (test p) (by rw [List.length_map]; omega), find_map]

theorem Linked.scan_prev (h : Linked m xs) (p : Fin 20 → Bool) :
    scan m.links.prev head (test p) 21 (m.links.prev head) =
      some ((xs.reverse.find? p).map some) := by
  have hl := h.length
  rw [h.ring.scan_prev (test p) (by rw [List.length_map]; omega), ← List.map_reverse, find_map]

/-- `bget` on the list. -/
theorem Linked.bget (h : Linked m xs) : bget dev sector m =
    match xs.find? (m.cached dev sector) with
    | some i =>
      if (m.buf i).busy then .blocked i m
      else .ok i (m.setBuf i { m.buf i with busy := true })
    | none =>
      match xs.reverse.find? m.spare with
      | some i => .ok i (m.setBuf i { m.buf i with
          dev := dev, sector := sector, busy := true, valid := false, dirty := false })
      | none => .panic "bget: no buffers" m := by
  unfold Buffers.bget
  rw [h.scan_next, h.scan_prev]
  cases xs.find? (m.cached dev sector) with
  | some i => rfl
  | none => cases xs.reverse.find? m.spare <;> rfl

theorem Linked.front (h : Linked m xs) (i : Fin 20) (f : Fin 20 → Buf) :
    Linked ⟨(m.links.unlink (some i)).pushFront head (some i), f⟩ (i :: xs.erase i) := by
  obtain ⟨as, cs, hxs⟩ := List.append_of_mem (h.all i)
  have hn := h.nodup
  have hring := h.ring
  rw [hxs, List.nodup_middle, List.nodup_cons] at hn
  rw [hxs, List.map_append, List.map_cons] at hring
  have herase : xs.erase i = as ++ cs := by
    rw [hxs, List.erase_append_right _ fun hm => hn.1 (List.mem_append_left cs hm),
      List.erase_cons_head]
  constructor
  · rw [herase]
    have hring := hring.unlink
    rw [← List.map_append] at hring
    refine hring.pushFront ?_
    simpa using hn.1
  · intro j
    by_cases hj : j = i
    · rw [hj]
      exact List.mem_cons_self
    · exact List.mem_cons_of_mem i ((List.mem_erase_of_ne hj).mpr (h.all j))

theorem Linked.relinks (h : Linked m xs) (hl : m'.links = m.links) : Linked m' xs :=
  ⟨hl ▸ h.ring, h.all⟩

/-! ## What a step does -/

/-- No buffer has got another sector, and the list is as before. -/
structure Same (m m' : Bcache) : Prop where
  links : m'.links = m.links
  dev : ∀ j, (m'.buf j).dev = (m.buf j).dev
  sector : ∀ j, (m'.buf j).sector = (m.buf j).sector

theorem same_setBuf {b : Buf} (hd : b.dev = (m.buf i).dev) (hs : b.sector = (m.buf i).sector) :
    Same m (m.setBuf i b) := by
  refine ⟨rfl, fun j => ?_, fun j => ?_⟩
  all_goals
    by_cases hj : j = i
    · simp [Bcache.setBuf, hj, hd, hs]
    · simp [Bcache.setBuf, hj]

/-- Buffer `i` was recycled for a sector that no buffer had. -/
structure Recycled (m : Bcache) (xs : List (Fin 20)) (dev sector : Nat) (i : Fin 20)
    (m' : Bcache) : Prop where
  miss : ∀ j, m.cached dev sector j = false
  last : xs.reverse.find? m.spare = some i
  links : m'.links = m.links
  buf : ∀ j, j ≠ i → m'.buf j = m.buf j
  dev : (m'.buf i).dev = dev
  sector : (m'.buf i).sector = sector

theorem Linked.bget_ok (h : Linked m xs) (hrun : Buffers.bget dev sector m = .ok i m') :
    (m.cached dev sector i = true ∧ Same m m') ∨ Recycled m xs dev sector i m' := by
  rw [h.bget] at hrun
  cases hc : xs.find? (m.cached dev sector) with
  | some j =>
    rw [hc] at hrun
    dsimp only at hrun
    by_cases hb : (m.buf j).busy = true
    · rw [if_pos hb] at hrun
      cases hrun
    · rw [if_neg hb] at hrun
      cases hrun
      exact .inl ⟨List.find?_some hc, same_setBuf rfl rfl⟩
  | none =>
    rw [hc] at hrun
    dsimp only at hrun
    cases hs : xs.reverse.find? m.spare with
    | none =>
      rw [hs] at hrun
      cases hrun
    | some j =>
      rw [hs] at hrun
      cases hrun
      refine .inr ⟨fun j => ?_, hs, rfl, fun j hj => if_neg hj, ?_, ?_⟩
      · simpa using List.find?_eq_none.mp hc j (h.all j)
      · simp [Bcache.setBuf]
      · simp [Bcache.setBuf]

/-- A step recycles a buffer for a sector that was not cached, or leaves all buffers their
    sectors; it moves a buffer to the front if it is `brelse`. -/
theorem Linked.step_cases {hist hist' : List (Fin 20)} (h : Linked m xs)
    (hs : Step hist m hist' m') :
    (hist' = hist ∧ (Same m m' ∨ ∃ dev sector i, Recycled m xs dev sector i m')) ∨
    ∃ i, hist' = i :: hist ∧ Linked m' (i :: xs.erase i) ∧
      ∀ j, (m'.buf j).dev = (m.buf j).dev ∧ (m'.buf j).sector = (m.buf j).sector := by
  cases hs with
  | bget dev sector hrun =>
    rcases h.bget_ok hrun with ⟨-, hsame⟩ | hrec
    · exact .inl ⟨rfl, .inl hsame⟩
    · exact .inl ⟨rfl, .inr ⟨dev, sector, _, hrec⟩⟩
  | sleep dev sector hrun =>
    have hm : m' = m := by
      rw [h.bget] at hrun
      repeat' split at hrun
      all_goals cases hrun
      rfl
    exact .inl ⟨rfl, .inl (hm ▸ ⟨rfl, fun _ => rfl, fun _ => rfl⟩)⟩
  | bwrite i hrun =>
    unfold Buffers.bwrite at hrun
    split at hrun
    · cases hrun
    · cases hrun
      exact .inl ⟨rfl, .inl (same_setBuf rfl rfl)⟩
  | log_write _ hrun | ideintr _ hrun =>
    cases hrun
    exact .inl ⟨rfl, .inl (same_setBuf rfl rfl)⟩
  | brelse i hrun =>
    unfold Buffers.brelse at hrun
    split at hrun
    · cases hrun
    · cases hrun
      have hsame : Same m (m.setBuf i { m.buf i with busy := false }) := same_setBuf rfl rfl
      exact .inr ⟨i, rfl, h.front i _, fun j => ⟨hsame.dev j, hsame.sector j⟩⟩

/-! ## The invariant -/

/-- The list has the buffers in the order of their last release, and no two buffers with a real
    device number have the same sector. -/
structure Inv (hist : List (Fin 20)) (m : Bcache) (xs : List (Fin 20)) : Prop where
  linked : Linked m xs
  recent : xs.Pairwise fun x y => hist.idxOf x < hist.idxOf y
  unique : ∀ i j, (m.buf i).dev ≠ NODEV → (m.buf i).dev = (m.buf j).dev →
    (m.buf i).sector = (m.buf j).sector → i = j

theorem binitLoop_linked (bs : List (Fin 20)) : ∀ (m : Bcache) (xs : List (Fin 20)),
    m.links.Ring head (xs.map some) → (bs.reverse ++ xs).Nodup →
    (binitLoop bs m).links.Ring head ((bs.reverse ++ xs).map some) ∧
    ∀ j, j ∈ bs ∨ (m.buf j).dev = NODEV → ((binitLoop bs m).buf j).dev = NODEV := by
  induction bs with
  | nil =>
    intro m xs hr _
    exact ⟨hr, fun j hj => hj.resolve_left List.not_mem_nil⟩
  | cons b bs ih =>
    intro m xs hr hn
    rw [List.reverse_cons, List.append_assoc, List.singleton_append] at hn ⊢
    have hb : b ∉ xs := (List.nodup_cons.mp (List.nodup_append.mp hn).2.1).1
    have hnew : (m.links.pushFront head (some b)).Ring head ((b :: xs).map some) := by
      refine hr.pushFront ?_
      simpa using hb
    obtain ⟨h1, h2⟩ := ih { m.setBuf b { m.buf b with dev := NODEV } with
      links := m.links.pushFront head (some b) } (b :: xs) hnew hn
    refine ⟨h1, fun j hj => h2 j ?_⟩
    by_cases hjb : j = b
    · right
      simp [hjb, Bcache.setBuf]
    · simpa [hjb, Bcache.setBuf] using hj

theorem binit_inv (m : Bcache) :
    Inv (List.finRange 20).reverse (binit m) (List.finRange 20).reverse := by
  obtain ⟨h1, h2⟩ := binitLoop_linked (List.finRange 20)
    { m with links := (m.links.setPrev head head).setNext head head } []
    (Links.Ring.empty m.links head) (by decide)
  rw [List.append_nil] at h1
  refine ⟨⟨h1, fun i => by simp⟩, by decide, fun i j hi => ?_⟩
  exact absurd (h2 i (Or.inl (List.mem_finRange i))) hi

theorem Inv.same (h : Inv hist m xs) (hs : Same m m') : Inv hist m' xs := by
  refine ⟨h.linked.relinks hs.links, h.recent, fun i j => ?_⟩
  rw [hs.dev, hs.dev, hs.sector, hs.sector]
  exact h.unique i j

theorem Inv.recycled (h : Inv hist m xs) (hs : Recycled m xs dev sector i m') : Inv hist m' xs := by
  -- no other buffer has the new sector
  have hnew : ∀ j, j ≠ i → ¬ ((m'.buf j).dev = dev ∧ (m'.buf j).sector = sector) := by
    rintro j hj ⟨hd, he⟩
    have := hs.miss j
    rw [hs.buf j hj] at hd he
    simp [Bcache.cached, hd, he] at this
  refine ⟨h.linked.relinks hs.links, h.recent, fun j k hdev hd he => ?_⟩
  by_cases hj : j = i
  · by_cases hk : k = i
    · rw [hj, hk]
    · rw [hj, hs.dev] at hd
      rw [hj, hs.sector] at he
      exact absurd ⟨hd.symm, he.symm⟩ (hnew k hk)
  · by_cases hk : k = i
    · rw [hk, hs.dev] at hd
      rw [hk, hs.sector] at he
      exact absurd ⟨hd, he⟩ (hnew j hj)
    · rw [hs.buf j hj] at hdev
      rw [hs.buf j hj, hs.buf k hk] at hd he
      exact h.unique j k hdev hd he

theorem Inv.released (h : Inv hist m xs) (hl : Linked m' (i :: xs.erase i))
    (hb : ∀ j, (m'.buf j).dev = (m.buf j).dev ∧ (m'.buf j).sector = (m.buf j).sector) :
    Inv (i :: hist) m' (i :: xs.erase i) := by
  have hne : ∀ j ∈ xs.erase i, j ≠ i := fun j hj =>
    ((List.Nodup.mem_erase_iff h.linked.nodup).mp hj).1
  have hidx : ∀ j, j ≠ i → (i :: hist).idxOf j = hist.idxOf j + 1 := fun j hj =>
    List.idxOf_cons_ne hist (Ne.symm hj)
  refine ⟨hl, List.pairwise_cons.mpr ⟨fun j hj => ?_, ?_⟩, fun j k => ?_⟩
  · rw [List.idxOf_cons_self, hidx j (hne j hj)]
    omega
  · refine (h.recent.sublist List.erase_sublist).imp_of_mem fun {j k} hj hk hlt => ?_
    rw [hidx j (hne j hj), hidx k (hne k hk)]
    omega
  · rw [(hb j).1, (hb k).1, (hb j).2, (hb k).2]
    exact h.unique j k

theorem Inv.step {hist hist' : List (Fin 20)} (h : Inv hist m xs) (hs : Step hist m hist' m') :
    ∃ xs', Inv hist' m' xs' := by
  rcases h.linked.step_cases hs with ⟨rfl, hsame | ⟨dev, sector, i, hrec⟩⟩ | ⟨i, rfl, hl, hb⟩
  · exact ⟨xs, h.same hsame⟩
  · exact ⟨xs, h.recycled hrec⟩
  · exact ⟨_, h.released hl hb⟩

theorem Run.inv (h : Run hist m) : ∃ xs, Inv hist m xs := by
  induction h with
  | binit m => exact ⟨_, binit_inv m⟩
  | step _ hs ih =>
    obtain ⟨xs, h⟩ := ih
    exact h.step hs

/-- The buffer recycled is spare, and no spare buffer was released before it. -/
theorem Inv.least (h : Inv hist m xs) (hi : xs.reverse.find? m.spare = some i) :
    m.spare i = true ∧ ∀ j, m.spare j = true → hist.idxOf j ≤ hist.idxOf i := by
  refine ⟨List.find?_some hi, fun j hj => ?_⟩
  obtain ⟨-, as, bs, has, hno⟩ := List.find?_eq_some_iff_append.mp hi
  have hxs : xs = bs.reverse ++ i :: as.reverse := by
    rw [← List.reverse_reverse xs, has]
    simp
  have hmem := h.linked.all j
  have hrecent := h.recent
  rw [hxs, List.mem_append, List.mem_cons] at hmem
  rw [hxs] at hrecent
  rcases hmem with hmem | rfl | hmem
  · exact Nat.le_of_lt ((List.pairwise_append.mp hrecent).2.2 j hmem i List.mem_cons_self)
  · exact le_refl _
  · have := hno j (by simpa using hmem)
    rw [hj] at this
    cases this

/-- A hit: there is one buffer with the sector, and `bget` waits for it if it is busy. -/
theorem Inv.bget_hit (h : Inv hist m xs) (hdev : dev ≠ NODEV) (hd : (m.buf i).dev = dev)
    (hs : (m.buf i).sector = sector) : bget dev sector m = if (m.buf i).busy then .blocked i m
      else .ok i (m.setBuf i { m.buf i with busy := true }) := by
  have hi : m.cached dev sector i = true := by simp [Bcache.cached, hd, hs]
  cases hc : xs.find? (m.cached dev sector) with
  | none => exact absurd hi (List.find?_eq_none.mp hc i (h.linked.all i))
  | some j =>
    have hj : (m.buf j).dev = dev ∧ (m.buf j).sector = sector := by
      simpa [Bcache.cached] using List.find?_some hc
    have hij : j = i := h.unique j i (hj.1 ▸ hdev) (hj.1.trans hd.symm) (hj.2.trans hs.symm)
    rw [h.linked.bget, hc, hij]

/-- A miss: `bget` returns if there is a spare buffer, and panics if there is none. -/
theorem Linked.bget_miss (h : Linked m xs)
    (hno : ∀ j, ¬ ((m.buf j).dev = dev ∧ (m.buf j).sector = sector)) :
    ((∃ j, m.spare j = true) → ∃ i m', Buffers.bget dev sector m = .ok i m') ∧
    ((∀ j, m.spare j = false) → Buffers.bget dev sector m = .panic "bget: no buffers" m) := by
  have hc : xs.find? (m.cached dev sector) = none := by
    refine List.find?_eq_none.mpr fun j _ => ?_
    simpa [Bcache.cached] using hno j
  rw [h.bget, hc]
  constructor
  · rintro ⟨j, hj⟩
    cases hs : xs.reverse.find? m.spare with
    | none => exact absurd hj (List.find?_eq_none.mp hs j (List.mem_reverse.mpr (h.all j)))
    | some i => exact ⟨i, _, rfl⟩
  · intro hnone
    have hs : xs.reverse.find? m.spare = none :=
      List.find?_eq_none.mpr fun j _ => by simp [hnone j]
    rw [hs]

/-- In every run: the pointers are a ring with each buffer once, in the order of the last
    releases; no two buffers with a real device number have the same sector; no step gives a
    buffer that is busy or dirty another sector; and a miss recycles the buffer released longest
    ago among those that are neither. `bget` always comes to an end: a hit returns the buffer or
    sleeps on it, a miss returns if some buffer is neither busy nor dirty and panics if none is. -/
theorem bcache_ring {hist : List (Fin 20)} {m : Bcache} (hrun : Run hist m) :
    (∃ xs : List (Fin 20), m.links.Ring head (xs.map some) ∧ xs.Perm (List.finRange 20) ∧
      xs.Pairwise fun x y => hist.idxOf x < hist.idxOf y) ∧
    (∀ i j, (m.buf i).dev ≠ NODEV → (m.buf i).dev = (m.buf j).dev →
      (m.buf i).sector = (m.buf j).sector → i = j) ∧
    (∀ hist' m', Step hist m hist' m' → ∀ i, (m.buf i).busy = true ∨ (m.buf i).dirty = true →
      (m'.buf i).dev = (m.buf i).dev ∧ (m'.buf i).sector = (m.buf i).sector) ∧
    (∀ dev sector,
      (∀ m', bget dev sector m ≠ .loops m') ∧
      (∀ i, dev ≠ NODEV → (m.buf i).dev = dev → (m.buf i).sector = sector →
        bget dev sector m = if (m.buf i).busy then .blocked i m
          else .ok i (m.setBuf i { m.buf i with busy := true })) ∧
      ((∀ j, ¬ ((m.buf j).dev = dev ∧ (m.buf j).sector = sector)) →
        ((∃ j, (m.buf j).busy = false ∧ (m.buf j).dirty = false) →
          ∃ i m', bget dev sector m = .ok i m') ∧
        ((∀ j, (m.buf j).busy = true ∨ (m.buf j).dirty = true) →
          bget dev sector m = .panic "bget: no buffers" m)) ∧
      ∀ i m', bget dev sector m = .ok i m' →
        (m'.buf i).dev = dev ∧ (m'.buf i).sector = sector ∧
        ((∀ j, ¬ ((m.buf j).dev = dev ∧ (m.buf j).sector = sector)) →
          ((m.buf i).busy = false ∧ (m.buf i).dirty = false) ∧
          ∀ j, (m.buf j).busy = false → (m.buf j).dirty = false →
            hist.idxOf j ≤ hist.idxOf i)) := by
  obtain ⟨xs, h⟩ := hrun.inv
  refine ⟨⟨xs, h.linked.ring, h.linked.perm, h.recent⟩, h.unique, ?_,
    fun dev sector => ⟨?_, fun i => h.bget_hit, fun hno => ?_, ?_⟩⟩
  · intro hist' m' hs i hi
    rcases h.linked.step_cases hs with ⟨-, hsame | ⟨dev, sector, j, hrec⟩⟩ | ⟨j, -, -, hb⟩
    · exact ⟨hsame.dev i, hsame.sector i⟩
    · have hij : i ≠ j := by
        rintro rfl
        have := (h.least hrec.last).1
        rcases hi with hi | hi <;> simp [Bcache.spare, hi] at this
      rw [hrec.buf i hij]
      exact ⟨rfl, rfl⟩
    · exact hb i
  · intro m' hloops
    rw [h.linked.bget] at hloops
    repeat' split at hloops
    all_goals cases hloops
  · obtain ⟨hok, hpanic⟩ := h.linked.bget_miss hno
    constructor
    · rintro ⟨j, hb, hd⟩
      exact hok ⟨j, by simp [Bcache.spare, hb, hd]⟩
    · intro hall
      refine hpanic fun j => ?_
      rcases hall j with hj | hj <;> simp [Bcache.spare, hj]
  · intro i m' hok
    rcases h.linked.bget_ok hok with ⟨hc, hsame⟩ | hrec
    · have hc : (m.buf i).dev = dev ∧ (m.buf i).sector = sector := by
        simpa [Bcache.cached] using hc
      rw [hsame.dev, hsame.sector]
      exact ⟨hc.1, hc.2, fun hno => absurd hc (hno i)⟩
    · obtain ⟨hspare, hleast⟩ := h.least hrec.last
      refine ⟨hrec.dev, hrec.sector, fun _ => ⟨?_, fun j hb hd => hleast j ?_⟩⟩
      · simpa [Bcache.spare] using hspare
      · simp [Bcache.spare, hb, hd]

/-- Memory before the system runs. -/
def zeroed : Bcache := ⟨⟨fun _ => none, fun _ => none⟩, fun _ => ⟨0, 0, false, false, false, .zero⟩⟩

/-- After `binit` buffer 0 is recycled first, and released it is the most recent one. Then the
    sector is found in it, and another sector recycles another buffer. -/
theorem bcache_ring_first : ∃ m, Run (0 :: (List.finRange 20).reverse) m ∧
    (∃ xs : List (Fin 20), m.links.Ring head (xs.map some) ∧ xs.Perm (List.finRange 20) ∧
      xs.Pairwise fun x y => (0 :: (List.finRange 20).reverse).idxOf x <
        (0 :: (List.finRange 20).reverse).idxOf y) ∧
    (∃ m', bget 1 7 m = .ok 0 m') ∧
    ∃ i m', bget 1 8 m = .ok i m' ∧ i ≠ 0 ∧ (m'.buf i).dev = 1 ∧ (m'.buf i).sector = 8 := by
  have hget : (bget 1 7 (binit zeroed)).check (fun _ m => (brelse 0 m).check fun _ m => decide
      (((m.buf 0).dev = 1 ∧ (m.buf 0).sector = 7 ∧ (m.buf 0).busy = false) ∧
        ((m.buf 1).busy = false ∧ (m.buf 1).dirty = false) ∧
        ∀ j, ¬ ((m.buf j).dev = 1 ∧ (m.buf j).sector = 8))) = true := by
    decide +kernel
  obtain ⟨i, m, hm, he⟩ := Res.of_check hget
  obtain ⟨⟨⟩, m', hrel, he⟩ := Res.of_check he
  obtain ⟨⟨hdev, hsec, hbusy⟩, hspare, hno⟩ := of_decide_eq_true he
  have hrun := Run.step (.step (.binit zeroed) (.bget 1 7 hm)) (.brelse 0 hrel)
  obtain ⟨hring, -, -, hget⟩ := bcache_ring hrun
  have hhit := (hget 1 7).2.1 0 (by decide) hdev hsec
  rw [if_neg (by rw [hbusy]; decide)] at hhit
  obtain ⟨-, -, hmiss, hok⟩ := hget 1 8
  obtain ⟨k, m2, hk⟩ := (hmiss hno).1 ⟨1, hspare⟩
  obtain ⟨hkdev, hksec, hleast⟩ := hok k m2 hk
  refine ⟨m', hrun, hring, ⟨_, hhit⟩, k, m2, hk, ?_, hkdev, hksec⟩
  rintro rfl
  exact absurd ((hleast hno).2 1 hspare.1 hspare.2) (by decide)

end Ring

end Zv6.Buffers
