/-
  The buffers behind `State.view`.

  `Sim m s t` relates the machine `s` with explicit buffers to a state `t` of the file-system
  model: same disk, log and sector writes; the dirty buffers are the ones `t` lays over its
  disk; and a valid buffer holds what `bread` returns in `t`. The buffers in `m` are exempt
  from the last: their holders have assigned to them and not yet logged them.

  Each buffer operation is the operation of the same name there (`bread_sim`, `bwrite_sim`,
  `log_write_sim`, `commit_trans_sim`), whatever the cache holds and recycles. When one does
  not return, the sectors it has written so far are a beginning of those of its counterpart.
-/
import Zv6.Cache.Bio
import Zv6.Fs.Journal

namespace Zv6.Bio

open Lib

/-! ## The relation -/

/-- Buffer `b` holds sector `c` of device `dev`. -/
def Buf.holds (b : Buf) (dev c : Nat) : Prop := b.dev = dev ∧ b.sector = c

/-- One buffer, assigned to and not logged if `marked`. -/
structure BufOk (marked : Bool) (disksize : Nat) (t : Zv6.State) (b : Buf) : Prop where
  range : b.valid = true → b.dev = 1 ∧ b.sector < disksize
  busy : b.busy = true → b.valid = true
  mark : marked = true → b.busy = true
  dirty : b.dirty = true → b.valid = true
  data : b.valid = true → marked = false → b.data = t.view 1 b.sector

structure Sim (m : Fin 20 → Bool) (s : State) (t : Zv6.State) : Prop where
  disk : t.disk 1 = s.memdisk
  log : t.log = s.log
  trace : t.trace = onDrive 1 s.trace
  all : ∀ i, i ∈ s.order
  uniq : ∀ i j c, (s.buf i).holds 1 c → (s.buf j).holds 1 c → i = j
  kept : ∀ c, t.dirty 1 c ≠ none ↔ ∃ i, (s.buf i).holds 1 c ∧ (s.buf i).dirty = true
  each : ∀ i, BufOk (m i) s.disksize t (s.buf i)
  word : s.disksize < 4294967296

@[simp] theorem setBuf_self (s : State) (i : Fin 20) (b : Buf) : (s.setBuf i b).buf i = b := by
  simp [State.setBuf]

@[simp] theorem setBuf_of_ne (s : State) {i j : Fin 20} (b : Buf) (h : j ≠ i) :
    (s.setBuf i b).buf j = s.buf j := by
  simp [State.setBuf, h]

theorem onDrive_append (dv : Nat) (t u : List (Nat × Block)) :
    onDrive dv (t ++ u) = onDrive dv t ++ onDrive dv u := List.map_append

theorem onDrive_injective (dv : Nat) : Function.Injective (onDrive dv) :=
  List.map_injective_iff.mpr fun a b h => Prod.ext (by simpa using congrArg (·.2.1) h)
    (by simpa using congrArg (·.2.2) h)

section Buffers

variable {m m' : Fin 20 → Bool} {s s' : State} {t t' : Zv6.State} {i : Fin 20}

theorem Sim.clean (h : Sim m s t) {c : Nat}
    (hc : ∀ i, (s.buf i).holds 1 c → (s.buf i).dirty = false) : t.dirty 1 c = none := by
  by_contra hne
  obtain ⟨i, hi, hd⟩ := (h.kept c).mp hne
  simp [hc i hi] at hd

theorem Sim.marked (h : Sim m s t) (hb : (s.buf i).busy = false) : m i = false := by
  by_contra hm
  simp [(h.each i).mark (by simpa using hm)] at hb

/-- Buffer `i` becomes `b`, a buffer of sector `b.sector`, and the states differ in that sector
    only. -/
theorem Sim.update (h : Sim m s t) {b : Buf} (hbuf : s'.buf = (s.setBuf i b).buf)
    (hsize : s'.disksize = s.disksize) (hall : ∀ j, j ∈ s'.order)
    (hdisk : t'.disk 1 = s'.memdisk) (hlog : t'.log = s'.log)
    (htrace : t'.trace = onDrive 1 s'.trace) (hm : ∀ j, j ≠ i → m' j = m j) (hdev : b.dev = 1)
    (hone : ∀ j, (s.buf j).holds 1 b.sector → j = i)
    (hother : ∀ c, c ≠ b.sector → t'.dirty 1 c = t.dirty 1 c ∧ t'.view 1 c = t.view 1 c)
    (hwas : (s.buf i).dirty = true → (s.buf i).sector = b.sector)
    (hself : t'.dirty 1 b.sector ≠ none ↔ b.dirty = true)
    (hok : BufOk (m' i) s.disksize t' b) : Sim m' s' t' := by
  have hi : s'.buf i = b := by rw [hbuf, setBuf_self]
  have hne : ∀ j, j ≠ i → s'.buf j = s.buf j := fun j hj => by rw [hbuf, setBuf_of_ne _ _ hj]
  refine { disk := hdisk, log := hlog, trace := htrace, all := hall, uniq := ?_, kept := ?_,
           each := ?_, word := by rw [hsize]; exact h.word }
  · intro j k c hj hk
    by_cases ej : j = i <;> by_cases ek : k = i
    · rw [ej, ek]
    · rw [ej, hi] at hj
      rw [hne k ek, ← hj.2] at hk
      rw [ej, hone k hk]
    · rw [ek, hi] at hk
      rw [hne j ej, ← hk.2] at hj
      rw [ek, hone j hj]
    · rw [hne j ej] at hj
      rw [hne k ek] at hk
      exact h.uniq j k c hj hk
  · intro c
    by_cases hc : c = b.sector
    · subst hc
      rw [hself]
      constructor
      · intro hd
        exact ⟨i, by rw [hi]; exact ⟨hdev, rfl⟩, by rw [hi]; exact hd⟩
      · rintro ⟨j, hj, hd⟩
        by_cases ej : j = i
        · rwa [ej, hi] at hd
        · rw [hne j ej] at hj
          exact absurd (hone j hj) ej
    · rw [(hother c hc).1, h.kept c]
      constructor
      · rintro ⟨j, hj, hd⟩
        have ej : j ≠ i := by
          rintro rfl
          exact hc (hj.2.symm.trans (hwas hd))
        exact ⟨j, by rw [hne j ej]; exact hj, by rw [hne j ej]; exact hd⟩
      · rintro ⟨j, hj, hd⟩
        have ej : j ≠ i := by
          rintro rfl
          rw [hi] at hj
          exact hc hj.2.symm
        rw [hne j ej] at hj hd
        exact ⟨j, hj, hd⟩
  · intro j
    rw [hsize]
    by_cases ej : j = i
    · rw [ej, hi]
      exact hok
    · have hj := h.each j
      rw [hne j ej, hm j ej]
      refine ⟨hj.range, hj.busy, hj.mark, hj.dirty, ?_⟩
      intro hv hmj
      have hc : (s.buf j).sector ≠ b.sector := by
        intro e
        exact ej (hone j ⟨(hj.range hv).1, e⟩)
      rw [(hother _ hc).2]
      exact hj.data hv hmj

theorem Sim.one (h : Sim m s t) (hv : (s.buf i).valid = true) :
    ∀ j, (s.buf j).holds 1 (s.buf i).sector → j = i :=
  fun j hj => h.uniq j i _ hj ⟨((h.each i).range hv).1, rfl⟩

theorem Sim.dirty_iff (h : Sim m s t) (hv : (s.buf i).valid = true) :
    t.dirty 1 (s.buf i).sector ≠ none ↔ (s.buf i).dirty = true := by
  rw [h.kept]
  constructor
  · rintro ⟨j, hj, hd⟩
    rwa [h.one hv j hj] at hd
  · intro hd
    exact ⟨i, ⟨((h.each i).range hv).1, rfl⟩, hd⟩

/-! ## One buffer -/

/-- Assigning to `busy`. -/
theorem Sim.setBusy (h : Sim m s t) (hv : (s.buf i).valid = true) (v : Bool)
    (hm : v = false → m i = false) : Sim m (s.setBuf i { s.buf i with busy := v }) t := by
  have hi := h.each i
  refine h.update rfl rfl h.all h.disk h.log h.trace (fun _ _ => rfl) (hi.range hv).1 (h.one hv)
    (fun _ _ => ⟨rfl, rfl⟩) (fun _ => rfl) (h.dirty_iff hv) ⟨hi.range, fun _ => hv, ?_, hi.dirty,
    hi.data⟩
  intro hmi
  show v = true
  by_contra hv'
  simp [hm (by simpa using hv')] at hmi

/-- The contents of sector `c` as `iderw` puts them into a buffer. -/
def Buf.filled (c : Nat) (b : Block) : Buf :=
  { dev := 1, sector := c, busy := true, valid := true, dirty := false, data := b }

/-- A buffer that is not dirty is given to sector `c`. -/
theorem Sim.fill (h : Sim m s t) {c : Nat} (hc : c < s.disksize)
    (hd : (s.buf i).dirty = false) (hone : ∀ j, (s.buf j).holds 1 c → j = i) :
    t.view 1 c = s.memdisk c ∧ Sim m (s.setBuf i (Buf.filled c (s.memdisk c))) t := by
  have hclean : t.dirty 1 c = none := h.clean fun j hj => by rw [hone j hj, hd]
  have hview : t.view 1 c = s.memdisk c := by
    rw [view_of_clean hclean]
    exact congrFun h.disk c
  refine ⟨hview, h.update rfl rfl h.all h.disk h.log h.trace (fun _ _ => rfl) rfl hone
    (fun _ _ => ⟨rfl, rfl⟩) (fun hd' => by simp [hd] at hd') (by simp [Buf.filled, hclean])
    ⟨fun _ => ⟨rfl, hc⟩, fun _ => rfl, fun _ => rfl, fun _ => rfl, fun _ _ => hview.symm⟩⟩

/-- The holder of a buffer assigns to its data. -/
theorem Sim.setData (h : Sim m s t) (hb : (s.buf i).busy = true) (d : Block) :
    Sim (Function.update m i true) (s.setBuf i { s.buf i with data := d }) t := by
  have hi := h.each i
  have hv := hi.busy hb
  refine h.update rfl rfl h.all h.disk h.log h.trace (fun j hj => Function.update_of_ne hj _ _)
    (hi.range hv).1 (h.one hv) (fun _ _ => ⟨rfl, rfl⟩) (fun _ => rfl) (h.dirty_iff hv)
    ⟨hi.range, hi.busy, fun _ => hb, hi.dirty, ?_⟩
  intro _ hm
  rw [Function.update_self] at hm
  cases hm

/-- What `bread` of sector `c` did: buffer `i`, which nobody held, holds `b`. -/
structure Got (s : State) (c : Nat) (b : Block) (i : Fin 20) (s' : State) : Prop where
  free : (s.buf i).busy = false
  holds : (s'.buf i).holds 1 c
  busy : (s'.buf i).busy = true
  data : (s'.buf i).data = b
  others : ∀ j, j ≠ i → s'.buf j = s.buf j
  trace : s'.trace = s.trace
  disksize : s'.disksize = s.disksize

theorem Got.ne {c : Nat} {b : Block} {j : Fin 20} (h : Got s c b i s')
    (hj : (s.buf j).busy = true) : j ≠ i := by
  rintro rfl
  simp [h.free] at hj

/-- Why `bread` of sector `c` may fail to return: no such sector, another holder, or no buffer
    left to recycle. -/
def Stuck (s : State) (dev c : Nat) : Prop :=
  dev ≠ 1 ∨ s.disksize ≤ c ∨ (∃ i, (s.buf i).holds dev c ∧ (s.buf i).busy = true) ∨
    ∀ i, ¬ (s.buf i).holds dev c ∧ ((s.buf i).busy = true ∨ (s.buf i).dirty = true)

theorem bget_wp (hall : ∀ i, i ∈ s.order) (dev c : Nat) :
    wp (bget dev c) (fun i s' => (s.buf i).busy = false ∧
        ((s.buf i).holds dev c ∧ s' = s.setBuf i { s.buf i with busy := true } ∨
          (∀ j, ¬ (s.buf j).holds dev c) ∧ (s.buf i).dirty = false ∧
            s' = s.setBuf i ⟨dev, c, true, false, false, (s.buf i).data⟩))
      (fun _ s' => s' = s ∧ Stuck s dev c) s := by
  unfold wp bget
  cases hf : s.order.find? fun i =>
      decide ((s.buf i).dev = dev) && decide ((s.buf i).sector = c) with
  | some i =>
    have hhold := List.find?_some hf
    simp only [Bool.and_eq_true, decide_eq_true_eq] at hhold
    by_cases hb : (s.buf i).busy = true
    · simp only [hb]
      exact ⟨rfl, Or.inr (Or.inr (Or.inl ⟨i, hhold, hb⟩))⟩
    · simp only [hb]
      exact ⟨by simpa using hb, Or.inl ⟨hhold, rfl⟩⟩
  | none =>
    have hnone : ∀ j, ¬ (s.buf j).holds dev c := by
      intro j hj
      have := List.find?_eq_none.mp hf j (hall j)
      simp [hj.1, hj.2] at this
    cases hr : s.order.reverse.find? fun i => !(s.buf i).busy && !(s.buf i).dirty with
    | some i =>
      have hfree := List.find?_some hr
      simp only [Bool.and_eq_true, Bool.not_eq_true'] at hfree
      exact ⟨hfree.1, Or.inr ⟨hnone, hfree.2, rfl⟩⟩
    | none =>
      refine ⟨rfl, Or.inr (Or.inr (Or.inr fun j => ⟨hnone j, ?_⟩))⟩
      have := List.find?_eq_none.mp hr j (List.mem_reverse.mpr (hall j))
      by_cases hb : (s.buf j).busy = true
      · exact Or.inl hb
      · simpa [hb] using this

/-- `iderw` of a buffer that holds nothing yet. -/
theorem iderw_read (hb : (s.buf i).busy = true) (hv : (s.buf i).valid = false)
    (hd : (s.buf i).dirty = false) :
    wp (iderw i) (fun _ s' => (s.buf i).dev = 1 ∧ (s.buf i).sector < s.disksize ∧
        s' = s.setBuf i { s.buf i with data := s.memdisk (s.buf i).sector, valid := true })
      (fun _ s' => s' = s ∧ ((s.buf i).dev ≠ 1 ∨ s.disksize ≤ (s.buf i).sector)) s := by
  unfold wp iderw
  simp only [hb, hv, hd]
  by_cases hdev : (s.buf i).dev = 1
  · by_cases hc : s.disksize ≤ (s.buf i).sector
    · simp [hdev, hc]
    · simp [hdev, hc, Nat.lt_of_not_le hc]
  · simp [hdev]

theorem setBuf_setBuf (s : State) (i : Fin 20) (b b' : Buf) :
    (s.setBuf i b).setBuf i b' = s.setBuf i b' := by
  unfold State.setBuf
  congr 1
  funext j
  by_cases h : j = i <;> simp [h]

/-- The rest of `bread` after a miss. -/
theorem Sim.miss (h : Sim m s t) {dev c : Nat} (hb : (s.buf i).busy = false)
    (hd : (s.buf i).dirty = false) (hone : dev = 1 → ∀ j, (s.buf j).holds 1 c → j = i)
    (d : Block) :
    wp (iderw i) (fun _ s' => dev = 1 ∧ Sim m s' t ∧ Got s c (t.view 1 c) i s')
      (fun _ s' => s'.trace = s.trace ∧ Stuck s dev c)
      (s.setBuf i ⟨dev, c, true, false, false, d⟩) := by
  refine (iderw_read (by simp) (by simp) (by simp)).mono ?_ ?_
  · rintro _ s' ⟨hdev, hc, rfl⟩
    simp only [setBuf_self] at hdev hc
    subst hdev
    obtain ⟨hview, hs⟩ := h.fill hc hd (hone rfl)
    rw [setBuf_self, setBuf_setBuf]
    refine ⟨rfl, hs, hb, ?_, ?_, ?_, fun j hj => setBuf_of_ne _ _ hj, rfl, rfl⟩
    · rw [setBuf_self]
      exact ⟨rfl, rfl⟩
    · rw [setBuf_self]
    · rw [setBuf_self]
      exact hview.symm
  · rintro _ s' ⟨rfl, hstuck⟩
    rw [setBuf_self] at hstuck
    exact ⟨rfl, hstuck.imp_right Or.inl⟩

theorem wp_buffer_bind {α : Type} {f : Buf → C α} {Q : α → State → Prop}
    {E : Stop Chan → State → Prop} : wp (buffer i >>= f) Q E s ↔ wp (f (s.buf i)) Q E s := Iff.rfl

theorem bread_sim (h : Sim m s t) (dev c : Nat) :
    wp (bread dev c) (fun i s' => dev = 1 ∧ Sim m s' t ∧ Got s c (t.view 1 c) i s')
      (fun _ s' => s'.trace = s.trace ∧ Stuck s dev c) s := by
  unfold bread
  refine ((bget_wp h.all dev c).mono (fun _ _ => id) fun _ _ hs => ⟨by rw [hs.1], hs.2⟩).bind ?_
  rintro i s1 ⟨hb, ⟨hhold, rfl⟩ | ⟨hnone, hd, rfl⟩⟩
  · have hi := h.each i
    rw [wp_buffer_bind, setBuf_self]
    refine wp_bind.mpr (wp_when (fun hv => ?_) fun hv => ?_)
    · -- a buffer of the sector that was never filled
      have hv : (s.buf i).valid = false := hv
      have hd : (s.buf i).dirty = false := by
        by_contra hd
        simp [hi.dirty (by simpa using hd)] at hv
      have heq : ({ s.buf i with busy := true } : Buf) =
          ⟨dev, c, true, false, false, (s.buf i).data⟩ := by
        simp [hv, hd, hhold.1, hhold.2]
      rw [heq]
      refine h.miss hb hd ?_ _
      rintro rfl j hj
      exact h.uniq j i c hj hhold
    · have hv : (s.buf i).valid = true := by simpa using hv
      obtain rfl : dev = 1 := hhold.1.symm.trans (hi.range hv).1
      have hd := hi.data hv (h.marked hb)
      rw [hhold.2] at hd
      refine ⟨rfl, h.setBusy hv true (by simp), hb, ?_, ?_, ?_, fun j hj => setBuf_of_ne _ _ hj,
        rfl, rfl⟩
      · rw [setBuf_self]
        exact hhold
      · rw [setBuf_self]
      · rw [setBuf_self]
        exact hd
  · rw [wp_buffer_bind, setBuf_self, Exec.when_pos rfl]
    refine wp_bind.mpr (h.miss hb hd ?_ _)
    rintro rfl j hj
    exact absurd hj (hnone j)

/-! ## Writing -/

/-- Every sector but the written one keeps its buffer and its contents. -/
theorem written_of_ne (t : Zv6.State) {c c' : Nat} (b : Block) (h : c' ≠ c) :
    (t.written 1 c b).dirty 1 c' = t.dirty 1 c' ∧ (t.written 1 c b).view 1 c' = t.view 1 c' := by
  simp [State.view, Zv6.State.written, setSector, h]

theorem view_written (t : Zv6.State) (c : Nat) (b : Block) : (t.written 1 c b).view 1 c = b := by
  simp [State.view, Zv6.State.written, setSector]

/-- The state after `bwrite`. -/
def State.written (s : State) (i : Fin 20) : State :=
  { s.setBuf i { s.buf i with dirty := false, valid := true } with
    memdisk := Function.update s.memdisk (s.buf i).sector (s.buf i).data
    trace := s.trace ++ [((s.buf i).sector, (s.buf i).data)] }

/-- The state after `brelse`. -/
def State.released (s : State) (i : Fin 20) : State :=
  { s.setBuf i { s.buf i with busy := false } with order := i :: s.order.erase i }

/-- `bwrite` puts the buffer on the disk. -/
theorem bwrite_sim (h : Sim m s t) (hb : (s.buf i).busy = true) :
    bwrite i s = .ok () (s.written i) ∧ Sim (Function.update m i false) (s.written i)
      (t.written 1 (s.buf i).sector (s.buf i).data) := by
  have hi := h.each i
  have hv := hi.busy hb
  obtain ⟨hdev, hc⟩ := hi.range hv
  constructor
  · have hc' : ¬ s.disksize ≤ (s.buf i).sector := by omega
    have hset : bwrite i s = iderw i (s.setBuf i { s.buf i with dirty := true }) := by
      unfold bwrite
      rw [Exec.bind_apply]
      simp [buffer, Res.andThen, hb, updBuf, Exec.bind_apply]
    rw [hset]
    unfold iderw
    simp only [setBuf_self, setBuf_setBuf, hb, hdev]
    simp [State.setBuf, State.written, hc', hb, hdev]
  · refine h.update rfl rfl h.all ?_ h.log ?_ (fun j hj => Function.update_of_ne hj _ _) hdev
      (h.one hv) (fun c hne => written_of_ne t _ hne) (fun _ => rfl) ?_
      ⟨fun _ => ⟨hdev, hc⟩, fun _ => rfl, fun _ => hb, fun _ => rfl,
        fun _ _ => (view_written t _ _).symm⟩
    · show setSector t.disk 1 _ _ 1 = _
      rw [setSector_apply, h.disk]
      rfl
    · show t.trace ++ [(1, _, _)] = onDrive 1 (s.trace ++ [_])
      rw [onDrive_append, h.trace]
      rfl
    · simp [Zv6.State.written]

/-- `brelse` gives the buffer back. -/
theorem brelse_sim (h : Sim m s t) (hb : (s.buf i).busy = true) (hm : m i = false) :
    brelse i s = .ok () (s.released i) ∧ Sim m (s.released i) t := by
  have hv := (h.each i).busy hb
  have hs := h.setBusy hv false fun _ => hm
  constructor
  · unfold brelse
    rw [Exec.bind_apply]
    simp [buffer, Res.andThen, hb, State.released]
  · refine ⟨hs.disk, hs.log, hs.trace, ?_, hs.uniq, hs.kept, hs.each, hs.word⟩
    intro j
    by_cases hj : j = i
    · rw [hj]
      exact List.mem_cons_self
    · exact List.mem_cons_of_mem _ ((List.mem_erase_of_ne hj).mpr (h.all j))

theorem Sim.setLog (h : Sim m s t) (L : Log) :
    Sim m { s with log := L } { t with log := L } :=
  ⟨h.disk, rfl, h.trace, h.all, h.uniq, h.kept, fun i =>
    ⟨(h.each i).range, (h.each i).busy, (h.each i).mark, (h.each i).dirty, (h.each i).data⟩,
    h.word⟩

/-- The state after a holder has assigned `d` to its buffer and written it. -/
def State.put (s : State) (i : Fin 20) (d : Block) : State :=
  (s.setBuf i { s.buf i with data := d }).written i

theorem put_self (s : State) (i : Fin 20) (d : Block) :
    (s.put i d).buf i = { s.buf i with valid := true, dirty := false, data := d } := by
  simp [State.put, State.written, State.setBuf]

theorem put_of_ne (s : State) {i j : Fin 20} (d : Block) (h : j ≠ i) :
    (s.put i d).buf j = s.buf j := by
  simp [State.put, State.written, State.setBuf, h]

theorem put_sim (h : Sim m s t) (hb : (s.buf i).busy = true) (hm : m i = false) (d : Block) :
    bwrite i (s.setBuf i { s.buf i with data := d }) = .ok () (s.put i d) ∧
      Sim m (s.put i d) (t.written 1 (s.buf i).sector d) := by
  obtain ⟨hrun, hs⟩ := bwrite_sim (h.setData hb d) (i := i) (by simp [hb])
  refine ⟨hrun, ?_⟩
  have hmask : Function.update (Function.update m i true) i false = m := by
    rw [Function.update_idem, ← hm, Function.update_eq_self]
  rw [hmask, setBuf_self] at hs
  exact hs

theorem trace_put (s : State) (i : Fin 20) (d : Block) :
    (s.put i d).trace = s.trace ++ [((s.buf i).sector, d)] := by
  simp [State.put, State.written, State.setBuf]

section Steps

variable {α : Type} {Q : α → State → Prop} {E : Stop Chan → State → Prop}

theorem wp_updBuf_bind {f : Buf → Buf} {k : PUnit → C α} :
    wp (updBuf i f >>= k) Q E s ↔ wp (k ⟨⟩) Q E (s.setBuf i (f (s.buf i))) := Iff.rfl

/-- Fill a held buffer, write it and go on. -/
theorem Sim.wp_put (h : Sim m s t) (hb : (s.buf i).busy = true) (hm : m i = false)
    {g : Buf → Block} {k : PUnit → C α}
    (hk : Sim m (s.put i (g (s.buf i))) (t.written 1 (s.buf i).sector (g (s.buf i))) →
      wp (k ⟨⟩) Q E (s.put i (g (s.buf i)))) :
    wp (updBuf i (fun b => { b with data := g b }) >>= fun _ => bwrite i >>= k) Q E s := by
  obtain ⟨hrun, hs⟩ := put_sim h hb hm (g (s.buf i))
  exact wp_updBuf_bind.mpr (wp_ok_bind hrun (hk hs))

end Steps

/-! ## The log -/

theorem write_head_sim (h : Sim m s t) (hdev : t.log.dev = 1) :
    wp write_head (fun _ s' => Sim m s' t.headed) (fun _ s' => s'.trace = s.trace) s := by
  unfold write_head
  rw [wp_gets_bind, ← h.log]
  refine ((bread_sim h _ _).mono (fun _ _ => id) fun _ _ hs => hs.1).bind ?_
  rintro i s1 ⟨-, h1, hg⟩
  have hm := h.marked hg.free
  refine h1.wp_put hg.busy hm fun h2 => ?_
  obtain ⟨hrel, h3⟩ := brelse_sim (i := i) h2 (by rw [put_self]; exact hg.busy) hm
  rw [hg.holds.2, hg.data] at h3
  refine (wp_of_ok hrel).mpr ?_
  unfold Zv6.State.headed
  rw [hdev, hg.data]
  exact h3

/-- The install loop makes the writes `R` of `Q` before it stops. -/
theorem installLoop_sim (P : List (Nat × Block)) : ∀ (s : State) (t : Zv6.State) (k : Nat),
    Sim m s t → t.log.dev = 1 → Holds t k P →
    wp (installLoop P.length k) (fun _ s' => Sim m s' (t.writes P))
      (fun _ s' => ∃ R, R <+: P ∧ s'.trace = s.trace ++ R) s := by
  induction P with
  | nil =>
    intro s t k h _ _
    rw [writes_nil]
    exact h
  | cons p P ih =>
    intro s t k h hdev hP
    rw [List.length_cons]
    unfold installLoop
    rw [wp_gets_bind, ← h.log]
    have hnone : ∀ s' : State, s'.trace = s.trace → ∃ R, R <+: p :: P ∧ s'.trace = s.trace ++ R :=
      fun s' e => ⟨[], List.nil_prefix, by rw [e, List.append_nil]⟩
    refine ((bread_sim h _ _).mono (fun _ _ => id) fun _ _ hs => hnone _ hs.1).bind ?_
    rintro l s1 ⟨-, h1, hg1⟩
    refine ((bread_sim h1 _ _).mono (fun _ _ => id)
      fun _ _ hs => hnone _ (hs.1.trans hg1.trace)).bind ?_
    rintro d s2 ⟨-, h2, hg2⟩
    have hld : l ≠ d := hg2.ne hg1.busy
    have hml := h.marked hg1.free
    have hmd := h1.marked hg2.free
    have hl : s2.buf l = s1.buf l := hg2.others l hld
    have hdata : (s2.buf l).data = p.2 := by
      rw [hl, hg1.data]
      exact hP.body 0 p rfl
    have hsec : (s2.buf d).sector = p.1 := by
      rw [hg2.holds.2]
      exact hP.sector 0 p rfl
    rw [wp_buffer_bind]
    refine h2.wp_put hg2.busy hmd fun h3 => ?_
    rw [hdata, hsec] at h3
    rw [hdata]
    obtain ⟨hr1, h4⟩ := brelse_sim (i := l) h3 (by rw [put_of_ne _ _ hld, hl]; exact hg1.busy) hml
    refine wp_ok_bind hr1 ?_
    have hbd : (((s2.put d p.2).released l).buf d).busy = true := by
      show (((s2.put d p.2).setBuf l _).buf d).busy = true
      rw [setBuf_of_ne _ _ hld.symm, put_self]
      exact hg2.busy
    obtain ⟨hr2, h5⟩ := brelse_sim h4 hbd hmd
    refine wp_ok_bind hr2 ?_
    rw [← written_writes]
    refine (ih _ _ (k + 1) h5 hdev hP.tail).mono (fun _ _ => id) ?_
    rintro _ s' ⟨R, hR, htr⟩
    refine ⟨p :: R, (List.cons_prefix_cons).mpr ⟨rfl, hR⟩, ?_⟩
    rw [htr]
    show (s2.put d p.2).trace ++ R = _
    rw [trace_put, hsec, hg2.trace, hg1.trace, List.append_assoc]
    rfl

/-- `commit_trans` of the logged writes `P`. Stopped before its end, it has written nothing, or
    the header and a beginning of `P`. -/
theorem commit_trans_sim (h : Sim m s t) {P : List (Nat × Block)} (hP : Pending t P)
    (hne : P ≠ []) :
    wp commit_trans (fun _ s' => Sim m s' (t.headed.writes P).noEntries.headed.notBusy)
      (fun _ s' => ∃ R, R <+: (t.log.start, commitHead t) :: P ∧ s'.trace = s.trace ++ R) s := by
  have htr : ∀ {s1 : State}, Sim m s1 t.headed →
      s1.trace = s.trace ++ [(t.log.start, commitHead t)] := by
    intro s1 h1
    have := h1.trace
    rw [hP.headed_eq hne] at this
    refine (onDrive_injective 1 (this.symm.trans ?_))
    show t.trace ++ [(1, t.log.start, commitHead t)] = _
    rw [onDrive_append, h.trace]
    rfl
  have hpos : 0 < t.log.n := by
    rw [hP.n]
    exact List.length_pos_iff.mpr hne
  unfold commit_trans
  rw [wp_gets_bind, ← h.log, Exec.when_pos hpos]
  rw [wp_bind]
  refine ((write_head_sim h hP.dev).mono (fun _ _ => id) fun _ s' hs => ?_).bind ?_
  · exact ⟨[], List.nil_prefix, by rw [hs, List.append_nil]⟩
  intro _ s1 h1
  unfold install_trans
  rw [wp_bind, wp_gets_bind, ← h1.log]
  show wp (installLoop t.log.n 0) _ _ s1
  rw [hP.n]
  refine (installLoop_sim P s1 _ 0 h1 hP.dev hP.holds).mono ?_ ?_
  · intro _ s2 h2
    have htr2 : s2.trace = s.trace ++ ((t.log.start, commitHead t) :: P) := by
      refine onDrive_injective 1 (h2.trace.symm.trans ?_)
      show t.headed.trace ++ onDrive 1 P = _
      rw [h1.trace, htr h1, ← onDrive_append, List.append_assoc]
      rfl
    have h3 : Sim m { s2 with log := { s2.log with n := 0 } } (t.headed.writes P).noEntries := by
      rw [← h2.log]
      exact h2.setLog { t.log with n := 0 }
    rw [wp_modify_bind]
    refine (write_head_sim h3 hP.dev).mono ?_ ?_
    · intro _ s4 h4
      rw [wp_modify, ← h4.log]
      exact h4.setLog { t.log with n := 0, busy := false }
    · intro _ s' hs
      exact ⟨_, List.prefix_rfl, hs.trans htr2⟩
  · rintro _ s' ⟨R, hR, he⟩
    refine ⟨(t.log.start, commitHead t) :: R, List.cons_prefix_cons.mpr ⟨rfl, hR⟩, ?_⟩
    rw [he, htr h1, List.append_assoc]
    rfl

/-- The state after a held buffer is marked dirty. -/
theorem Sim.setDirty (h : Sim m s t) (hb : (s.buf i).busy = true) :
    Sim (Function.update m i false) (s.setBuf i { s.buf i with dirty := true })
      { t with dirty := fun v c => if v = 1 ∧ c = (s.buf i).sector then some (s.buf i).data
          else t.dirty v c } := by
  have hi := h.each i
  have hv := hi.busy hb
  refine h.update rfl rfl h.all h.disk h.log h.trace (fun j hj => Function.update_of_ne hj _ _)
    (hi.range hv).1 (h.one hv) ?_ (fun _ => rfl) (by simp)
    ⟨hi.range, hi.busy, fun _ => hb, fun _ => hv, ?_⟩
  · intro c hc
    have hc : c ≠ (s.buf i).sector := hc
    simp [Zv6.State.view, hc]
  · intro _ _
    simp [Zv6.State.view]

theorem log_write_sim (h : Sim m s t) (hb : (s.buf i).busy = true) :
    wp (log_write i) (fun _ s' => Sim (Function.update m i false) s'
        (t.logged 1 (s.buf i).sector (s.buf i).data) ∧ s.log.busy = true ∧ s.log.n < 20 ∧
        s.log.n < s.log.size - 1)
      (fun _ s' => s'.trace = s.trace) s := by
  unfold log_write
  rw [wp_gets_bind]
  refine wp_ite (fun _ => rfl) fun hfull => wp_ite (fun _ => rfl) fun hbusy => ?_
  have hbusy : s.log.busy = true := by simpa using hbusy
  rw [wp_buffer_bind, wp_modify_bind]
  have h1 := h.setLog { s.log with
    sector := fun j => if j = absorbSlot s.log (s.buf i).sector then (s.buf i).sector
      else s.log.sector j }
  refine ((bread_sim h1 _ _).mono (fun _ _ => id) fun _ _ hs => hs.1).bind ?_
  rintro l s2 ⟨hdev, h2, hg⟩
  have hil : i ≠ l := hg.ne hb
  have hi2 : s2.buf i = s.buf i := hg.others i hil
  have hml := h1.marked hg.free
  rw [wp_buffer_bind]
  refine h2.wp_put hg.busy hml fun h3 => ?_
  rw [hg.holds.2, hi2] at h3
  rw [hi2]
  obtain ⟨hrel, h4⟩ := brelse_sim (i := l) h3 (by rw [put_self]; exact hg.busy) hml
  refine wp_ok_bind hrel ?_
  have hi4 : ((s2.put l (s.buf i).data).released l).buf i = s.buf i := by
    show ((s2.put l (s.buf i).data).setBuf l _).buf i = _
    rw [setBuf_of_ne _ _ hil, put_of_ne _ _ hil, hi2]
  have hlog4 := h4.log
  have hb4 : (((s2.put l (s.buf i).data).released l).buf i).busy = true := by rw [hi4]; exact hb
  generalize (s2.put l (s.buf i).data).released l = s4 at h4 hi4 hlog4 hb4 ⊢
  refine wp_bind.mpr (wp_when (fun hk => ?_) fun hk => ?_)
  · have h5 := (h4.setLog { s4.log with n := s4.log.n + 1 }).setDirty hb4
    refine ⟨?_, hbusy, by omega, by omega⟩
    convert h5 using 1
    simp [Zv6.State.logged, Zv6.State.written, h.log, hi4, hk, ← hlog4]
  · have h5 := h4.setDirty hb4
    refine ⟨?_, hbusy, by omega, by omega⟩
    convert h5 using 1
    simp [Zv6.State.logged, Zv6.State.written, h.log, hi4, hk]

end Buffers

end Zv6.Bio
