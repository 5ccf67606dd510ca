/-
  Buffer cache and log as a flat disk.

  A flat disk is a map from sectors to contents: `log_write` of a buffer stores its data there,
  and nothing else changes it. `Run` takes the machine through any sequence of buffer and log
  calls of processes that keep two rules: only the holder of a buffer assigns to it or logs it,
  and a buffer that was assigned to is logged before it is released. Whatever the cache keeps
  and recycles on the way, `bread` of a sector outside the log region returns what the flat disk
  holds, in a transaction and after its commit.

  `HeaderFirst`: a sector outside the log region is written to the disk only while the log
  header on the disk names it. This holds at every point where a call may stop.
-/
import Zv6.Cache.Refine

namespace Zv6.Bio

open Lib Function

/-! ## Home sectors and the header -/

/-- The header sector `b` names sector `c`. -/
def Names (b : Block) (c : Nat) : Prop := ∃ i, i < b.headN ∧ b.headSector i = c

/-- Each of the sector writes that goes outside the log region finds a header on the disk that
    names its sector. -/
def HeaderFirst (L : Log) : (Nat → Block) → List (Nat × Block) → Prop
  | _, [] => True
  | d, w :: ws =>
    (L.Home w.1 → Names (d L.start) w.1) ∧ HeaderFirst L (update d w.1 w.2) ws

section HeaderFirst

variable {L : Log}

theorem headerFirst_append (ws vs : List (Nat × Block)) (d : Nat → Block) :
    HeaderFirst L d (ws ++ vs) ↔ HeaderFirst L d ws ∧ HeaderFirst L (applyW ws d) vs := by
  induction ws generalizing d with
  | nil => simp [HeaderFirst]
  | cons w ws ih =>
    rw [List.cons_append, HeaderFirst, ih, HeaderFirst, applyW_cons, and_assoc]

theorem HeaderFirst.of_beginning {d : Nat → Block} {ws vs : List (Nat × Block)}
    (h : HeaderFirst L d ws) (hp : vs <+: ws) : HeaderFirst L d vs := by
  obtain ⟨us, rfl⟩ := hp
  exact ((headerFirst_append _ _ _).mp h).1

/-- Writes into the log region are free. -/
theorem headerFirst_inside {d : Nat → Block} {w : Nat × Block} (h : ¬ L.Home w.1) :
    HeaderFirst L d [w] := ⟨fun h' => absurd h' h, trivial⟩

/-- Installing what the header names. -/
theorem headerFirst_install (hs : 0 < L.size) (P : List (Nat × Block)) : ∀ d : Nat → Block,
    (∀ p ∈ P, L.Home p.1 ∧ Names (d L.start) p.1) → HeaderFirst L d P := by
  induction P with
  | nil =>
    intro d _
    trivial
  | cons p P ih =>
    intro d h
    have hp := h p List.mem_cons_self
    refine ⟨fun _ => hp.2, ih _ fun q hq => ?_⟩
    rw [update_of_ne (hp.1.ne_start hs).symm]
    exact h q (List.mem_cons_of_mem _ hq)

end HeaderFirst

/-! ## Runs -/

/-- A call of a process on the buffer cache or the log. -/
inductive Op where
  | bread (dev sector : Nat)
  | modify (i : Fin 20) (data : Block)
  | log_write (i : Fin 20)
  | brelse (i : Fin 20)
  | begin_trans
  | commit_trans

def Op.run : Op → C PUnit
  | .bread dev c => do let _ ← Bio.bread dev c
  | .modify i d => updBuf i fun b => { b with data := d }
  | .log_write i => Bio.log_write i
  | .brelse i => Bio.brelse i
  | .begin_trans => Bio.begin_trans
  | .commit_trans => Bio.commit_trans

/-- The rules of the callers; `m` marks the buffers assigned to and not yet logged. -/
def Op.Allowed (m : Fin 20 → Bool) (s : State) : Op → Prop
  | .modify i _ => (s.buf i).busy = true
  | .log_write i => (s.buf i).busy = true ∧ s.log.Home (s.buf i).sector
  | .brelse i => m i = false
  | _ => True

/-- The marks after a call. -/
def Op.mark (m : Fin 20 → Bool) : Op → Fin 20 → Bool
  | .modify i _ => update m i true
  | .log_write i => update m i false
  | _ => m

/-- The flat disk after a call. -/
def Op.flat (s : State) (F : Nat → Block) : Op → Nat → Block
  | .log_write i => update F (s.buf i).sector (s.buf i).data
  | _ => F

/-- From `s0`, calls that keep the rules and returned lead to `s`, with the marks `m` and the
    flat disk `F`. -/
inductive Run (s0 : State) : State → (Fin 20 → Bool) → (Nat → Block) → Prop where
  | start : Run s0 s0 (fun _ => false) s0.memdisk
  | step {s s' : State} {m : Fin 20 → Bool} {F : Nat → Block} (op : Op) : Run s0 s m F →
      op.Allowed m s → op.run s = .ok ⟨⟩ s' → Run s0 s' (op.mark m) (op.flat s F)

instance (m : Fin 20 → Bool) (s : State) : (op : Op) → Decidable (op.Allowed m s)
  | .bread _ _ => isTrue trivial
  | .modify i _ => inferInstanceAs (Decidable ((s.buf i).busy = true))
  | .log_write i => inferInstanceAs (Decidable ((s.buf i).busy = true ∧ _))
  | .brelse i => inferInstanceAs (Decidable (m i = false))
  | .begin_trans => isTrue trivial
  | .commit_trans => isTrue trivial

/-- Make the calls `ops`, as long as they keep the rules and return. -/
def runOps : List Op → State × (Fin 20 → Bool) × (Nat → Block) →
    Option (State × (Fin 20 → Bool) × (Nat → Block))
  | [], x => some x
  | op :: ops, (s, m, F) =>
    if op.Allowed m s then
      match op.run s with
      | .ok _ s' => runOps ops (s', op.mark m, op.flat s F)
      | _ => none
    else none

theorem runOps_run {s0 : State} (ops : List Op) : ∀ x y : State × (Fin 20 → Bool) × (Nat → Block),
    Run s0 x.1 x.2.1 x.2.2 → runOps ops x = some y → Run s0 y.1 y.2.1 y.2.2 := by
  induction ops with
  | nil =>
    intro x y hx hy
    cases hy
    exact hx
  | cons op ops ih =>
    intro x y hx hy
    unfold runOps at hy
    split at hy
    · next hop =>
      split at hy
      · next s' hstep => exact ih _ _ (hx.step op hop hstep) hy
      · cases hy
    · cases hy

theorem runOps_any {s0 : State} (ops : List Op)
    (p : State × (Fin 20 → Bool) × (Nat → Block) → Bool)
    (h : (runOps ops (s0, fun _ => false, s0.memdisk)).any p = true) :
    ∃ s m F, Run s0 s m F ∧ p (s, m, F) = true := by
  cases hr : runOps ops (s0, fun _ => false, s0.memdisk) with
  | none => simp [hr] at h
  | some y =>
    rw [hr] at h
    exact ⟨y.1, y.2.1, y.2.2, runOps_run ops _ y .start hr, h⟩

/-- A machine after `initlog`: nobody holds a buffer, the valid ones agree with the disk, and
    the log is empty. -/
structure Ready (s : State) : Prop where
  all : ∀ i, i ∈ s.order
  uniq : ∀ i j c, (s.buf i).holds 1 c → (s.buf j).holds 1 c → i = j
  free : ∀ i, (s.buf i).busy = false ∧ (s.buf i).dirty = false
  valid : ∀ i, (s.buf i).valid = true → (s.buf i).dev = 1 ∧ (s.buf i).sector < s.disksize ∧
    (s.buf i).data = s.memdisk (s.buf i).sector
  dev : s.log.dev = 1
  busy : s.log.busy = false
  n : s.log.n = 0
  head : (s.memdisk s.log.start).word 0 = 0
  word : s.disksize < 4294967296
  trace : s.trace = []

/-- The state of the file-system model behind a machine after `initlog`. -/
def State.initial (s : State) : Zv6.State :=
  { Zv6.State.blank s.log with disk := fun _ => s.memdisk }

theorem Ready.idle {s : State} (h : Ready s) : Idle s.initial :=
  ⟨h.dev, h.busy, h.n, fun _ => rfl, h.head⟩

theorem Ready.sim {s : State} (h : Ready s) : Sim (fun _ => false) s s.initial := by
  refine ⟨rfl, rfl, by rw [h.trace]; rfl, h.all, h.uniq, ?_, ?_, h.word⟩
  · intro c
    constructor
    · intro hne
      exact absurd rfl hne
    · rintro ⟨i, -, hd⟩
      simp [(h.free i).2] at hd
  · intro i
    refine ⟨fun hv => ⟨(h.valid i hv).1, (h.valid i hv).2.1⟩, ?_, ?_, ?_,
      fun hv _ => (h.valid i hv).2.2⟩
    · intro hb
      simp [(h.free i).1] at hb
    · intro hm
      cases hm
    · intro hd
      simp [(h.free i).2] at hd

/-- What holds along a run, with `t` and its pending writes `P` behind `s`. -/
structure Inv (s0 : State) (m : Fin 20 → Bool) (F : Nat → Block) (s : State) (t : Zv6.State)
    (P : List (Nat × Block)) : Prop where
  sim : Sim m s t
  pending : Pending t P
  start : t.log.start = s0.log.start
  size : t.log.size = s0.log.size
  flat : ∀ c, s0.log.Home c → t.view 1 c = F c
  disk : s.memdisk = applyW s.trace s0.memdisk
  first : HeaderFirst s0.log s0.memdisk s.trace

section Inv

variable {s0 s s' : State} {m m' : Fin 20 → Bool} {F F' : Nat → Block} {t t' : Zv6.State}
  {P P' : List (Nat × Block)}

theorem Ready.inv (h : Ready s0) :
    Inv s0 (fun _ => false) s0.memdisk s0 s0.initial [] := by
  refine ⟨h.sim, h.idle.pending, rfl, rfl, ?_, by rw [h.trace]; rfl, by rw [h.trace]; trivial⟩
  intro c _
  rw [h.idle.view]
  rfl

theorem Inv.home (h : Inv s0 m F s t P) (c : Nat) : t.log.Home c ↔ s0.log.Home c :=
  Log.Home.congr h.start h.size c

/-- The sector writes `ws` lead from one state to the next. -/
theorem Inv.next (h : Inv s0 m F s t P) (hs : Sim m' s' t') (hP : Pending t' P')
    (hlog : t'.log.start = t.log.start ∧ t'.log.size = t.log.size)
    (ws : List (Nat × Block)) (htrace : t'.trace = t.trace ++ onDrive 1 ws)
    (hdisk : t'.disk 1 = applyW ws (t.disk 1)) (hfirst : HeaderFirst s0.log s.memdisk ws)
    (hflat : ∀ c, s0.log.Home c → t'.view 1 c = F' c) : Inv s0 m' F' s' t' P' := by
  have htr : s'.trace = s.trace ++ ws := by
    apply onDrive_injective 1
    rw [← hs.trace, htrace, h.sim.trace, onDrive_append]
  refine ⟨hs, hP, hlog.1.trans h.start, hlog.2.trans h.size, hflat, ?_, ?_⟩
  · rw [← hs.disk, hdisk, h.sim.disk, h.disk, htr, applyW_append]
  · rw [htr, headerFirst_append, ← h.disk]
    exact ⟨h.first, hfirst⟩

/-- A call that writes no sector. -/
theorem Inv.same (h : Inv s0 m F s t P) (hs : Sim m' s' t) : Inv s0 m' F s' t P :=
  h.next hs h.pending ⟨rfl, rfl⟩ [] (by simp [onDrive]) rfl trivial h.flat

/-- A call that stopped before it wrote a sector. -/
theorem Inv.stop (h : Inv s0 m F s t P) (hs : s'.trace = s.trace) :
    HeaderFirst s0.log s0.memdisk s'.trace := by
  rw [hs]
  exact h.first

theorem Inv.setBusy (h : Inv s0 m F s t P) (v : Bool) :
    Inv s0 m F { s with log := { s.log with busy := v } }
      { t with log := { t.log with busy := v } } P := by
  have hs := h.sim.setLog { s.log with busy := v }
  rw [← h.sim.log] at hs ⊢
  exact h.next hs (h.pending.setBusy v) ⟨rfl, rfl⟩ [] (by simp [onDrive]) rfl trivial h.flat

theorem Inv.log_write (h : Inv s0 m F s t P) {i : Fin 20} (hb : (s.buf i).busy = true)
    (hhome : s.log.Home (s.buf i).sector) :
    wp (log_write i) (fun _ s' => ∃ t' P', Inv s0 (update m i false)
        (update F (s.buf i).sector (s.buf i).data) s' t' P')
      (fun _ s' => HeaderFirst s0.log s0.memdisk s'.trace) s := by
  refine (log_write_sim h.sim hb).mono ?_ fun _ s' hs => h.stop hs
  rintro _ s' ⟨hs, hbusy, hn, hsize⟩
  have hi := h.sim.each i
  have hsec := (hi.range (hi.busy hb)).2
  have hw := h.sim.word
  have hPn := h.pending.n
  rw [← h.sim.log] at hhome hn hsize
  have hP := h.pending.logged (s.buf i).data (by omega) hhome (by omega)
  have hslot := absorbSlot_eq h.pending.n h.pending.sector (s.buf i).sector
  have hle := slotOf_le P (s.buf i).sector
  have hin : ¬ s0.log.Home (t.log.start + absorbSlot t.log (s.buf i).sector + 1) := by
    rw [← h.home]
    unfold Log.Home
    omega
  refine ⟨_, _, h.next hs hP ⟨rfl, rfl⟩
    [(t.log.start + absorbSlot t.log (s.buf i).sector + 1, (s.buf i).data)] rfl
    (setSector_apply _ _ _ _) (headerFirst_inside hin) ?_⟩
  intro c hc
  rw [view_logged _ _ _ _ ?_]
  · by_cases he : c = (s.buf i).sector
    · rw [if_pos he, he, update_self]
    · rw [if_neg he, update_of_ne he]
      exact h.flat c hc
  · rintro rfl
    exact hin hc

/-- The sector writes of a commit respect the header. -/
theorem commit_headerFirst (h : Pending t P) (hP : P ≠ []) (b : Block) :
    HeaderFirst t.log (t.disk 1) (((t.log.start, commitHead t) :: P) ++ [(t.log.start, b)]) := by
  have hroom := h.room
  have hpos := List.length_pos_iff.mpr hP
  have hstart : ¬ t.log.Home t.log.start := by
    unfold Log.Home
    omega
  have hC := h.committed hP
  have hd : writeSector t.disk (1, t.log.start, commitHead t) 1 =
      update (t.disk 1) t.log.start (commitHead t) := setSector_apply _ _ _ _
  rw [headerFirst_append]
  refine ⟨⟨fun hh => absurd hh hstart, ?_⟩, headerFirst_inside hstart⟩
  refine headerFirst_install (by omega) P _ fun p hp => ⟨h.home p hp, ?_⟩
  obtain ⟨i, hi, rfl⟩ := List.mem_iff_getElem.mp hp
  rw [← hd]
  exact ⟨i, by rw [hC.headN]; exact hi, hC.headSector i _ (List.getElem?_eq_getElem hi)⟩

theorem Inv.headerFirst (h : Inv s0 m F s t P) {ws : List (Nat × Block)}
    (hw : HeaderFirst t.log (t.disk 1) ws) : HeaderFirst s0.log s.memdisk ws := by
  rw [← h.sim.disk]
  generalize t.disk 1 = d at hw
  induction ws generalizing d with
  | nil => trivial
  | cons w ws ih =>
    rw [HeaderFirst, h.home, h.start] at hw
    exact ⟨hw.1, ih _ hw.2⟩

theorem Inv.commit_trans (h : Inv s0 m F s t P) :
    wp commit_trans (fun _ s' => ∃ t' P', Inv s0 m F s' t' P')
      (fun _ s' => HeaderFirst s0.log s0.memdisk s'.trace) s := by
  by_cases hP : P = []
  · subst hP
    unfold Bio.commit_trans
    rw [wp_gets_bind, ← h.sim.log, Exec.when_neg (by rw [h.pending.n]; simp)]
    exact ⟨_, [], h.setBusy false⟩
  · have happly := commit_trans_apply h.pending hP
    obtain ⟨t1, hrun, hidle, -, hstart, hsize, hview⟩ := commit_trans_view h.pending
    obtain ⟨t2, hrun', htrace, hdisk⟩ := commit_trans_trace h.pending hP
    rw [hrun] at happly hrun'
    cases hrun'
    cases happly
    have hws : ∃ b, (1, t.log.start, commitHead t) :: installWrites t P =
        onDrive 1 (((t.log.start, commitHead t) :: P) ++ [(t.log.start, b)]) := by
      unfold installWrites
      exact ⟨_, by rw [onDrive_append]; rfl⟩
    obtain ⟨b, hb⟩ := hws
    rw [hb] at htrace hdisk
    refine (commit_trans_sim h.sim h.pending hP).mono ?_ ?_
    · intro _ s' hs
      refine ⟨_, [], h.next hs hidle.pending ⟨hstart, hsize⟩ _ htrace ?_
        (h.headerFirst (commit_headerFirst h.pending hP b)) ?_⟩
      · rw [hdisk, replay_onDrive]
      · intro c hc
        rw [hidle.view, hview c ((h.home c).mpr hc)]
        exact h.flat c hc
    · rintro _ s' ⟨R, hR, he⟩
      have hw := (h.headerFirst (commit_headerFirst h.pending hP Block.zero)).of_beginning
        (hR.trans (List.prefix_append _ _))
      rw [he, headerFirst_append, ← h.disk]
      exact ⟨h.first, hw⟩

/-- The step. -/
theorem Inv.step (h : Inv s0 m F s t P) (op : Op) (hop : op.Allowed m s) :
    wp op.run (fun _ s' => ∃ t' P', Inv s0 (op.mark m) (op.flat s F) s' t' P')
      (fun _ s' => HeaderFirst s0.log s0.memdisk s'.trace) s := by
  cases op with
  | bread dev c =>
    refine ((bread_sim h.sim dev c).mono (fun _ _ => id) fun _ s' hs => h.stop hs.1).bind ?_
    rintro i s1 ⟨-, h1, -⟩
    exact ⟨t, P, h.same h1⟩
  | modify i d => exact ⟨t, P, h.same (h.sim.setData hop d)⟩
  | log_write i => exact h.log_write hop.1 hop.2
  | brelse i =>
    by_cases hb : (s.buf i).busy = true
    · obtain ⟨hrun, hs⟩ := brelse_sim h.sim hb hop
      exact (wp_of_ok hrun).mpr ⟨t, P, h.same hs⟩
    · show wp (Bio.brelse i) _ _ s
      unfold Bio.brelse
      rw [wp_buffer_bind, if_pos (by simpa using hb)]
      exact h.first
  | begin_trans =>
    show wp Bio.begin_trans _ _ s
    unfold wp Bio.begin_trans
    by_cases hb : s.log.busy = true
    · simp only [hb]
      exact h.first
    · simp only [hb]
      exact ⟨_, P, h.setBusy true⟩
  | commit_trans => exact h.commit_trans

theorem Run.inv (h0 : Ready s0) (hrun : Run s0 s m F) : ∃ t P, Inv s0 m F s t P := by
  induction hrun with
  | start => exact ⟨_, _, h0.inv⟩
  | step op _ hop hstep ih =>
    obtain ⟨t, P, h⟩ := ih
    exact (h.step op hop).ok hstep

end Inv

/-- Buffer cache and log are a flat disk outside the log region, and a home sector is written
    only behind a header that names it. -/
theorem cache_refines_flat_disk {s0 s : State} {m : Fin 20 → Bool} {F : Nat → Block}
    (h0 : Ready s0) (hrun : Run s0 s m F) :
    (∀ dev c i s', s0.log.Home c → bread dev c s = .ok i s' → (s'.buf i).data = F c) ∧
    (∀ c, ¬ Stuck s 1 c → ∃ i s', bread 1 c s = .ok i s') ∧
    HeaderFirst s0.log s0.memdisk s.trace ∧
    ∀ op : Op, op.Allowed m s → HeaderFirst s0.log s0.memdisk (op.run s).state.trace := by
  obtain ⟨t, P, h⟩ := hrun.inv h0
  refine ⟨?_, ?_, h.first, ?_⟩
  · intro dev c i s' hc hread
    obtain ⟨-, -, hg⟩ := (bread_sim h.sim dev c).ok hread
    rw [hg.data]
    exact h.flat c hc
  · intro c hstuck
    obtain ⟨i, s', hread, -⟩ := ((bread_sim h.sim 1 c).mono (fun _ _ => id)
      fun _ _ hs => hstuck hs.2).returns
    exact ⟨i, s', hread⟩
  · intro op hop
    exact (h.step op hop).state (fun _ _ ⟨_, _, h'⟩ => h'.first) fun _ _ hs => hs

/-- A zeroed disk of 200 sectors with its log at sector 160, behind a cache just initialised by
    `binit`. -/
def coldCache : State :=
  { buf := fun _ => ⟨4294967295, 0, false, false, false, Block.zero⟩
    order := (List.finRange 20).reverse
    memdisk := fun _ => Block.zero
    disksize := 200
    log := { start := 160, size := 20, busy := false, dev := 1, n := 0, sector := fun _ => 0 }
    trace := [] }

theorem coldCache_ready : Ready coldCache where
  all := by simp [coldCache]
  uniq := fun _ _ _ h => absurd h.1 (show (4294967295 : Nat) ≠ 1 by decide)
  free := fun _ => ⟨rfl, rfl⟩
  valid := fun _ h => by cases h
  dev := rfl
  busy := rfl
  n := rfl
  head := Block.word_zero 0
  word := by decide
  trace := rfl

/-- Sector 50 is read, filled with ones and logged. -/
def logFifty : List Op :=
  [.begin_trans, .bread 1 50, .modify 0 (Block.zero.setWord 0 1), .log_write 0, .brelse 0]

/-- After the commit `bread` returns what was logged. -/
theorem cache_refines_flat_disk_fifty : ∃ s m F, Run coldCache s m F ∧ (F 50).word 0 = 1 ∧
    ∃ i s', bread 1 50 s = .ok i s' ∧ (s'.buf i).data = F 50 := by
  obtain ⟨s, m, F, hrun, h⟩ := @runOps_any coldCache (logFifty ++ [.commit_trans])
    (fun x => decide ((x.2.2 50).word 0 = 1) && (bread 1 50 x.1).check fun _ _ => true)
    (by decide +kernel)
  simp only [Bool.and_eq_true, decide_eq_true_eq] at h
  obtain ⟨i, s', hread, -⟩ := Res.of_check h.2
  exact ⟨s, m, F, hrun, h.1, i, s', hread,
    (cache_refines_flat_disk coldCache_ready hrun).1 1 50 i s' (Or.inl (by decide)) hread⟩

/-- A log sector is not part of the flat disk: nothing was logged to sector 161, and `bread`
    returns the log's copy of sector 50. -/
theorem log_sector_not_flat : Ready coldCache ∧ ∃ s m F, Run coldCache s m F ∧
    (F 161).word 0 = (coldCache.memdisk 161).word 0 ∧
    ∃ i s', bread 1 161 s = .ok i s' ∧ (s'.buf i).data ≠ F 161 := by
  obtain ⟨s, m, F, hrun, h⟩ := @runOps_any coldCache logFifty
    (fun x => decide ((x.2.2 161).word 0 = (coldCache.memdisk 161).word 0) &&
      (bread 1 161 x.1).check fun i s' => decide ((s'.buf i).data.word 0 ≠ (x.2.2 161).word 0))
    (by decide +kernel)
  simp only [Bool.and_eq_true, decide_eq_true_eq] at h
  obtain ⟨i, s', hread, hne⟩ := Res.of_check h.2
  refine ⟨coldCache_ready, s, m, F, hrun, h.1, i, s', hread, fun he => ?_⟩
  simp [he] at hne

end Zv6.Bio
