/-
  Crash atomicity of the redo log (`log.c`).

  A machine that stops between two sector writes has made a beginning of the trace of its
  writes; it reboots with that disk, cold caches and an empty in-memory header, and runs
  `recover_from_log`, which may be cut short the same way any number of times
  (`Recovering`).

  Two descriptions of a disk carry the proof. `Clean L T d`: the header is empty and the home
  sectors hold `T`. `Committed L P T d`: the header and the log body hold the entries `P`,
  and the home sectors hold `T` except where `P` has still to be installed. Either way
  recovery ends in `Clean L T` and passes only through such disks (`recover_along`). A
  transaction goes from `Clean L H` through its first header write to `Committed L P T`, with
  `T` the home contents after its writes, and back to `Clean L T`
  (`stopped_recoverable`).
-/
import Zv6.Log.Writes

namespace Zv6

open Lib Function

/-! ## Stopping and rebooting -/

/-- An unused inode-cache slot. -/
def Inode.unused : Inode :=
  { dev := 0, inum := 0, ref := 0, busy := false, valid := false, d := Dinode.zero }

/-- An unused open file. -/
def File.unused : File :=
  { type := .none, ref := 0, readable := false, writable := false, ip := 0, off := 0 }

/-- A machine with zeroed disks and nothing in memory. -/
def State.blank (L : Log) : State :=
  { disk := fun _ _ => Block.zero
    dirty := fun _ _ => none
    trace := []
    log := L
    icache := fun _ => Inode.unused
    ftable := fun _ => File.unused
    proc := fun _ => { ofile := fun _ => none, cwd := none }
    devsw := fun _ => { read := none, write := none }
    pipewrite := fun _ => -1 }

/-- The machine of `s` after a reboot with the disks `d`: nothing in memory but what
    `initlog` takes from the superblock. -/
def State.reboot (s : State) (d : Nat → Nat → Block) : State :=
  { s with
    disk := d
    dirty := fun _ _ => none
    trace := []
    log := { s.log with busy := false, n := 0, sector := fun _ => 0 }
    icache := fun _ => Inode.unused
    ftable := fun _ => File.unused }

/-- `d'` is the disk after any number of runs of `recover_from_log` that were each cut
    short, the first one on `d`. -/
inductive Recovering (s : State) (d : Nat → Nat → Block) : (Nat → Nat → Block) → Prop where
  | start : Recovering s d d
  | stop {d' : Nat → Nat → Block} {s' : State} (j : Nat) : Recovering s d d' →
      recover_from_log (s.reboot d') = .ok () s' → Recovering s d (replay d' (s'.trace.take j))

/-! ## Disks between transactions and after the commit point -/

/-- No transaction is committed and the home sectors hold `T`. -/
structure Clean (L : Log) (T : Nat → Block) (d : Nat → Nat → Block) : Prop where
  head : (d 1 L.start).word 0 = 0
  home : ∀ c, L.Home c → d 1 c = T c

/-- The entries `P` are committed; installed over the home sectors they give `T`. -/
structure Committed (L : Log) (P : List (Nat × Block)) (T : Nat → Block)
    (d : Nat → Nat → Block) : Prop where
  headN : (d 1 L.start).headN = P.length
  headSector : ∀ i p, P[i]? = some p → (d 1 L.start).headSector i = p.1
  body : ∀ i p, P[i]? = some p → d 1 (L.start + i + 1) = p.2
  rest : ∀ c, L.Home c → c ∉ P.map Prod.fst → d 1 c = T c

/-- The entries of a transaction that logged something and would make `T`. -/
structure Entries (L : Log) (P : List (Nat × Block)) (T : Nat → Block) : Prop where
  pos : P ≠ []
  short : P.length ≤ 20
  room : P.length < L.size
  home : ∀ p ∈ P, L.Home p.1
  target : ∀ p ∈ P, T p.1 = p.2

variable {L L' : Log} {P : List (Nat × Block)} {H T : Nat → Block} {d d' : Nat → Nat → Block}
  {s s' : State}

theorem Log.Home.congr (hstart : L'.start = L.start) (hsize : L'.size = L.size) (c : Nat) :
    L'.Home c ↔ L.Home c := by
  unfold Log.Home
  rw [hstart, hsize]

theorem Clean.congr (hstart : L'.start = L.start) (hsize : L'.size = L.size) :
    Clean L' H d ↔ Clean L H d := by
  constructor
  · intro h
    exact ⟨hstart ▸ h.head, fun c hc => h.home c ((Log.Home.congr hstart hsize c).mpr hc)⟩
  · intro h
    exact ⟨hstart.symm ▸ h.head, fun c hc => h.home c ((Log.Home.congr hstart hsize c).mp hc)⟩

/-- Installing an entry keeps the disk committed. -/
theorem Committed.install (hE : Entries L P T) (h : Committed L P T d) {p : Nat × Block}
    (hp : p ∈ P) : Committed L P T (writeSector d (1, p.1, p.2)) := by
  have hroom := hE.room
  have hhome := hE.home p hp
  have hstart : p.1 ≠ L.start := hhome.ne_start (by omega)
  have hd : writeSector d (1, p.1, p.2) 1 = update (d 1) p.1 p.2 :=
    setSector_apply _ _ _ _
  refine ⟨?_, ?_, ?_, ?_⟩
  · rw [hd, update_of_ne hstart.symm]
    exact h.headN
  · intro i q hq
    rw [hd, update_of_ne hstart.symm]
    exact h.headSector i q hq
  · intro i q hq
    have hi : i < P.length := (List.getElem?_eq_some_iff.mp hq).1
    rw [hd, update_of_ne (hhome.ne_body (by omega)).symm]
    exact h.body i q hq
  · intro c hc hcP
    have hne : c ≠ p.1 := by
      intro e
      exact hcP (by rw [e]; exact List.mem_map_of_mem hp)
    rw [hd, update_of_ne hne]
    exact h.rest c hc hcP

/-- Every beginning of the install loop keeps the disk committed. -/
theorem Committed.install_along (hE : Entries L P T) (Q : List (Nat × Block)) :
    ∀ d : Nat → Nat → Block,
    Committed L P T d → (∀ p ∈ Q, p ∈ P) →
    Along writeSector (Committed L P T) d (onDrive 1 Q) := by
  induction Q with
  | nil =>
    intro d h _
    exact along_nil.mpr h
  | cons p Q ih =>
    intro d h hQ
    have hp := h.install hE (hQ p List.mem_cons_self)
    exact along_cons.mpr ⟨h, ih _ hp fun q hq => hQ q (List.mem_cons_of_mem _ hq)⟩

/-- The whole install loop brings every home sector to its target. -/
theorem Committed.installed (hE : Entries L P T) (h : Committed L P T d) (c : Nat) (hc : L.Home c) :
    replay d (onDrive 1 P) 1 c = T c := by
  rw [replay_onDrive]
  by_cases hcP : c ∈ P.map Prod.fst
  · exact applyW_target P T _ hE.target c hcP
  · rw [applyW_of_not_mem _ _ _ hcP]
    exact h.rest c hc hcP

/-- Erasing the header of an installed transaction leaves a clean disk. -/
theorem Clean.erased (hsize : 0 < L.size) (h : ∀ c, L.Home c → d 1 c = T c) (b : Block)
    (sector : Nat → Nat) : Clean L T (writeSector d (1, L.start, headBlock b 0 sector)) := by
  have hd : writeSector d (1, L.start, headBlock b 0 sector) 1 =
      update (d 1) L.start (headBlock b 0 sector) := setSector_apply _ _ _ _
  refine ⟨?_, ?_⟩
  · rw [hd, update_self, headBlock_word_zero _ _ _ (by omega)]
    rfl
  · intro c hc
    rw [hd, update_of_ne (hc.ne_start hsize)]
    exact h c hc

/-! ## Recovery -/

/-- A disk from which recovery leads to `T`. -/
def Recoverable (L : Log) (P : List (Nat × Block)) (T : Nat → Block)
    (d : Nat → Nat → Block) : Prop :=
  Clean L T d ∨ (Entries L P T ∧ Committed L P T d)

/-- The state after `read_head`. -/
def State.readHead (s : State) : State :=
  { s with log := { s.log with
      n := (s.view s.log.dev s.log.start).headN
      sector := fun i => if i < (s.view s.log.dev s.log.start).headN
        then (s.view s.log.dev s.log.start).headSector i else s.log.sector i } }

theorem Recoverable.congr (h : Recoverable L' P T d) (hstart : L'.start = L.start)
    (hsize : L'.size = L.size) : Recoverable L P T d := by
  have hhome := Log.Home.congr hstart hsize
  rcases h with h | ⟨hE, h⟩
  · exact Or.inl ((Clean.congr hstart hsize).mp h)
  · refine Or.inr ⟨⟨hE.pos, hE.short, hsize ▸ hE.room, fun p hp => (hhome _).mp (hE.home p hp),
      hE.target⟩, ?_⟩
    exact ⟨hstart ▸ h.headN, fun i p hp => hstart ▸ h.headSector i p hp,
      fun i p hp => hstart ▸ h.body i p hp, fun c hc => h.rest c ((hhome c).mpr hc)⟩

/-- `recover_from_log` installs the entries of the header and erases it. -/
theorem recover_from_log_apply (hdev : s.log.dev = 1) (hn : s.readHead.log.n = P.length)
    (h : Holds s.readHead 0 P) :
    recover_from_log s = .ok () (s.readHead.writes P).noEntries.headed := by
  have hread : read_head s = .ok () s.readHead := rfl
  have hdev' : s.readHead.log.dev = 1 := hdev
  unfold recover_from_log
  rw [Exec.bind_ok hread, Exec.bind_ok (install_trans_apply hdev' hn h)]
  rfl

/-- The sector writes of a recovery from the disks `d`: the entries `P`, then the header. -/
def recoveryWrites (L : Log) (P : List (Nat × Block)) (d : Nat → Nat → Block) :
    List (Nat × Nat × Block) :=
  onDrive 1 P ++ [(1, L.start, (replay d (onDrive 1 P) 1 L.start).setWord 0 0)]

/-- Recovery after a reboot with the disks `d`, when the header names the entries `P`. -/
theorem recover_reboot (hdev : s.log.dev = 1) (hn : (d 1 s.log.start).headN = P.length)
    (hsector : ∀ i p, P[i]? = some p → (d 1 s.log.start).headSector i = p.1)
    (hbody : ∀ i p, P[i]? = some p → d 1 (s.log.start + i + 1) = p.2)
    (hhome : ∀ p ∈ P, s.log.Home p.1) (hroom : P.length < s.log.size ∨ P = []) :
    ∃ s', recover_from_log (s.reboot d) = .ok () s' ∧ s'.trace = recoveryWrites s.log P d ∧
      s'.disk = replay d (recoveryWrites s.log P d) := by
  have hview : ∀ c, (s.reboot d).view s.log.dev c = d 1 c := by
    intro c
    rw [hdev]
    rfl
  have hread : (s.reboot d).readHead.log.n = (d 1 s.log.start).headN ∧
      (s.reboot d).readHead.log.sector = fun i => if i < (d 1 s.log.start).headN
        then (d 1 s.log.start).headSector i else 0 := by
    rw [← hview s.log.start]
    exact ⟨rfl, rfl⟩
  have hholds : Holds (s.reboot d).readHead 0 P := by
    refine ⟨?_, ?_, hhome, ?_⟩
    · intro i p hp
      have hi : i < P.length := (List.getElem?_eq_some_iff.mp hp).1
      rw [hread.2, hn, Nat.zero_add]
      simp only [hi, if_true]
      exact hsector i p hp
    · intro i p hp
      rw [Nat.zero_add]
      exact hbody i p hp
    · intro i p hp
      have hi : i < P.length := (List.getElem?_eq_some_iff.mp hp).1
      have hne : P ≠ [] := List.ne_nil_of_length_pos (by omega)
      have := hroom.resolve_right hne
      show 0 + i + 1 < s.log.size
      omega
  have hhead : ((s.reboot d).readHead.writes P).noEntries.headed =
      ((s.reboot d).readHead.writes P).noEntries.written 1 s.log.start
        ((replay d (onDrive 1 P) 1 s.log.start).setWord 0 0) :=
    headed_of_clean hdev (ite_self _)
  refine ⟨_, recover_from_log_apply hdev (hread.1.trans hn) hholds, ?_, ?_⟩
  · rw [hhead]
    rfl
  · rw [hhead]
    unfold recoveryWrites
    rw [replay_append]
    rfl

/-- Recovery from a recoverable disk passes through recoverable disks only and ends clean. -/
theorem recover_along (hdev : s.log.dev = 1) (h : Recoverable s.log P T d) :
    ∃ s', recover_from_log (s.reboot d) = .ok () s' ∧ s'.disk = replay d s'.trace ∧
      Along writeSector (Recoverable s.log P T) d s'.trace ∧ Clean s.log T s'.disk := by
  rcases h with h | ⟨hE, h⟩
  · -- the header is empty: it is written back as it was
    obtain ⟨s', hrun, htrace, hdisk⟩ := recover_reboot (P := []) hdev
      (headN_of_word_zero h.head) (by simp) (by simp) (by simp) (Or.inr rfl)
    have hsame : (d 1 s.log.start).setWord 0 0 = d 1 s.log.start := by
      have := Block.setWord_same (d 1 s.log.start) 0
      rwa [h.head] at this
    have hid : writeSector d (1, s.log.start, (d 1 s.log.start).setWord 0 0) = d := by
      rw [hsame]
      funext v c
      unfold writeSector setSector
      split
      · next hvc => rw [hvc.1, hvc.2]
      · rfl
    refine ⟨s', hrun, ?_, ?_, ?_⟩
    · rw [hdisk, htrace]
    · rw [htrace]
      refine along_cons.mpr ⟨Or.inl h, along_nil.mpr (Or.inl ?_)⟩
      show Clean s.log T (writeSector d (1, s.log.start, (d 1 s.log.start).setWord 0 0))
      rw [hid]
      exact h
    · rw [hdisk]
      show Clean s.log T (writeSector d (1, s.log.start, (d 1 s.log.start).setWord 0 0))
      rw [hid]
      exact h
  · obtain ⟨s', hrun, htrace, hdisk⟩ := recover_reboot hdev h.headN h.headSector h.body
      hE.home (Or.inl hE.room)
    have hroom := hE.room
    have hclean : Clean s.log T (replay d (recoveryWrites s.log P d)) := by
      unfold recoveryWrites
      rw [replay_append]
      exact Clean.erased (by omega) (fun c hc => h.installed hE c hc) _ (fun _ => 0)
    refine ⟨s', hrun, ?_, ?_, ?_⟩
    · rw [hdisk, htrace]
    · rw [htrace]
      have hinst := h.install_along hE P d fun p hp => hp
      refine along_append.mpr ⟨hinst.mono fun x hx => Or.inr ⟨hE, hx⟩, ?_⟩
      refine along_cons.mpr ⟨Or.inr ⟨hE, hinst.last⟩, along_nil.mpr (Or.inl ?_)⟩
      exact Clean.erased (by omega) (fun c hc => h.installed hE c hc) _ (fun _ => 0)
    · rw [hdisk]
      exact hclean

/-- However often recovery is cut short, the disk stays recoverable to the same contents. -/
theorem Recovering.recoverable (hdev : s.log.dev = 1) (hr : Recovering s d d')
    (h : Recoverable s.log P T d) : Recoverable s.log P T d' := by
  induction hr with
  | start => exact h
  | stop j _ hrun ih =>
    obtain ⟨s', hrun', _, halong, _⟩ := recover_along hdev ih
    rw [hrun] at hrun'
    cases hrun'
    exact halong j

/-! ## Transactions -/

/-- `log_write` of each of `ws`, in order; a sector number is a `uint`. -/
def logWrites : List (UInt32 × Block) → K Unit
  | [] => pure ()
  | w :: ws => do
    log_write 1 w.1.toNat w.2
    logWrites ws

/-- The writes as the home sectors see them. -/
def homeWrites (ws : List (UInt32 × Block)) : List (Nat × Block) :=
  ws.map fun w => (w.1.toNat, w.2)

/-- Between transactions: nothing pending in memory, and an empty header on disk. -/
structure Idle (s : State) : Prop where
  dev : s.log.dev = 1
  busy : s.log.busy = false
  n : s.log.n = 0
  clean : ∀ c, s.dirty 1 c = none
  head : (s.disk 1 s.log.start).word 0 = 0

/-- The state after `begin_trans`. -/
def State.begun (s : State) : State := { s with log := { s.log with busy := true } }

theorem begin_trans_apply (h : s.log.busy = false) : begin_trans s = .ok () s.begun := by
  unfold begin_trans
  rw [if_neg (by simp [h])]
  rfl

/-- Between transactions nothing is logged. -/
theorem Idle.pending (h : Idle s) : Pending s [] where
  dev := h.dev
  n := h.n
  sector := by simp
  body := by simp
  dirty := by simp
  clean := fun c _ => h.clean c
  nodup := by simp
  home := by simp
  word := by simp
  room := by simp
  head := h.head

/-- The pending writes do not depend on who holds the transaction. -/
theorem Pending.setBusy (h : Pending s P) (v : Bool) :
    Pending { s with log := { s.log with busy := v } } P :=
  ⟨h.dev, h.n, h.sector, h.body, h.dirty, h.clean, h.nodup, h.home, h.word, h.room, h.head⟩

/-- A transaction just begun has logged nothing. -/
theorem Idle.begun (h : Idle s) : Pending s.begun [] := h.pending.setBusy true

/-- From `s` to `s'` sector writes were made to the log body only: on the way every disk is
    clean with the home contents of `s`. -/
structure Logging (s s' : State) (k : Nat) : Prop where
  start : s'.log.start = s.log.start
  size : s'.log.size = s.log.size
  busy : s'.log.busy = s.log.busy
  trace : ∃ t, t.length = k ∧ s'.trace = s.trace ++ t ∧ s'.disk = replay s.disk t ∧
    ∀ H, Clean s.log H s.disk → Along writeSector (Clean s.log H) s.disk t

theorem Logging.refl (s : State) : Logging s s 0 :=
  ⟨rfl, rfl, rfl, [], rfl, (List.append_nil _).symm, rfl, fun _ h => along_nil.mpr h⟩

theorem Logging.trans {s s' s'' : State} {k k' : Nat} (h : Logging s s' k)
    (h' : Logging s' s'' k') : Logging s s'' (k + k') := by
  obtain ⟨t, hlen, htrace, hdisk, halong⟩ := h.trace
  obtain ⟨t', hlen', htrace', hdisk', halong'⟩ := h'.trace
  refine ⟨h'.start.trans h.start, h'.size.trans h.size, h'.busy.trans h.busy, t ++ t', ?_, ?_, ?_,
    ?_⟩
  · rw [List.length_append, hlen, hlen']
  · rw [htrace', htrace, List.append_assoc]
  · rw [hdisk', hdisk, replay_append]
  · intro H hH
    have hfirst := halong H hH
    have hmid : Clean s'.log H s'.disk := by
      rw [Clean.congr h.start h.size, hdisk]
      exact hfirst.last
    refine along_append.mpr ⟨hfirst, ?_⟩
    have hsecond := halong' H hmid
    rw [hdisk] at hsecond
    exact hsecond.mono fun x hx => (Clean.congr h.start h.size).mp hx

/-- A write behind the header and inside the log region keeps the disk clean. -/
theorem Clean.body (h : Clean L H d) (i : Nat) (hi : i + 1 < L.size) (b : Block) :
    Clean L H (writeSector d (1, L.start + i + 1, b)) := by
  have hd : writeSector d (1, L.start + i + 1, b) 1 =
      update (d 1) (L.start + i + 1) b := setSector_apply _ _ _ _
  refine ⟨?_, ?_⟩
  · rw [hd, update_of_ne (by omega)]
    exact h.head
  · intro c hc
    rw [hd, update_of_ne (hc.ne_body hi)]
    exact h.home c hc

/-- A `log_write` that returns is one sector write to the log body. -/
theorem log_write_logging (h : Pending s P) {sec : Nat} {b : Block} (hhome : s.log.Home sec)
    (hword : sec < 4294967296) (hrun : log_write 1 sec b s = .ok () s') :
    s' = s.logged 1 sec b ∧ Pending s' (absorb P sec b) ∧ Logging s s' 1 := by
  rw [log_write_apply] at hrun
  split at hrun
  · cases hrun
  · next hfull =>
    split at hrun
    · cases hrun
    · split at hrun <;> cases hrun
      rw [not_or, h.n] at hfull
      have hslot := absorbSlot_le s.log sec
      rw [h.n] at hslot
      refine ⟨rfl, h.logged b (by omega) hhome hword, rfl, rfl, rfl, _, rfl, rfl, rfl, ?_⟩
      intro H hH
      exact along_cons.mpr ⟨hH, along_nil.mpr (hH.body _ (by omega) b)⟩

/-- A run of `log_write`s: one sector write each, all of them pending at its end. -/
theorem logWrites_logging (ws : List (UInt32 × Block)) : ∀ (s s' : State)
    (P : List (Nat × Block)), Pending s P → (∀ w ∈ ws, s.log.Home w.1.toNat) →
    logWrites ws s = .ok () s' → Logging s s' ws.length ∧ ∃ P', Pending s' P' ∧
      ∀ H, applyW P' H = applyW (homeWrites ws) (applyW P H) := by
  induction ws with
  | nil =>
    intro s s' P hP _ hrun
    cases hrun
    exact ⟨Logging.refl s, P, hP, fun _ => rfl⟩
  | cons w ws ih =>
    intro s s' P hP hhome hrun
    obtain ⟨_, s1, hrun1, hrun2⟩ := Exec.bind_eq_ok.mp hrun
    obtain ⟨_, hP1, hlog1⟩ := log_write_logging hP (hhome w List.mem_cons_self)
      w.1.toNat_lt hrun1
    have hhome1 : ∀ v ∈ ws, s1.log.Home v.1.toNat := by
      intro v hv
      have := hhome v (List.mem_cons_of_mem _ hv)
      unfold Log.Home at this ⊢
      rw [hlog1.start, hlog1.size]
      exact this
    obtain ⟨hlog2, P', hP', happ⟩ := ih s1 s' _ hP1 hhome1 hrun2
    refine ⟨?_, P', hP', ?_⟩
    · rw [List.length_cons, Nat.add_comm]
      exact hlog1.trans hlog2
    · intro H
      rw [happ, applyW_absorb _ _ _ _ hP.nodup]
      rfl

/-- The header sector at the commit point. -/
def commitHead (s : State) : Block :=
  headBlock (s.disk 1 s.log.start) s.log.n s.log.sector

/-- The sector writes of `commit_trans` behind its first header write. -/
def installWrites (s : State) (P : List (Nat × Block)) : List (Nat × Nat × Block) :=
  onDrive 1 P ++ [(1, s.log.start,
    (replay (writeSector s.disk (1, s.log.start, commitHead s)) (onDrive 1 P) 1 s.log.start).setWord
      0 0)]

/-- The header write that commits. -/
theorem Pending.headed_eq (h : Pending s P) (hP : P ≠ []) :
    s.headed = s.written 1 s.log.start (commitHead s) := by
  apply headed_of_clean h.dev
  apply h.clean
  rw [List.mem_map]
  rintro ⟨p, hp, he⟩
  have := h.room
  have := List.length_pos_iff.mpr hP
  exact (h.home p hp).ne_start (by omega) he

/-- The writes and the end of a commit. -/
theorem commit_trans_trace (h : Pending s P) (hP : P ≠ []) : ∃ s', commit_trans s = .ok () s' ∧
      s'.trace = s.trace ++ (1, s.log.start, commitHead s) :: installWrites s P ∧
      s'.disk = replay s.disk ((1, s.log.start, commitHead s) :: installWrites s P) := by
  have hhead := h.headed_eq hP
  have hhead2 : (s.headed.writes P).noEntries.headed =
      (s.headed.writes P).noEntries.written 1 s.log.start
        ((replay s.headed.disk (onDrive 1 P) 1 s.log.start).setWord 0 0) := by
    have hdirty : (s.headed.writes P).noEntries.dirty 1 s.log.start = none := by
      show (if _ then none else s.headed.dirty 1 s.log.start) = none
      rw [hhead]
      simp [State.written]
    exact headed_of_clean h.dev hdirty
  refine ⟨_, commit_trans_apply h hP, ?_, ?_⟩
  · rw [hhead2, hhead]
    show ((s.trace ++ [_]) ++ onDrive 1 P) ++ [_] = _
    rw [List.append_assoc, List.append_assoc]
    rfl
  · rw [hhead2, hhead]
    show setSector (replay _ (onDrive 1 P)) 1 _ _ = replay _ (onDrive 1 P ++ [_])
    rw [replay_append]
    rfl

theorem commit_trans_ok (h : Pending s P) : ∃ s', commit_trans s = .ok () s' := by
  by_cases hP : P = []
  · subst hP
    exact ⟨_, commit_trans_empty h.n⟩
  · obtain ⟨s', hrun, _⟩ := commit_trans_trace h hP
    exact ⟨s', hrun⟩

theorem Pending.entries (h : Pending s P) (hP : P ≠ []) :
    Entries s.log P (applyW P (s.disk 1)) := by
  have hroom := h.room
  have hpos := List.length_pos_iff.mpr hP
  exact ⟨hP, hroom.1, by omega, h.home, fun p hp => applyW_of_nodup P _ h.nodup p hp⟩

/-- The first header write commits the pending entries. -/
theorem Pending.committed (h : Pending s P) (hP : P ≠ []) : Committed s.log P (applyW P (s.disk 1))
      (writeSector s.disk (1, s.log.start, commitHead s)) := by
  have hroom := h.room
  have hpos := List.length_pos_iff.mpr hP
  have hd : writeSector s.disk (1, s.log.start, commitHead s) 1 =
      update (s.disk 1) s.log.start (commitHead s) := setSector_apply _ _ _ _
  refine ⟨?_, ?_, ?_, ?_⟩
  · rw [hd, update_self]
    unfold commitHead
    rw [headBlock_headN _ _ _ (by rw [h.n]; omega), h.n]
  · intro i p hp
    have hi : i < P.length := (List.getElem?_eq_some_iff.mp hp).1
    have hs := h.sector i p hp
    have hw := h.word p (List.mem_of_getElem? hp)
    rw [hd, update_self]
    unfold commitHead
    rw [headBlock_headSector _ _ _ (by rw [h.n]; omega) _ (by rw [h.n]; omega)
      (by rw [hs]; exact hw), hs]
  · intro i p hp
    rw [hd, update_of_ne (by omega)]
    exact h.body i p hp
  · intro c hc hcP
    rw [hd, update_of_ne (hc.ne_start (by omega)), applyW_of_not_mem _ _ _ hcP]

/-- A commit ends clean. -/
theorem commit_clean (h : Pending s P) (hP : P ≠ []) : Clean s.log (applyW P (s.disk 1))
      (replay (writeSector s.disk (1, s.log.start, commitHead s)) (installWrites s P)) := by
  have hroom := h.room
  have hpos := List.length_pos_iff.mpr hP
  unfold installWrites
  rw [replay_append]
  exact Clean.erased (by omega)
    (fun c hc => (h.committed hP).installed (h.entries hP) c hc) _ (fun _ => 0)

/-- Behind its first header write a commit passes through committed disks and ends clean. -/
theorem commit_along (h : Pending s P) (hP : P ≠ []) :
    Along writeSector (Recoverable s.log P (applyW P (s.disk 1)))
      (writeSector s.disk (1, s.log.start, commitHead s)) (installWrites s P) := by
  have hE := h.entries hP
  have hinst := (h.committed hP).install_along hE P _ fun p hp => hp
  have hend := commit_clean h hP
  unfold installWrites at hend ⊢
  rw [replay_append] at hend
  refine along_append.mpr ⟨hinst.mono fun x hx => Or.inr ⟨hE, hx⟩, ?_⟩
  exact along_cons.mpr ⟨Or.inr ⟨hE, hinst.last⟩, along_nil.mpr (Or.inl hend)⟩

/-- The disk after the first `j` sector writes made between `s` and `s'`. -/
def stopped (s s' : State) (j : Nat) : Nat → Nat → Block :=
  replay s.disk ((s'.trace.drop s.trace.length).take j)

/-- A commit that runs after the log writes `t`: wherever the machine stops, the disk leads
    back to the old home contents, or behind the first header write to the new ones. -/
theorem stopped_recoverable {s sm s' : State} {k : Nat} (hlogging : Logging s sm k)
    (hclean : (s.disk 1 s.log.start).word 0 = 0) (hP : Pending sm P)
    (hcommit : commit_trans sm = .ok () s') (j : Nat) :
    Recoverable s.log P (if k < j then applyW P (sm.disk 1) else s.disk 1) (stopped s s' j) := by
  obtain ⟨t, hlen, htrace, hdisk, halong⟩ := hlogging.trace
  have hbefore := halong (s.disk 1) ⟨hclean, fun _ _ => rfl⟩
  have hsm : Clean s.log (s.disk 1) sm.disk := hdisk ▸ hbefore.last
  by_cases hPe : P = []
  · -- nothing was logged
    subst hPe
    rw [commit_trans_empty hP.n] at hcommit
    cases hcommit
    have hstop : stopped s sm.notBusy j = replay s.disk (t.take j) := by
      unfold stopped
      show replay s.disk ((sm.trace.drop s.trace.length).take j) = _
      rw [htrace, List.drop_left]
    rw [hstop]
    left
    have hj := hbefore j
    split
    · exact ⟨hj.head, fun c hc => (hj.home c hc).trans (hsm.home c hc).symm⟩
    · exact hj
  · obtain ⟨s1, hrun, htrace', -⟩ := commit_trans_trace hP hPe
    rw [hrun] at hcommit
    obtain rfl : s1 = s' := by
      cases hcommit
      rfl
    have hdrop : s1.trace.drop s.trace.length =
        t ++ (1, sm.log.start, commitHead sm) :: installWrites sm P := by
      rw [htrace', htrace, List.append_assoc, List.drop_left]
    unfold stopped
    rw [hdrop]
    split
    · next hj =>
      -- the stop is behind the header write
      obtain ⟨i, rfl⟩ : ∃ i, j = t.length + (i + 1) := ⟨j - t.length - 1, by omega⟩
      have hc := commit_along hP hPe i
      rw [List.take_length_add_append, List.take_succ_cons, replay_append, ← hdisk]
      exact hc.congr hlogging.start hlogging.size
    · next hj =>
      rw [List.take_append_of_le_length (by omega)]
      exact Or.inl (hbefore j)

/-- A transaction is atomic: wherever the machine stops, and however often recovery is cut
    short, a complete recovery leaves the home sectors as they were, or with every logged
    sector replaced by its last logged data, the latter exactly when the stop came after the
    first header write of `commit_trans`; and the header is empty again. -/
theorem crash_atomicity (s sm s' : State) (ws : List (UInt32 × Block)) (hidle : Idle s)
    (hhome : ∀ w ∈ ws, s.log.Home w.1.toNat)
    (hlog : (begin_trans >>= fun _ => logWrites ws) s = .ok () sm)
    (hcommit : commit_trans sm = .ok () s') (j : Nat) (d : Nat → Nat → Block)
    (hrec : Recovering s (stopped s s' j) d) :
    ∃ s2, recover_from_log (s.reboot d) = .ok () s2 ∧ (s2.disk 1 s.log.start).word 0 = 0 ∧
      ∀ c, s.log.Home c → s2.disk 1 c =
        if sm.trace.length < s.trace.length + j then applyW (homeWrites ws) (s.disk 1) c
        else s.disk 1 c := by
  rw [Exec.bind_ok (begin_trans_apply hidle.busy)] at hlog
  obtain ⟨hlogging, P, hP, happ⟩ := logWrites_logging ws _ _ _ hidle.begun hhome hlog
  have hbegun := stopped_recoverable hlogging hidle.head hP hcommit j
  have hstop : Recoverable s.log P (if ws.length < j then applyW P (sm.disk 1) else s.disk 1)
      (stopped s s' j) := hbegun.congr rfl rfl
  obtain ⟨s2, hrun, _, _, hclean⟩ := recover_along hidle.dev
    (hrec.recoverable hidle.dev hstop)
  obtain ⟨t, hlen, htrace, hdisk, halong⟩ := hlogging.trace
  have hsm : ∀ c, s.log.Home c → sm.disk 1 c = s.begun.disk 1 c := by
    intro c hc
    have := (halong (s.disk 1) ⟨hidle.head, fun _ _ => rfl⟩).last
    rw [hdisk]
    exact this.home c hc
  have hcount : sm.trace.length = s.trace.length + ws.length := by
    rw [htrace, List.length_append, hlen]
    rfl
  refine ⟨s2, hrun, hclean.head, ?_⟩
  intro c hc
  rw [hclean.home c hc, hcount]
  by_cases hj : ws.length < j
  · rw [if_pos hj, if_pos (by omega), applyW_congr P (hsm c hc), happ]
    rfl
  · rw [if_neg hj, if_neg (by omega)]

/-- A log of 20 sectors from sector 40 on, between transactions. -/
def idleLog : Log :=
  { start := 40, size := 20, busy := false, dev := 1, n := 0, sector := fun _ => 0 }

/-- A sector of equal bytes. -/
def Block.fill (x : UInt8) : Block := ⟨fun _ => x⟩

/-- Three writes, two of them to sector 5. -/
def threeWrites : List (UInt32 × Block) := [(5, Block.fill 1), (7, Block.fill 2), (5, Block.fill 3)]

/-- A stop after the fourth sector write finds the three writes committed. -/
theorem crash_atomicity_absorbed :
    ∃ sm s', (begin_trans >>= fun _ => logWrites threeWrites) (State.blank idleLog) =
        .ok () sm ∧ commit_trans sm = .ok () s' ∧ sm.trace.length = 3 ∧
      ∃ s2, recover_from_log ((State.blank idleLog).reboot (stopped (State.blank idleLog) s' 4)) =
        .ok () s2 ∧ s2.disk 1 5 = Block.fill 3 ∧ s2.disk 1 7 = Block.fill 2 := by
  have hidle : Idle (State.blank idleLog) := ⟨rfl, rfl, rfl, fun _ => rfl, Block.word_zero 0⟩
  have hhome : ∀ w ∈ threeWrites, idleLog.Home w.1.toNat := by
    intro w hw
    simp only [threeWrites, List.mem_cons, List.not_mem_nil, or_false] at hw
    rcases hw with rfl | rfl | rfl <;> exact Or.inl (by decide)
  have hrun : logWrites threeWrites (State.blank idleLog).begun = .ok ()
      ((((State.blank idleLog).begun.logged 1 5 (Block.fill 1)).logged 1 7 (Block.fill 2)).logged
        1 5 (Block.fill 3)) := rfl
  have hlog := (Exec.bind_ok (begin_trans_apply hidle.busy) fun _ =>
    logWrites threeWrites).trans hrun
  obtain ⟨hlogging, P, hP, -⟩ := logWrites_logging _ _ _ _ hidle.begun hhome hrun
  obtain ⟨t, hlen, htrace, -⟩ := hlogging.trace
  obtain ⟨s', hcommit⟩ := commit_trans_ok hP
  obtain ⟨s2, hrec, _, hdisk⟩ := crash_atomicity _ _ s' _ hidle hhome hlog hcommit 4 _ .start
  refine ⟨_, s', hlog, hcommit, ?_, s2, hrec, ?_, ?_⟩
  · rw [htrace, List.length_append, hlen]
    rfl
  · rw [hdisk 5 (Or.inl (by decide))]
    rfl
  · rw [hdisk 7 (Or.inl (by decide))]
    rfl

end Zv6
