/-
  What the log functions do to the state, as equations.

  `State.written` and `State.logged` are the states after `bwrite` and `log_write`;
  `State.headed` the one after `write_head`. `State.writes` makes a list of sector writes,
  and `install_trans` is one of those (`install_trans_apply`).

  `Pending s P`: the transaction of `s` has logged the writes `P`. It ties the three places
  the log is kept in: the in-memory header, the log body on disk, and the dirty buffers.
  `Pending.logged` is the step, `Pending.commit` the end of the transaction.
-/
import Zv6.Lib.Redo
import Zv6.Model.Log

namespace Zv6

open Lib Function

/-! ## Sector writes -/

variable {P : List (Nat × Block)} {s s' : State} {L : Log}

/-- The disks after one sector write (drive, sector, data). -/
def writeSector (d : Nat → Nat → Block) (w : Nat × Nat × Block) : Nat → Nat → Block :=
  setSector d w.1 w.2.1 w.2.2

/-- The disks after the sector writes `t`. -/
def replay (d : Nat → Nat → Block) (t : List (Nat × Nat × Block)) : Nat → Nat → Block :=
  t.foldl writeSector d

theorem replay_append (d : Nat → Nat → Block) (t u : List (Nat × Nat × Block)) :
    replay d (t ++ u) = replay (replay d t) u := by
  unfold replay
  rw [List.foldl_append]

/-- Writes `ws` to drive `dv`, as they appear in a trace. -/
def onDrive (dv : Nat) (ws : List (Nat × Block)) : List (Nat × Nat × Block) :=
  ws.map fun w => (dv, w.1, w.2)

theorem setSector_apply (d : Nat → Nat → Block) (dv sec : Nat) (b : Block) :
    setSector d dv sec b dv = update (d dv) sec b := by
  funext c
  unfold setSector
  by_cases h : c = sec
  · subst h
    rw [if_pos ⟨rfl, rfl⟩, update_self]
  · rw [if_neg (fun e => h e.2), update_of_ne h]

/-- On its own drive a write list is a write list. -/
theorem replay_onDrive (d : Nat → Nat → Block) (dv : Nat) (ws : List (Nat × Block)) :
    replay d (onDrive dv ws) dv = applyW ws (d dv) := by
  induction ws generalizing d with
  | nil => rfl
  | cons w ws ih =>
    have h : replay d (onDrive dv (w :: ws)) = replay (writeSector d (dv, w.1, w.2))
        (onDrive dv ws) := rfl
    rw [h, ih, applyW_cons]
    unfold writeSector
    rw [setSector_apply]

/-- The state after `bwrite`. -/
def State.written (s : State) (dev sec : Nat) (b : Block) : State :=
  { s with
    disk := setSector s.disk (dev % 2) sec b
    dirty := fun v c => if v = dev ∧ c = sec then none else s.dirty v c
    trace := s.trace ++ [(dev % 2, sec, b)] }

theorem bread_apply (dev sec : Nat) (s : State) :
    bread dev sec s = .ok (s.view dev sec) s := rfl

theorem view_of_clean {dev sec : Nat} (h : s.dirty dev sec = none) :
    s.view dev sec = s.disk (dev % 2) sec := by
  unfold State.view
  rw [h]

theorem view_of_dirty {dev sec : Nat} {b : Block} (h : s.dirty dev sec = some b) :
    s.view dev sec = b := by
  unfold State.view
  rw [h]

/-- The state after `bwrite`s of `ws` to device 1. -/
def State.writes (s : State) (ws : List (Nat × Block)) : State :=
  { s with
    disk := replay s.disk (onDrive 1 ws)
    dirty := fun v c => if v = 1 ∧ c ∈ ws.map Prod.fst then none else s.dirty v c
    trace := s.trace ++ onDrive 1 ws }

theorem writes_nil (s : State) : s.writes [] = s := by
  unfold State.writes
  simp [onDrive, replay]

theorem written_writes (s : State) (w : Nat × Block) (ws : List (Nat × Block)) :
    (s.written 1 w.1 w.2).writes ws = s.writes (w :: ws) := by
  unfold State.writes State.written
  congr 1
  · funext v c
    simp only [List.map_cons, List.mem_cons]
    by_cases h1 : v = 1 <;> by_cases h2 : c = w.1 <;> by_cases h3 : c ∈ ws.map Prod.fst <;>
      simp [h1, h2, h3]
  · simp [onDrive]

/-! ## The log region -/

/-- Sector `c` lies outside the log region. -/
def Log.Home (L : Log) (c : Nat) : Prop := c < L.start ∨ L.start + L.size ≤ c

instance (L : Log) (c : Nat) : Decidable (L.Home c) := inferInstanceAs (Decidable (_ ∨ _))

theorem Log.Home.ne_body {c i : Nat} (h : L.Home c) (hi : i + 1 < L.size) :
    c ≠ L.start + i + 1 := by
  unfold Log.Home at h
  omega

/-- A sector outside the log is not the slot it gets. -/
theorem Log.Home.ne_slot {c : Nat} (h : L.Home c) (hn : L.n < L.size - 1) :
    c ≠ L.start + absorbSlot L c + 1 :=
  h.ne_body (by have := absorbSlot_le L c; omega)

theorem Log.Home.ne_start {c : Nat} (h : L.Home c) (hs : 0 < L.size) : c ≠ L.start := by
  unfold Log.Home at h
  omega

/-! ## The header sector -/

theorem headBlock_succ (b : Block) (n : Nat) (sector : Nat → Nat) :
    (List.range (n + 1)).foldl (fun c i => c.setWord (1 + i) (UInt32.ofNat (sector i))) b =
      ((List.range n).foldl (fun c i => c.setWord (1 + i) (UInt32.ofNat (sector i))) b).setWord
        (1 + n) (UInt32.ofNat (sector n)) := by
  rw [List.range_succ, List.foldl_append]
  rfl

/-- The sector numbers `write_head` stores, and what it leaves alone. -/
theorem word_headFold (b : Block) (n : Nat) (sector : Nat → Nat) (hn : n < 127) (j : Nat) :
    ((List.range n).foldl (fun c i => c.setWord (1 + i) (UInt32.ofNat (sector i))) b).word j =
      if 1 ≤ j ∧ j ≤ n then UInt32.ofNat (sector (j - 1)) else b.word j := by
  induction n with
  | zero => rw [if_neg (by omega)]; rfl
  | succ n ih =>
    rw [headBlock_succ]
    by_cases hj : j = 1 + n
    · subst hj
      rw [Block.word_setWord _ _ _ (by omega), if_pos (by omega), Nat.add_sub_cancel_left]
    · rw [Block.word_setWord_ne _ _ _ _ hj, ih (by omega)]
      by_cases h : 1 ≤ j ∧ j ≤ n
      · rw [if_pos h, if_pos (by omega)]
      · rw [if_neg h, if_neg (by omega)]

theorem headBlock_word_zero (b : Block) (n : Nat) (sector : Nat → Nat) (hn : n < 127) :
    (headBlock b n sector).word 0 = UInt32.ofNat n := by
  unfold headBlock
  rw [word_headFold _ _ _ hn, if_neg (by omega), Block.word_setWord _ _ _ (by omega)]

theorem headBlock_headN (b : Block) (n : Nat) (sector : Nat → Nat) (hn : n < 127) :
    (headBlock b n sector).headN = n := by
  unfold Block.headN
  have : (UInt32.ofNat n).toNat = n := by
    rw [UInt32.toNat_ofNat']
    exact Nat.mod_eq_of_lt (by omega)
  rw [headBlock_word_zero _ _ _ hn, this, if_pos (by omega)]

theorem headBlock_headSector (b : Block) (n : Nat) (sector : Nat → Nat) (hn : n < 127) (i : Nat)
    (hi : i < n) (hs : sector i < 4294967296) : (headBlock b n sector).headSector i = sector i := by
  unfold Block.headSector headBlock
  rw [word_headFold _ _ _ hn, if_pos (by omega), Nat.add_sub_cancel_left, UInt32.toNat_ofNat']
  exact Nat.mod_eq_of_lt hs

theorem headN_of_word_zero {b : Block} (h : b.word 0 = 0) : b.headN = 0 := by
  unfold Block.headN
  rw [h]
  rfl

/-- The state after `write_head`. -/
def State.headed (s : State) : State :=
  s.written s.log.dev s.log.start
    (headBlock (s.view s.log.dev s.log.start) s.log.n s.log.sector)

theorem headed_of_clean (hdev : s.log.dev = 1) (hclean : s.dirty 1 s.log.start = none) :
    s.headed = s.written 1 s.log.start
      (headBlock (s.disk 1 s.log.start) s.log.n s.log.sector) := by
  unfold State.headed
  rw [hdev, view_of_clean hclean]

theorem write_head_apply (s : State) : write_head s = .ok () s.headed := rfl

/-! ## Installing -/

/-- The in-memory header and the log body hold the entries `Q` from slot `t` on. -/
structure Holds (s : State) (t : Nat) (Q : List (Nat × Block)) : Prop where
  sector : ∀ i p, Q[i]? = some p → s.log.sector (t + i) = p.1
  body : ∀ i p, Q[i]? = some p → s.view 1 (s.log.start + (t + i) + 1) = p.2
  home : ∀ p ∈ Q, s.log.Home p.1
  room : ∀ i p, Q[i]? = some p → t + i + 1 < s.log.size

/-- Installing one entry leaves the entries behind it in the log. -/
theorem Holds.tail {t : Nat} {p : Nat × Block} {Q : List (Nat × Block)} (h : Holds s t (p :: Q)) :
    Holds (s.written 1 p.1 p.2) (t + 1) Q := by
  refine ⟨?_, ?_, ?_, ?_⟩
  · intro i q hq
    rw [Nat.add_assoc, Nat.add_comm 1 i]
    exact h.sector (i + 1) q hq
  · intro i q hq
    have hroom := h.room (i + 1) q hq
    have hbody := h.body (i + 1) q hq
    have hne : p.1 ≠ s.log.start + (t + (i + 1)) + 1 :=
      (h.home p List.mem_cons_self).ne_body (by omega)
    have hidx : s.log.start + (t + 1 + i) + 1 = s.log.start + (t + (i + 1)) + 1 := by omega
    unfold State.view at hbody ⊢
    simp only [State.written, setSector]
    rw [hidx, if_neg (fun e => hne e.2.symm), if_neg (fun e => hne e.2.symm)]
    exact hbody
  · intro q hq
    exact h.home q (List.mem_cons_of_mem _ hq)
  · intro i q hq
    have hroom := h.room (i + 1) q hq
    show t + 1 + i + 1 < s.log.size
    omega

theorem installLoop_apply (Q : List (Nat × Block)) : ∀ (s : State) (t : Nat),
    s.log.dev = 1 → Holds s t Q → installLoop Q.length t s = .ok () (s.writes Q) := by
  induction Q with
  | nil =>
    intro s t _ _
    rw [writes_nil]
    rfl
  | cons p Q ih =>
    intro s t hdev h
    have hs : s.log.sector t = p.1 := h.sector 0 p rfl
    have hb : s.view 1 (s.log.start + t + 1) = p.2 := h.body 0 p rfl
    have hstep : installLoop (Q.length + 1) t s =
        installLoop Q.length (t + 1) (s.written s.log.dev (s.log.sector t)
          (s.view s.log.dev (s.log.start + t + 1))) := rfl
    have hdev' : (s.written 1 p.1 p.2).log.dev = 1 := hdev
    rw [List.length_cons, hstep, hdev, hs, hb, ih _ _ hdev' h.tail, written_writes]

theorem install_trans_apply (hdev : s.log.dev = 1) (hn : s.log.n = P.length) (h : Holds s 0 P) :
    install_trans s = .ok () (s.writes P) := by
  have : install_trans s = installLoop s.log.n 0 s := rfl
  rw [this, hn, installLoop_apply P s 0 hdev h]

/-! ## Logging -/

/-- The state after `log_write`. -/
def State.logged (s : State) (dev sec : Nat) (b : Block) : State :=
  let i := absorbSlot s.log sec
  { s with
    disk := setSector s.disk (dev % 2) (s.log.start + i + 1) b
    dirty := fun v c => if v = dev ∧ c = sec then some b
      else if v = dev ∧ c = s.log.start + i + 1 then none else s.dirty v c
    trace := s.trace ++ [(dev % 2, s.log.start + i + 1, b)]
    log := { s.log with
      n := if i = s.log.n then s.log.n + 1 else s.log.n
      sector := fun j => if j = i then sec else s.log.sector j } }

/-- The state in which `log_write` has assigned a slot to its sector. -/
def State.slotted (s : State) (sec : Nat) : State :=
  { s with log := { s.log with
    sector := fun j => if j = absorbSlot s.log sec then sec else s.log.sector j } }

/-- `log_write` panics when the log is full or no transaction is open, sleeps for good on a sector
    that is its own slot, and logs otherwise. -/
theorem log_write_apply (dev sec : Nat) (b : Block) (s : State) :
    log_write dev sec b s =
      if 20 ≤ s.log.n ∨ s.log.size - 1 ≤ s.log.n then .panic "too big a transaction" s
      else if s.log.busy = false then .panic "write outside of trans" s
      else if sec = s.log.start + absorbSlot s.log sec + 1 then
        .blocked (.buf dev sec) (s.slotted sec)
      else .ok () (s.logged dev sec b) := by
  unfold log_write
  rw [Exec.gets_bind]
  by_cases hfull : 20 ≤ s.log.n ∨ s.log.size - 1 ≤ s.log.n
  · rw [if_pos hfull, if_pos hfull]
    rfl
  · rw [if_neg hfull, if_neg hfull]
    by_cases hb : s.log.busy = false
    · rw [if_pos (by simp [hb]), if_pos hb]
      rfl
    · rw [if_neg (by simp [hb]), if_neg hb, Exec.modify_bind]
      by_cases hself : sec = s.log.start + absorbSlot s.log sec + 1
      · rw [if_pos hself, if_pos hself]
        rfl
      · rw [if_neg hself, if_neg hself]
        by_cases hi : absorbSlot s.log sec = s.log.n
        · rw [Exec.when_pos hi]
          unfold State.logged
          simp only [hi, if_true]
          rfl
        · rw [Exec.when_neg hi]
          unfold State.logged
          simp only [hi, if_false]
          rfl

/-- The transaction open in `s` has logged the writes `P`. -/
structure Pending (s : State) (P : List (Nat × Block)) : Prop where
  dev : s.log.dev = 1
  n : s.log.n = P.length
  sector : ∀ i p, P[i]? = some p → s.log.sector i = p.1
  body : ∀ i p, P[i]? = some p → s.disk 1 (s.log.start + i + 1) = p.2
  dirty : ∀ p ∈ P, s.dirty 1 p.1 = some p.2
  clean : ∀ c, c ∉ P.map Prod.fst → s.dirty 1 c = none
  nodup : (P.map Prod.fst).Nodup
  home : ∀ p ∈ P, s.log.Home p.1
  word : ∀ p ∈ P, p.1 < 4294967296
  room : P.length ≤ 20 ∧ P.length ≤ s.log.size - 1
  head : (s.disk 1 s.log.start).word 0 = 0

/-- `log_write` takes the slot the pending entries give to its sector. -/
theorem absorbSlot_eq (hn : L.n = P.length) (hsec : ∀ i p, P[i]? = some p → L.sector i = p.1)
    (sec : Nat) : absorbSlot L sec = slotOf P sec := by
  have hget : ∀ i (h : i < P.length), L.sector i = P[i].1 := fun i h =>
    hsec i _ (List.getElem?_eq_getElem h)
  unfold absorbSlot
  cases hf : (List.range L.n).find? fun i => decide (L.sector i = sec) with
  | none =>
    -- no entry names the sector
    rw [List.find?_eq_none] at hf
    rw [Option.getD_none, hn, eq_comm, slotOf_eq_length_iff, List.mem_map]
    rintro ⟨p, hp, rfl⟩
    obtain ⟨i, hi, rfl⟩ := List.mem_iff_getElem.mp hp
    exact hf i (by rw [List.mem_range, hn]; exact hi) (by simp [hget i hi])
  | some i =>
    rw [List.find?_range_eq_some] at hf
    obtain ⟨hi, hmem, hbefore⟩ := hf
    rw [List.mem_range, hn] at hmem
    rw [Option.getD_some, eq_comm]
    refine (List.findIdx_eq hmem).mpr ⟨?_, ?_⟩
    · rw [← hget i hmem]
      exact hi
    · intro j hj
      have := hbefore j hj
      rw [hget j (by omega)] at this
      simpa using this

/-- Sector `c` after a `log_write`, seen through the buffer cache. -/
theorem view_logged (s : State) (sec : Nat) (b : Block) (c : Nat)
    (hc : c ≠ s.log.start + absorbSlot s.log sec + 1) :
    (s.logged 1 sec b).view 1 c = if c = sec then b else s.view 1 c := by
  unfold State.view State.logged
  by_cases h : c = sec
  · simp [h]
  · simp [h, hc, setSector]

/-- A logged write joins the pending ones. -/
theorem Pending.logged (h : Pending s P) {sec : Nat} (b : Block)
    (hroom : P.length < 20 ∧ P.length < s.log.size - 1) (hhome : s.log.Home sec)
    (hword : sec < 4294967296) : Pending (s.logged 1 sec b) (absorb P sec b) := by
  have hslot : absorbSlot s.log sec = slotOf P sec := absorbSlot_eq h.n h.sector sec
  have hle : slotOf P sec ≤ P.length := slotOf_le P sec
  have hlen := length_absorb P sec b
  have hmem : ∀ p ∈ absorb P sec b, s.log.Home p.1 ∧ p.1 < 4294967296 := by
    intro p hp
    rcases mem_absorb hp with rfl | hp
    · exact ⟨hhome, hword⟩
    · exact ⟨h.home p hp, h.word p hp⟩
  have hget := getElem?_absorb P sec b
  have hnd := nodup_absorb P sec b h.nodup
  refine { dev := h.dev, n := ?_, sector := ?_, body := ?_, dirty := ?_, clean := ?_,
           nodup := hnd, home := fun p hp => (hmem p hp).1,
           word := fun p hp => (hmem p hp).2, room := ?_, head := ?_ }
  · show (if absorbSlot s.log sec = s.log.n then s.log.n + 1 else s.log.n) = _
    rw [hlen, hslot, h.n]
  · intro i p hp
    show (if i = absorbSlot s.log sec then sec else s.log.sector i) = p.1
    rw [hget] at hp
    rw [hslot]
    split at hp
    · next hi =>
      rw [if_pos hi]
      cases hp
      rfl
    · next hi =>
      rw [if_neg hi]
      exact h.sector i p hp
  · intro i p hp
    show setSector s.disk 1 (s.log.start + absorbSlot s.log sec + 1) b 1 (s.log.start + i + 1) = p.2
    rw [hget] at hp
    rw [hslot, setSector_apply]
    split at hp
    · next hi =>
      rw [hi, update_self]
      cases hp
      rfl
    · next hi =>
      rw [update_of_ne (by omega)]
      exact h.body i p hp
  · intro p hp
    have hp' := applyW_of_nodup _ (fun _ => b) hnd p hp
    show (if (1 : Nat) = 1 ∧ p.1 = sec then some b
      else if (1 : Nat) = 1 ∧ p.1 = s.log.start + absorbSlot s.log sec + 1 then none
      else s.dirty 1 p.1) = some p.2
    rw [applyW_absorb _ _ _ _ h.nodup] at hp'
    by_cases hps : p.1 = sec
    · rw [hps, update_self] at hp'
      rw [if_pos ⟨rfl, hps⟩, hp']
    · rw [if_neg (fun e => hps e.2), if_neg (fun e => (hmem p hp).1.ne_body (by omega) e.2)]
      rcases mem_absorb hp with rfl | hpP
      · exact absurd rfl hps
      · exact h.dirty p hpP
  · intro c hc
    rw [mem_keys_absorb, not_or] at hc
    show (if (1 : Nat) = 1 ∧ c = sec then some b
      else if (1 : Nat) = 1 ∧ c = s.log.start + absorbSlot s.log sec + 1 then none
      else s.dirty 1 c) = none
    rw [if_neg (fun e => hc.1 e.2)]
    split
    · rfl
    · exact h.clean c hc.2
  · show (absorb P sec b).length ≤ 20 ∧ (absorb P sec b).length ≤ s.log.size - 1
    rw [hlen]
    split <;> omega
  · show (setSector s.disk 1 (s.log.start + absorbSlot s.log sec + 1) b 1 s.log.start).word 0 = 0
    rw [setSector_apply, update_of_ne (by omega)]
    exact h.head

/-! ## Committing -/

/-- The state with an empty in-memory header. -/
def State.noEntries (s : State) : State := { s with log := { s.log with n := 0 } }

/-- The state with the transaction given back. -/
def State.notBusy (s : State) : State := { s with log := { s.log with busy := false } }

/-- The log body seen through the buffer cache is the one on disk. -/
theorem Pending.holds (h : Pending s P) : Holds s.headed 0 P := by
  have hroom := h.room
  refine ⟨?_, ?_, h.home, ?_⟩
  · intro i p hp
    rw [Nat.zero_add]
    exact h.sector i p hp
  · intro i p hp
    have hi : i < P.length := (List.getElem?_eq_some_iff.mp hp).1
    have hclean : s.dirty 1 (s.log.start + i + 1) = none := by
      apply h.clean
      rw [List.mem_map]
      rintro ⟨q, hq, he⟩
      exact (h.home q hq).ne_body (by omega) he
    rw [Nat.zero_add]
    show s.headed.view 1 (s.log.start + i + 1) = p.2
    have hdirty : s.headed.dirty 1 (s.log.start + i + 1) = none := by
      simp [State.headed, State.written, hclean]
    rw [view_of_clean hdirty]
    show setSector s.disk (s.log.dev % 2) s.log.start _ 1 (s.log.start + i + 1) = p.2
    rw [h.dev, setSector_apply, update_of_ne (by omega)]
    exact h.body i p hp
  · intro i p hp
    have hi : i < P.length := (List.getElem?_eq_some_iff.mp hp).1
    show 0 + i + 1 < s.log.size
    omega

/-- `commit_trans` of a transaction that logged something: header, home sectors, header. -/
theorem commit_trans_apply (h : Pending s P) (hP : P ≠ []) :
    commit_trans s = .ok () (s.headed.writes P).noEntries.headed.notBusy := by
  have hpos : 0 < s.log.n := by
    rw [h.n]
    exact List.length_pos_iff.mpr hP
  have hinst : install_trans s.headed = .ok () (s.headed.writes P) :=
    install_trans_apply h.dev h.n h.holds
  unfold commit_trans
  rw [Exec.gets_bind, Exec.when_pos hpos]
  simp only [Exec.bind_apply, write_head_apply, Res.andThen, hinst]
  rfl

/-- `commit_trans` of a transaction that logged nothing. -/
theorem commit_trans_empty (hn : s.log.n = 0) : commit_trans s = .ok () s.notBusy := by
  unfold commit_trans
  rw [Exec.gets_bind, Exec.when_neg (by omega)]
  rfl

end Zv6
