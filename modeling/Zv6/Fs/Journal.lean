/-
  The volume through the log.

  When the log lies behind the data area (`Placed`), a `log_write` below it changes one sector
  of what `bread` returns and leaves the rest (`view_logged_same`), and `commit_trans` changes
  nothing below the log: it makes the disk what the buffer cache held (`commit_trans_view`).

  `Jrn sb s` says all that of a state, in or between transactions, and `Logs` what one
  `log_write` does to it.
-/
import Mathlib.Data.Finset.Card
import Zv6.Fs.Volume
import Zv6.Lib.Wp
import Zv6.Log.Crash

namespace Zv6

open Lib

/-- Only disk, buffers and log differ. -/
def DiskOnly (s s' : State) : Prop :=
  s' = { s with disk := s'.disk, dirty := s'.dirty, trace := s'.trace, log := s'.log }

theorem DiskOnly.icache {s s' : State} (h : DiskOnly s s') : s'.icache = s.icache := by
  rw [h]

/-- Nothing outside the file system differs. -/
def Outside (s s' : State) : Prop :=
  s' = { s with disk := s'.disk, dirty := s'.dirty, trace := s'.trace, log := s'.log,
                icache := s'.icache }

theorem Outside.trans {s s' s'' : State} (h : Outside s s') (h' : Outside s' s'') :
    Outside s s'' := by
  unfold Outside at *
  rw [h', h]

theorem Outside.ftable {s s' : State} (h : Outside s s') : s'.ftable = s.ftable := by
  rw [h]

theorem DiskOnly.outside {s s' : State} (h : DiskOnly s s') : Outside s s' := by
  rw [h]
  rfl

/-- The log lies where the superblock puts it. -/
structure Placed (sb : Superblock) (s : State) : Prop where
  start : s.log.start = lstart sb
  size : s.log.size = sb.nlog

section Journal

variable {sb : Superblock} {s : State} {P : List (Nat × Block)} {sec : Nat} {b : Block}

theorem Placed.home (h : Placed sb s) {c : Nat} (hc : c < lstart sb) : s.log.Home c := by
  left
  rw [h.start]
  exact hc

theorem Placed.logged (h : Placed sb s) : Placed sb (s.logged 1 sec b) := ⟨h.start, h.size⟩

/-- A `log_write` below the log changes its own sector only. -/
theorem view_logged_same (h : Placed sb s) :
    Same sb sec (s.view 1) ((s.logged 1 sec b).view 1) := by
  intro c hc hne
  have := h.start
  rw [view_logged s sec b c (by omega), if_neg hne]

theorem view_logged_self (h : Placed sb s) (hsec : sec < lstart sb) :
    (s.logged 1 sec b).view 1 sec = b := by
  have := h.start
  rw [view_logged s sec b sec (by omega), if_pos rfl]

/-- `log_write` with room in the log. -/
theorem log_write_room (hP : Pending s P) (hbusy : s.log.busy = true) (hhome : s.log.Home sec)
    (hroom : P.length < 20 ∧ P.length < s.log.size - 1) :
    log_write 1 sec b s = .ok () (s.logged 1 sec b) := by
  have hn := hP.n
  rw [log_write_apply, if_neg (by omega), if_neg (by simp [hbusy]),
    if_neg (hhome.ne_slot (by omega))]

/-- Between transactions the buffer cache adds nothing to the disk. -/
theorem Idle.view (h : Idle s) : s.view 1 = s.disk 1 := by
  funext c
  exact view_of_clean (h.clean c)

/-- What `bread` returns while the writes `P` are pending. -/
theorem Pending.view (h : Pending s P) : s.view 1 = applyW P (s.disk 1) := by
  funext c
  by_cases hc : c ∈ P.map Prod.fst
  · obtain ⟨p, hp, rfl⟩ := List.mem_map.mp hc
    rw [view_of_dirty (h.dirty p hp), applyW_of_nodup P _ h.nodup p hp]
  · rw [view_of_clean (h.clean c hc), applyW_of_not_mem _ _ _ hc]

/-- A commit makes the disk what the buffer cache held. -/
theorem commit_trans_view (hP : Pending s P) : ∃ s', commit_trans s = .ok () s' ∧ Idle s' ∧
    DiskOnly s s' ∧ s'.log.start = s.log.start ∧ s'.log.size = s.log.size ∧
    ∀ c, s.log.Home c → s'.disk 1 c = s.view 1 c := by
  by_cases hPe : P = []
  · subst hPe
    refine ⟨_, commit_trans_empty hP.n, ⟨hP.dev, rfl, hP.n, fun c => hP.clean c (by simp), hP.head⟩,
      rfl, rfl, rfl, ?_⟩
    intro c _
    rw [hP.view]
    rfl
  · obtain ⟨s1, hrun, -, hdisk⟩ := commit_trans_trace hP hPe
    have hend := commit_clean hP hPe
    have hs1 := commit_trans_apply hP hPe
    rw [hrun] at hs1
    cases hs1
    have hend' : Clean s.log (applyW P (s.disk 1))
        (s.headed.writes P).noEntries.headed.notBusy.disk := by
      rw [hdisk]
      exact hend
    refine ⟨_, hrun, ⟨hP.dev, rfl, rfl, ?_, hend'.head⟩, rfl, rfl, rfl, ?_⟩
    · intro c
      -- the buffers of the installed sectors are clean, and no others were dirty
      show (if 1 = s.log.dev ∧ c = s.log.start then none
        else if 1 = 1 ∧ c ∈ P.map Prod.fst then none
        else if 1 = s.log.dev ∧ c = s.log.start then none else s.dirty 1 c) = none
      by_cases hc : c ∈ P.map Prod.fst
      · rw [if_pos (show 1 = 1 ∧ c ∈ P.map Prod.fst from ⟨rfl, hc⟩), ite_self]
      · rw [hP.clean c hc, ite_self, ite_self, ite_self]
    · intro c hc
      rw [hend'.home c hc, hP.view]

/-! ## The journal as the file system sees it -/

/-- The log lies behind the data area and its pending writes are in order. -/
structure Jrn (sb : Superblock) (s : State) : Prop where
  placed : Placed sb s
  word : sb.size < 4294967296
  pending : ∃ P, Pending s P ∧ (s.log.busy = false → P = [])

/-- The sectors of the open transaction. -/
def secs (s : State) : Finset Nat := (Finset.range s.log.n).image s.log.sector

/-- What a `log_write` of `b` to sector `sec` did. -/
structure Logs (sb : Superblock) (sec : Nat) (b : Block) (s s' : State) : Prop where
  only : DiskOnly s s'
  jrn : Jrn sb s'
  trans : s.log.busy = true
  busy : s'.log.busy = true
  self : s'.view 1 sec = b
  same : Same sb sec (s.view 1) (s'.view 1)
  room : (secs s).card < min 20 (sb.nlog - 1)
  secs : secs s' = insert sec (secs s)

theorem Pending.secs (h : Pending s P) : secs s = (P.map Prod.fst).toFinset := by
  ext c
  simp only [Zv6.secs, Finset.mem_image, Finset.mem_range, List.mem_toFinset, List.mem_map]
  constructor
  · rintro ⟨i, hi, rfl⟩
    have hlt : i < P.length := h.n ▸ hi
    exact ⟨P[i], List.getElem_mem hlt, (h.sector i _ (List.getElem?_eq_getElem hlt)).symm⟩
  · rintro ⟨p, hp, rfl⟩
    obtain ⟨i, hi, rfl⟩ := List.mem_iff_getElem.mp hp
    exact ⟨i, by rw [h.n]; exact hi, h.sector i _ (List.getElem?_eq_getElem hi)⟩

/-- Each sector is logged once. -/
theorem Jrn.card_secs (h : Jrn sb s) : (secs s).card = s.log.n := by
  obtain ⟨P, hP, -⟩ := h.pending
  rw [hP.secs, List.toFinset_card_of_nodup hP.nodup, List.length_map, hP.n]

theorem Idle.jrn (h : Idle s) (hp : Placed sb s) (hw : sb.size < 4294967296) : Jrn sb s :=
  ⟨hp, hw, [], h.pending, fun _ => rfl⟩

theorem Jrn.begun (h : Jrn sb s) : Jrn sb s.begun := by
  obtain ⟨P, hP, -⟩ := h.pending
  refine ⟨⟨h.placed.start, h.placed.size⟩, h.word, P, hP.setBusy true, fun hf => ?_⟩
  cases hf

theorem Jrn.commit (h : Jrn sb s) : ∃ s', commit_trans s = .ok () s' ∧ Jrn sb s' ∧
    s'.log.busy = false ∧ DiskOnly s s' ∧ SameAll sb (s.view 1) (s'.view 1) := by
  obtain ⟨P, hP, -⟩ := h.pending
  obtain ⟨s', hrun, hidle, honly, hstart, hsize, hdisk⟩ := commit_trans_view hP
  refine ⟨s', hrun, hidle.jrn ⟨hstart.trans h.placed.start, hsize.trans h.placed.size⟩ h.word,
    hidle.busy, honly, fun c hc => ?_⟩
  rw [hidle.view]
  exact hdisk c (h.placed.home hc)

/-- The journal does not depend on what is outside disk, buffers and log. -/
theorem Jrn.congr {s' : State} (h : Jrn sb s) (hd : s'.disk = s.disk) (hb : s'.dirty = s.dirty)
    (hl : s'.log = s.log) : Jrn sb s' := by
  obtain ⟨P, hP, hnil⟩ := h.pending
  refine ⟨⟨by rw [hl]; exact h.placed.start, by rw [hl]; exact h.placed.size⟩, h.word, P, ?_,
    by rw [hl]; exact hnil⟩
  refine ⟨?_, ?_, ?_, ?_, ?_, ?_, hP.nodup, ?_, hP.word, ?_, ?_⟩
  · rw [hl]; exact hP.dev
  · rw [hl]; exact hP.n
  · rw [hl]; exact hP.sector
  · rw [hl, hd]; exact hP.body
  · rw [hb]; exact hP.dirty
  · rw [hb]; exact hP.clean
  · rw [hl]; exact hP.home
  · rw [hl]; exact hP.room
  · rw [hl, hd]; exact hP.head

/-- The open transaction stays within the sectors `B` and these fit into the log, or it may
    panic for lack of room. -/
def Fits (E : Stop Chan → State → Prop) (sb : Superblock) (B : Finset Nat) (s : State) : Prop :=
  (∀ s', E (.panic "too big a transaction") s') ∨
    secs s ⊆ B ∧ B.card < 20 ∧ B.card < sb.nlog - 1

section Room

variable {E : Stop Chan → State → Prop} {B B' : Finset Nat} {s' : State}

/-- The sectors logged since are allowed as well. -/
theorem Fits.step (h : Fits E sb B s) (hsecs : secs s ⊆ B → secs s' ⊆ B')
    (hcard : B.card < 20 → B.card < sb.nlog - 1 → B'.card < 20 ∧ B'.card < sb.nlog - 1) :
    Fits E sb B' s' := by
  rcases h with h | ⟨hs, h1, h2⟩
  · exact Or.inl h
  · exact Or.inr ⟨hsecs hs, hcard h1 h2⟩

theorem Fits.logs (h : Fits E sb B s) (hl : Logs sb sec b s s') (hsec : sec ∈ B) :
    Fits E sb B s' := by
  refine h.step (fun hs => ?_) fun h1 h2 => ⟨h1, h2⟩
  rw [hl.secs]
  exact Finset.insert_subset hsec hs

/-- `log_write` does not panic for lack of room. -/
theorem Fits.not_full (h : Fits E sb B s) (hj : Jrn sb s)
    (hfull : 20 ≤ s.log.n ∨ s.log.size - 1 ≤ s.log.n) : E (.panic "too big a transaction") s := by
  rcases h with h | ⟨hs, h1, h2⟩
  · exact h s
  · have hcard := Finset.card_le_card hs
    rw [hj.card_secs] at hcard
    have := hj.placed.size
    omega

end Room

/-- A transaction is open, or logging may panic for lack of one. -/
def Trans (E : Stop Chan → State → Prop) (s : State) : Prop :=
  s.log.busy = false → E (.panic "write outside of trans") s

theorem Trans.of_busy {E : Stop Chan → State → Prop} (h : s.log.busy = true) : Trans E s := by
  intro hf
  rw [h] at hf
  cases hf

theorem log_write_wp {E : Stop Chan → State → Prop} {B : Finset Nat} (h : Jrn sb s)
    (hsec : sec < lstart sb) (ht : Trans E s) (hE : Fits E sb B s) :
    wp (log_write 1 sec b) (fun _ s' => Logs sb sec b s s') E s := by
  obtain ⟨P, hP, -⟩ := h.pending
  unfold wp
  rw [log_write_apply]
  by_cases hfull : 20 ≤ s.log.n ∨ s.log.size - 1 ≤ s.log.n
  · rw [if_pos hfull]
    exact hE.not_full h hfull
  rw [if_neg hfull]
  by_cases hb : s.log.busy = false
  · rw [if_pos hb]
    exact ht hb
  rw [if_neg hb, if_neg ((h.placed.home hsec).ne_slot (by omega))]
  have hbusy : s.log.busy = true := by simpa using hb
  have hn := hP.n
  have hlt := lstart_le sb
  have hword := h.word
  have hP' := hP.logged b (by omega) (h.placed.home hsec) (by omega)
  refine ⟨rfl, ⟨h.placed.logged, h.word, _, hP', fun hf => ?_⟩, hbusy, hbusy,
    view_logged_self h.placed hsec, view_logged_same h.placed, ?_, ?_⟩
  · have hf : s.log.busy = false := hf
    rw [hbusy] at hf
    cases hf
  · have := h.placed.size
    rw [h.card_secs]
    omega
  · rw [hP'.secs, hP.secs]
    ext c
    rw [List.mem_toFinset, mem_keys_absorb, Finset.mem_insert, List.mem_toFinset]

end Journal

end Zv6
