/-
  Copying a ditto over its inode (`iduplicate` as `irescue` calls it).

  `Mix V0 D n c m V`: the sectors `V` are `V0` with the first `m` bytes of inode `n` replaced by
  those of inode `c`. One 512-byte piece of the copy logs a data block and the inode sector and
  goes from `m` to the end of the piece (`writei_piece`).
-/
import Zv6.Fs.Journal
import Zv6.Fs.Verify

namespace Zv6

open Lib

/-- `V` is `V0` with the first `m` bytes of inode `n` replaced by those of inode `c`. -/
structure Mix (sb : Superblock) (V0 : Nat → Block) (D : Nat → Dinode) (n c m : Nat)
    (V : Nat → Block) : Prop where
  fs : Fs sb V D
  bytes : ∀ o, o < (D n).size.toNat → byteAt V (D n) o =
    if o < m then byteAt V0 (D c) o else byteAt V0 (D n) o
  other : ∀ k, Live sb D k → k ≠ n → contents V (D k) = contents V0 (D k)
  tab : ∀ k, k < sb.ninodes → k ≠ n → table V k = table V0 k

section Mix

variable {sb : Superblock} {V0 V V' : Nat → Block} {D : Nat → Dinode} {n c m : Nat}

theorem Mix.start (h : Fs sb V0 D) (n c : Nat) : Mix sb V0 D n c 0 V0 :=
  ⟨h, fun o _ => by rw [if_neg (by omega)], fun _ _ _ => rfl, fun _ _ _ => rfl⟩

theorem Mix.congr (h : Mix sb V0 D n c m V) (hn : Live sb D n) (hfs : Fs sb V' D)
    (hcon : ∀ k, Live sb D k → contents V' (D k) = contents V (D k))
    (htab : ∀ k, k < sb.ninodes → k ≠ n → table V' k = table V k) : Mix sb V0 D n c m V' :=
  ⟨hfs, fun o ho => (byteAt_of_contents (hcon n hn) ho).trans (h.bytes o ho),
    fun k hk hne => (hcon k hk).trans (h.other k hk hne),
    fun k hk hne => (htab k hk hne).trans (h.tab k hk hne)⟩

/-- Writes to the log do not count. -/
theorem Mix.log (h : Mix sb V0 D n c m V) (hn : Live sb D n) (hV : SameAll sb V V') :
    Mix sb V0 D n c m V' := by
  obtain ⟨hfs, hcon⟩ := h.fs.frame_log hV
  refine h.congr hn hfs hcon fun k hk _ => ?_
  have hlt := IBLOCK_lt hk
  have harea := h.fs.area
  unfold table
  rw [hV _ (by omega)]

/-- Neither does the inode's own dinode. -/
theorem Mix.inode (h : Mix sb V0 D n c m V) (hn : Live sb D n) {d : Dinode}
    (hV : Same sb (IBLOCK n) V V') (hd : V' (IBLOCK n) = (V (IBLOCK n)).setDinode (n % 8) d) :
    Mix sb V0 D n c m V' ∧ table V' n = d.core := by
  obtain ⟨hfs, hcon⟩ := h.fs.frame_inode hn.2.1 hV
  obtain ⟨hself, htab⟩ := table_setDinode h.fs.area hV hd
  exact ⟨h.congr hn hfs hcon htab, hself⟩

/-- The next block of the file is overwritten with the ditto's bytes. -/
theorem Mix.write (h : Mix sb V0 D n c m V) (hn : Live sb D n) {l : Nat} (hm : m % 512 = 0)
    (hl : 0 < l) (hend : l ≤ 512 ∧ m + l ≤ (D n).size.toNat)
    (hlast : l = 512 ∨ m + l = (D n).size.toNat)
    (hV : Same sb (blockAddr V (D n) (m / 512)).toNat V V')
    (hb : V' (blockAddr V (D n) (m / 512)).toNat =
      (V (blockAddr V (D n) (m / 512)).toNat).write 0 (slice V0 (D c) m l)) :
    Mix sb V0 D n c (m + l) V' ∧
      ∀ k, k < sb.ninodes → table V' k = table V k := by
  have ha := (h.fs.mapped n hn).block (m / 512) (by omega)
  obtain ⟨hfs, haddr, hbytes⟩ := h.fs.write_data hn ha hV
  have htab : ∀ k, k < sb.ninodes → table V' k = table V k := fun k hk =>
    table_data h.fs.area hV (h.fs.data_block hn ha).1 hk
  refine ⟨⟨hfs, ?_, ?_, ?_⟩, htab⟩
  · intro o ho
    by_cases hblk : o / 512 = m / 512
    · -- a byte of the block just written
      have ho' : m ≤ o ∧ o < m + l := by omega
      have hk : o % 512 = 0 + (o - m) := by omega
      rw [if_pos ho'.2]
      unfold byteAt
      rw [hblk, haddr n hn, hb, hk, Block.byte_write_in _ _ _ _ (by rw [length_slice]; omega)
        (by omega), List.getD_eq_getElem?_getD, getElem?_slice _ _ _ _ _ (by omega)]
      have : m + (o - m) = o := by omega
      rw [this]
      unfold byteAt
      rw [hblk, hk]
      rfl
    · rw [hbytes n hn o ho (by omega), h.bytes o ho]
      by_cases hom : o < m
      · rw [if_pos hom, if_pos (by omega)]
      · rw [if_neg hom, if_neg (by omega)]
  · intro k hk hne
    rw [← h.other k hk hne]
    exact contents_congr rfl fun o ho => hbytes k hk o ho fun e => hne e.1
  · intro k hk hne
    rw [htab k hk]
    exact h.tab k hk hne

end Mix

/-! ## One piece -/

/-- The state after one piece: the data block `b` of sector `sec`, then the dinode. -/
def State.pieced (s : State) (ip : Fin 100) (sec : Nat) (b : Block) (w : UInt32) : State :=
  ((s.logged 1 sec b).setInode ip ((s.icache ip).summed w)).logged 1 (IBLOCK (s.icache ip).inum)
    (((s.logged 1 sec b).view 1 (IBLOCK (s.icache ip).inum)).setDinode ((s.icache ip).inum % 8)
      ((s.icache ip).summed w).d)

section Piece

variable {sb : Superblock} {D : Nat → Dinode} {n : Nat} {ip : Fin 100} {s : State}
  {P : List (Nat × Block)}

/-- `iupdate_ext` of a mapped file, without its dittos. -/
theorem iupdate_ext_skip (hm : Mapped (s.view 1) (s.icache ip).d)
    (ht : (s.icache ip).d.type ≠ T_DEV) (hP : Pending s P) (hbusy : s.log.busy = true)
    (hdev : (s.icache ip).dev = 1) (hhome : s.log.Home (IBLOCK (s.icache ip).inum))
    (hroom : P.length < 20 ∧ P.length < s.log.size - 1) {w : UInt32}
    (hw : checksumOf (contents (s.view 1) (s.icache ip).d) = w) :
    iupdate_ext ip true s = .ok () ((s.setInode ip ((s.icache ip).summed w)).logged 1
      (IBLOCK (s.icache ip).inum) ((s.view 1 (IBLOCK (s.icache ip).inum)).setDinode
        ((s.icache ip).inum % 8) ((s.icache ip).summed w).d)) := by
  have hsum := ichecksum_mapped (by rw [hdev]) rfl ht hm
  rw [hw] at hsum
  have hP' : Pending (s.setInode ip ((s.icache ip).summed w)) P :=
    ⟨hP.dev, hP.n, hP.sector, hP.body, hP.dirty, hP.clean, hP.nodup, hP.home, hP.word, hP.room,
      hP.head⟩
  have hset : updInode ip (fun i => { i with d := { i.d with checksum := w } }) s =
      .ok () (s.setInode ip ((s.icache ip).summed w)) := rfl
  have hself : inode ip (s.setInode ip ((s.icache ip).summed w)) =
      .ok ((s.icache ip).summed w) (s.setInode ip ((s.icache ip).summed w)) := by
    rw [inode_apply, setInode_self]
  have hdev' : ((s.icache ip).summed w).dev = 1 := hdev
  have hhome' : (s.setInode ip ((s.icache ip).summed w)).log.Home
      (IBLOCK ((s.icache ip).summed w).inum) := hhome
  unfold iupdate_ext
  rw [Exec.bind_ok (inode_apply _ _), Exec.bind_ok (bread_apply _ _ _), Exec.bind_ok hsum,
    Exec.bind_ok hset, Exec.bind_ok hself, hdev', hdev,
    Exec.bind_ok (log_write_room hP' hbusy hhome' hroom), Exec.when_neg (by simp)]
  rfl

/-- A write within one block of a mapped file, without its dittos. -/
theorem writei_piece {σ : UInt32} (hfs : Fs sb (s.view 1) D) (hn : Live sb D n)
    (ht : (D n).type ≠ T_DEV ∧ (D n).type ≠ T_DITTO) (hpl : Placed sb s) (hP : Pending s P)
    (hbusy : s.log.busy = true) (hdev : (s.icache ip).dev = 1) (hi : (s.icache ip).inum = n)
    (hd : (s.icache ip).d.core = (D n).withSum σ) (buf : List UInt8) (off : Nat)
    (hoff : off % 512 = 0) (hlen : 0 < buf.length ∧ buf.length ≤ 512)
    (hend : off + buf.length ≤ (D n).size.toNat)
    (hroom : P.length < 19 ∧ P.length + 1 < s.log.size - 1) :
    ∃ b w s', writei_ext ip buf off true s = .ok buf.length s' ∧
      b = ((s.view 1 (blockAddr (s.view 1) (D n) (off / 512)).toNat).write 0 buf) ∧
      s' = s.pieced ip (blockAddr (s.view 1) (D n) (off / 512)).toNat b w ∧
      w = checksumOf (contents
        ((s.logged 1 (blockAddr (s.view 1) (D n) (off / 512)).toNat b).view 1) (D n)) := by
  obtain ⟨hsize, htype, haddrs⟩ : (s.icache ip).d.size = (D n).size ∧
      (s.icache ip).d.type = (D n).type ∧ (s.icache ip).d.addrs = (D n).addrs := by
    show (s.icache ip).d.core.size = _ ∧ (s.icache ip).d.core.type = _ ∧
      (s.icache ip).d.core.addrs = _
    rw [hd]
    exact ⟨rfl, rfl, rfl⟩
  have hmax := (hfs.mapped n hn).size_le
  have ha := (hfs.mapped n hn).block (off / 512) (by omega)
  have hblk := blockAddr_addrs haddrs
  have hbmap : bmap ip (off / 512) s = .ok (blockAddr (s.view 1) (D n) (off / 512)).toNat s := by
    rw [bmap_mapped (by rw [hdev]) rfl _ (by rw [hblk]; exact ha), hblk]
  have hsecd := hfs.data_block hn ha
  generalize hsec : (blockAddr (s.view 1) (D n) (off / 512)).toNat = sec at hbmap hsecd
  refine ⟨(s.view 1 sec).write 0 buf, _, _, ?_, rfl, rfl, rfl⟩
  have hlog1 : log_write 1 sec ((s.view 1 sec).write 0 buf) s =
      .ok () (s.logged 1 sec ((s.view 1 sec).write 0 buf)) :=
    log_write_room hP hbusy (hpl.home hsecd.2.1) (by omega)
  have hloop : writeiLoop ip buf.length off buf s =
      .ok () (s.logged 1 sec ((s.view 1 sec).write 0 buf)) := by
    obtain ⟨k, hk⟩ : ∃ k, buf.length = k + 1 := ⟨buf.length - 1, by omega⟩
    rw [hk]
    unfold writeiLoop
    rw [if_neg (List.ne_nil_of_length_pos hlen.1), Exec.bind_ok (inode_apply _ _),
      Exec.bind_ok hbmap, Exec.bind_ok (bread_apply _ _ _), hoff, hdev]
    have hmin : min buf.length (512 - 0) = buf.length := by omega
    rw [hmin, List.take_length, Exec.bind_ok hlog1, List.drop_length]
    cases k <;> rfl
  have hpl1 : Placed sb (s.logged 1 sec ((s.view 1 sec).write 0 buf)) := hpl.logged
  generalize hs1 : s.logged 1 sec ((s.view 1 sec).write 0 buf) = s1 at hloop hpl1 ⊢
  have hic1 : s1.icache = s.icache := by
    rw [← hs1]
    rfl
  have hsame : Same sb sec (s.view 1) (s1.view 1) := by
    rw [← hs1]
    exact view_logged_same hpl
  have hfs1 : Fs sb (s1.view 1) D := (hfs.write_data hn ha (hsec ▸ hsame)).1
  unfold writei_ext writeiExt
  rw [Exec.bind_ok (inode_apply _ _), htype, if_neg ht.1, hsize, if_neg (by omega),
    if_neg (by omega), Exec.bind_ok hloop, Exec.when_neg (by simp), Exec.pure_bind_apply,
    if_neg ht.2]
  have hkeep : updInode ip (fun i => { i with d := { i.d with
      size := if 0 < buf.length ∧ i.d.size.toNat < off + buf.length
        then UInt32.ofNat (off + buf.length) else i.d.size } }) s1 = .ok () s1 := by
    rw [updInode_apply, hic1, hsize, if_neg (by omega), ← hsize, ← hic1]
    congr 1
    exact setInode_same s1 ip
  rw [Exec.bind_ok hkeep]
  have hP1 : Pending s1 (absorb P sec ((s.view 1 sec).write 0 buf)) := by
    rw [← hs1]
    exact hP.logged _ (by omega) (hpl.home hsecd.2.1) (hsec ▸ UInt32.toNat_lt _)
  have hlen1 := length_absorb P sec ((s.view 1 sec).write 0 buf)
  have hm1 : Mapped (s1.view 1) (s1.icache ip).d := by
    rw [hic1]
    refine ⟨hsize ▸ hmax, fun bn hbn => ?_⟩
    rw [blockAddr_addrs haddrs]
    exact (hfs1.mapped n hn).block bn (hsize ▸ hbn)
  have hlogsize : s1.log.size = s.log.size := by
    rw [← hs1]
    rfl
  have hup := iupdate_ext_skip (w := checksumOf (contents (s1.view 1) (D n))) hm1
    (by rw [hic1, htype]; exact ht.1) hP1 (by rw [← hs1]; exact hbusy) (by rw [hic1]; exact hdev)
    (hpl1.home (by rw [hic1, hi]; exact Nat.lt_of_lt_of_le (IBLOCK_lt hn.2.1) hfs.area))
    (by rw [hlogsize, hlen1]; split <;> omega)
    (by rw [hic1, contents_addrs hsize haddrs])
  rw [Exec.bind_ok hup, Exec.pure_apply]
  unfold State.pieced
  rw [hs1, hic1]

end Piece

/-! ## One transaction -/

/-- The copy of ditto `c` in slot `r` over inode `n` in slot `ip`, from the state `s0` on: `m`
    bytes are done, the last `i` pieces of them in this transaction. -/
structure Copying (sb : Superblock) (V0 : Nat → Block) (D : Nat → Dinode) (n c : Nat)
    (ip : Fin 100) (s0 : State) (m i : Nat) (s : State) : Prop where
  mix : Mix sb V0 D n c m (s.view 1)
  placed : Placed sb s
  busy : s.log.busy = true
  slot : ∃ σ, s.icache ip = (s0.icache ip).summed σ ∧ (0 < i →
    table (s.view 1) n = (s.icache ip).d.core ∧ σ = checksumOf (contents (s.view 1) (D n)))
  others : ∀ x, x ≠ ip → s.icache x = s0.icache x
  outside : Outside s0 s
  pending : ∃ P, Pending s P ∧ P.length ≤ i + 1 ∧ (0 < i → IBLOCK n ∈ P.map Prod.fst) ∧
    (i = 0 → P = [])
  logging : ∃ k, Logging s0 s k

section Copying

variable {sb : Superblock} {V0 : Nat → Block} {D : Nat → Dinode} {n c : Nat} {ip r : Fin 100}
  {s0 s : State}

/-- The two slots of a copy: an inode that is neither a device nor a ditto, and a ditto of the
    same size. -/
structure Slots (sb : Superblock) (D : Nat → Dinode) (n c : Nat) (ip r : Fin 100) (s : State) :
    Prop where
  live : Live sb D n
  ditto : Live sb D c
  ne : c ≠ n
  type : (D n).type ≠ T_DEV ∧ (D n).type ≠ T_DITTO
  dittoType : (D c).type ≠ T_DEV
  size : (D c).size = (D n).size
  slots : r ≠ ip
  ip : (s.icache ip).dev = 1 ∧ (s.icache ip).inum = n ∧
    ∃ σ, (s.icache ip).d.core = (D n).withSum σ
  r : (s.icache r).dev = 1 ∧ (s.icache r).inum = c ∧ (s.icache r).d.core = D c

/-- The bytes read from the ditto. -/
theorem Copying.read {m i : Nat} (h : Copying sb V0 D n c ip s0 m i s)
    (hs : Slots sb D n c ip r s0) (off : Nat) (hoff : off ≤ (D n).size.toNat) :
    readi r off 512 s = .ok (((min 512 ((D n).size.toNat - off) : Nat) : Int),
      slice V0 (D c) off (min 512 ((D n).size.toNat - off))) s := by
  have hr : s.icache r = s0.icache r := h.others r hs.slots
  obtain ⟨hdev, -, hd⟩ := hs.r
  have haddrs : (s.icache r).d.addrs = (D c).addrs := by
    rw [← hd, hr]
    rfl
  have hsize : (s.icache r).d.size = (D c).size := by
    rw [← hd, hr]
    rfl
  have htype : (s.icache r).d.type = (D c).type := by
    rw [← hd, hr]
    rfl
  have hm := h.mix.fs.mapped c hs.ditto
  have hm' : Mapped (s.view 1) (s.icache r).d := by
    refine ⟨hsize ▸ hm.size_le, fun bn hbn => ?_⟩
    rw [blockAddr_addrs haddrs]
    exact hm.block bn (hsize ▸ hbn)
  have hmax := hm.size_le
  rw [hs.size] at hmax
  have hslice : ∀ l, off + l ≤ (D c).size.toNat →
      slice (s.view 1) (s.icache r).d off l = slice V0 (D c) off l := by
    intro l hl
    refine slice_congr fun k hk => ?_
    rw [byteAt_addrs haddrs]
    exact byteAt_of_contents (h.mix.other c hs.ditto hs.ne) (by omega)
  rw [readi_mapped (by rw [hr, hdev]) rfl (by rw [htype]; exact hs.dittoType) hm',
    readResult_le _ _ (by rw [hsize, hs.size]; exact hoff) (by omega), hsize, hs.size,
    hslice _ (by rw [hs.size]; omega)]

theorem logging_setInode (s : State) (j : Fin 100) (i : Inode) : Logging s (s.setInode j i) 0 :=
  ⟨rfl, rfl, rfl, [], rfl, (List.append_nil _).symm, rfl, fun _ h => along_nil.mpr h⟩

theorem pending_setInode {P : List (Nat × Block)} (h : Pending s P) (j : Fin 100) (i : Inode) :
    Pending (s.setInode j i) P :=
  ⟨h.dev, h.n, h.sector, h.body, h.dirty, h.clean, h.nodup, h.home, h.word, h.room, h.head⟩

/-- The log after one piece. -/
theorem pieced_log {P : List (Nat × Block)} {sec : Nat} {b : Block} {w : UInt32}
    (hP : Pending s P) (hpl : Placed sb s) (harea : dstart sb ≤ lstart sb)
    (hbusy : s.log.busy = true) (hsec : sec < lstart sb) (hword : sec < 4294967296)
    (hi : (s.icache ip).inum = n) (hn : n < sb.ninodes) (hmax : sb.ninodes ≤ 32768)
    (hroom : P.length < 19 ∧ P.length + 1 < s.log.size - 1) :
    (∃ P', Pending (s.pieced ip sec b w) P' ∧ IBLOCK n ∈ P'.map Prod.fst ∧
      P'.length ≤ P.length + 2 ∧ (IBLOCK n ∈ P.map Prod.fst → P'.length ≤ P.length + 1)) ∧
    Logging s (s.pieced ip sec b w) 2 := by
  have hblk := IBLOCK_lt hn
  have hblk' : IBLOCK n < 4294967296 := by
    unfold IBLOCK
    omega
  have hlen1 := length_absorb P sec b
  obtain ⟨-, hP1, hl1⟩ := log_write_logging hP (hpl.home hsec) hword
    (log_write_room (b := b) hP hbusy (hpl.home hsec) (by omega))
  have hP2 := pending_setInode hP1 ip ((s.icache ip).summed w)
  have hpl2 : Placed sb ((s.logged 1 sec b).setInode ip ((s.icache ip).summed w)) :=
    ⟨hpl.start, hpl.size⟩
  have hroom2 : (absorb P sec b).length < 20 ∧ (absorb P sec b).length <
      ((s.logged 1 sec b).setInode ip ((s.icache ip).summed w)).log.size - 1 := by
    show _ ∧ _ < s.log.size - 1
    rw [hlen1]
    split <;> omega
  obtain ⟨-, hP3, hl3⟩ := log_write_logging hP2 (hpl2.home (c := IBLOCK n) (by omega)) hblk'
    (log_write_room (b := ((s.logged 1 sec b).view 1 (IBLOCK n)).setDinode (n % 8)
      ((s.icache ip).summed w).d) hP2 hbusy (hpl2.home (by omega)) hroom2)
  have hlen3 := length_absorb (absorb P sec b) (IBLOCK n)
    (((s.logged 1 sec b).view 1 (IBLOCK n)).setDinode (n % 8) ((s.icache ip).summed w).d)
  have hs : s.pieced ip sec b w = ((s.logged 1 sec b).setInode ip ((s.icache ip).summed w)).logged 1
      (IBLOCK n) (((s.logged 1 sec b).view 1 (IBLOCK n)).setDinode (n % 8)
        ((s.icache ip).summed w).d) := by
    unfold State.pieced
    rw [hi]
  rw [hs]
  refine ⟨⟨_, hP3, ?_, ?_, ?_⟩, (hl1.trans (logging_setInode _ _ _)).trans hl3⟩
  · rw [mem_keys_absorb]
    exact Or.inl rfl
  · rw [hlen3, hlen1]
    split <;> split <;> omega
  · intro hmem
    have hin : IBLOCK n ∈ (absorb P sec b).map Prod.fst := by
      rw [mem_keys_absorb]
      exact Or.inr hmem
    have hslot : ¬ slotOf (absorb P sec b) (IBLOCK n) = (absorb P sec b).length := by
      rw [slotOf_eq_length_iff]
      exact not_not_intro hin
    rw [hlen3, if_neg hslot, hlen1]
    split <;> omega

/-- The next piece of the copy. -/
theorem Copying.step {m i : Nat} (h : Copying sb V0 D n c ip s0 m i s)
    (hs : Slots sb D n c ip r s0) (hm : m % 512 = 0) (hlt : m < (D n).size.toNat) (hi : i ≤ 3)
    (hlog : 7 ≤ sb.nlog) :
    ∃ v s', writei_ext ip (slice V0 (D c) m (min 512 ((D n).size.toNat - m))) m true s = .ok v s' ∧
      Copying sb V0 D n c ip s0 (m + min 512 ((D n).size.toNat - m)) (i + 1) s' := by
  obtain ⟨P, hP, hPlen, hPin, -⟩ := h.pending
  obtain ⟨σ, hslot, -⟩ := h.slot
  obtain ⟨hdev0, hinum0, σ0, hd0⟩ := hs.ip
  have hdev : (s.icache ip).dev = 1 := by
    rw [hslot]
    exact hdev0
  have hinum : (s.icache ip).inum = n := by
    rw [hslot]
    exact hinum0
  have hd : (s.icache ip).d.core = (D n).withSum σ := by
    rw [hslot]
    show ((s0.icache ip).d.core).withSum σ = (D n).withSum σ
    rw [hd0]
    rfl
  have hroom : P.length < 19 ∧ P.length + 1 < s.log.size - 1 := by
    rw [h.placed.size]
    omega
  have hfs := h.mix.fs
  have ha := (hfs.mapped n hs.live).block (m / 512) (by omega)
  have hsecd := hfs.data_block hs.live ha
  obtain ⟨b, w, s', hrun, hb, hs', hw⟩ :=
    writei_piece hfs hs.live hs.type h.placed hP h.busy hdev hinum hd
    (slice V0 (D c) m (min 512 ((D n).size.toNat - m))) m hm (by rw [length_slice]; omega)
    (by rw [length_slice]; omega) hroom
  generalize hsec : (blockAddr (s.view 1) (D n) (m / 512)).toNat = sec at hb hs' hw hsecd
  obtain ⟨⟨P', hP', hin', hlen', hlen''⟩, hlogging⟩ := pieced_log (w := w) (b := b) hP h.placed
    hfs.area h.busy hsecd.2.1 (hsec ▸ UInt32.toNat_lt _) hinum hs.live.2.1 hfs.ninodes hroom
  rw [← hs'] at hP' hlogging
  -- the sectors after the data block, and after the dinode
  have hV1 : Same sb sec (s.view 1) ((s.logged 1 sec b).view 1) := view_logged_same h.placed
  have hb1 : (s.logged 1 sec b).view 1 sec = b := view_logged_self h.placed hsecd.2.1
  obtain ⟨hmix1, -⟩ := h.mix.write hs.live hm (l := min 512 ((D n).size.toNat - m)) (by omega)
    (by omega) (by omega) (by rw [hsec]; exact hV1) (by rw [hsec, hb1, hb])
  have hs'' : s' = ((s.logged 1 sec b).setInode ip ((s.icache ip).summed w)).logged 1
      (IBLOCK n) (((s.logged 1 sec b).view 1 (IBLOCK n)).setDinode (n % 8)
        ((s.icache ip).summed w).d) := by
    rw [hs']
    unfold State.pieced
    rw [hinum]
  have hpl2 : Placed sb ((s.logged 1 sec b).setInode ip ((s.icache ip).summed w)) :=
    ⟨h.placed.start, h.placed.size⟩
  have hblk := IBLOCK_lt hs.live.2.1
  have harea := hfs.area
  have hV2 : Same sb (IBLOCK n) ((s.logged 1 sec b).view 1) (s'.view 1) := by
    rw [hs'']
    show Same sb (IBLOCK n) (((s.logged 1 sec b).setInode ip ((s.icache ip).summed w)).view 1) _
    exact view_logged_same hpl2
  have hb2 : s'.view 1 (IBLOCK n) = ((s.logged 1 sec b).view 1 (IBLOCK n)).setDinode (n % 8)
      ((s.icache ip).summed w).d := by
    rw [hs'']
    exact view_logged_self hpl2 (by omega)
  obtain ⟨hmix2, hself⟩ := hmix1.inode hs.live hV2 hb2
  have hcon := (hmix1.fs.frame_inode hs.live.2.1 hV2).2 n hs.live
  have hslot' : s'.icache ip = (s0.icache ip).summed w := by
    rw [hs'']
    show ((s.logged 1 sec b).setInode ip ((s.icache ip).summed w)).icache ip = _
    rw [setInode_self, hslot]
    rfl
  refine ⟨_, s', hrun, { mix := hmix2, placed := ?_, busy := ?_, slot := ⟨w, hslot', fun _ => ?_⟩,
                         others := ?_, outside := ?_, pending := ?_, logging := ?_ }⟩
  · rw [hs'']
    exact ⟨h.placed.start, h.placed.size⟩
  · rw [hs'']
    exact h.busy
  · refine ⟨?_, ?_⟩
    · rw [hself, hslot', hslot]
      rfl
    · rw [hcon]
      exact hw
  · intro x hx
    rw [hs'']
    show ((s.logged 1 sec b).setInode ip ((s.icache ip).summed w)).icache x = _
    rw [setInode_ne _ _ hx]
    exact h.others x hx
  · refine h.outside.trans ?_
    rw [hs'']
    rfl
  · refine ⟨P', hP', ?_, fun _ => hin', fun h0 => absurd h0 (by omega)⟩
    by_cases h0 : i = 0
    · obtain ⟨P0, hP0, hP0len, -, hnil⟩ := h.pending
      have := hP0.n
      have := hP.n
      rw [hnil h0] at *
      simp only [List.length_nil] at *
      omega
    · have := hlen'' (hPin (by omega))
      omega
  · obtain ⟨k, hk⟩ := h.logging
    exact ⟨k + 2, hk.trans hlogging⟩

/-- The loop of `iduplicate` copies up to its bound. -/
theorem iduplicateLoop_copy (hs : Slots sb D n c ip r s0) (hlog : 7 ≤ sb.nlog) (base lim : Nat)
    (hbase : base % 512 = 0) (hlim : lim ≤ (D n).size.toNat ∧ lim ≤ base + 2048)
    (hmax : (D n).size.toNat ≤ 70656) (hlast : lim = base + 2048 ∨ lim = (D n).size.toNat)
    (fuel : Nat) : ∀ (off i : Nat) (s : State), Copying sb V0 D n c ip s0 off i s →
    base ≤ off → off ≤ lim → (off < lim → off = base + 512 * i) → lim - off ≤ 512 * fuel →
    ∃ s' i', iduplicateLoop r ip lim (fuel + 1) off s = .ok () s' ∧
      Copying sb V0 D n c ip s0 lim i' s' ∧ i ≤ i' ∧ (off < lim → 0 < i') := by
  have hstop : ∀ (fuel i : Nat) (s : State), Copying sb V0 D n c ip s0 lim i s →
      iduplicateLoop r ip lim (fuel + 1) lim s = .ok () s := by
    intro fuel i s h
    unfold iduplicateLoop
    rw [Exec.bind_ok (h.read hs lim hlim.1)]
    simp only
    rw [if_neg (by omega)]
    rfl
  induction fuel with
  | zero =>
    intro off i s h _ hle _ hfuel
    obtain rfl : off = lim := by omega
    exact ⟨s, i, hstop 0 i s h, h, Nat.le_refl _, fun h => absurd h (Nat.lt_irrefl _)⟩
  | succ fuel ih =>
    intro off i s h hge hle hoff hfuel
    by_cases hlt : off < lim
    · have heq := hoff hlt
      obtain ⟨v, s1, hrun, h1⟩ := h.step hs (by omega) (by omega) (by omega) hlog
      have hnext : (off + (((min 512 ((D n).size.toNat - off) : Nat) : Int) % 4294967296).toNat) %
          4294967296 = off + min 512 ((D n).size.toNat - off) := by omega
      obtain ⟨s', i', hrun', h', hi', -⟩ := ih _ (i + 1) s1 h1 (by omega) (by omega) (by omega)
        (by omega)
      refine ⟨s', i', ?_, h', by omega, fun _ => by omega⟩
      conv => lhs; unfold iduplicateLoop
      rw [Exec.bind_ok (h.read hs off (by omega))]
      simp only
      rw [if_pos (by omega), Exec.bind_ok hrun, hnext, hrun']
    · obtain rfl : off = lim := by omega
      exact ⟨s, i, hstop (fuel + 1) i s h, h, Nat.le_refl _, fun h => absurd h hlt⟩

end Copying

end Zv6
