/-
  Writing to an open file (`filewrite`), one chunk of at most 4096 bytes after the other.

  A chunk is a transaction of its own: it locks the inode, writes at the file's offset, advances
  the offset and commits (`chunk`, the body of the loop of `filewrite`). `Writing` is the state
  between two chunks. On an inode without dittos, with the blocks the write lacks free in the
  data area (`Stock`) and a log that holds each chunk (`chunkCost`), every chunk does what it
  should (`Writing.put`), and the chunks together do what one `writei` does
  (`filewrite_as_one_writei`).
-/
import Mathlib.Order.Interval.Finset.Nat
import Zv6.Fs.ReadBack

namespace Zv6

open Lib Function

/-! ## What a chunk logs -/

/-- How many sectors a chunk logs before the inode, if it is written to the blocks `bns` of a file
    that has got the blocks `done`: its blocks, the indirect block if it gets an address, and the
    sectors of the bitmap for the blocks that are allocated. -/
def chunkCost (sb : Superblock) (V : Nat → Block) (d : Dinode) (done bns : Finset Nat) : Nat :=
  bns.card + (if Spills V d (bns \ done) then 1 else 0) +
    ((((freeList sb V).drop (lack V d done)).take
      (lack V d (done ∪ bns) - lack V d done)).toFinset.image fun b => BBLOCK b sb.ninodes).card

section Cost

variable {sb : Superblock} {V V' : Nat → Block} {D : Nat → Dinode} {d d' : Dinode} {n f : Nat}
  {done bns bns' : Finset Nat}

theorem Gets.chunkCost (h : Gets done V d V' d')
    (hf : freeList sb V' = (freeList sb V).drop (Zv6.lack V d done)) :
    Zv6.chunkCost sb V' d' ∅ bns = Zv6.chunkCost sb V d done bns := by
  have hlack := h.lack bns
  have hsp : Spills V' d' (bns \ ∅) ↔ Spills V d (bns \ done) := by
    unfold Spills
    simp only [Finset.sdiff_empty, Finset.mem_sdiff, h.missing, and_assoc]
    tauto
  unfold Zv6.chunkCost
  simp only [hsp]
  rw [lack_empty, List.drop_zero, Nat.sub_zero, Finset.empty_union, hf, ← hlack,
    Nat.add_sub_cancel_left]

/-- The blocks of a file that a write logs: those that are there, and those it gets. -/
theorem card_held (V : Nat → Block) (d : Dinode) (bns : Finset Nat) :
    (held V d bns).card + lack V d bns ≤ bns.card + if Spills V d bns then 1 else 0 := by
  have hsplit : (bns.filter fun bn => blockAddr V d bn = 0).card +
      (bns.filter fun bn => blockAddr V d bn ≠ 0).card = bns.card :=
    Finset.card_filter_add_card_filter_not _
  have himg := Finset.card_image_le (s := bns.filter fun bn => blockAddr V d bn ≠ 0)
    (f := fun bn => (blockAddr V d bn).toNat)
  have hunion := Finset.card_union_le
    ((bns.filter fun bn => blockAddr V d bn ≠ 0).image fun bn => (blockAddr V d bn).toNat)
    (if d.addrs 10 ≠ 0 ∧ Spills V d bns then {(d.addrs 10).toNat} else ∅)
  have hind : (if d.addrs 10 ≠ 0 ∧ Spills V d bns then {(d.addrs 10).toNat} else ∅ :
      Finset Nat).card + (if d.addrs 10 = 0 ∧ Spills V d bns then 1 else 0) =
      if Spills V d bns then 1 else 0 := by
    by_cases hs : Spills V d bns <;> by_cases h0 : d.addrs 10 = 0 <;> simp [hs, h0]
  unfold held lack
  omega

theorem card_fresh (l : List Nat) :
    (fresh sb l).card ≤ l.length + (l.toFinset.image fun b => BBLOCK b sb.ninodes).card :=
  (Finset.card_union_le _ _).trans (Nat.add_le_add_right l.toFinset_card_le _)

theorem members_alone (h : (D n).child1 = 0 ∧ (D n).child2 = 0) : (D n).members n = [n] := by
  unfold Dinode.members Dinode.kidList Dinode.child
  rw [h.1, h.2]
  rfl

theorem needs_alone (h : (D n).child1 = 0 ∧ (D n).child2 = 0) :
    needs V D bns ((D n).members n) = lack V (D n) bns := by
  rw [members_alone h]
  rfl

theorem card_writeSecs (h : (D n).child1 = 0 ∧ (D n).child2 = 0) :
    (writeSecs sb V D n bns).card ≤ chunkCost sb V (D n) ∅ bns := by
  have hset : writeSecs sb V D n bns = logs sb V (D n) bns := by
    unfold writeSecs logs
    rw [needs_alone h, members_alone h]
    simp
  have h1 := card_held V (D n) bns
  have h2 := @card_fresh sb ((freeList sb V).take (lack V (D n) bns))
  have h3 := Finset.card_union_le (held V (D n) bns)
    (fresh sb ((freeList sb V).take (lack V (D n) bns)))
  have h4 := List.length_take_le (lack V (D n) bns) (freeList sb V)
  unfold chunkCost
  rw [hset, lack_empty, List.drop_zero, Nat.sub_zero, Finset.empty_union, Finset.sdiff_empty]
  unfold logs
  omega

/-- What is in stock for a larger part of the file after a smaller part was written to. -/
theorem Stock.after (h : Stock sb 0 V d bns) (hg : Gets bns' V d V' d')
    (hf : freeList sb V' = (freeList sb V).drop (lack V d bns')) (hs : bns' ⊆ bns) :
    Stock sb 0 V' d' bns := by
  have hlack := hg.lack bns
  rw [Finset.union_eq_right.mpr hs] at hlack
  unfold Stock at h ⊢
  rw [← length_freeList] at h ⊢
  rw [hf, List.length_drop]
  omega

end Cost

/-! ## An inode without dittos -/

section Alone

variable {sb : Superblock} {D : Nat → Dinode} {n : Nat}

theorem group_alone (h : (D n).child1 = 0 ∧ (D n).child2 = 0) : (D n).group n = {n} := by
  unfold Dinode.group
  rw [kids_nil h.1 h.2, insert_empty_eq]

theorem Mirrors.alone (sb : Superblock) (h : (D n).child1 = 0 ∧ (D n).child2 = 0) :
    Mirrors sb D n := by
  have hk : (D n).kids = ∅ := kids_nil h.1 h.2
  refine ⟨fun c hc => ?_, fun h0 => absurd ?_ h0, fun c hc => ?_, fun c hc => ?_⟩
  · rw [hk] at hc
    exact hc.elim
  · show (D n).child1.toNat = 0
    rw [h.1]
    rfl
  · rw [hk] at hc
    exact hc.elim
  · rw [hk] at hc
    exact hc.elim

end Alone

/-! ## One chunk -/

/-- The body of the loop of `filewrite`: one transaction that writes `part` at the offset. -/
def chunk (f : Fin 100) (part : List UInt8) : K Int := do
  begin_trans
  let ff ← Exec.gets fun s => s.ftable f
  let _ ← ilock ff.ip
  let r ← writei ff.ip part ff.off
  Exec.when (0 < r) <|
    Exec.modify fun s => s.setFile f { s.ftable f with
      off := ((s.ftable f).off + r.toNat) % 4294967296 }
  iunlock ff.ip
  commit_trans
  pure r

/-- The log holds the bitmap, the inode and the ten blocks a chunk may write to. -/
def ChunkFits (sb : Superblock) (n : Nat) : Prop :=
  (insert (IBLOCK n) (bitmapSecs sb)).card + 10 < min 20 (sb.nlog - 1)

/-- The open file `f` for the inode `n` without dittos in slot `ip`, at the offset `off`. The file
    is in good order, and its inode is not locked. -/
structure Standing (sb : Superblock) (L : Set Nat) (D : Nat → Dinode) (N : Nat → UInt16)
    (f ip : Fin 100) (n off : Nat) (s : State) : Prop where
  vol : Vol sb L D N ∅ ∅ s
  caches : Caches s.icache ip n
  free : (s.icache ip).busy = false
  refs : Referred s
  slot : (s.ftable f).ip = ip
  pos : (s.ftable f).off = off
  type : (D n).type = T_FILE
  alone : (D n).child1 = 0 ∧ (D n).child2 = 0
  mapped : Mapped (s.view 1) (D n)
  good : Good (s.view 1) D n
  inside : off ≤ (D n).size.toNat

/-- The same between two chunks: no transaction is open. -/
structure Writing (sb : Superblock) (L : Set Nat) (D : Nat → Dinode) (N : Nat → UInt16)
    (f ip : Fin 100) (n off : Nat) (s : State) : Prop extends Standing sb L D N f ip n off s where
  log : s.log.busy = false

/-- At most nine blocks. -/
theorem card_span_chunk {off len : Nat} (h : len ≤ 4096) : (span off len).card ≤ 9 := by
  have hsub : span off len ⊆ Finset.Ico (off / 512) (off / 512 + 9) := by
    intro bn hbn
    obtain ⟨i, hi, rfl⟩ := Finset.mem_image.mp hbn
    rw [Finset.mem_range] at hi
    rw [Finset.mem_Ico]
    omega
  have := Finset.card_le_card hsub
  rwa [Nat.card_Ico, Nat.add_sub_cancel_left] at this

/-- Such a log holds every chunk. -/
theorem ChunkFits.cost {sb : Superblock} {n off len : Nat} (h : ChunkFits sb n) (hlen : len ≤ 4096)
    (V : Nat → Block) (d : Dinode) (done : Finset Nat) :
    chunkCost sb V d done (span off len) < min 20 (sb.nlog - 1) := by
  have hnine := @card_span_chunk off len hlen
  have hle := lstart_le sb
  have hbits : ((((freeList sb V).drop (lack V d done)).take
      (lack V d (done ∪ span off len) - lack V d done)).toFinset.image
        fun b => BBLOCK b sb.ninodes).card ≤ (bitmapSecs sb).card := by
    refine Finset.card_le_card fun x hx => ?_
    obtain ⟨b, hb, rfl⟩ := Finset.mem_image.mp hx
    have := (mem_freeList.mp (List.mem_of_mem_drop (List.mem_of_mem_take
      (List.mem_toFinset.mp hb)))).1
    exact mem_bitmapSecs (by omega)
  have hins := Finset.card_le_card (Finset.subset_insert (IBLOCK n) (bitmapSecs sb))
  unfold ChunkFits at h
  unfold chunkCost
  split <;> omega

section Chunk

variable {sb : Superblock} {L : Set Nat} {D : Nat → Dinode} {N : Nat → UInt16} {s : State}
  {f ip : Fin 100} {n off : Nat} {part : List UInt8}

/-- The inode is locked at once. -/
theorem Standing.lock (h : Standing sb L D N f ip n off s) : ilock ip s = .ok 0 (s.locked ip) := by
  have hlock : wp (ilock_ext ip true) (fun r s' => r = 0 ∧ s' = s.locked ip) (fun _ _ => False) s :=
    h.vol.ilock_ext (fun hb => by rw [h.free] at hb; cases hb) h.caches true
      fun _ => ⟨h.mapped, fun hT => by rw [h.type] at hT; exact absurd hT (by decide), h.good⟩
  obtain ⟨_, _, hrun, rfl, rfl⟩ := hlock.returns
  exact hrun

/-- The inode is unlocked. -/
theorem Standing.unlock (f : Fin 100) {t : State} (hvol : Vol sb L D N ∅ ∅ t)
    (hip : Caches t.icache ip n)
    (hbusy : (t.icache ip).busy = true) (hrefs : Referred t) (hslot : (t.ftable f).ip = ip)
    (hpos : (t.ftable f).off = off) (htype : (D n).type = T_FILE)
    (halone : (D n).child1 = 0 ∧ (D n).child2 = 0) (hm : Mapped (t.view 1) (D n))
    (hg : Good (t.view 1) D n) (hoff : off ≤ (D n).size.toNat) :
    ∃ t1, iunlock ip t = .ok () t1 ∧ Standing sb L D N f ip n off t1 ∧ t1.view = t.view ∧
      t1.ftable = t.ftable ∧ t1.log = t.log := by
  have hself : (t.setInode ip { t.icache ip with busy := false }).icache ip =
      { t.icache ip with busy := false } := setInode_self ..
  refine ⟨_, iunlock_apply hbusy hip.1, ⟨hvol.keep hip hip.1 rfl rfl rfl rfl, ⟨?_, ?_⟩, ?_, ?_,
    hslot, hpos, htype, halone, hm, hg, hoff⟩, rfl, rfl, rfl⟩
  · rw [hself]
    exact hip.1
  · rw [hself]
    exact hip.2
  · rw [hself]
  · intro j hj
    by_cases e : j = ip
    · rw [e, hself] at hj
      cases hj
    · rw [setInode_ne _ _ e] at hj ⊢
      exact hrefs j hj

/-- The transaction is committed. The file keeps its blocks and its contents. -/
theorem Standing.commit (h : Standing sb L D N f ip n off s) :
    ∃ s', commit_trans s = .ok () s' ∧ Writing sb L D N f ip n off s' ∧ s'.ftable = s.ftable ∧
      contents (s'.view 1) (D n) = contents (s.view 1) (D n) ∧
      freeList sb (s'.view 1) = freeList sb (s.view 1) ∧
      ∀ bn, blockAddr (s'.view 1) (D n) bn = blockAddr (s.view 1) (D n) bn := by
  obtain ⟨s', hrun, hj, hb, honly, hsame⟩ := h.vol.jrn.commit
  have hic : s'.icache = s.icache := honly.icache
  have hft : s'.ftable = s.ftable := honly.outside.ftable
  have hlive := (h.vol.live h.caches).2
  have hkeeps := (h.vol.own.log_sectors hsame).2
  obtain ⟨hm', hc'⟩ := hkeeps.file hlive rfl h.mapped
  refine ⟨s', hrun, ⟨⟨h.vol.same hj hic hsame, ?_, ?_, ?_, ?_, ?_, h.type, h.alone, hm', ?_,
    h.inside⟩, hb⟩, hft, hc', ?_, (hkeeps.blocks hlive).1⟩
  · rw [hic]
    exact h.caches
  · rw [hic]
    exact h.free
  · unfold Referred
    rw [hic]
    exact h.refs
  · rw [hft]
    exact h.slot
  · rw [hft]
    exact h.pos
  · unfold Good
    rw [hc']
    exact h.good
  · refine freeList_same h.vol.own.area (hsame.same 0) fun hm => ?_
    obtain ⟨b, -, he⟩ := Finset.mem_image.mp hm
    unfold BBLOCK at he
    omega

/-- The state of a chunk in which the inode is locked. -/
theorem Writing.enter (h : Writing sb L D N f ip n off s) :
    begin_trans s = .ok () s.begun ∧ ilock ip s.begun = .ok 0 (s.begun.locked ip) ∧
      Vol sb L D N ∅ ∅ (s.begun.locked ip) ∧ Loaded (s.begun.locked ip) ip n ∧
      ((s.begun.locked ip).icache ip).busy = true ∧
      Referred (s.begun.locked ip) ∧ secs (s.begun.locked ip) = ∅ := by
  have hbegun : Standing sb L D N f ip n off s.begun :=
    ⟨h.vol.begun, h.caches, h.free, h.refs, h.slot, h.pos, h.type, h.alone, h.mapped, h.good,
      h.inside⟩
  obtain ⟨hvol, hheld⟩ := hbegun.vol.locked hbegun.caches
  refine ⟨begin_trans_apply h.log, hbegun.lock, hvol, hheld, ?_, hbegun.refs.locked hbegun.caches,
    ?_⟩
  · rw [locked_self]
    exact (Inode.locked_meta _ _).2.2.2.1
  · obtain ⟨P, hP, hnil⟩ := h.vol.jrn.pending
    have hn : s.log.n = 0 := by
      rw [hP.n, hnil h.log]
      rfl
    show (Finset.range s.log.n).image s.log.sector = ∅
    rw [hn]
    rfl

/-- A chunk that fits into the file is written. -/
theorem Writing.put (h : Writing sb L D N f ip n off s)
    (hlog : chunkCost sb (s.view 1) (D n) ∅ (span off part.length) < min 20 (sb.nlog - 1))
    (hstock : Stock sb 0 (s.view 1) (D n) (span off part.length)) (hpos : 0 < part.length)
    (hmax : off + part.length ≤ 70656) :
    ∃ s' D', chunk f part s = .ok part.length s' ∧
      Writing sb L D' N f ip n (off + part.length) s' ∧
      contents (s'.view 1) (D' n) = overwrite (contents (s.view 1) (D n)) off part ∧
      Gets (span off part.length) (s.view 1) (D n) (s'.view 1) (D' n) ∧
      freeList sb (s'.view 1) =
        (freeList sb (s.view 1)).drop (lack (s.view 1) (D n) (span off part.length)) ∧
      s'.ftable = update s.ftable f { s.ftable f with off := off + part.length } := by
  obtain ⟨hbegin, hlock, hvol, hheld, hbusy, hrefs, hsecs⟩ := h.enter
  generalize hs1 : s.begun.locked ip = s1 at hlock hvol hheld hbusy hrefs hsecs
  have hview : s1.view = s.view := by rw [← hs1]; rfl
  have hft : s1.ftable = s.ftable := by rw [← hs1]; rfl
  have hlb : s1.log.busy = true := by rw [← hs1]; rfl
  have hneeds := @needs_alone (s1.view 1) D n (span off part.length) h.alone
  have hcard : (secs s1 ∪ writeSecs sb (s1.view 1) D n (span off part.length)).card <
      min 20 (sb.nlog - 1) := by
    rw [hsecs, Finset.empty_union, hview]
    exact Nat.lt_of_le_of_lt (card_writeSecs h.alone) hlog
  have hable : Able (fun _ _ => False) (D n).kids s1 := by
    rw [kids_nil h.alone.1 h.alone.2]
    exact Or.inr ⟨⟨∅, by simp, Nat.zero_le _⟩, fun j hj => ⟨hrefs j hj, by simp⟩⟩
  have hwrite := (Neutral.writei ip part off).locks (writei_wp hable hvol (write_txn hlb
    (Or.inr ⟨Finset.subset_union_left, by omega, by omega⟩)
    (by rw [hneeds, hview]; simpa [Stock] using hstock)) Finset.subset_union_right hheld (by simp)
    (Mirrors.alone sb h.alone) (by rw [group_alone h.alone, hview]; rintro k rfl; exact h.mapped)
    (by rw [h.type]; decide))
  obtain ⟨r, s2, hrun, ⟨href, -⟩ | ⟨-, rfl, D', hp⟩, hlocks⟩ := hwrite.returns
  · have := h.inside
    unfold Refused at href
    omega
  have hlocks2 := hlocks hrefs
  have hnG : n ∈ (D n).group n := Set.mem_insert n _
  have hvol2 := hp.vol
  rw [Set.empty_sdiff] at hvol2
  have hft2 : s2.ftable = s.ftable := hp.pins.outside.ftable.trans hft
  have hrefs2 : Referred s2 := by
    intro j hj
    rw [hlocks2 j] at hj
    have := hp.pins.ref j
    have := hrefs j hj
    omega
  have hdata : contents (s2.view 1) (D' n) = overwrite (contents (s.view 1) (D n)) off part := by
    rw [hp.data n hnG, hview]
  have hgood : Good (s2.view 1) D' n := by
    unfold Good
    rw [hdata, hp.sum n hnG, hview]
  have hsize : off + part.length ≤ (D' n).size.toNat := by
    rw [← length_contents (s2.view 1) (D' n), hdata,
      length_overwrite (by rw [length_contents]; exact h.inside)]
    exact Nat.le_max_right _ _
  obtain ⟨a, z, w, hD'⟩ := hp.file n hnG
  -- the offset is advanced
  have hft3 : (s2.setFile f { s2.ftable f with
      off := ((s2.ftable f).off + ((part.length : Nat) : Int).toNat) % 4294967296 }).ftable =
      update s.ftable f { s.ftable f with off := off + part.length } := by
    have hoff' : (off + ((part.length : Nat) : Int).toNat) % 4294967296 = off + part.length := by
      omega
    funext j
    show (if j = f then _ else s2.ftable j) = _
    rw [update_apply, hft2, h.pos, hoff']
  generalize hs3 : s2.setFile f { s2.ftable f with
    off := ((s2.ftable f).off + ((part.length : Nat) : Int).toNat) % 4294967296 } = s3 at hft3
  have hic3 : s3.icache = s2.icache := by rw [← hs3]; rfl
  have hview3 : s3.view = s2.view := by rw [← hs3]; rfl
  have hvol3 : Vol sb L D' N ∅ ∅ s3 := by
    rw [← hs3]
    exact hvol2.congr rfl rfl rfl rfl
  have hip3 : Caches s3.icache ip n := by
    rw [hic3]
    exact hp.pins.caches hheld.1
  have hpos3 : (s3.ftable f).off = off + part.length := by rw [hft3, update_self]
  obtain ⟨t1, hunlock, ht1, hview1, hft1, -⟩ := Standing.unlock f hvol3 hip3
    (by rw [hic3, hlocks2 ip]; exact hbusy) (by unfold Referred; rw [hic3]; exact hrefs2)
    (by rw [hft3, update_self]; exact h.slot) hpos3 (by rw [hD']; exact h.type)
    (by rw [hD']; exact h.alone) (by rw [hview3]; exact hp.mapped n hnG)
    (by rw [hview3]; exact hgood) hsize
  obtain ⟨s', hcommit, hw, hft', hc', hfree', haddr'⟩ := ht1.commit
  rw [hview1, hview3] at hc' hfree' haddr'
  have hgets := hp.gets.after haddr' rfl
  rw [hview] at hgets
  have hfree := hp.free
  rw [hneeds, hview] at hfree
  refine ⟨s', D', ?_, hw, hc'.trans hdata, hgets, hfree'.trans hfree, (hft'.trans hft1).trans hft3⟩
  unfold Zv6.chunk
  rw [Exec.bind_ok hbegin, Exec.gets_bind, show (s.begun.ftable f).ip = ip from h.slot,
    show (s.begun.ftable f).off = off from h.pos, Exec.bind_ok hlock, Exec.bind_ok hrun,
    Exec.when_pos (by omega), Exec.modify_bind, hs3, Exec.bind_ok hunlock, Exec.bind_ok hcommit]
  rfl

/-- A chunk that does not fit is refused, and nothing is written. -/
theorem Writing.refuse (h : Writing sb L D N f ip n off s) (hmax : 70656 < off + part.length) :
    ∃ s', chunk f part s = .ok (-1) s' ∧ Writing sb L D N f ip n off s' ∧
      contents (s'.view 1) (D n) = contents (s.view 1) (D n) ∧ s'.ftable = s.ftable := by
  obtain ⟨hbegin, hlock, hvol, hheld, hbusy, hrefs, hsecs⟩ := h.enter
  generalize hs1 : s.begun.locked ip = s1 at hlock hvol hheld hbusy hrefs hsecs
  have hview : s1.view = s.view := by rw [← hs1]; rfl
  have hft : s1.ftable = s.ftable := by rw [← hs1]; rfl
  have hpos1 : (s1.ftable f).off = off := by rw [hft]; exact h.pos
  have hh := hvol.has hheld (by simp)
  have hwrite : writei ip part off s1 = .ok (-1) s1 := by
    refine writei_refused ?_ (Or.inr (Or.inr hmax))
    have : (s1.icache ip).d.type = (D n).type := by rw [← hh.1]; rfl
    rw [this, h.type]
    decide
  obtain ⟨t1, hunlock, ht1, hview1, hft1, -⟩ := Standing.unlock f hvol hheld.1 hbusy hrefs
    (by rw [hft]; exact h.slot) hpos1 h.type h.alone (by rw [hview]; exact h.mapped)
    (by rw [hview]; exact h.good) h.inside
  obtain ⟨s', hcommit, hw, hft', hc', -⟩ := ht1.commit
  rw [hview1, hview] at hc'
  refine ⟨s', ?_, hw, hc', (hft'.trans hft1).trans hft⟩
  unfold Zv6.chunk
  rw [Exec.bind_ok hbegin, Exec.gets_bind, show (s.begun.ftable f).ip = ip from h.slot,
    show (s.begun.ftable f).off = off from h.pos, Exec.bind_ok hlock, Exec.bind_ok hwrite,
    Exec.when_neg (by decide), Exec.pure_bind_apply, Exec.bind_ok hunlock, Exec.bind_ok hcommit]
  rfl

end Chunk

/-! ## The loop -/

/-- How many of `len` bytes `filewrite` writes at `off`: all of them if they fit into a file,
    else the chunks that do. -/
def accepted (off len : Nat) : Nat :=
  if off + len ≤ 70656 then len else (70656 - off) / 4096 * 4096

theorem accepted_le (off len : Nat) : accepted off len ≤ len := by
  unfold accepted
  split <;> omega

theorem accepted_zero {off : Nat} (h : off ≤ 70656) : accepted off 0 = 0 := by
  unfold accepted
  rw [if_pos (by omega)]

/-- The first chunk fits. -/
theorem accepted_put {off len c : Nat} (hc : c = min len 4096) (h : off + c ≤ 70656) :
    accepted off len = c + accepted (off + c) (len - c) := by
  unfold accepted
  split <;> split <;> omega

/-- The first chunk does not fit. -/
theorem accepted_refuse {off len c : Nat} (hc : c = min len 4096) (h : 70656 < off + c) :
    accepted off len = 0 := by
  unfold accepted
  split <;> omega

/-- The loop of `filewrite` runs a chunk and goes on with the rest. -/
theorem filewriteLoop_succ (f : Fin 100) (fuel : Nat) {src : List UInt8} (h : src ≠ []) :
    filewriteLoop f (fuel + 1) src = chunk f (src.take (min src.length 4096)) >>= fun r =>
      if r < 0 then pure false
      else if r ≠ (min src.length 4096 : Nat) then Exec.panic "short filewrite"
      else filewriteLoop f fuel (src.drop (min src.length 4096)) := by
  conv => lhs; unfold filewriteLoop
  rw [if_neg h]
  unfold chunk
  simp only [Exec.bind_assoc]
  rfl

/-- Each of the chunks in which `len` bytes are written at `off` fits into the log. -/
def ChunksFit (sb : Superblock) (V : Nat → Block) (d : Dinode) (done : Finset Nat)
    (off len : Nat) : Prop :=
  ∀ k, 4096 * k < len → chunkCost sb V d (done ∪ span off (4096 * k))
    (span (off + 4096 * k) (min 4096 (len - 4096 * k))) < min 20 (sb.nlog - 1)

section Loop

variable {sb : Superblock} {L : Set Nat} {N : Nat → UInt16} {f ip : Fin 100} {n : Nat}
  {V0 : Nat → Block} {d0 : Dinode} {done : Finset Nat} {off len : Nat}

/-- The first chunk, and those after it. -/
theorem ChunksFit.head (h : ChunksFit sb V0 d0 done off len) (hlen : 0 < len) :
    chunkCost sb V0 d0 done (span off (min 4096 len)) < min 20 (sb.nlog - 1) := by
  have := h 0 hlen
  rwa [Nat.mul_zero, Nat.add_zero, Nat.sub_zero, show span off 0 = ∅ from rfl,
    Finset.union_empty] at this

theorem ChunksFit.tail (h : ChunksFit sb V0 d0 done off (4096 + len)) :
    ChunksFit sb V0 d0 (done ∪ span off 4096) (off + 4096) len := by
  intro k hk
  have := h (k + 1) (by omega)
  rwa [Nat.mul_succ, Nat.add_comm (4096 * k), span_add, ← Nat.add_assoc, ← Finset.union_assoc,
    Nat.add_sub_add_left] at this

/-- The whole loop, after the blocks `done` were written to: the bytes accepted are written at the
    offset, and the offset moves behind them. -/
theorem Writing.loop (fuel : Nat) :
    ∀ (src : List UInt8) (off : Nat) (D : Nat → Dinode) (s : State) (done : Finset Nat),
    src.length ≤ fuel → Writing sb L D N f ip n off s → Gets done V0 d0 (s.view 1) (D n) →
    freeList sb (s.view 1) = (freeList sb V0).drop (lack V0 d0 done) →
    ChunksFit sb V0 d0 done off (accepted off src.length) →
    lack V0 d0 (done ∪ span off (accepted off src.length)) ≤ (freeList sb V0).length →
    ∃ s' D', filewriteLoop f fuel src s = .ok (decide (off + src.length ≤ 70656)) s' ∧
      Writing sb L D' N f ip n (off + accepted off src.length) s' ∧
      contents (s'.view 1) (D' n) =
        overwrite (contents (s.view 1) (D n)) off (src.take (accepted off src.length)) ∧
      s'.ftable = update s.ftable f
        { s.ftable f with off := off + accepted off src.length } := by
  have hstay : ∀ {off : Nat} {s : State}, (s.ftable f).off = off →
      s.ftable = update s.ftable f { s.ftable f with off := off + 0 } := by
    intro off s hpos
    rw [Nat.add_zero, ← hpos, update_eq_self]
  -- nothing left to write
  have hdone : ∀ (fuel off : Nat) (D : Nat → Dinode) (s : State), Writing sb L D N f ip n off s →
      filewriteLoop f fuel [] s = .ok (decide (off + 0 ≤ 70656)) s ∧ accepted off 0 = 0 := by
    intro fuel off D s h
    have hsize := h.mapped.size_le
    have hoff := h.inside
    have hok : decide (off + 0 ≤ 70656) = true := decide_eq_true (by omega)
    rw [hok]
    refine ⟨?_, accepted_zero (by omega)⟩
    cases fuel <;> rfl
  induction fuel with
  | zero =>
    intro src off D s _ hlen h _ _ _ _
    obtain rfl : src = [] := List.eq_nil_of_length_eq_zero (by omega)
    obtain ⟨hrun, h0⟩ := hdone 0 off D s h
    rw [List.length_nil, h0, List.take_nil, overwrite_nil]
    exact ⟨s, D, hrun, h, rfl, hstay h.pos⟩
  | succ fuel ih =>
    intro src off D s done hlen h hgets hfree hfit hstock
    by_cases hnil : src = []
    · subst hnil
      obtain ⟨hrun, h0⟩ := hdone (fuel + 1) off D s h
      rw [List.length_nil, h0, List.take_nil, overwrite_nil]
      exact ⟨s, D, hrun, h, rfl, hstay h.pos⟩
    · have hpos : 0 < src.length := List.length_pos_iff.mpr hnil
      rw [filewriteLoop_succ f fuel hnil]
      generalize hc : min src.length 4096 = c
      have htake : (src.take c).length = c := by
        rw [List.length_take]
        omega
      have hdrop : (src.drop c).length = src.length - c := List.length_drop
      by_cases hmax : off + c ≤ 70656
      · have hacc := @accepted_put off src.length c hc.symm hmax
        have hmin : min 4096 (accepted off src.length) = c := by
          have hrest := accepted_le (off + c) (src.length - c)
          omega
        have hcost := hfit.head (by omega)
        have hlack := hgets.lack (span off c)
        have hmono : lack V0 d0 (done ∪ span off c) ≤
            lack V0 d0 (done ∪ span off (accepted off src.length)) := by
          rw [hacc, span_add, ← Finset.union_assoc]
          exact lack_mono Finset.subset_union_left
        rw [hmin, ← hgets.chunkCost hfree] at hcost
        have hstock1 : Stock sb 0 (s.view 1) (D n) (span off c) := by
          unfold Stock
          rw [← length_freeList, hfree, List.length_drop]
          omega
        rw [← htake] at hcost hstock1
        obtain ⟨s1, D1, hrun, h1, hc1, hg1, hf1, hft1⟩ := h.put hcost hstock1 (by omega) (by omega)
        rw [htake] at hrun h1 hft1 hg1 hf1
        have hg1 := hgets.trans hg1
        rw [hfree, List.drop_drop, hlack] at hf1
        rw [hacc] at hfit hstock ⊢
        rw [span_add, ← Finset.union_assoc] at hstock
        obtain ⟨s2, D2, hrun2, h2, hc2, hft2⟩ := ih (src.drop c) (off + c) D1 s1 _ (by omega) h1 hg1
          hf1 (by
            rw [hdrop]
            by_cases hfull : c = 4096
            · subst hfull
              exact hfit.tail
            · intro k hk
              have hrest := accepted_le (off + c) (src.length - c)
              omega)
          (by rw [hdrop]; exact hstock)
        rw [hdrop] at hrun2 h2 hc2 hft2
        refine ⟨s2, D2, ?_, ?_, ?_, ?_⟩
        · rw [Exec.bind_ok hrun, if_neg (by omega), if_neg (by simp), hrun2]
          have : off + c + (src.length - c) = off + src.length := by omega
          rw [this]
        · rw [← Nat.add_assoc]
          exact h2
        · have hin : off ≤ (contents (s.view 1) (D n)).length := by
            rw [length_contents]
            exact h.inside
          have happend := @overwrite_append _ _ (src.take c) _ hin
            ((src.drop c).take (accepted (off + c) (src.length - c)))
          rw [htake] at happend
          rw [hc2, hc1, happend, ← List.take_add]
        · rw [hft2, hft1, update_idem, update_self, Nat.add_assoc]
      · have hacc : accepted off src.length = 0 := accepted_refuse hc.symm (by omega)
        obtain ⟨s1, hrun, h1, hc1, hft1⟩ :=
          h.refuse (show 70656 < off + (src.take c).length by omega)
        rw [hacc, List.take_zero, overwrite_nil]
        refine ⟨s1, D, ?_, h1, hc1, ?_⟩
        · have hno : decide (off + src.length ≤ 70656) = false := decide_eq_false (by omega)
          rw [Exec.bind_ok hrun, if_pos (by decide), hno]
          rfl
        · rw [hft1]
          exact hstay h.pos

end Loop

/-! ## The call -/

/-- The open file `f` for the inode `n` without dittos in slot `ip`, at an offset inside the file.
    The file has no holes and matches its checksum; the inode is not locked, and no transaction is
    open. -/
structure OpenFile (sb : Superblock) (L : Set Nat) (D : Nat → Dinode) (N : Nat → UInt16)
    (f ip : Fin 100) (n off : Nat) (s : State) : Prop where
  vol : Vol sb L D N ∅ ∅ s
  mapped : Mapped (s.view 1) (D n)
  good : Good (s.view 1) D n
  log : s.log.busy = false
  caches : Caches s.icache ip n
  free : (s.icache ip).busy = false
  refs : Referred s
  inode : (s.ftable f).type = .inode
  writable : (s.ftable f).writable = true
  slot : (s.ftable f).ip = ip
  pos : (s.ftable f).off = off
  type : (D n).type = T_FILE
  alone : (D n).child1 = 0 ∧ (D n).child2 = 0
  inside : off ≤ (D n).size.toNat

section Call

variable {sb : Superblock} {L : Set Nat} {D : Nat → Dinode} {N : Nat → UInt16} {s : State}
  {f ip : Fin 100} {n off : Nat}

theorem OpenFile.writing (h : OpenFile sb L D N f ip n off s) : Writing sb L D N f ip n off s :=
  ⟨⟨h.vol, h.caches, h.free, h.refs, h.slot, h.pos, h.type, h.alone, h.mapped, h.good, h.inside⟩,
    h.log⟩

/-- The inode is locked once, verified if need be, and unlocked before the first chunk. -/
theorem Writing.start (h : Writing sb L D N f ip n off s) :
    ∃ s1, ilock_trans ip s = .ok 0 (s.locked ip) ∧ iunlock ip (s.locked ip) = .ok () s1 ∧
      Writing sb L D N f ip n off s1 ∧ s1.view = s.view ∧ s1.ftable = s.ftable := by
  obtain ⟨hvol, hheld⟩ := h.vol.locked h.caches
  have hbusy : ((s.locked ip).icache ip).busy = true := by
    rw [locked_self]
    exact (Inode.locked_meta _ _).2.2.2.1
  obtain ⟨s1, hunlock, h1, hview, hft, hlog⟩ := Standing.unlock f hvol hheld.1 hbusy
    (h.refs.locked h.caches) h.slot h.pos h.type h.alone h.mapped h.good h.inside
  refine ⟨s1, ?_, hunlock, ⟨h1, ?_⟩, hview, hft⟩
  · unfold ilock_trans
    rw [Exec.bind_ok h.lock, if_pos rfl]
    rfl
  · rw [hlog]
    exact h.log

end Call

/-- An empty file. -/
def emptyFile : List Spec :=
  [{ type := T_DIR, checksum := 0, data := [] }, { type := T_FILE, checksum := 0, data := [] }]

/-- The empty file open at its end. -/
theorem emptyFile_open {top : Nat} (htop : 26 ≤ top) :
    OpenFile imageSb (leaked imageSb (image top emptyFile) (table (image top emptyFile)))
      (table (image top emptyFile)) (imageLinks top emptyFile) 0 0 2 0
      (fileMachine top emptyFile 2 0) := by
  have hok : SpecsOk emptyFile := by decide +kernel
  have htab : table (image top emptyFile) 2 = (dinodeAt emptyFile 2).core :=
    table_image _ _ (by decide)
  have hlive : Live imageSb (table (image top emptyFile)) 2 :=
    ⟨by decide, by decide, by rw [htab]; decide⟩
  have hlen : 6 + 10 * emptyFile.length ≤ top := htop
  have hsound := image_sound hok (by decide +kernel) hlen
  refine ⟨(machine_vol hok hlen hlive).congr rfl rfl rfl rfl, hsound.mapped 2 hlive (by simp),
    hsound.good 2 hlive (by simp), rfl, (machine_caches top emptyFile 2).mpr ⟨rfl, rfl⟩,
    rfl, ?_, rfl, rfl, rfl, rfl, ?_, ?_, Nat.zero_le _⟩
  · intro j hj
    change (if j = 0 then { Inode.unused with dev := 1, inum := 2, ref := 1 }
      else Inode.unused : Inode).busy = true at hj
    split at hj <;> cases hj
  · rw [htab]
    rfl
  · rw [htab]
    exact ⟨rfl, rfl⟩

theorem imageSb_chunkFits : ChunkFits imageSb 2 := by
  unfold ChunkFits
  decide +kernel

end Zv6
