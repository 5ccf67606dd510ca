/-
  Writing to an inode and its dittos (`writei_ext`).

  `Fill M` is what the copy loops did to the files `M`: the bytes from `off` on are `src`, all
  other bytes are as they were. `writei_wp`: the contents of the inode and of its dittos are
  overwritten, the size grows if need be, and all of them are stored with the new checksum of the
  inode. The blocks allocated and the sectors logged are those that `needs` and `writeSecs` say.
-/
import Mathlib.Data.Finset.Union
import Zv6.Fs.Update

namespace Zv6

open Lib

/-- The files `M` were written to: `src` from `off` on. -/
structure Fill (sb : Superblock) (M : Set Nat) (off : Nat) (src : List UInt8) (V : Nat → Block)
    (D : Nat → Dinode) (V' : Nat → Block) (D' : Nat → Dinode) : Prop where
  addrs : ∀ k, ∃ a, D' k = { D k with addrs := a }
  touch : Touch sb M V D V' D'
  gets : ∀ k, k ∈ M → Gets (span off src.length) V (D k) V' (D' k)
  inside : ∀ k, k ∈ M → ∀ o, off ≤ o → o < off + src.length →
    byteAt V' (D' k) o = src.getD (o - off) 0
  outside : ∀ k, k ∈ M → ∀ o, o < off ∨ off + src.length ≤ o → blockAddr V (D k) (o / 512) ≠ 0 →
    byteAt V' (D' k) o = byteAt V (D k) o

section Fill

variable {sb : Superblock} {M : Set Nat} {off : Nat} {src : List UInt8} {V V' V'' : Nat → Block}
  {D D' D'' : Nat → Dinode} {k c : Nat}

theorem Fill.live (h : Fill sb M off src V D V' D') : Live sb D' k ↔ Live sb D k := by
  obtain ⟨a, ha⟩ := h.addrs k
  unfold Live
  rw [ha]

/-- A file outside `M` keeps its blocks and their bytes. -/
theorem Touch.byteAt (h : Touch sb M V D V' D') (hk : k ∉ M) (hl : Live sb D k) {o : Nat}
    (h0 : Zv6.blockAddr V (D k) (o / 512) ≠ 0) : byteAt V' (D' k) o = byteAt V (D k) o := by
  have hb := h.block (.data k (o / 512)) hk
  rw [adr_data hl] at hb
  unfold Zv6.byteAt
  rw [h.blockAddr hk hl, hb fun e => h0 (UInt32.toNat_inj.mp e)]

/-- One more file is written to. -/
theorem Fill.step (h : Fill sb M off src V D V' D') (h' : Fill sb {c} off src V' D' V'' D'')
    (hc : c ∉ M) (hM : ∀ k, k ∈ insert c M → Live sb D k) :
    Fill sb (insert c M) off src V D V'' D'' := by
  have hne : ∀ k, k ∈ M → k ∉ ({c} : Set Nat) := by
    rintro k hk rfl
    exact hc hk
  have hlive : ∀ k, k ∈ M → Live sb D' k :=
    fun k hk => h.live.mpr (hM k (Set.mem_insert_of_mem c hk))
  have hcl : Live sb D c := hM c (Set.mem_insert c M)
  have hself : c ∈ ({c} : Set Nat) := rfl
  have hca := h.touch.blockAddr hc hcl
  refine ⟨?_, ?_, ?_, ?_, ?_⟩
  · intro k
    obtain ⟨a, ha⟩ := h.addrs k
    obtain ⟨a', ha'⟩ := h'.addrs k
    exact ⟨a', by rw [ha', ha]⟩
  · exact (h.touch.mono (Set.subset_insert c M)).trans (h'.touch.mono (by simp))
  · rintro k (rfl | hk)
    · exact (h'.gets k hself).before hca (by rw [h.touch.table k hc])
    · exact (h.gets k hk).after (h'.touch.blockAddr (hne k hk) (hlive k hk))
        (by rw [h'.touch.table k (hne k hk)])
  · rintro k (rfl | hk) o h1 h2
    · exact h'.inside k hself o h1 h2
    · rw [h'.touch.byteAt (hne k hk) (hlive k hk) ((h.gets k hk).there _ (mem_span h1 h2)),
        h.inside k hk o h1 h2]
  · rintro k (rfl | hk) o h1 h0
    · rw [h'.outside k hself o h1 (by rw [hca]; exact h0), h.touch.byteAt hc hcl h0]
    · have hk0 := (h.gets k hk).kept _ h0
      rw [h'.touch.byteAt (hne k hk) (hlive k hk) (by rw [hk0]; exact h0), h.outside k hk o h1 h0]

/-- What is in a file that was written to, once its size is set. -/
theorem Fill.contents (h : Fill sb M off src V D V' D') (hk : k ∈ M) (hm : Mapped V (D k))
    (hoff : off ≤ (D k).size.toNat) (hmax : off + src.length ≤ 70656) {d : Dinode}
    (hd : d.addrs = (D' k).addrs) (hs : d.size.toNat = max (D k).size.toNat (off + src.length)) :
    contents V' d = overwrite (contents V (D k)) off src ∧ Mapped V' d := by
  have haddr := fun bn => blockAddr_addrs hd V' bn
  have hbyte := fun o => byteAt_addrs hd V' o
  have hsize := hm.size_le
  have hlen : off ≤ (Zv6.contents V (D k)).length := by rw [length_contents]; exact hoff
  constructor
  · apply List.ext_getElem?
    intro o
    rw [getElem?_overwrite hlen]
    by_cases ho : o < d.size.toNat
    · rw [getElem?_contents V' d ho, hbyte]
      by_cases hin : off ≤ o ∧ o < off + src.length
      · rw [if_pos hin, h.inside k hk o hin.1 hin.2, List.getD_eq_getElem?_getD]
        rw [List.getElem?_eq_getElem (by omega)]
        rfl
      · rw [if_neg hin, h.outside k hk o (by omega) (hm.block _ (by omega)),
          getElem?_contents V (D k) (by omega)]
    · rw [List.getElem?_eq_none (by rw [length_contents]; omega), if_neg (by omega),
        List.getElem?_eq_none (by rw [length_contents]; omega)]
  · refine ⟨by omega, fun bn hbn => ?_⟩
    rw [haddr]
    by_cases hb : bn * 512 < (D k).size.toNat
    · have h0 := hm.block bn hb
      rw [(h.gets k hk).kept bn h0]
      exact h0
    · -- the block lies in what was written: it holds a byte behind the old end
      have hle : off ≤ bn * 512 := by omega
      have := (h.gets k hk).there _ (mem_span (o := bn * 512) hle (by omega))
      rwa [Nat.mul_div_cancel _ (by omega)] at this

end Fill

/-! ## The copy loops -/

/-- How many blocks a write to the blocks `bns` of the files `l` allocates. -/
def needs (V : Nat → Block) (D : Nat → Dinode) (bns : Finset Nat) (l : List Nat) : Nat :=
  (l.map fun k => lack V (D k) bns).sum

/-- The state after the files `l` were written to, the inode `n` among them and the dittos `K`,
    with `t` blocks allocated and `f` left; their sizes and checksums are not yet set. -/
structure FillPost (E : Stop Chan → State → Prop) (sb : Superblock) (L : Set Nat)
    (D : Nat → Dinode) (N : Nat → UInt16) (A Z M K : Set Nat) (B : Finset Nat) (f t off : Nat)
    (src : List UInt8) (s : State) (D' : Nat → Dinode) (s' : State) : Prop where
  vol : Vol sb L D' N (M ∪ A) Z s'
  txn : Txn E sb B f s'
  pins : Pins K s s'
  fill : Fill sb M off src (s.view 1) D (s'.view 1) D'
  spent : Spent sb t s s'
  held : ∀ k, k ∈ M → held (s.view 1) (D k) (span off src.length) ⊆ secs s'

section Writei

variable {E : Stop Chan → State → Prop} {sb : Superblock} {L : Set Nat} {D : Nat → Dinode}
  {N : Nat → UInt16} {A Z : Set Nat} {B : Finset Nat} {s s' : State}
  {ip ic : Fin 100} {n c off f t : Nat} {src : List UInt8}

theorem LoopPost.fill {a : Fin 11 → UInt32} (h : LoopPost sb L D n ip off src s a s') :
    Fill sb {n} off src (s.view 1) D (s'.view 1) (withAddrs D n a) := by
  refine ⟨fun k => ?_, h.wrote.touch, ?_, ?_, ?_⟩
  · by_cases hk : k = n
    · subst hk
      exact ⟨a, withAddrs_self D k a⟩
    · exact ⟨_, withAddrs_of_ne D a hk⟩
  · rintro k rfl
    exact h.took.toGets
  · rintro k rfl
    exact h.inside
  · rintro k rfl
    exact h.outside

theorem writeiLoop_fill (h : Vol sb L D N A Z s)
    (ht : Txn E sb B (f + lack (s.view 1) (D n) (span off src.length)) s)
    (hB : held (s.view 1) (D n) (span off src.length) ⊆ B) (hip : Loaded s ip n) (hZ : n ∉ Z)
    (hmax : off + src.length ≤ 70656) :
    wp (writeiLoop ip src.length off src) (fun _ s' => ∃ D',
      FillPost E sb L D N A Z {n} ∅ B f (lack (s.view 1) (D n) (span off src.length)) off src s
        D' s') E s := by
  refine (writeiLoop_wp src.length off src D s (Nat.le_refl _) h.jrn h.own (h.holding hip hZ) hmax
    ht hB).post ?_
  rintro _ s' ⟨a, hp, ht'⟩
  obtain ⟨hs, hl⟩ := Finset.union_subset_iff.mp hp.logged
  obtain ⟨hheld, hfresh⟩ := Finset.union_subset_iff.mp hl
  refine ⟨_, (h.wrote hip hp.wrote hZ).1, ht', ?_, hp.fill,
    ⟨hp.took.free, Finset.union_subset hs hfresh⟩, ?_⟩
  · have p1 : Pins ∅ s
        (s.setInode ip { s.icache ip with d := { (s.icache ip).d with addrs := a } }) :=
      pins_setInode rfl rfl id
    exact p1.trans (hp.wrote.only.pins ∅)
  · rintro k rfl
    exact hheld

/-- A ditto is written to alone, and its size is left. -/
theorem writeDitto_wp {depth : Nat} (h : Vol sb L D N A Z s)
    (ht : Txn E sb B (f + lack (s.view 1) (D n) (span off src.length)) s)
    (hB : held (s.view 1) (D n) (span off src.length) ⊆ B) (hip : Loaded s ip n) (hZ : n ∉ Z)
    (hditto : (D n).type = T_DITTO) (hkids : (D n).child1 = 0 ∧ (D n).child2 = 0)
    (hoff : off ≤ (D n).size.toNat) (hmax : off + src.length ≤ 70656) :
    wp (writeiExt (depth + 1) ip src off false) (fun _ s' => ∃ D',
      FillPost E sb L D N A Z {n} ∅ B f (lack (s.view 1) (D n) (span off src.length)) off src s
        D' s') E s := by
  have hh := (h.has hip hZ).1
  have htype : (s.icache ip).d.type = T_DITTO := by rw [← hditto, ← hh]; rfl
  have hsize : (s.icache ip).d.size = (D n).size := by rw [← hh]; rfl
  have h1 : (s.icache ip).d.child1 = 0 := by rw [← hkids.1, ← hh]; rfl
  have h2 : (s.icache ip).d.child2 = 0 := by rw [← hkids.2, ← hh]; rfl
  unfold writeiExt
  refine wp_ok_bind (inode_apply _ _) ?_
  rw [htype, hsize, h1, h2]
  refine wp_ite (fun hn => absurd hn (by decide)) fun _ => ?_
  refine wp_ite (fun hn => by omega) fun _ => wp_ite (fun hn => by omega) fun _ => ?_
  refine (writeiLoop_fill h ht hB hip hZ hmax).bind ?_
  intro _ s1 h1
  have hnone : ∀ w : Fin 100 → K Int, writeChild w (s.icache ip).dev 0 s1 = .ok () s1 :=
    fun _ => rfl
  refine wp_bind.mpr (wp_when (fun _ => ?_) fun hn => absurd rfl hn)
  refine wp_ok_bind (hnone _) ((wp_of_ok (hnone _)).mpr ?_)
  exact wp_ite (fun _ => h1) fun hn => absurd rfl hn

/-- One ditto's share of a write. -/
theorem childWrite_wp {depth : Nat} {M K R : Set Nat} {D0 : Nat → Dinode} {s0 : State}
    (hE : Able E R s) (hR : c ∈ R)
    (h : FillPost E sb L D0 N A Z M K B (f + lack (s0.view 1) (D0 c) (span off src.length)) t off
      src s0 D s)
    (hB : held (s0.view 1) (D0 c) (span off src.length) ⊆ B)
    (hM : ∀ k, k ∈ M → Live sb D0 k) (hcM : c ∉ M) (hZ : c ∉ Z) (hlive : Live sb D0 c)
    (hditto : (D0 c).type = T_DITTO) (hkids : (D0 c).child1 = 0 ∧ (D0 c).child2 = 0)
    (hoff : off ≤ (D0 c).size.toNat) (hmax : off + src.length ≤ 70656) :
    wp (do
      let ci ← iget 1 c
      let _ ← ilock_ext ci false
      let _ ← writeiExt (depth + 1) ci src off false
      iunlock ci) (fun _ s' => ∃ D',
        FillPost E sb L D0 N A Z (insert c M) (insert c K) B f
          (t + lack (s0.view 1) (D0 c) (span off src.length)) off src s0 D' s' ∧
        Able E R s') E s := by
  have hD : D c = D0 c := h.fill.touch.table c hcM
  refine (hE.iget h.vol hR).bind ?_
  rintro ci s1 ⟨hg, hE1⟩
  have h1 := h.vol.got hg (h.fill.live.mpr hlive)
  refine (h1.ilock_ext (hE1.busy hg.caches hR) hg.caches false (by simp)).bind ?_
  rintro _ _ ⟨-, rfl⟩
  obtain ⟨h2, hl2⟩ := h1.locked hg.caches
  -- the ditto's blocks are where they were before the files `M` were written to
  have hv : (s1.locked ci).view 1 = s.view 1 := by
    show s1.view 1 = s.view 1
    rw [hg.cacheOnly.view]
  have haddr := h.fill.touch.blockAddr hcM hlive
  have hlack : lack ((s1.locked ci).view 1) (D c) (span off src.length) =
      lack (s0.view 1) (D0 c) (span off src.length) := by
    rw [hv]
    exact lack_congr haddr (by rw [hD])
  have hheld : held ((s1.locked ci).view 1) (D c) (span off src.length) =
      held (s0.view 1) (D0 c) (span off src.length) := by
    rw [hv]
    exact held_congr haddr (by rw [hD])
  have ht2 : Txn E sb B (f + lack (s0.view 1) (D0 c) (span off src.length)) (s1.locked ci) :=
    (h.txn.got hg).setInode ci _
  have hsec : secs (s1.locked ci) = secs s := hg.secs
  refine ((Neutral.writeiExt _ ci src off false).locks (writeDitto_wp h2 (by rw [hlack]; exact ht2)
    (by rw [hheld]; exact hB) hl2 hZ (by rw [hD]; exact hditto)
    (by rw [hD]; exact hkids) (by rw [hD]; exact hoff) hmax)).bind ?_
  rintro _ s3 ⟨⟨D', h3⟩, hlocks⟩
  obtain ⟨hr, -, hi, hb, hval⟩ := Inode.locked_meta (s1.icache ci) (s1.view 1)
  have hself : ((s1.locked ci).icache ci).busy = true := by
    rw [locked_self]
    exact hb
  refine (h3.vol.iunlock (fun hb3 => ?_) (h3.pins.caches hl2.1)).post ?_
  · rcases hE1 with hE1 | hE1
    · exact hE1.iunlock s3
    · rw [hlocks (hE1.referred.locked hg.caches) ci, hself] at hb3
      cases hb3
  rintro _ _ ⟨rfl, h4⟩
  rw [← Set.union_assoc, Set.singleton_union] at h4
  have hp : Pins ∅ s1 (s3.setInode ci { s3.icache ci with busy := false }) := by
    have p2 : Pins ∅ s1 (s1.locked ci) := pins_setInode hr hi fun _ => hval
    have p4 : Pins ∅ s3 (s3.setInode ci { s3.icache ci with busy := false }) :=
      pins_setInode rfl rfl id
    exact (p2.trans h3.pins).trans p4
  have hsp : Spent sb (lack (s0.view 1) (D0 c) (span off src.length)) s
      (s3.setInode ci { s3.icache ci with busy := false }) := by
    have := h3.spent
    rw [hlack] at this
    exact ⟨by rw [← hv]; exact this.free, by rw [← hv, ← hsec]; exact this.logged⟩
  refine ⟨D', ⟨h4, h3.txn.setInode _ _, ?_, ?_, h.spent.trans hsp, ?_⟩,
    hE1.imp_right fun hv1 => hv1.pins hp fun x hx => ?_⟩
  · exact ((h.pins.mono (Set.subset_insert c K)).trans (hg.pins.mono (by simp))).trans
      (hp.mono (Set.empty_subset _))
  · have hf := h3.fill
    rw [hv] at hf
    exact h.fill.step hf hcM fun k hk => hk.elim (fun e => e ▸ hlive) (hM k)
  · rintro k (rfl | hk)
    · have := h3.held k rfl
      rw [hheld] at this
      exact this
    · exact (h.held k hk).trans (Finset.union_subset_iff.mp hsp.logged).1
  · by_cases e : x = ci
    · subst e
      rw [setInode_self] at hx
      cases hx
    · rw [setInode_ne _ _ e, hlocks (hv1.referred.locked hg.caches) x, locked_ne s1 e] at hx
      exact hx

/-- What a write needs to know of the dittos of inode `n`. -/
structure Mirrors (sb : Superblock) (D : Nat → Dinode) (n : Nat) : Prop where
  kids : Kids sb D n (D n)
  apart : (D n).child false ≠ 0 → (D n).child false ≠ (D n).child true
  childless : ∀ c, c ∈ (D n).kids → (D c).child1 = 0 ∧ (D c).child2 = 0
  size : ∀ c, c ∈ (D n).kids → (D c).size = (D n).size

/-- The share of the first or the second ditto, if there is one. -/
theorem kidWrite_wp {depth : Nat} {M K : Set Nat} {D0 : Nat → Dinode} {s0 : State} {i : Bool}
    {w : UInt16} (hE : Able E (D0 n).kids s)
    (h : FillPost E sb L D0 N A Z M K B
      (f + needs (s0.view 1) D0 (span off src.length) ((D0 n).kidList i)) t off src s0 D s)
    (hB : ∀ c ∈ (D0 n).kidList i, held (s0.view 1) (D0 c) (span off src.length) ⊆ B)
    (hM : ∀ k, k ∈ M → Live sb D0 k) (hd : Mirrors sb D0 n)
    (hiM : ∀ c ∈ (D0 n).kid i, c ∉ M) (hZ : ∀ c ∈ (D0 n).kids, c ∉ Z)
    (hoff : off ≤ (D0 n).size.toNat) (hw : (D0 n).child i = w.toNat)
    (hi : (D0 n).kid i ⊆ (D0 n).kids) (hmax : off + src.length ≤ 70656) :
    wp (writeChild (fun ci => writeiExt (depth + 1) ci src off false) 1 w) (fun _ s' => ∃ D',
      FillPost E sb L D0 N A Z ((D0 n).kid i ∪ M) ((D0 n).kid i ∪ K) B f
        (t + needs (s0.view 1) D0 (span off src.length) ((D0 n).kidList i)) off src s0 D' s' ∧
      Able E (D0 n).kids s') E s := by
  unfold writeChild
  refine wp_when (fun h0 => ?_) fun h0 => ?_
  · have h0' := toNat_ne_zero.mpr h0
    have hself : (D0 n).kid i = {w.toNat} := by
      ext c
      simp [Dinode.kid, hw, h0', eq_comm]
    have hlist : (D0 n).kidList i = [w.toNat] := by
      unfold Dinode.kidList
      rw [hw, if_neg h0']
    have hm : w.toNat ∈ (D0 n).kids := hi (by rw [hself]; rfl)
    obtain ⟨hlive, hditto, hne⟩ := hd.kids _ hm
    have := h.vol.own.ninodes
    have := hlive.2.1
    rw [hlist] at h hB ⊢
    rw [hself, sext_of_lt (by omega), Set.singleton_union, Set.singleton_union]
    exact childWrite_wp hE hm h (hB _ List.mem_cons_self) hM (hiM _ (by rw [hself]; rfl)) (hZ _ hm)
      hlive hditto (hd.childless _ hm) (by rw [hd.size _ hm]; exact hoff) hmax
  · rw [not_not] at h0
    have hself : (D0 n).kid i = ∅ := by
      ext c
      simp [Dinode.kid, hw, h0]
    have hlist : (D0 n).kidList i = [] := by
      unfold Dinode.kidList
      rw [hw, h0]
      rfl
    rw [hlist] at h ⊢
    rw [hself, Set.empty_union, Set.empty_union]
    exact ⟨D, h, hE⟩

/-! ## writei -/

/-- How many dittos an inode has. -/
def Dinode.ndittos (d : Dinode) : Nat :=
  (if d.child1 = 0 then 0 else 1) + if d.child2 = 0 then 0 else 1

/-- The inode and its dittos. -/
def Dinode.group (d : Dinode) (n : Nat) : Set Nat := insert n d.kids

/-- The sectors that a write to the blocks `bns` of inode `n` and its dittos logs, up to the last
    dinode. -/
def writeSecs (sb : Superblock) (V : Nat → Block) (D : Nat → Dinode) (n : Nat) (bns : Finset Nat) :
    Finset Nat :=
  ((D n).members n).toFinset.biUnion (fun k => held V (D k) bns) ∪
    (fresh sb ((freeList sb V).take (needs V D bns ((D n).members n))) ∪
      (((D n).members n).dropLast.map IBLOCK).toFinset)

/-- What a write to inode `n` and its dittos did. -/
structure SpreadPost (sb : Superblock) (L : Set Nat) (D : Nat → Dinode) (N : Nat → UInt16)
    (A Z : Set Nat) (n off : Nat) (src : List UInt8) (s : State) (D' : Nat → Dinode)
    (s' : State) : Prop where
  vol : Vol sb L D' N (A \ (D n).group n) Z s'
  pins : Pins (D n).kids s s'
  touch : Touch sb ((D n).group n) (s.view 1) D (s'.view 1) D'
  file : ∀ k, k ∈ (D n).group n → ∃ a z w, D' k = { D k with addrs := a, size := z, checksum := w }
  mapped : ∀ k, k ∈ (D n).group n → Mapped (s'.view 1) (D' k)
  data : ∀ k, k ∈ (D n).group n →
    contents (s'.view 1) (D' k) = overwrite (contents (s.view 1) (D k)) off src
  sum : ∀ k, k ∈ (D n).group n →
    (D' k).checksum = checksumOf (overwrite (contents (s.view 1) (D n)) off src)
  gets : Gets (span off src.length) (s.view 1) (D n) (s'.view 1) (D' n)
  free : freeList sb (s'.view 1) = (freeList sb (s.view 1)).drop
    (needs (s.view 1) D (span off src.length) ((D n).members n))
  room : (secs s ∪ writeSecs sb (s.view 1) D n (span off src.length)).card < min 20 (sb.nlog - 1)

/-- The dittos had the contents of the inode, and have them again. -/
theorem SpreadPost.good {D' : Nat → Dinode} (h : SpreadPost sb L D N A Z n off src s D' s')
    (hm : ∀ k ∈ (D n).group n, contents (s.view 1) (D k) = contents (s.view 1) (D n)) :
    ∀ k ∈ (D n).group n, Good (s'.view 1) D' k ∧
      contents (s'.view 1) (D' k) = overwrite (contents (s.view 1) (D n)) off src := by
  intro k hk
  have hdata := (h.data k hk).trans (by rw [hm k hk])
  refine ⟨?_, hdata⟩
  unfold Good
  rw [hdata, h.sum k hk]

/-- The writes that `writei` refuses. -/
def Refused (d : Dinode) (off len : Nat) : Prop :=
  d.size.toNat < off ∨ (off + len) % 4294967296 < off ∨ 70656 < off + len

/-- The size `writei` sets. -/
def grown (size : UInt32) (off len : Nat) : UInt32 :=
  if 0 < len ∧ size.toNat < off + len then UInt32.ofNat (off + len) else size

theorem toNat_grown {size : UInt32} {off len : Nat} (hoff : off ≤ size.toNat)
    (hmax : off + len ≤ 70656) : (grown size off len).toNat = max size.toNat (off + len) := by
  unfold grown
  split
  · rw [UInt32.toNat_ofNat', Nat.mod_eq_of_lt (by omega)]
    omega
  · omega

theorem mem_members {d : Dinode} {k : Nat} : k ∈ d.members n ↔ k ∈ d.group n := by
  have hkid : ∀ i, k ∈ d.kidList i ↔ k ∈ d.kid i := by
    intro i
    unfold Dinode.kidList Dinode.kid
    split
    · next h => simp [h]
    · next h => simp [h, eq_comm]
  unfold Dinode.members Dinode.group Dinode.kids
  rw [List.mem_cons, List.mem_append, hkid, hkid, Set.mem_insert_iff, Set.mem_union,
    or_comm (a := _ ∈ _)]

/-- The end of `writei`: the files are written, sizes and checksums are set and stored. -/
theorem writeEnd_wp {M : Set Nat} {D0 : Nat → Dinode} {s0 : State} (hE : Able E (D0 n).kids s)
    (h : FillPost E sb L D0 N A Z M (D0 n).kids B 0
      (needs (s0.view 1) D0 (span off src.length) ((D0 n).members n)) off src s0 D s)
    (hM : M = (D0 n).group n)
    (hip : Loaded s0 ip n) (hZ : ∀ c ∈ (D0 n).group n, c ∉ Z) (hd : Mirrors sb D0 n)
    (hm : ∀ k ∈ (D0 n).group n, Mapped (s0.view 1) (D0 k)) (hdev : (D0 n).type ≠ T_DEV)
    (hoff : off ≤ (D0 n).size.toNat) (hmax : off + src.length ≤ 70656)
    (hB : ∀ c ∈ ((D0 n).members n).dropLast, IBLOCK c ∈ B) :
    wp (do
      updInode ip fun i => { i with d := { i.d with size := grown i.d.size off src.length } }
      iupdate_ext ip false)
      (fun _ s' => ∃ D', SpreadPost sb L D0 N A Z n off src s0 D' s') E s := by
  have hnG : n ∈ (D0 n).group n := Set.mem_insert n _
  have hl := h.pins.loaded hip
  have hh := h.vol.has hl (hZ n hnG)
  have hnk : n ∉ (D0 n).kids := fun hk => (hd.kids n hk).2.2 rfl
  have hDk : ∀ k, (D k).type = (D0 k).type ∧ (D k).size = (D0 k).size ∧
      (D k).child1 = (D0 k).child1 ∧ (D k).child2 = (D0 k).child2 := by
    intro k
    obtain ⟨a, ha⟩ := h.fill.addrs k
    rw [ha]
    exact ⟨rfl, rfl, rfl, rfl⟩
  -- the slot with its new size
  have hsize : (s.icache ip).d.size = (D0 n).size := by rw [← (hDk n).2.1, ← hh.1]; rfl
  have hv4 := h.vol.edit_meta (d := { (s.icache ip).d with
    size := grown (s.icache ip).d.size off src.length }) hl (hZ n hnG) (by rw [← hh.1]; rfl)
    (by rw [← hh.1]; rfl) rfl
  have hl4 := hl.d (d := { (s.icache ip).d with size := grown (s.icache ip).d.size off src.length })
  refine wp_ok_bind (updInode_apply _ _ _) ?_
  generalize hd4 : ({ (s.icache ip).d with
    size := grown (s.icache ip).d.size off src.length } : Dinode) = d4 at hv4 hl4 ⊢
  have hcore4 : d4.core = { D n with size := grown (D0 n).size off src.length } := by
    rw [← hd4, ← hh.1, ← hsize]
    rfl
  have hkids : d4.core.kids = (D0 n).kids := by
    have h1 := (hDk n).2.2.1
    have h2 := (hDk n).2.2.2
    rw [hcore4]
    unfold Dinode.kids Dinode.kid Dinode.child
    simp only [h1, h2]
  have hmem4 : d4.core.members n = (D0 n).members n := by
    have h1 := (hDk n).2.2.1
    have h2 := (hDk n).2.2.2
    rw [hcore4]
    unfold Dinode.members Dinode.kidList Dinode.child
    simp only [h1, h2]
  have hz4 : d4.core.size.toNat = max (D0 n).size.toNat (off + src.length) := by
    rw [hcore4]
    exact toNat_grown hoff hmax
  obtain ⟨hc4, hm4⟩ := h.fill.contents (hM ▸ hnG) (hm n hnG) hoff hmax (d := d4.core)
    (by rw [hcore4]) hz4
  have hkids4 : Kids sb (setD D n d4) n (setD D n d4 n) := by
    have hkD : Kids sb D n (D0 n) := by
      intro c hc
      obtain ⟨hlive, hditto, hne⟩ := hd.kids c hc
      unfold Live
      rw [(hDk c).1]
      exact ⟨hlive, hditto, hne⟩
    exact hkD.set (by rw [setD_self, hkids]) fun _ hk => setD_of_ne D d4 hk
  have p4 : Pins ∅ s (s.setInode ip { s.icache ip with d := d4 }) := pins_setInode rfl rfl id
  have hE4 : Able E (setD D n d4 n).kids (s.setInode ip { s.icache ip with d := d4 }) := by
    rw [setD_self, hkids]
    refine hE.pins p4 fun x hb => ?_
    by_cases e : x = ip
    · subst e
      rw [setInode_self] at hb
      exact hb
    · rwa [setInode_ne _ _ e] at hb
  have hf4 : Fits E sb B (s.setInode ip { s.icache ip with d := d4 }) := h.txn.fits
  refine (iupdate_wp hE4 hv4 h.txn.busy hf4 (by rw [setD_self, hmem4]; exact hB) hl4
    (by rw [setD_self]; exact hm4) ?_ hkids4 (by rw [setD_self, hkids]; exact hZ)).post ?_
  · intro hT
    rw [setD_self, hcore4] at hT
    exact absurd ((hDk n).1.symm.trans hT) hdev
  rintro _ s' ⟨h5, -⟩
  have hview : (s.setInode ip { s.icache ip with d := d4 }).view 1 = s.view 1 := rfl
  have hvol := h5.vol
  have hheld := h5.held
  rw [hview] at hvol hheld
  rw [setD_self] at hvol
  generalize hD' : stored (setD D n d4) n (d4.core.summed (s.view 1)) = D' at hvol
  have hxk : (d4.core.summed (s.view 1)).kids = (D0 n).kids := hkids
  -- the files of the group have their new blocks, the new size and its checksum
  have hfile : ∀ k ∈ (D0 n).group n, D' k = { D k with
      size := d4.core.size
      checksum := checksumOf (overwrite (contents (s0.view 1) (D0 n)) off src) } := by
    rintro k (rfl | hk)
    · rw [← hD', stored_self (by rw [hxk]; exact hnk)]
      unfold Dinode.summed Dinode.withSum
      rw [hc4, hcore4]
    · rw [← hD', stored_kid (by rw [hxk]; exact hnk) (by rw [hxk]; exact hk),
        setD_of_ne D d4 (hd.kids k hk).2.2]
      unfold Dinode.stamped Dinode.summed Dinode.withSum
      rw [hc4]
  have hother : ∀ k, k ∉ (D0 n).group n → D' k = D k := by
    intro k hk
    have hkn : k ≠ n := fun e => hk (e ▸ hnG)
    rw [← hD', stored_other hkn (by rw [hxk]; exact fun hm => hk (Set.mem_insert_of_mem n hm)),
      setD_of_ne D d4 hkn]
  have hsame : ∀ k, (D' k).type = (D k).type ∧ (D' k).addrs = (D k).addrs := by
    intro k
    by_cases hk : k ∈ (D0 n).group n
    · rw [hfile k hk]
      exact ⟨rfl, rfl⟩
    · rw [hother k hk]
      exact ⟨rfl, rfl⟩
  have hadr4 : ∀ p, adr sb (s.view 1) (setD D n d4) p = adr sb (s.view 1) D p :=
    adr_setD (by rw [← hd4, ← hh.1]; rfl) (by rw [← hd4, ← hh.1]; rfl)
  have hheld' : KeepsHeld sb (s.view 1) D (s'.view 1) := by
    intro p hp
    have := hheld p (by rw [hadr4]; exact hp)
    rwa [hadr4] at this
  have hdata : ∀ k ∈ (D0 n).group n, Mapped (s'.view 1) (D' k) ∧
      contents (s'.view 1) (D' k) = overwrite (contents (s0.view 1) (D0 k)) off src := by
    intro k hk
    have hsz : (D0 k).size = (D0 n).size := hk.elim (fun e => e ▸ rfl) fun hk => hd.size k hk
    have hlive : Live sb D k := by
      refine h.fill.live.mpr (hk.elim (fun e => ?_) fun hk => (hd.kids k hk).1)
      rw [e]
      exact h.fill.live.mp (h.vol.live hl.1).2
    obtain ⟨hc, hmap⟩ := h.fill.contents (hM ▸ hk) (hm k hk) (by rw [hsz]; exact hoff) hmax
      (d := D' k) (hsame k).2 (by rw [hfile k hk, hsz]; exact hz4)
    obtain ⟨hmap', hc'⟩ := hheld'.file hlive (hsame k).2 hmap
    exact ⟨hmap', by rw [hc', hc]⟩
  have hst := h5.stores
  rw [setD_self, hmem4] at hst
  refine ⟨D', ?_, ?_, ?_, ?_, fun k hk => (hdata k hk).1, fun k hk => (hdata k hk).2, ?_, ?_,
    hst.free.trans h.spent.free, ?_⟩
  · have hset : insert n (M ∪ A) \ insert n d4.core.kids = A \ (D0 n).group n := by
      rw [hkids, hM]
      ext k
      simp only [Set.mem_sdiff, Set.mem_insert_iff, Set.mem_union, Dinode.group]
      tauto
    rw [hset] at hvol
    exact hvol
  · have p5 := h5.pins
    rw [setD_self, hkids] at p5
    exact (h.pins.trans (p4.mono (Set.empty_subset _))).trans p5
  · rw [← hM]
    refine h.fill.touch.trans ⟨fun k hk => hother k (hM ▸ hk), fun p _ => ?_, fun p _ => hheld' p⟩
    rw [adr_fields (hsame p.ino).1 (hsame p.ino).2, hheld'.addr p]
  · intro k hk
    obtain ⟨a, ha⟩ := h.fill.addrs k
    exact ⟨a, _, _, by rw [hfile k hk, ha]⟩
  · intro k hk
    rw [hfile k hk]
  · refine (h.fill.gets n (hM ▸ hnG)).after (fun bn => ?_) (by rw [(hsame n).2])
    rw [blockAddr_addrs (hsame n).2, (hheld'.blocks (h.vol.live hl.1).2).1 bn]
  · refine Nat.lt_of_le_of_lt (Finset.card_le_card ?_) (hst.room (List.cons_ne_nil _ _))
    obtain ⟨hs, hfresh⟩ := Finset.union_subset_iff.mp h.spent.logged
    refine Finset.union_subset (hs.trans Finset.subset_union_left) (Finset.union_subset ?_
      (Finset.union_subset (hfresh.trans Finset.subset_union_left) Finset.subset_union_right))
    refine Finset.biUnion_subset.mpr fun k hk => ?_
    exact (h.held k (hM ▸ mem_members.mp (List.mem_toFinset.mp hk))).trans Finset.subset_union_left

/-- `writei` on an inode whose dittos need not have its contents. -/
theorem writei_wp (hE : Able E (D n).kids s) (h : Vol sb L D N A Z s)
    (ht : Txn E sb B (needs (s.view 1) D (span off src.length) ((D n).members n)) s)
    (hB : writeSecs sb (s.view 1) D n (span off src.length) ⊆ B)
    (hip : Loaded s ip n) (hZ : ∀ c ∈ (D n).group n, c ∉ Z) (hd : Mirrors sb D n)
    (hm : ∀ k ∈ (D n).group n, Mapped (s.view 1) (D k))
    (htype : (D n).type ≠ T_DEV ∧ (D n).type ≠ T_DITTO) :
    wp (writei ip src off) (fun r s' => (Refused (D n) off src.length ∧ r = -1 ∧ s' = s) ∨
      ¬ Refused (D n) off src.length ∧ r = src.length ∧
        ∃ D', SpreadPost sb L D N A Z n off src s D' s') E s := by
  have hh := h.has hip (hZ n (Set.mem_insert n _))
  have hT : (s.icache ip).d.type = (D n).type := by rw [← hh.1]; rfl
  have hsize : (s.icache ip).d.size = (D n).size := by rw [← hh.1]; rfl
  have h1 : (s.icache ip).d.child1 = (D n).child1 := by rw [← hh.1]; rfl
  have h2 : (s.icache ip).d.child2 = (D n).child2 := by rw [← hh.1]; rfl
  unfold writei writei_ext writeiExt
  refine wp_ok_bind (inode_apply _ _) ?_
  rw [hT, hsize, h1, h2, (h.live hip.1).1]
  refine wp_ite (fun hn => absurd hn htype.1) fun _ => ?_
  refine wp_ite (fun hn => Or.inl ⟨?_, rfl, rfl⟩) fun hoff => ?_
  · exact hn.elim Or.inl fun hn => Or.inr (Or.inl hn)
  refine wp_ite (fun hn => Or.inl ⟨Or.inr (Or.inr (by omega)), rfl, rfl⟩) fun hmax => ?_
  have hnG : n ∈ (D n).group n := Set.mem_insert n _
  have hnlive := (h.live hip.1).2
  have hkidn : ∀ i c, c ∈ (D n).kid i → c ∈ (D n).kids := by
    intro i c hc
    cases i
    · exact Or.inr hc
    · exact Or.inl hc
  obtain ⟨hheld, hrest⟩ := Finset.union_subset_iff.mp hB
  have hheld : ∀ k ∈ (D n).members n, held (s.view 1) (D k) (span off src.length) ⊆ B := by
    intro k hk
    exact Finset.biUnion_subset.mp hheld k (List.mem_toFinset.mpr hk)
  have hneeds : needs (s.view 1) D (span off src.length) ((D n).members n) =
      0 + needs (s.view 1) D (span off src.length) ((D n).kidList true) +
      needs (s.view 1) D (span off src.length) ((D n).kidList false) +
      lack (s.view 1) (D n) (span off src.length) := by
    unfold needs Dinode.members
    rw [List.map_cons, List.sum_cons, List.map_append, List.sum_append]
    omega
  rw [hneeds] at ht
  -- the file itself, then its dittos one after the other
  refine (hE.call (Neutral.writeiLoop ip _ off src)
    (writeiLoop_fill h ht (hheld n List.mem_cons_self) hip (hZ n hnG) (by omega)) ?_).bind ?_
  · rintro _ _ ⟨_, hf⟩
    exact hf.pins
  rintro _ s1 ⟨⟨D1, h1⟩, hE1⟩
  have hM1 : ∀ k, k ∈ ({n} : Set Nat) → Live sb D k := fun k hk => hk ▸ hnlive
  refine wp_bind.mpr (wp_when (fun _ => ?_) fun hn => absurd rfl hn)
  refine (kidWrite_wp hE1 h1 (i := false) (fun c hc => hheld c (List.mem_cons_of_mem n
    (List.mem_append_left _ hc))) hM1 hd (fun c hc he => (hd.kids c (hkidn _ c hc)).2.2 he)
    (fun c hc => hZ c (Set.mem_insert_of_mem n hc)) (by omega) rfl (hkidn false)
    (by omega)).bind ?_
  rintro _ s2 ⟨D2, h2, hE2⟩
  have hM2 : ∀ k, k ∈ (D n).kid false ∪ {n} → Live sb D k := fun k hk =>
    hk.elim (fun hk => (hd.kids k (hkidn _ k hk)).1) (hM1 k)
  refine (kidWrite_wp hE2 h2 (i := true) (fun c hc => hheld c (List.mem_cons_of_mem n
    (List.mem_append_right _ hc))) hM2 hd (fun c hc => ?_)
    (fun c hc => hZ c (Set.mem_insert_of_mem n hc)) (by omega) rfl (hkidn true)
    (by omega)).post ?_
  · rintro (he | he)
    · exact hd.apart he.1 (he.2.trans hc.2.symm)
    · exact (hd.kids c (hkidn _ c hc)).2.2 he
  rintro _ s3 ⟨D3, h3, hE3⟩
  refine wp_ite (fun hn => absurd hn htype.2) fun _ => ?_
  have hgroup : (D n).kid true ∪ ((D n).kid false ∪ {n}) = (D n).group n := by
    unfold Dinode.group Dinode.kids
    rw [← Set.union_assoc, Set.union_singleton]
  have hall : lack (s.view 1) (D n) (span off src.length) +
      needs (s.view 1) D (span off src.length) ((D n).kidList false) +
      needs (s.view 1) D (span off src.length) ((D n).kidList true) =
      needs (s.view 1) D (span off src.length) ((D n).members n) := by
    rw [hneeds]
    omega
  rw [Set.union_empty, hgroup, hall] at h3
  have hend := writeEnd_wp hE3 h3 rfl hip hZ hd hm htype.1 (by omega) (by omega) fun c hc =>
    (Finset.union_subset_iff.mp hrest).2 (List.mem_toFinset.mpr (List.mem_map_of_mem hc))
  refine wp_bind.mpr ((wp_bind.mp hend).post fun _ s4 h4 => h4.bind ?_)
  intro _ s5 h5
  refine Or.inr ⟨?_, rfl, h5⟩
  rintro (h | h | h)
  · exact hoff (Or.inl h)
  · exact hoff (Or.inr h)
  · omega

/-- A write that `writei` refuses changes nothing. -/
theorem writei_refused {off : Nat} {src : List UInt8} (ht : (s.icache ip).d.type ≠ T_DEV)
    (hr : Refused (s.icache ip).d off src.length) : writei ip src off s = .ok (-1) s := by
  unfold writei writei_ext writeiExt
  rw [Exec.bind_ok (inode_apply ip s), if_neg ht]
  by_cases hoff : (s.icache ip).d.size.toNat < off ∨ (off + src.length) % 4294967296 < off
  · rw [if_pos hoff]
    rfl
  · rw [if_neg hoff, if_pos (by unfold Refused at hr; omega)]
    rfl

end Writei

end Zv6
