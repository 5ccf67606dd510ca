/-
  The contents of an inode, as a function of its dinode and the sectors.

  `blockAddr V d bn` is the block `bmap` finds for block `bn` of the file, 0 if there is
  none; `contents V d` are the bytes below `size`. On an inode whose blocks are all there
  (`Mapped`) the reading functions are these functions: `bmap`, `readi` and `ichecksum`
  return them and leave the state as it is. `checksumOf` is the checksum of a byte list.
-/
import Zv6.Log.Writes
import Zv6.Model.Inode

namespace Zv6

open Lib

/-! ## Contents -/

/-- The address of block `bn` of the file, 0 if it has none. -/
def blockAddr (V : Nat → Block) (d : Dinode) (bn : Nat) : UInt32 :=
  if h : bn < 10 then d.addrs ⟨bn, direct_lt h⟩
  else if bn < 138 then
    if d.addrs 10 = 0 then 0 else (V (d.addrs 10).toNat).word (bn - 10)
  else 0

/-- Byte `o` of the file. -/
def byteAt (V : Nat → Block) (d : Dinode) (o : Nat) : UInt8 :=
  (V (blockAddr V d (o / 512)).toNat).byte (o % 512)

/-- `n` bytes of the file from `off` on. -/
def slice (V : Nat → Block) (d : Dinode) (off n : Nat) : List UInt8 :=
  (List.range n).map fun k => byteAt V d (off + k)

/-- The contents of the file. -/
def contents (V : Nat → Block) (d : Dinode) : List UInt8 := slice V d 0 d.size.toNat

/-- Every block below the size is there, and the size is at most MAXFILE blocks. -/
structure Mapped (V : Nat → Block) (d : Dinode) : Prop where
  size_le : d.size.toNat ≤ 70656
  block : ∀ bn, bn * 512 < d.size.toNat → blockAddr V d bn ≠ 0

variable {V V' : Nat → Block} {d d' : Dinode}

@[simp] theorem length_slice (V : Nat → Block) (d : Dinode) (off n : Nat) :
    (slice V d off n).length = n := by
  simp [slice]

@[simp] theorem length_contents (V : Nat → Block) (d : Dinode) :
    (contents V d).length = d.size.toNat := by
  simp [contents]

theorem getElem?_slice (V : Nat → Block) (d : Dinode) (off n k : Nat) (hk : k < n) :
    (slice V d off n)[k]? = some (byteAt V d (off + k)) := by
  simp [slice, hk]

theorem slice_add (V : Nat → Block) (d : Dinode) (off m n : Nat) :
    slice V d off (m + n) = slice V d off m ++ slice V d (off + m) n := by
  apply List.ext_getElem?
  intro k
  by_cases hm : k < m
  · rw [getElem?_slice _ _ _ _ _ (by omega), List.getElem?_append_left (by simpa using hm),
      getElem?_slice _ _ _ _ _ hm]
  · rw [List.getElem?_append_right (by simp; omega), length_slice]
    by_cases hn : k < m + n
    · rw [getElem?_slice _ _ _ _ _ hn, getElem?_slice _ _ _ _ _ (by omega)]
      congr 2
      omega
    · rw [List.getElem?_eq_none (by simp; omega), List.getElem?_eq_none (by simp; omega)]

theorem slice_congr {off n : Nat} (h : ∀ k, k < n → byteAt V d (off + k) = byteAt V' d' (off + k)) :
    slice V d off n = slice V' d' off n := by
  unfold slice
  apply List.map_congr_left
  intro k hk
  exact h k (List.mem_range.mp hk)

theorem contents_congr (hs : d.size = d'.size)
    (h : ∀ o, o < d.size.toNat → byteAt V d o = byteAt V' d' o) :
    contents V d = contents V' d' := by
  unfold contents
  rw [← hs]
  refine slice_congr fun k hk => ?_
  rw [Nat.zero_add]
  exact h k hk

theorem blockAddr_addrs (h : d.addrs = d'.addrs) (V : Nat → Block) (bn : Nat) :
    blockAddr V d bn = blockAddr V d' bn := by
  unfold blockAddr
  rw [h]

theorem byteAt_addrs (h : d.addrs = d'.addrs) (V : Nat → Block) (o : Nat) :
    byteAt V d o = byteAt V d' o := by
  unfold byteAt
  rw [blockAddr_addrs h]

theorem contents_addrs (hs : d.size = d'.size) (h : d.addrs = d'.addrs) (V : Nat → Block) :
    contents V d = contents V d' :=
  contents_congr hs fun o _ => byteAt_addrs h V o

/-- The bytes of a file are determined by its contents. -/
theorem byteAt_of_contents (h : contents V d = contents V' d') {o : Nat} (ho : o < d.size.toNat) :
    byteAt V d o = byteAt V' d' o := by
  have hlen : d.size.toNat = d'.size.toNat := by
    rw [← length_contents V d, h, length_contents]
  have h1 := getElem?_slice V d 0 d.size.toNat o ho
  have h2 := getElem?_slice V' d' 0 d'.size.toNat o (by omega)
  have h' : slice V d 0 d.size.toNat = slice V' d' 0 d'.size.toNat := h
  rw [h', h2, Nat.zero_add] at h1
  exact (Option.some.inj h1).symm

theorem getElem?_contents (V : Nat → Block) (d : Dinode) {o : Nat} (ho : o < d.size.toNat) :
    (contents V d)[o]? = some (byteAt V d o) := by
  have := getElem?_slice V d 0 d.size.toNat o ho
  rwa [Nat.zero_add] at this

/-- Two files of one size agree from byte `m` on. -/
theorem drop_contents_iff (hs : d.size = d'.size) (m : Nat) :
    (contents V d).drop m = (contents V' d').drop m ↔
      ∀ o, m ≤ o → o < d.size.toNat → byteAt V d o = byteAt V' d' o := by
  constructor
  · intro h o hm ho
    have hget := congrArg (fun l => l[o - m]?) h
    simp only [List.getElem?_drop] at hget
    rw [show m + (o - m) = o by omega, getElem?_contents V d ho,
      getElem?_contents V' d' (hs ▸ ho)] at hget
    exact Option.some.inj hget
  · intro h
    apply List.ext_getElem?
    intro k
    rw [List.getElem?_drop, List.getElem?_drop]
    by_cases hk : m + k < d.size.toNat
    · rw [getElem?_contents V d hk, getElem?_contents V' d' (hs ▸ hk), h _ (by omega) hk]
    · rw [List.getElem?_eq_none (by rw [length_contents]; omega),
        List.getElem?_eq_none (by rw [length_contents, ← hs]; omega)]

/-- The slice a read delivers is part of one sector. -/
theorem slice_block (V : Nat → Block) (d : Dinode) (off m : Nat) (hm : m ≤ 512 - off % 512) :
    slice V d off m = (V (blockAddr V d (off / 512)).toNat).read (off % 512) m := by
  unfold slice Block.read
  apply List.map_congr_left
  intro k hk
  have hk := List.mem_range.mp hk
  unfold byteAt
  have h1 : (off + k) / 512 = off / 512 := by omega
  have h2 : (off + k) % 512 = off % 512 + k := by omega
  rw [h1, h2]

/-! ## Reading

Slot `ip` holds the dinode `d`; `V` are the sectors of its device, seen through the buffer
cache. -/

section Read

variable {s : State} {ip : Fin 100}

theorem inode_apply (ip : Fin 100) (s : State) : inode ip s = .ok (s.icache ip) s := rfl

/-- `bmap` of a block that is there. -/
theorem bmap_mapped (hV : s.view (s.icache ip).dev = V) (hd : (s.icache ip).d = d) (bn : Nat)
    (h : blockAddr V d bn ≠ 0) : bmap ip bn s = .ok (blockAddr V d bn).toNat s := by
  subst hV hd
  unfold blockAddr at h ⊢
  unfold bmap
  rw [Exec.bind_ok (inode_apply ip s)]
  by_cases h10 : bn < 10
  · rw [dif_pos h10] at h ⊢
    rw [dif_pos h10, if_neg h]
    rfl
  · rw [dif_neg h10] at h ⊢
    rw [dif_neg h10]
    by_cases h138 : bn < 138
    · rw [if_pos h138] at h ⊢
      rw [if_pos (by omega)]
      by_cases hind : (s.icache ip).d.addrs 10 = 0
      · rw [if_pos hind] at h
        exact absurd rfl h
      · rw [if_neg hind] at h ⊢
        rw [if_neg hind, Exec.pure_bind_apply, Exec.bind_ok (bread_apply _ _ s), if_neg h]
        rfl
    · rw [if_neg h138] at h
      exact absurd rfl h

theorem readiLoop_mapped (hV : s.view (s.icache ip).dev = V) (hd : (s.icache ip).d = d)
    (fuel : Nat) : ∀ off n : Nat, n ≤ fuel →
    (∀ o, off ≤ o → o < off + n → blockAddr V d (o / 512) ≠ 0) →
    readiLoop ip fuel off n s = .ok (slice V d off n) s := by
  induction fuel with
  | zero =>
    intro off n hn _
    obtain rfl : n = 0 := by omega
    rfl
  | succ fuel ih =>
    intro off n hn hmap
    unfold readiLoop
    by_cases h0 : n = 0
    · rw [if_pos h0, h0]
      rfl
    · have hm : min n (512 - off % 512) + (n - min n (512 - off % 512)) = n := by omega
      have hrest := ih (off + min n (512 - off % 512)) (n - min n (512 - off % 512)) (by omega)
        fun o ho ho' => hmap o (by omega) (by omega)
      rw [if_neg h0, Exec.bind_ok (inode_apply ip s),
        Exec.bind_ok (bmap_mapped hV hd (off / 512) (hmap off (by omega) (by omega))),
        Exec.bind_ok (bread_apply _ _ s), Exec.bind_ok hrest, Exec.pure_apply, hV,
        ← slice_block _ _ _ _ (Nat.min_le_right _ _), ← slice_add, hm]

/-- What `readi` of a mapped file returns. -/
def readResult (V : Nat → Block) (d : Dinode) (off n : Nat) : Int × List UInt8 :=
  if d.size.toNat < off ∨ (off + n) % 4294967296 < off then (-1, [])
  else (((min n (d.size.toNat - off) : Nat) : Int), slice V d off (min n (d.size.toNat - off)))

theorem readi_mapped (hV : s.view (s.icache ip).dev = V) (hd : (s.icache ip).d = d)
    (ht : d.type ≠ T_DEV) (hm : Mapped V d) (off n : Nat) :
    readi ip off n s = .ok (readResult V d off n) s := by
  unfold readi readResult
  rw [Exec.bind_ok (inode_apply ip s), hd, if_neg ht]
  by_cases hoff : d.size.toNat < off ∨ (off + n) % 4294967296 < off
  · rw [if_pos hoff, if_pos hoff]
    rfl
  · rw [if_neg hoff, if_neg hoff]
    rw [not_or] at hoff
    have hn : (if d.size.toNat < off + n then d.size.toNat - off else n) =
        min n (d.size.toNat - off) := by
      split <;> omega
    have hloop := readiLoop_mapped hV hd (min n (d.size.toNat - off)) off
      (min n (d.size.toNat - off)) (Nat.le_refl _) fun o ho ho' => hm.block _ (by omega)
    simp only [hn]
    rw [Exec.bind_ok hloop]
    rfl

/-- A read inside the file. -/
theorem readResult_le (off n : Nat) (hoff : off ≤ d.size.toNat) (hn : off + n < 4294967296) :
    readResult V d off n = (((min n (d.size.toNat - off) : Nat) : Int),
      slice V d off (min n (d.size.toNat - off))) := by
  unfold readResult
  rw [if_neg (by omega)]

end Read

/-! ## Checksums -/

/-- XOR of the words of the chunks of `data`, 2048 bytes at a time. -/
def sumChunks : (fuel : Nat) → List UInt8 → UInt32 → UInt32
  | 0, _, c => c
  | fuel + 1, data, c =>
    if data = [] then c
    else sumChunks fuel (data.drop 2048) (xorWords c (checksumBuf (data.take 2048)))

/-- The checksum of a byte list. -/
def checksumOf (data : List UInt8) : UInt32 := sumChunks (data.length / 2048 + 1) data 0

theorem drop_slice (V : Nat → Block) (d : Dinode) (off m n : Nat) :
    (slice V d off n).drop m = slice V d (off + m) (n - m) := by
  by_cases h : m ≤ n
  · obtain ⟨k, rfl⟩ := Nat.exists_eq_add_of_le h
    rw [slice_add, List.drop_left' (by simp), Nat.add_sub_cancel_left]
  · rw [List.drop_eq_nil_of_le (by simp; omega)]
    have : n - m = 0 := by omega
    rw [this]
    rfl

theorem take_slice (V : Nat → Block) (d : Dinode) (off m n : Nat) :
    (slice V d off n).take m = slice V d off (min m n) := by
  by_cases h : m ≤ n
  · obtain ⟨k, rfl⟩ := Nat.exists_eq_add_of_le h
    rw [slice_add, List.take_left' (by simp), Nat.min_eq_left (by omega)]
  · rw [List.take_of_length_le (by simp; omega), Nat.min_eq_right (by omega)]

section Checksum

variable {s : State} {ip : Fin 100}

/-- One chunk of the rest of a file is summed. -/
theorem sumChunks_slice {off : Nat} (hoff : off < d.size.toNat) (fuel : Nat) (c : UInt32) :
    sumChunks (fuel + 1) (slice V d off (d.size.toNat - off)) c =
      sumChunks fuel (slice V d (off + min 2048 (d.size.toNat - off))
          (d.size.toNat - (off + min 2048 (d.size.toNat - off))))
        (xorWords c (checksumBuf (slice V d off (min 2048 (d.size.toNat - off))))) := by
  have hne : slice V d off (d.size.toNat - off) ≠ [] := by
    intro he
    have := congrArg List.length he
    rw [length_slice, List.length_nil] at this
    omega
  have hrest : slice V d (off + 2048) (d.size.toNat - off - 2048) =
      slice V d (off + min 2048 (d.size.toNat - off))
        (d.size.toNat - (off + min 2048 (d.size.toNat - off))) := by
    by_cases hlast : d.size.toNat - off ≤ 2048
    · have h1 : d.size.toNat - off - 2048 = 0 := by omega
      have h2 : d.size.toNat - (off + min 2048 (d.size.toNat - off)) = 0 := by omega
      rw [h1, h2]
      rfl
    · have h1 : min 2048 (d.size.toNat - off) = 2048 := by omega
      rw [h1, Nat.sub_sub]
  conv => lhs; unfold sumChunks
  rw [if_neg hne, drop_slice, take_slice, hrest]

/-- A loop that reads a file in chunks and sums them, as the kernel and mkfs do. -/
theorem sumLoop_slice {κ σ : Type} {s : σ} {read : Nat → Exec κ σ (Int × List UInt8)}
    (loop : Nat → Nat → UInt32 → Exec κ σ UInt32) (hsize : d.size.toNat ≤ 70656)
    (hread : ∀ off, off ≤ d.size.toNat → read off s = .ok (readResult V d off 2048) s)
    (hloop : ∀ fuel off c, loop (fuel + 1) off c = read off >>= fun x => if x.1 = 0 then pure c
      else loop fuel ((off + (x.1 % 4294967296).toNat) % 4294967296)
        (xorWords c (checksumBuf x.2))) (fuel : Nat) :
    ∀ (off : Nat) (c : UInt32), off ≤ d.size.toNat → d.size.toNat - off ≤ 2048 * fuel →
      loop (fuel + 1) off c s =
        .ok (sumChunks fuel (slice V d off (d.size.toNat - off)) c) s := by
  -- the read at the end of the file leaves the loop
  have hend : ∀ (fuel off : Nat) (c : UInt32), off ≤ d.size.toNat → d.size.toNat - off = 0 →
      loop (fuel + 1) off c s = .ok c s := by
    intro fuel off c hoff h0
    rw [hloop, Exec.bind_ok (hread off hoff), readResult_le off 2048 hoff (by omega), h0]
    rfl
  induction fuel with
  | zero =>
    intro off c hoff hf
    exact hend 0 off c hoff (by omega)
  | succ fuel ih =>
    intro off c hoff hf
    by_cases h0 : d.size.toNat - off = 0
    · rw [hend _ off c hoff h0, h0]
      rfl
    · have hoff' : (off + (((min 2048 (d.size.toNat - off) : Nat) : Int) % 4294967296).toNat) %
          4294967296 = off + min 2048 (d.size.toNat - off) := by omega
      rw [hloop, sumChunks_slice (by omega), Exec.bind_ok (hread off hoff),
        readResult_le off 2048 hoff (by omega)]
      simp only
      rw [if_neg (by omega), hoff']
      exact ih _ _ (by omega) (by omega)

/-- `ichecksum` of a mapped file is the checksum of its contents. -/
theorem ichecksum_mapped (hV : s.view (s.icache ip).dev = V) (hd : (s.icache ip).d = d)
    (ht : d.type ≠ T_DEV) (hm : Mapped V d) :
    ichecksum ip s = .ok (checksumOf (contents V d)) s := by
  have hloop := sumLoop_slice (ichecksumLoop ip) hm.size_le
    (fun off _ => readi_mapped hV hd ht hm off 2048) fun _ _ _ => rfl
  unfold ichecksum
  rw [Exec.bind_ok (inode_apply ip s), hd, if_neg ht, hloop _ 0 0 (by omega) (by omega),
    Nat.sub_zero]
  unfold checksumOf
  rw [length_contents]
  rfl

end Checksum

end Zv6
