/-
  What a checksum says.

  `ichecksum`, the kernel's and that of mkfs, folds 2048 bytes at a time. Together the chunks are
  the words of the contents, padded with zeros to a multiple of four (`checksumOf_words`). A column
  is one bit position over all the words: two contents of one length have the same checksum if and
  only if they differ in an even number of bits of every column (`xorAll_eq_iff`).
-/
import Mathlib.Algebra.Group.Nat.Even
import Zv6.Log.Crash
import Zv6.Mkfs.Read

namespace Zv6

open Lib

/-- The little-endian words of a byte list, four bytes each. -/
def leWords : List UInt8 → List UInt32
  | b0 :: b1 :: b2 :: b3 :: rest => getU32 (fun k => [b0, b1, b2, b3].getD k 0) 0 :: leWords rest
  | _ => []

/-- The bytes with zeros up to a multiple of four. -/
def padded (data : List UInt8) : List UInt8 :=
  data ++ List.replicate ((4 - data.length % 4) % 4) 0

/-- The words of the padded bytes. -/
def words (data : List UInt8) : List UInt32 := leWords (padded data)

def xorAll (ws : List UInt32) : UInt32 := ws.foldr (· ^^^ ·) 0

/-- The number of words that differ in bit `i`. -/
def flips (i : Nat) (as bs : List UInt32) : Nat :=
  (as.zip bs).countP fun p => p.1.toNat.testBit i != p.2.toNat.testBit i

/-! ## Words -/

theorem length_lt_four {xs : List UInt8}
    (h : ∀ b0 b1 b2 b3 rest, xs = b0 :: b1 :: b2 :: b3 :: rest → False) : xs.length < 4 := by
  by_contra hge
  obtain ⟨ys, zs, rfl, hlen⟩ : ∃ ys zs, xs = ys ++ zs ∧ ys.length = 4 :=
    ⟨xs.take 4, xs.drop 4, (List.take_append_drop 4 xs).symm, by
      rw [List.length_take]
      omega⟩
  obtain ⟨b0, b1, b2, b3, rfl⟩ := List.length_eq_four.mp hlen
  exact h b0 b1 b2 b3 zs rfl

theorem leWords_append {xs : List UInt8} (h : xs.length % 4 = 0) (ys : List UInt8) :
    leWords (xs ++ ys) = leWords xs ++ leWords ys := by
  fun_induction leWords xs with
  | case1 b0 b1 b2 b3 rest ih =>
    simp only [List.length_cons] at h
    simp only [List.cons_append, leWords]
    rw [ih (by omega)]
  | case2 xs hshort =>
    have hlt := length_lt_four hshort
    obtain rfl : xs = [] := List.length_eq_zero_iff.mp (by omega)
    rfl

theorem length_leWords (xs : List UInt8) : (leWords xs).length = xs.length / 4 := by
  fun_induction leWords xs with
  | case1 b0 b1 b2 b3 rest ih =>
    simp only [List.length_cons, ih]
    omega
  | case2 xs hshort =>
    have hlt := length_lt_four hshort
    rw [List.length_nil]
    omega

/-- The words determine the bytes. -/
theorem leWords_inj {xs ys : List UInt8} (hlen : xs.length = ys.length) (h4 : xs.length % 4 = 0)
    (h : leWords xs = leWords ys) : xs = ys := by
  fun_induction leWords xs generalizing ys with
  | case1 b0 b1 b2 b3 rest ih =>
    match ys, hlen with
    | c0 :: c1 :: c2 :: c3 :: rest', hlen =>
      simp only [List.length_cons] at hlen h4
      simp only [leWords, List.cons.injEq] at h
      obtain ⟨hword, hrest⟩ := h
      have hbyte : ∀ k < 4, [b0, b1, b2, b3].getD k 0 = [c0, c1, c2, c3].getD k 0 := by
        intro k hk
        have hb := byteOf_getU32 (fun k => [b0, b1, b2, b3].getD k 0) 0 k hk
        have hc := byteOf_getU32 (fun k => [c0, c1, c2, c3].getD k 0) 0 k hk
        rw [hword, hc] at hb
        simpa using hb.symm
      obtain rfl : b0 = c0 := hbyte 0 (by omega)
      obtain rfl : b1 = c1 := hbyte 1 (by omega)
      obtain rfl : b2 = c2 := hbyte 2 (by omega)
      obtain rfl : b3 = c3 := hbyte 3 (by omega)
      rw [ih (by omega) (by omega) hrest]
  | case2 xs hshort =>
    have hlt := length_lt_four hshort
    obtain rfl : xs = [] := List.length_eq_zero_iff.mp (by omega)
    exact (List.length_eq_zero_iff.mp hlen.symm).symm

theorem length_padded (data : List UInt8) :
    (padded data).length = data.length + (4 - data.length % 4) % 4 := by
  unfold padded
  rw [List.length_append, List.length_replicate]

theorem length_padded_mod (data : List UInt8) : (padded data).length % 4 = 0 := by
  rw [length_padded]
  omega

theorem words_inj {a b : List UInt8} (hlen : a.length = b.length) (h : words a = words b) :
    a = b := by
  have hp : padded a = padded b := by
    refine leWords_inj ?_ (length_padded_mod a) h
    rw [length_padded, length_padded, hlen]
  unfold padded at hp
  exact (List.append_inj hp hlen).1

theorem length_words (data : List UInt8) : (words data).length = (data.length + 3) / 4 := by
  unfold words
  rw [length_leWords, length_padded]
  omega

/-- The words of a first part that needs no padding. -/
theorem words_append {a : List UInt8} (h : a.length % 4 = 0) (b : List UInt8) :
    words (a ++ b) = words a ++ words b := by
  have ha : padded a = a := by
    unfold padded
    rw [h]
    exact List.append_nil a
  have hab : padded (a ++ b) = a ++ padded b := by
    unfold padded
    rw [List.append_assoc, List.length_append, Nat.add_mod, h, Nat.zero_add, Nat.mod_mod]
  unfold words
  rw [hab, ha, leWords_append h]

/-! ## Sums -/

theorem xorAll_append (as bs : List UInt32) : xorAll (as ++ bs) = xorAll as ^^^ xorAll bs := by
  induction as with
  | nil => exact UInt32.zero_xor.symm
  | cons a as ih =>
    show a ^^^ xorAll (as ++ bs) = (a ^^^ xorAll as) ^^^ xorAll bs
    rw [ih, UInt32.xor_assoc]

theorem xorWords_eq (c : UInt32) (data : List UInt8) :
    xorWords c data = c ^^^ xorAll (leWords data) := by
  fun_induction xorWords c data with
  | case1 c b0 b1 b2 b3 rest ih =>
    rw [ih, UInt32.xor_assoc, leWords]
    rfl
  | case2 data c hshort =>
    have hlt := length_lt_four hshort
    obtain hnil : leWords data = [] := List.length_eq_zero_iff.mp (by rw [length_leWords]; omega)
    rw [hnil]
    exact UInt32.xor_zero.symm

/-- Zeros add nothing. -/
theorem xorAll_zeros (n : Nat) : xorAll (leWords (List.replicate (4 * n) 0)) = 0 := by
  induction n with
  | zero => rfl
  | succ n ih =>
    rw [show 4 * (n + 1) = 4 + 4 * n by omega, ← List.replicate_append_replicate,
      leWords_append (by decide), xorAll_append, ih]
    rfl

/-- A chunk in its buffer. -/
theorem xorWords_checksumBuf (c : UInt32) {bytes : List UInt8} (h : bytes.length ≤ 2048) :
    xorWords c (checksumBuf bytes) = c ^^^ xorAll (words bytes) := by
  obtain ⟨n, hn⟩ : ∃ n, 2048 - bytes.length = (4 - bytes.length % 4) % 4 + 4 * n :=
    ⟨(2048 - bytes.length) / 4, by omega⟩
  have hbuf : checksumBuf bytes = padded bytes ++ List.replicate (4 * n) 0 := by
    unfold checksumBuf padded
    rw [hn, ← List.replicate_append_replicate, List.append_assoc]
  rw [xorWords_eq, hbuf, leWords_append (length_padded_mod bytes), xorAll_append, xorAll_zeros,
    UInt32.xor_zero]
  rfl

theorem sumChunks_words (fuel : Nat) : ∀ (data : List UInt8) (c : UInt32),
    data.length ≤ 2048 * fuel → sumChunks fuel data c = c ^^^ xorAll (words data) := by
  induction fuel with
  | zero =>
    intro data c hlen
    obtain rfl : data = [] := List.length_eq_zero_iff.mp (by omega)
    exact UInt32.xor_zero.symm
  | succ fuel ih =>
    intro data c hlen
    unfold sumChunks
    split
    · next hnil =>
      rw [hnil]
      exact UInt32.xor_zero.symm
    · have htake : (data.take 2048).length ≤ 2048 := List.length_take_le _ _
      rw [ih _ _ (by rw [List.length_drop]; omega), xorWords_checksumBuf _ htake, UInt32.xor_assoc,
        ← xorAll_append]
      -- only the last chunk is short
      by_cases hlong : 2048 ≤ data.length
      · rw [← words_append (by rw [List.length_take, Nat.min_eq_left hlong]),
          List.take_append_drop]
      · rw [List.drop_of_length_le (by omega), List.take_of_length_le (by omega)]
        show c ^^^ xorAll (words data ++ []) = _
        rw [List.append_nil]

/-- The checksum of a byte list is the XOR of its words. -/
theorem checksumOf_words (data : List UInt8) : checksumOf data = xorAll (words data) := by
  unfold checksumOf
  rw [sumChunks_words _ _ _ (by omega), UInt32.zero_xor]

/-! ## Columns -/

theorem testBit_xorAll_cons (i : Nat) (w : UInt32) (ws : List UInt32) :
    (xorAll (w :: ws)).toNat.testBit i = (w.toNat.testBit i != (xorAll ws).toNat.testBit i) := by
  show (w ^^^ xorAll ws).toNat.testBit i = _
  rw [UInt32.toNat_xor, Nat.testBit_xor]

theorem flips_cons (i : Nat) (a b : UInt32) (as bs : List UInt32) :
    flips i (a :: as) (b :: bs) =
      flips i as bs + if a.toNat.testBit i = b.toNat.testBit i then 0 else 1 := by
  unfold flips
  rw [List.zip_cons_cons, List.countP_cons]
  cases a.toNat.testBit i <;> cases b.toNat.testBit i <;> rfl

/-- One column. -/
theorem even_flips_iff (i : Nat) {as bs : List UInt32} (hlen : as.length = bs.length) :
    Even (flips i as bs) ↔ (xorAll as).toNat.testBit i = (xorAll bs).toNat.testBit i := by
  induction as generalizing bs with
  | nil =>
    obtain rfl : bs = [] := List.length_eq_zero_iff.mp hlen.symm
    exact iff_of_true Even.zero rfl
  | cons a as ih =>
    match bs, hlen with
    | b :: bs, hlen =>
      have hih := ih (Nat.succ.inj hlen)
      rw [flips_cons, testBit_xorAll_cons, testBit_xorAll_cons]
      by_cases hab : a.toNat.testBit i = b.toNat.testBit i
      · rw [if_pos hab, Nat.add_zero, hih, hab, Bool.bne_right_inj]
      · rw [if_neg hab, Nat.even_add_one, hih, Bool.eq_not_of_ne hab]
        cases b.toNat.testBit i <;> cases (xorAll as).toNat.testBit i <;>
          cases (xorAll bs).toNat.testBit i <;> decide

/-- Two sums are equal if and only if every column has an even number of differences. -/
theorem xorAll_eq_iff {as bs : List UInt32} (hlen : as.length = bs.length) :
    xorAll as = xorAll bs ↔ ∀ i < 32, Even (flips i as bs) := by
  simp only [even_flips_iff _ hlen]
  constructor
  · intro h i _
    rw [h]
  · intro h
    apply UInt32.toNat_inj.mp
    apply Nat.eq_of_testBit_eq
    intro i
    by_cases hi : i < 32
    · exact h i hi
    · have hpow : 2 ^ 32 ≤ 2 ^ i := Nat.pow_le_pow_right (by omega) (by omega)
      rw [Nat.testBit_lt_two_pow (Nat.lt_of_lt_of_le (xorAll as).toNat_lt hpow),
        Nat.testBit_lt_two_pow (Nat.lt_of_lt_of_le (xorAll bs).toNat_lt hpow)]

/-- Words that agree but for one, with equal sums. -/
theorem eq_of_xorAll_eq {as bs : List UInt32} (hlen : as.length = bs.length) (k : Nat)
    (h : ∀ j, j ≠ k → as[j]? = bs[j]?) (hsum : xorAll as = xorAll bs) : as = bs := by
  induction as generalizing bs k with
  | nil => exact (List.length_eq_zero_iff.mp hlen.symm).symm
  | cons a as ih =>
    match bs, hlen with
    | b :: bs, hlen =>
      have hsum : a ^^^ xorAll as = b ^^^ xorAll bs := hsum
      cases k with
      | zero =>
        have htail : as = bs := List.ext_getElem? fun j => h (j + 1) (by omega)
        rw [htail, UInt32.xor_left_inj] at hsum
        rw [htail, hsum]
      | succ k =>
        have hhead : a = b := Option.some.inj (h 0 (by omega))
        rw [hhead, UInt32.xor_right_inj] at hsum
        rw [hhead, ih (Nat.succ.inj hlen) k (fun j hj => h (j + 1) (by omega)) hsum]

/-- Both versions of `ichecksum` return the XOR of the words of the contents. Two contents of one
    length have one checksum if and only if every column has an even number of differences; a
    difference in one word alone is seen. -/
theorem ichecksum_words :
    (∀ (s : State) (ip : Fin 100), (s.icache ip).d.type ≠ T_DEV →
      Mapped (s.view (s.icache ip).dev) (s.icache ip).d →
      ichecksum ip s =
        .ok (xorAll (words (contents (s.view (s.icache ip).dev) (s.icache ip).d))) s) ∧
    (∀ (s : Host.Image) (d : Dinode), Host.Readable s d →
      Host.ichecksum d s = .ok (xorAll (words (contents s.sect d))) s) ∧
    ∀ a b : List UInt8, a.length = b.length →
      (xorAll (words a) = xorAll (words b) ↔ ∀ i < 32, Even (flips i (words a) (words b))) ∧
      ∀ k : Nat, (∀ j, j ≠ k → (words a)[j]? = (words b)[j]?) → a ≠ b →
        xorAll (words a) ≠ xorAll (words b) := by
  refine ⟨fun s ip ht hm => ?_, fun s d h => ?_, fun a b hlen => ?_⟩
  · rw [← checksumOf_words]
    exact ichecksum_mapped rfl rfl ht hm
  · rw [← checksumOf_words]
    exact h.ichecksum
  · have hwords : (words a).length = (words b).length := by
      rw [length_words, length_words, hlen]
    refine ⟨xorAll_eq_iff hwords, fun k hk hne hsum => hne ?_⟩
    exact words_inj hlen (eq_of_xorAll_eq hwords k hk hsum)

/-- The file [1, 2, 3, 4, 5] in block 29. -/
def fiveBytes : Dinode :=
  { Dinode.zero with type := T_FILE, size := 5, addrs := fun k => if k = 0 then 29 else 0 }

def fiveSectors (c : Nat) : Block :=
  if c = 29 then Block.zero.write 0 [1, 2, 3, 4, 5] else Block.zero

/-- Its words are 0x04030201 and 5, and another first byte gives another checksum. -/
theorem ichecksum_words_five :
    (∃ (s : State) (ip : Fin 100), (s.icache ip).d = fiveBytes ∧
      ichecksum ip s = .ok 0x04030204 s) ∧
    (∃ s : Host.Image, Host.ichecksum fiveBytes s = .ok 0x04030204 s) ∧
    xorAll (words [1, 2, 3, 4, 5]) ≠ xorAll (words [2, 2, 3, 4, 5]) := by
  obtain ⟨hkernel, hhost, hdetect⟩ := ichecksum_words
  have hsum : xorAll (words (contents fiveSectors fiveBytes)) = 0x04030204 := by decide
  have hmap : Mapped fiveSectors fiveBytes := by
    refine ⟨by decide, fun bn hbn => ?_⟩
    have hsize : fiveBytes.size.toNat = 5 := rfl
    obtain rfl : bn = 0 := by omega
    decide
  refine ⟨?_, ?_, ?_⟩
  · have hrun := hkernel
      { State.blank ⟨0, 0, false, 1, 0, fun _ => 0⟩ with
        icache := fun _ => ⟨1, 2, 1, true, true, fiveBytes⟩, disk := fun _ => fiveSectors } 0
      (by decide) hmap
    exact ⟨_, 0, rfl, hrun.trans (congrArg (Res.ok · _) hsum)⟩
  · have hread : Host.Readable { Host.blank with sect := fiveSectors, len := 30 } fiveBytes := by
      refine ⟨by decide, by decide, fun bn hbn => ?_, fun bn h10 hbn => ?_⟩
      · have hsize : fiveBytes.size.toNat = 5 := rfl
        obtain rfl : bn = 0 := by omega
        decide
      · have hsize : fiveBytes.size.toNat = 5 := rfl
        omega
    exact ⟨_, (hhost _ _ hread).trans (congrArg (Res.ok · _) hsum)⟩
  · refine (hdetect [1, 2, 3, 4, 5] [2, 2, 3, 4, 5] rfl).2 0 (fun j hj => ?_) (by decide)
    match j, hj with
    | j + 1, _ => rfl

end Zv6
