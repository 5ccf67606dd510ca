/-
  Machines with small volumes in good order.

  A list of files whose data match their checksums and whose dittos have the data of their
  inodes (`SpecsGood`) makes a volume in good order, and the machine just booted from it holds
  that volume (`machine_vol`).
-/
import Zv6.Fs.Image
import Zv6.Fs.Sound

namespace Zv6

open Lib

/-- The data of inode `k`. -/
def dataAt (files : List Spec) (k : Nat) : List UInt8 :=
  match files[k - 1]? with
  | some f => f.data
  | none => []

/-- The dittos inode `k` names have its data. -/
def kidsMirrored (files : List Spec) (k : Nat) (i : Bool) : Prop :=
  (dinodeAt files k).child i ≠ 0 → dataAt files ((dinodeAt files k).child i) = dataAt files k

instance (files : List Spec) (k : Nat) (i : Bool) : Decidable (kidsMirrored files k i) :=
  inferInstanceAs (Decidable (_ → _))

/-- Nothing is damaged. -/
def SpecsGood (files : List Spec) : Prop :=
  (∀ f ∈ files, checksumOf f.data = f.checksum) ∧ ∀ k < 16, ∀ i, kidsMirrored files k i

instance (files : List Spec) : Decidable (SpecsGood files) :=
  inferInstanceAs (Decidable (_ ∧ _))

section Machine

variable {top : Nat} {files : List Spec} {n k : Nat}

theorem contents_live (h : SpecsOk files) (hk : Live imageSb (table (image top files)) k) :
    contents (image top files) (table (image top files) k) = dataAt files k := by
  obtain ⟨h1, h16, f, -, hf, -, hlen⟩ := live_image h hk
  rw [contents_image ⟨h1, h16⟩ hf hlen]
  unfold dataAt
  rw [hf]

theorem image_sound (h : SpecsOk files) (hg : SpecsGood files)
    (htop : 6 + 10 * files.length ≤ top) :
    Sound imageSb ∅ (image top files) (table (image top files)) := by
  have hfs := image_fs h htop
  refine ⟨fun k hk _ => hfs.mapped k hk, hfs.dev, ?_, hfs.child, hfs.childless, hfs.parent,
    ?_, by simp⟩
  · intro k hk _
    obtain ⟨h1, h16, f, hmem, hf, -, hlen⟩ := live_image h hk
    exact (good_image ⟨h1, h16⟩ hf hlen).mpr (hg.1 f hmem)
  · intro k i hk hi _
    rw [contents_live h hk, contents_live h (hfs.child k i hk hi).1]
    obtain ⟨-, h16, -⟩ := live_image h hk
    rw [table_image _ _ h16, child_core] at hi ⊢
    exact hg.2 k h16 i hi

/-- The link counts of the image. -/
def imageLinks (top : Nat) (files : List Spec) (k : Nat) : UInt16 :=
  (onDisk (image top files) k).nlink

theorem machine_vol (h : SpecsOk files) (htop : 6 + 10 * files.length ≤ top)
    (hn : Live imageSb (table (image top files)) n) :
    Vol imageSb (leaked imageSb (image top files) (table (image top files)))
      (table (image top files)) (imageLinks top files) ∅ ∅ (machine top files n) := by
  refine ⟨(machine_idle top files n).jrn (machine_placed top files n) (by decide), ?_, ?_, ?_, ?_,
    ?_, by simp⟩
  · exact (image_fs h htop).own
  · intro i j k hi hj
    rw [((machine_caches top files n).mp hi).1, ((machine_caches top files n).mp hj).1]
  · intro j hj
    obtain rfl := machine_slot top files n hj
    exact ⟨rfl, hn⟩
  · intro j hj hv
    obtain rfl := machine_slot top files n hj
    cases hv
  · intro k _ _
    exact ⟨rfl, fun _ => rfl⟩

end Machine

end Zv6
