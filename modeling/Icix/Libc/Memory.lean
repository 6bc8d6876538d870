import Icix.Library.Bytes
import Icix.Library.Copies

/-! memmove of libc/string, over the memory of the whole machine. -/
namespace Icix.Libc
open Bytes Copies

abbrev Memory := Word → Byte

/- &p[i], for an array of bytes. -/
def byteAddr (p : Word) (i : Nat) : Word := p + BitVec.ofNat 32 i

/-- Upwards where the destination is below the source, and otherwise downwards. -/
def memmove (m : Memory) (dst src size : Word) : Word × Memory :=
  if dst < src then (dst, copyEach (byteAddr dst) (byteAddr src) (List.range size.toNat) m)
  else (dst, copyEach (byteAddr dst) (byteAddr src) (List.range size.toNat).reverse m)

/-- A range that does not go past the last address. -/
def InSpace (p size : Word) : Prop := p.toNat + size.toNat ≤ 4294967296

instance (p size : Word) : Decidable (InSpace p size) :=
  inferInstanceAs (Decidable (p.toNat + size.toNat ≤ 4294967296))

theorem byteAddr_toNat {p size : Word} (fits : InSpace p size) {i : Nat} (inside : i < size.toNat) :
    (byteAddr p i).toNat = p.toNat + i := by
  unfold InSpace at fits
  rw [byteAddr, BitVec.toNat_add, BitVec.toNat_ofNat]
  omega

section Move

variable {dst src size : Word} (fitsDst : InSpace dst size) (fitsSrc : InSpace src size)
include fitsDst fitsSrc

/- The store of byte i does not touch byte j of the source, nor of the destination. -/
theorem stores_apart {i j : Nat} (hi : i < size.toNat) (hj : j < size.toNat) (other : i ≠ j)
    (clear : dst.toNat + i ≠ src.toNat + j) :
    byteAddr dst i ≠ byteAddr src j ∧ byteAddr dst i ≠ byteAddr dst j := by
  constructor
  · intro same
    have number := congrArg BitVec.toNat same
    rw [byteAddr_toNat fitsDst hi, byteAddr_toNat fitsSrc hj] at number
    exact clear number
  · intro same
    have number := congrArg BitVec.toNat same
    rw [byteAddr_toNat fitsDst hi, byteAddr_toNat fitsDst hj] at number
    omega

/-- memmove makes its assignments in an order in which no byte is overwritten before it has
been read. -/
theorem memmove_order (m : Memory) : ∃ is, (∀ i, i ∈ is ↔ i < size.toNat) ∧
    InOrder (byteAddr dst) (byteAddr src) is ∧
    memmove m dst src size = (dst, copyEach (byteAddr dst) (byteAddr src) is m) := by
  by_cases below : dst < src
  · refine ⟨List.range size.toNat, fun i => List.mem_range, ?_, if_pos below⟩
    have less := BitVec.lt_def.mp below
    exact inOrder_range fun i j before hj =>
      stores_apart fitsDst fitsSrc (Nat.lt_trans before hj) hj (Nat.ne_of_lt before) (by omega)
  · refine ⟨(List.range size.toNat).reverse, fun i => List.mem_reverse.trans List.mem_range, ?_, if_neg below⟩
    have le := Nat.le_of_not_lt fun less => below (BitVec.lt_def.mpr less)
    exact inOrder_reverse fun i j before hi =>
      stores_apart fitsDst fitsSrc hi (Nat.lt_trans before hi) (Nat.ne_of_gt before) (by omega)

end Move

/-- Wherever the two ranges overlap, the destination gets the bytes that the source had, and
no other byte changes. -/
theorem memmove_correct (m : Memory) (dst src size : Word) (fitsDst : InSpace dst size) (fitsSrc : InSpace src size) :
    (memmove m dst src size).1 = dst ∧
      (∀ i < size.toNat, (memmove m dst src size).2 (byteAddr dst i) = m (byteAddr src i)) ∧
      ∀ a, (∀ i < size.toNat, a ≠ byteAddr dst i) → (memmove m dst src size).2 a = m a := by
  obtain ⟨is, all, order, moved⟩ := memmove_order fitsDst fitsSrc m
  rw [moved]
  refine ⟨rfl, ?_, ?_⟩
  · intro i inside
    exact copyEach_inside order m ((all i).mpr inside)
  · intro a outside
    exact copyEach_outside m fun i mem => outside i ((all i).mp mem)

/-- Three bytes, one address up. -/
theorem memmove_correct_overlap :
    let m : Memory := fun a => a.setWidth 8
    (∀ i < 3, (memmove m 0x1001 0x1000 3).2 (byteAddr 0x1001 i) = m (byteAddr 0x1000 i)) ∧
      (memmove m 0x1001 0x1000 3).2 0x1000 = 0 := by
  have moved := memmove_correct (fun a => a.setWidth 8) 0x1001 0x1000 3 (by decide) (by decide)
  exact ⟨moved.2.1, (moved.2.2 0x1000 (by decide)).trans (by decide)⟩

end Icix.Libc
