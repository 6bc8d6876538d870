import Icix.Fs.State
import Mathlib.Data.Finset.Erase
import Mathlib.Data.Finset.Filter
import Mathlib.Data.Finset.Range

/-! The bitmaps as sets of indices: what the helpers do to the bits and to the words, and how
many words get_bitmap_sz asks for. -/
namespace Icix
open Bytes

/- The two helpers that change a bitmap, and the bit they leave. -/
inductive BitmapOp where
  | set | reset
  deriving DecidableEq, Repr

def BitmapOp.run : BitmapOp → Bitmap → Int → Bitmap
  | .set => setBitmap
  | .reset => resetBitmap

def BitmapOp.bit : BitmapOp → Bool
  | .set => true
  | .reset => false

/- What they mean for the set. -/
def BitmapOp.on : BitmapOp → Finset Nat → Nat → Finset Nat
  | .set => fun s i => insert i s
  | .reset => Finset.erase

/-- The indices that a bitmap of n words holds. -/
def indices (n : Nat) (b : Bitmap) : Finset Nat := (Finset.range (32 * n)).filter fun i => getBitmap b i

@[simp] theorem mem_indices {n : Nat} {b : Bitmap} {i : Nat} :
    i ∈ indices n b ↔ i < 32 * n ∧ getBitmap b i = true := by
  simp [indices]

/-- A bitmap of n words is a set of the indices below 32 * n. -/
structure BitmapSet (n : Nat) (b : Bitmap) : Prop where
  set_self : ∀ i < 32 * n, getBitmap (setBitmap b i) i = true
  set_other : ∀ i < 32 * n, ∀ j < 32 * n, j ≠ i → getBitmap (setBitmap b i) j = getBitmap b j
  reset_self : ∀ i < 32 * n, getBitmap (resetBitmap b i) i = false
  reset_other : ∀ i < 32 * n, ∀ j < 32 * n, j ≠ i → getBitmap (resetBitmap b i) j = getBitmap b j
  comm : ∀ o p : BitmapOp, ∀ i < 32 * n, ∀ j < 32 * n, j ≠ i → p.run (o.run b i) j = o.run (p.run b j) i
  words : ∀ o : BitmapOp, ∀ i < 32 * n, i / 32 < n ∧ ∀ w, w ≠ i / 32 → o.run b i w = b w
  refines : ∀ o : BitmapOp, ∀ i < 32 * n, indices n (o.run b i) = o.on (indices n b) i

/- Every index below m lives in one of sz words. -/
def HasRoom (sz m : Int) : Prop := ∀ i : Nat, i < m → insideBitmap sz i

theorem BitmapOp.run_eq (o : BitmapOp) (b : Bitmap) (i : Int) :
    o.run b i = WordBits.putBit o.bit b (bitmapWord i) (bitmapShift i) := by
  cases o <;> rfl

@[simp] theorem BitmapOp.get_run (o : BitmapOp) (b : Bitmap) (i j : Nat) :
    getBitmap (o.run b i) j = if j = i then o.bit else getBitmap b j := by
  rw [run_eq]
  exact (WordBits.testBit_putBit _ _ _ _ (bitmapShift_lt i) (bitmapShift_lt j)).trans
    (if_congr (sameBit_nat i j) rfl rfl)

theorem BitmapOp.run_comm (o p : BitmapOp) (b : Bitmap) {i j : Nat} (apart : j ≠ i) :
    p.run (o.run b i) j = o.run (p.run b j) i := by
  simp only [run_eq]
  exact WordBits.putBit_comm _ _ b (bitmapShift_lt i) (bitmapShift_lt j) (mt (sameBit_nat i j).mp apart)

theorem BitmapOp.run_word (o : BitmapOp) (b : Bitmap) {i w : Nat} (other : w ≠ i / 32) : o.run b i w = b w := by
  rw [run_eq]
  exact WordBits.putBit_other _ b _ other

theorem BitmapOp.indices_run (o : BitmapOp) {n : Nat} (b : Bitmap) {i : Nat} (inside : i < 32 * n) :
    indices n (o.run b i) = o.on (indices n b) i := by
  ext j
  by_cases same : j = i
  · subst j
    cases o <;> simp [bit, on, inside]
  · cases o <;> simp [on, same]

theorem bitmapSet (n : Nat) (b : Bitmap) : BitmapSet n b where
  set_self i _ := get_set_self b i
  set_other i _ j _ other := by simp [other]
  reset_self i _ := by simp
  reset_other i _ j _ other := by simp [other]
  comm o p i _ j _ apart := o.run_comm p b apart
  words o i inside := ⟨by omega, fun w other => o.run_word b other⟩
  refines o i inside := o.indices_run b inside

/-- The sum n + 31 does not leave the ints up to 2147483616; from there on it is negative. -/
theorem hasRoom_iff {m : Int} (low : -2147483648 ≤ m) (high : m < 2147483648) :
    HasRoom (getBitmapSz m) m ↔ m ≤ 2147483616 := by
  constructor
  · intro room
    by_contra above
    have wrapped : int32 (m + 31) = -(4294967296 - (m + 31)) := by
      rw [← int32_eq (x := -(4294967296 - (m + 31))) (by omega) (by omega), Int.neg_sub]
      exact (Int.sub_bmod_right _ 4294967296).symm
    have magnitude : 0 ≤ (4294967296 - (m + 31)).tdiv 32 := Int.tdiv_nonneg (by omega) (by decide)
    obtain ⟨start, below⟩ := room 0 (by omega)
    rw [getBitmapSz, wrapped, Int.neg_tdiv] at below
    omega
  · intro fits i below
    obtain ⟨n, rfl⟩ := Int.eq_ofNat_of_zero_le (by omega : 0 ≤ m)
    rw [getBitmapSz_nat (by omega), insideBitmap_nat]
    omega

/-- For all bitmaps and indices the helpers implement a set, and get_bitmap_sz words hold all
indices below its argument if and only if that is not one of the 31 largest ints. -/
theorem bitmap_is_set (n : Nat) (b : Bitmap) (m : Word) :
    BitmapSet n b ∧ HasRoom (getBitmapSz m.toInt) m.toInt ↔ m.toInt ≤ 2147483616 :=
  (and_iff_right (bitmapSet n b)).trans (hasRoom_iff (BitVec.le_toInt m) BitVec.toInt_lt)

/-- The largest int asks for a negative number of words. -/
theorem bitmap_sz_wraps : ¬ HasRoom (getBitmapSz (2147483647 : Word).toInt) (2147483647 : Word).toInt := by
  intro room
  exact absurd (room 0 (by decide)) (by decide)

end Icix
