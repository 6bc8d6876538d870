import Mathlib.Logic.Function.Basic

/-! Bit sets stored in arrays of 32-bit words. A bit is a word index and a
position below 32; how an index maps to them is left to the client. -/
namespace WordBits

def setBit (b : Nat → BitVec 32) (w p : Nat) : Nat → BitVec 32 :=
  Function.update b w (b w ||| 1#32 <<< p)

def clearBit (b : Nat → BitVec 32) (w p : Nat) : Nat → BitVec 32 :=
  Function.update b w (b w &&& ~~~(1#32 <<< p))

def testBit (b : Nat → BitVec 32) (w p : Nat) : Bool := b w &&& 1#32 <<< p != 0#32

theorem bit_zero {bit : BitVec 1} (clear : bit ≠ 1) : bit = 0 := by
  revert bit
  decide

theorem getLsbD_one_shift {p : Nat} (hp : p < 32) (i : Nat) :
    (1#32 <<< p).getLsbD i = decide (i = p) := by
  by_cases hi : i = p
  · subst i
    simp [hp]
  · by_cases lt : i < p
    · simp [hi, lt]
    · have above : ¬ i - p = 0 := by omega
      simp [hi, above]

/-- The masked word is not zero exactly when the bit is set. -/
theorem testBit_eq_getLsbD (b : Nat → BitVec 32) (w : Nat) {p : Nat} (hp : p < 32) :
    testBit b w p = (b w).getLsbD p := by
  rw [Bool.eq_iff_iff, testBit, bne_iff_ne]
  constructor
  · intro nonzero
    by_contra clear
    apply nonzero
    apply BitVec.eq_of_getLsbD_eq
    intro i _
    rw [BitVec.getLsbD_and, getLsbD_one_shift hp, BitVec.getLsbD_zero]
    by_cases hi : i = p
    · simpa [hi] using clear
    · simp [hi]
  · intro set zero
    have bit := congrArg (fun x => x.getLsbD p) zero
    simp [BitVec.getLsbD_and, getLsbD_one_shift hp, set] at bit

theorem testBit_setBit (b : Nat → BitVec 32) (w v : Nat) {p q : Nat} (hp : p < 32) (hq : q < 32) :
    testBit (setBit b w p) v q = (decide (v = w ∧ q = p) || testBit b v q) := by
  rw [testBit_eq_getLsbD _ _ hq, testBit_eq_getLsbD _ _ hq, setBit]
  by_cases same : v = w
  · subst v
    rw [Function.update_self, BitVec.getLsbD_or, getLsbD_one_shift hp, Bool.or_comm]
    simp
  · simp [same]

theorem testBit_clearBit (b : Nat → BitVec 32) (w v : Nat) {p q : Nat} (hp : p < 32) (hq : q < 32) :
    testBit (clearBit b w p) v q = (!decide (v = w ∧ q = p) && testBit b v q) := by
  rw [testBit_eq_getLsbD _ _ hq, testBit_eq_getLsbD _ _ hq, clearBit]
  by_cases same : v = w
  · subst v
    rw [Function.update_self, BitVec.getLsbD_and, BitVec.getLsbD_not, getLsbD_one_shift hp,
      Bool.and_comm]
    simp [hq]
  · simp [same]

/-- Two arrays of words with the same bits are equal. -/
theorem eq_of_testBit {b c : Nat → BitVec 32} (same : ∀ w, ∀ p < 32, testBit b w p = testBit c w p) : b = c := by
  funext w
  apply BitVec.eq_of_getLsbD_eq
  intro p hp
  rw [← testBit_eq_getLsbD b w hp, ← testBit_eq_getLsbD c w hp, same w p hp]

/-- A bit is given a value, by one of the two updates. -/
def putBit (x : Bool) (b : Nat → BitVec 32) (w p : Nat) : Nat → BitVec 32 :=
  if x then setBit b w p else clearBit b w p

theorem testBit_putBit (x : Bool) (b : Nat → BitVec 32) (w v : Nat) {p q : Nat} (hp : p < 32) (hq : q < 32) :
    testBit (putBit x b w p) v q = if v = w ∧ q = p then x else testBit b v q := by
  cases x with
  | true => simp [putBit, testBit_setBit b w v hp hq]
  | false => simp [putBit, testBit_clearBit b w v hp hq]

theorem putBit_other (x : Bool) (b : Nat → BitVec 32) {w v : Nat} (p : Nat) (other : v ≠ w) :
    putBit x b w p v = b v := by
  cases x with
  | true => simp [putBit, setBit, other]
  | false => simp [putBit, clearBit, other]

/-- Updates of two bits can be made in either order. -/
theorem putBit_comm (x y : Bool) (b : Nat → BitVec 32) {w v p q : Nat} (hp : p < 32) (hq : q < 32)
    (apart : ¬(v = w ∧ q = p)) : putBit y (putBit x b w p) v q = putBit x (putBit y b v q) w p := by
  apply eq_of_testBit
  intro u r hr
  simp only [testBit_putBit _ _ _ _ hp hr, testBit_putBit _ _ _ _ hq hr]
  by_cases first : u = v ∧ r = q
  · obtain ⟨rfl, rfl⟩ := first
    simp [apart]
  · simp [first]

/-- A word is full exactly when none of its 32 bits is clear. -/
theorem word_full_iff (b : Nat → BitVec 32) (w : Nat) :
    b w = 0xFFFFFFFF#32 ↔ ∀ p < 32, testBit b w p = true := by
  have ones : (0xFFFFFFFF#32) = BitVec.allOnes 32 := by decide
  constructor
  · intro full p hp
    rw [testBit_eq_getLsbD _ _ hp, full, ones, BitVec.getLsbD_allOnes]
    exact decide_eq_true hp
  · intro bits
    apply BitVec.eq_of_getLsbD_eq
    intro i hi
    rw [← testBit_eq_getLsbD b w hi, bits i hi, ones, BitVec.getLsbD_allOnes]
    exact (decide_eq_true hi).symm

end WordBits
