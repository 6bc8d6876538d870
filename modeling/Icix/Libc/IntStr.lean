import Icix.Library.Bytes
import Icix.Library.Ints
import Mathlib.Data.Nat.Digits.Lemmas

/-! The string functions of libc/string and __int_str of libc/stdio/printf.c, on i386,
where a pointer has 4 bytes and strcpy copies one more. Buffers are byte memories
with a size that every access is checked against. -/
namespace Icix.Libc
open Bytes

/-- The ways in which the printing code goes astray: an access past the end of the
format, outside a buffer or the digit table, to a string that no int can index, to an
argument that was not passed; and a loop that does not end. -/
inductive Stray where
  | format | buffer | digit | string | argument | endless
  deriving DecidableEq, Repr

def ch (c : Char) : Byte := BitVec.ofNat 8 c.toNat

/- A string literal; what follows it is not read. -/
def literal (s : List Char) : Nat → Byte := fun k => (s.map ch).getD k 0

def zeros : Nat → Byte := fun _ => 0

/-- b[k] = c in an array of 256 bytes. -/
def put (b : Nat → Byte) (k : Nat) (c : Byte) : Except Stray (Nat → Byte) :=
  if k < 256 then .ok (Function.update b k c) else .error .buffer

def stringIn (size : Nat) (b : Nat → Byte) : Except Stray (List Byte) :=
  match readString size b with
  | some cs => .ok cs
  | none => .error .buffer

def strlen (size : Nat) (b : Nat → Byte) : Except Stray Nat := (stringIn size b).map List.length

/-- A memcpy of sizeof(src) + 1 bytes, where src is a pointer. -/
def strcpy (dest src : Nat → Byte) : Nat → Byte := blit dest 0 5 src

/-- The string in an array of n bytes, appended to the one in an array of size bytes. -/
def strcat (size n : Nat) (dest src : Nat → Byte) : Except Stray (Nat → Byte) := do
  let d ← strlen size dest
  let s ← strlen n src
  if d + s + 1 ≤ size then .ok (blit dest d (s + 1) src) else .error .buffer

/- The table digit[32] for a base; 17 stands for 16 in small letters. -/
def digitTable (base : Nat) : Except Stray (Nat → Byte) :=
  let digit := strcpy zeros (literal ['0', '1', '2', '3', '4', '5', '6', '7', '8', '9'])
  if base = 16 then strcat 32 7 digit (literal ['A', 'B', 'C', 'D', 'E', 'F'])
  else if base = 17 then strcat 32 7 digit (literal ['a', 'b', 'c', 'd', 'e', 'f'])
  else .ok digit

/-- The loop that counts the digits of shifter by moving p. -/
def countDigits (base : Nat) : Nat → Int → Nat → Except Stray Nat
  | 0, _, _ => .error .endless
  | fuel + 1, shifter, p =>
    let shifter := shifter.tdiv base
    if shifter ≠ 0 then countDigits base fuel shifter (p + 1) else .ok (p + 1)

/-- The loop that writes the digits of i before p; also returns p. -/
def writeDigits (digit : Nat → Byte) (base : Nat) : Nat → Int → Nat → (Nat → Byte) →
    Except Stray (Nat × (Nat → Byte))
  | 0, _, _, _ => .error .endless
  | _ + 1, _, 0, _ => .error .buffer
  | fuel + 1, i, p + 1, b => do
    let r := i.tmod base
    if r < 0 ∨ 32 ≤ r then .error .digit
    else do
      let b ← put b p (digit r.toNat)
      let i := i.tdiv base
      if i ≠ 0 then writeDigits digit base fuel i p b else .ok (p, b)

/- No int has more than 32 digits. -/
def putNumeral (digit : Nat → Byte) (base : Nat) (i : Int) (p : Nat) (b : Nat → Byte) :
    Except Stray (Nat × (Nat → Byte)) := do
  let q ← countDigits base 32 i p
  let b ← put b q 0
  writeDigits digit base 32 i q b

/- The sign character, p after it, and what is left to print. -/
def putSign (i : Int) (b : Nat → Byte) (plusSign spaceSign : Bool) : (Nat → Byte) × Nat × Int :=
  if i < 0 then (Function.update b 0 (ch '-'), 1, int32 (i * -1))
  else if plusSign then (Function.update b 0 (ch '+'), 1, i)
  else if spaceSign then (Function.update b 0 (ch ' '), 1, i)
  else (b, 0, i)

/-- while (padding--) b[strlen(b)] = c; -/
def pad (c : Byte) : Nat → (Nat → Byte) → Except Stray (Nat → Byte)
  | 0, b => .ok b
  | padding + 1, b => do
    let k ← strlen 256 b
    let b ← put b k c
    pad c padding b

/-- The end of __int_str, where b holds the number. -/
def justified (b : Nat → Byte) (paddingNo : Int) (justify zeroPad : Bool) : Except Stray (Nat → Byte) := do
  let len ← strlen 256 b
  let padding := (int32 (paddingNo - len)).toNat
  let c := if zeroPad then ch '0' else ch ' '
  if justify then pad c padding b
  else do
    let a ← pad c padding zeros
    let a ← strcat 256 256 a b
    .ok (strcpy b a)

def intStr (i : Int) (b : Nat → Byte) (base : Nat) (plusSign spaceSign : Bool) (paddingNo : Int)
    (justify zeroPad : Bool) : Except Stray (Nat → Byte) := do
  let digit ← digitTable base
  let base := if base = 17 then 16 else base
  let (b, p, i) := putSign i b plusSign spaceSign
  let (_, b) ← putNumeral digit base i p b
  justified b paddingNo justify zeroPad

/- The number of digits, one for zero, and the bytes that stand for them. -/
def digitCount (base n : Nat) : Nat := Nat.log base n + 1

def numeral (digit : Nat → Byte) (base n : Nat) : Nat → Byte :=
  fun x => digit (n / base ^ (Nat.log base n - x) % base)

/-- The digits of n from the first to the last, one for zero. -/
def places (base n : Nat) : List Nat :=
  (List.range (digitCount base n)).map (fun x => n / base ^ (Nat.log base n - x) % base)

section Loops

variable {base : Nat} (two : 2 ≤ base)
include two

theorem countDigits_ok {n fuel p : Nat} (enough : n < base ^ (fuel + 1)) :
    countDigits base (fuel + 1) n p = .ok (p + digitCount base n) := by
  induction fuel generalizing n p with
  | zero =>
    have less : n < base := by simpa using enough
    have last : (n : Int).tdiv base = 0 := Int.tdiv_eq_zero_of_lt (Int.natCast_nonneg n) (Int.ofNat_lt.mpr less)
    rw [countDigits, last, digitCount, Nat.log_of_lt less]
    rfl
  | succ fuel ih =>
    have quotient : (n : Int).tdiv base = ((n / base : Nat) : Int) := rfl
    rw [countDigits, quotient]
    by_cases more : n < base
    · rw [Nat.div_eq_of_lt more, digitCount, Nat.log_of_lt more]
      rfl
    · have le := Nat.le_of_not_lt more
      have positive : 0 < n / base := Nat.div_pos le (Nat.lt_of_lt_of_le (Nat.succ_pos 1) two)
      have nonzero : ((n / base : Nat) : Int) ≠ 0 := by omega
      have less : n / base < base ^ (fuel + 1) := Nat.div_lt_of_lt_mul (by rwa [← Nat.pow_succ'])
      have log : Nat.log base n = Nat.log base (n / base) + 1 := Nat.log_of_one_lt_of_le two le
      rw [if_pos nonzero, ih less, digitCount, digitCount, log]
      congr 1
      omega

/- The digits of n are those of n / base and its last one. -/
theorem digitCount_step {n : Nat} (le : base ≤ n) : digitCount base n = digitCount base (n / base) + 1 := by
  rw [digitCount, digitCount, Nat.log_of_one_lt_of_le two le]

theorem numeral_step (digit : Nat → Byte) {n : Nat} (le : base ≤ n) {x : Nat} (inside : x < digitCount base (n / base)) :
    numeral digit base (n / base) x = numeral digit base n x := by
  have log : Nat.log base n = Nat.log base (n / base) + 1 := Nat.log_of_one_lt_of_le two le
  have place : Nat.log base n - x = Nat.log base (n / base) - x + 1 := by
    rw [digitCount] at inside
    omega
  simp only [numeral, place, Nat.pow_succ', Nat.div_div_eq_div_mul]

omit two in
theorem numeral_last (digit : Nat → Byte) (n : Nat) : numeral digit base n (Nat.log base n) = digit (n % base) := by
  simp only [numeral, Nat.sub_self, Nat.pow_zero, Nat.div_one]

theorem writeDigits_step (digit : Nat → Byte) (small : base ≤ 32) (n fuel : Nat) {p : Nat} (inside : p < 256)
    (b : Nat → Byte) :
    writeDigits digit base (fuel + 1) n (p + 1) b =
      if n / base ≠ 0 then writeDigits digit base fuel ((n / base : Nat) : Int) p (Function.update b p (digit (n % base)))
      else .ok (p, Function.update b p (digit (n % base))) := by
  have positive : 0 < base := Nat.lt_of_lt_of_le (Nat.succ_pos 1) two
  have quotient : (n : Int).tdiv base = ((n / base : Nat) : Int) := rfl
  have remainder : (n : Int).tmod base = ((n % base : Nat) : Int) := rfl
  have less : n % base < base := Nat.mod_lt n positive
  have entry : ¬ (((n % base : Nat) : Int) < 0 ∨ 32 ≤ ((n % base : Nat) : Int)) := by omega
  have same : (((n / base : Nat) : Int) ≠ 0) = (n / base ≠ 0) := propext (not_congr Int.natCast_eq_zero)
  simp only [writeDigits, quotient, remainder, if_neg entry, put, if_pos inside, bind, Except.bind,
    Int.toNat_natCast, same]

theorem writeDigits_single (digit : Nat → Byte) (small : base ≤ 32) {n p : Nat} (less : n < base)
    (inside : p < 256) (fuel : Nat) (b : Nat → Byte) :
    writeDigits digit base (fuel + 1) n (p + digitCount base n) b =
      .ok (p, blit b p (digitCount base n) (numeral digit base n)) := by
  have log : Nat.log base n = 0 := Nat.log_of_lt less
  have last : numeral digit base n 0 = digit (n % base) := log ▸ numeral_last digit n
  have count : digitCount base n = 1 := by rw [digitCount, log]
  have stop : ¬ n / base ≠ 0 := by simp [Nat.div_eq_of_lt less]
  have block := blit_succ b (numeral digit base n) p 0
  rw [blit_zero, Nat.add_zero, last] at block
  rw [count, writeDigits_step two digit small n fuel inside, if_neg stop, block]
  rfl

theorem writeDigits_ok (digit : Nat → Byte) (small : base ≤ 32) {n fuel p : Nat} (enough : n < base ^ (fuel + 1))
    (inside : p + digitCount base n ≤ 256) (b : Nat → Byte) :
    writeDigits digit base (fuel + 1) n (p + digitCount base n) b =
      .ok (p, blit b p (digitCount base n) (numeral digit base n)) := by
  have first : p < 256 := by
    rw [digitCount] at inside
    omega
  induction fuel generalizing n b with
  | zero =>
    have less : n < base := by simpa using enough
    exact writeDigits_single two digit small less first 0 b
  | succ fuel ih =>
    by_cases less : n < base
    · exact writeDigits_single two digit small less first (fuel + 1) b
    · have le := Nat.le_of_not_lt less
      have positive : 0 < n / base := Nat.div_pos le (Nat.lt_of_lt_of_le (Nat.succ_pos 1) two)
      have more : n / base ≠ 0 := Nat.pos_iff_ne_zero.mp positive
      have count := digitCount_step two le
      have rest : n / base < base ^ (fuel + 1) := Nat.div_lt_of_lt_mul (by rwa [← Nat.pow_succ'])
      have last : digit (n % base) = numeral digit base n (digitCount base (n / base)) := by
        rw [← numeral_last digit n, Nat.log_of_one_lt_of_le two le, digitCount]
      rw [count, ← Nat.add_assoc] at inside ⊢
      have step := writeDigits_step two digit small n (fuel + 1) (Nat.lt_of_succ_le inside) b
      rw [if_pos more, ih rest (Nat.le_of_succ_le inside)] at step
      rw [step, blit_congr _ p (fun k inside => numeral_step two digit le inside), last, blit_update_last]

/- Neither loop runs out of fuel, and the digits fit behind a sign. -/
theorem loops_ok (digit : Nat → Byte) (small : base ≤ 32) {n p : Nat} (int : n < 2147483648) (early : p ≤ 1)
    (b : Nat → Byte) :
    p + digitCount base n < 256 ∧ countDigits base 32 n p = .ok (p + digitCount base n) ∧
      writeDigits digit base 32 n (p + digitCount base n) b =
        .ok (p, blit b p (digitCount base n) (numeral digit base n)) := by
  have bits : n < base ^ 32 := Nat.lt_of_lt_of_le (Nat.lt_trans int (by decide)) (Nat.pow_le_pow_left two 32)
  have count : digitCount base n ≤ 32 := Nat.log_lt_of_lt_pow' (by decide) bits
  have inside : p + digitCount base n < 256 := by omega
  exact ⟨inside, countDigits_ok two bits, writeDigits_ok two digit small bits (Nat.le_of_lt inside) b⟩

theorem putNumeral_ok (digit : Nat → Byte) (small : base ≤ 32) {n p : Nat} (int : n < 2147483648) (early : p ≤ 1)
    (b : Nat → Byte) :
    putNumeral digit base n p b = .ok (p, blit (Function.update b (p + digitCount base n) 0) p (digitCount base n)
      (numeral digit base n)) := by
  obtain ⟨inside, counted, written⟩ :=
    loops_ok two digit small int early (Function.update b (p + digitCount base n) 0)
  simp only [putNumeral, counted, bind, Except.bind, put, if_pos inside, written]

omit two in
theorem places_spelled (digit : Nat → Byte) (n : Nat) :
    (List.range (digitCount base n)).map (numeral digit base n) = (places base n).map digit := by
  rw [places, List.map_map]
  rfl

theorem places_lt {n d : Nat} (mem : d ∈ places base n) : d < base := by
  obtain ⟨x, -, rfl⟩ := List.mem_map.mp mem
  exact Nat.mod_lt _ (Nat.lt_of_lt_of_le (Nat.succ_pos 1) two)

theorem places_last {n : Nat} (le : base ≤ n) : places base n = places base (n / base) ++ [n % base] := by
  have log : Nat.log base n = Nat.log base (n / base) + 1 := Nat.log_of_one_lt_of_le two le
  rw [places, places, digitCount_step two le, List.range_succ, List.map_append, List.map_singleton]
  congr 1
  · apply List.map_congr_left
    intro x inside
    have place : Nat.log base n - x = Nat.log base (n / base) - x + 1 := by
      have less := List.mem_range.mp inside
      rw [digitCount] at less
      omega
    rw [place, Nat.pow_succ', Nat.div_div_eq_div_mul]
  · rw [digitCount, log, Nat.sub_self, Nat.pow_zero, Nat.div_one]

omit two in
theorem places_single {n : Nat} (less : n < base) : places base n = [n] := by
  have log : Nat.log base n = 0 := Nat.log_of_lt less
  simp [places, digitCount, log, Nat.mod_eq_of_lt less]

/-- Only zero begins with the digit zero. -/
theorem places_digits (n : Nat) : places base n = if n = 0 then [0] else (Nat.digits base n).reverse := by
  induction n using Nat.strong_induction_on with
  | _ n ih =>
    by_cases less : n < base
    · rw [places_single less]
      split
      · rename_i zero
        rw [zero]
      · rename_i nonzero
        rw [Nat.digits_of_lt base n nonzero less, List.reverse_singleton]
    · have le := Nat.le_of_not_lt less
      have positive : 0 < n := Nat.lt_of_lt_of_le (Nat.lt_of_lt_of_le (Nat.succ_pos 1) two) le
      have quotient : 0 < n / base := Nat.div_pos le (Nat.lt_of_lt_of_le (Nat.succ_pos 1) two)
      rw [places_last two le, ih (n / base) (Nat.div_lt_self positive two), if_neg quotient.ne', if_neg positive.ne',
        Nat.digits_def' two positive, List.reverse_cons]

end Loops

/- The sign characters, and the digits of a number in a base. -/
def signText (i : Int) (plusSign spaceSign : Bool) : List Byte :=
  if i < 0 then [ch '-'] else if plusSign then [ch '+'] else if spaceSign then [ch ' '] else []

theorem signText_short (i : Int) (plusSign spaceSign : Bool) : (signText i plusSign spaceSign).length ≤ 1 := by
  unfold signText
  repeat' split
  all_goals simp

theorem putSign_ok {i : Int} (low : -2147483648 < i) (high : i < 2147483648) (b : Nat → Byte)
    (plusSign spaceSign : Bool) :
    putSign i b plusSign spaceSign =
      (blit b 0 (signText i plusSign spaceSign).length (fun k => (signText i plusSign spaceSign).getD k 0),
        (signText i plusSign spaceSign).length, (i.natAbs : Int)) := by
  have one : ∀ c, blit b 0 [c].length (fun k => [c].getD k 0) = Function.update b 0 c := by
    intro c
    rw [List.length_singleton, blit_succ, blit_zero]
    rfl
  have none : blit b 0 0 (fun _ => 0) = b := blit_zero b _ 0
  unfold putSign signText
  split
  · have abs : int32 (i * -1) = (i.natAbs : Int) := by
      rw [int32_eq (by omega) (by omega)]
      omega
    rw [one, abs]
    rfl
  · have abs : i = (i.natAbs : Int) := by omega
    split
    · rw [one, ← abs]
      rfl
    · split
      · rw [one, ← abs]
        rfl
      · rw [← abs]
        exact congrArg (·, 0, i) none.symm

/- The buffer b with a sign and the digits of n. -/
def numberBuffer (b digit : Nat → Byte) (base : Nat) (sign : List Byte) (n : Nat) : Nat → Byte :=
  blit (Function.update (blit b 0 sign.length (fun k => sign.getD k 0)) (sign.length + digitCount base n) 0)
    sign.length (digitCount base n) (numeral digit base n)

theorem numberBuffer_spells (b digit : Nat → Byte) (base : Nat) (sign : List Byte) (n : Nat) :
    Spells (numberBuffer b digit base sign n) (sign ++ (places base n).map digit) := by
  unfold numberBuffer
  apply spells_append
  · intro k inside
    have place := blit_inside b (fun k => sign.getD k 0) (a := 0) inside
    rw [Nat.zero_add] at place
    rw [blit_outside _ _ (.inl inside), Function.update_of_ne (by omega), place]
  · rw [← places_spelled]
    apply spells_range
    · intro k inside
      rw [view_apply, blit_inside _ _ inside]
    · rw [view_apply, blit_outside _ _ (.inr (Nat.le_refl _)), Function.update_self]

/- What __int_str asks of the bases that vprintf uses, and of the radix that they stand for. -/
theorem base_bounds {base : Nat} (known : base ∈ [8, 10, 16, 17]) : 2 ≤ base ∧ base ≤ 32 := by
  simp only [List.mem_cons, List.not_mem_nil, or_false] at known
  omega

theorem radix_bounds {base : Nat} (two : 2 ≤ base) (small : base ≤ 32) :
    2 ≤ (if base = 17 then 16 else base) ∧ (if base = 17 then 16 else base) ≤ 32 := by
  split
  · decide
  · exact ⟨two, small⟩

/-- What __int_str has built before it is padded: the sign, the entries of the table at the
digits of i, a NUL. The least int has no absolute value. -/
theorem intStr_unpadded (b : Nat → Byte) {i : Int} (low : -2147483648 < i) (high : i < 2147483648) {base : Nat}
    {digit : Nat → Byte} (table : digitTable base = .ok digit) (two : 2 ≤ base) (small : base ≤ 32)
    (plusSign spaceSign : Bool) (paddingNo : Int) (justify zeroPad : Bool) :
    intStr i b base plusSign spaceSign paddingNo justify zeroPad =
      justified (numberBuffer b digit (if base = 17 then 16 else base) (signText i plusSign spaceSign) i.natAbs)
        paddingNo justify zeroPad := by
  have int : i.natAbs < 2147483648 := by omega
  obtain ⟨two', small'⟩ := radix_bounds two small
  simp only [intStr, table, bind, Except.bind, putSign_ok low high,
    putNumeral_ok two' digit small' int (signText_short i plusSign spaceSign), numberBuffer]

/-- The digit loops from p on, with n in the buffer b: both take k steps, and leave k digits
in front of the terminator. -/
structure DigitLoops (digit : Nat → Byte) (base n p k : Nat) (b c : Nat → Byte) : Prop where
  counted : countDigits base 32 n p = .ok (p + k)
  written : writeDigits digit base 32 n (p + k) (Function.update b (p + k) 0) = .ok (p, c)
  least : IsLeast {k | 1 ≤ k ∧ n < base ^ k} k
  terminator : c (p + k) = 0
  place : ∀ m < k, c (p + k - 1 - m) = digit (n / base ^ m % base)
  outside : ∀ x, x < p ∨ p + k < x → c x = b x

theorem digitCount_least {base : Nat} (two : 2 ≤ base) (n : Nat) :
    IsLeast {k | 1 ≤ k ∧ n < base ^ k} (digitCount base n) := by
  constructor
  · exact ⟨Nat.le_add_left 1 _, Nat.lt_pow_succ_log_self two n⟩
  · rintro k ⟨positive, less⟩
    exact Nat.log_lt_of_lt_pow' (Nat.one_le_iff_ne_zero.mp positive) less

/- The digit m places from the right. -/
theorem numeral_place (digit : Nat → Byte) {base n m : Nat} (inside : m < digitCount base n) :
    numeral digit base n (digitCount base n - 1 - m) = digit (n / base ^ m % base) := by
  have place : Nat.log base n - (digitCount base n - 1 - m) = m := by
    rw [digitCount] at inside ⊢
    omega
  rw [numeral, place]

theorem digit_loops (digit : Nat → Byte) {base n p : Nat} (two : 2 ≤ base) (small : base ≤ 32)
    (int : n < 2147483648) (early : p ≤ 1) (b : Nat → Byte) :
    ∃ c, putNumeral digit base n p b = .ok (p, c) ∧ DigitLoops digit base n p (digitCount base n) b c := by
  obtain ⟨-, counted, written⟩ :=
    loops_ok two digit small int early (Function.update b (p + digitCount base n) 0)
  refine ⟨_, putNumeral_ok two digit small int early b, counted, written, digitCount_least two n, ?_, ?_, ?_⟩
  · rw [blit_outside _ _ (.inr (Nat.le_refl _)), Function.update_self]
  · intro m inside
    have index : p + digitCount base n - 1 - m = p + (digitCount base n - 1 - m) := by omega
    rw [index, blit_inside _ _ (by omega), numeral_place digit inside]
  · intro x outside
    rw [blit_outside _ _ (by omega), Function.update_of_ne (by omega)]

/-- Behind the sign, and whatever the table and the buffer hold, the second digit loop takes
as many steps back as the first one counts. -/
theorem int_str_digits (digit b : Nat → Byte) {i : Int} (low : -2147483648 < i) (high : i < 2147483648) {base : Nat}
    (known : base ∈ [8, 10, 16, 17]) (plusSign spaceSign : Bool) :
    let sign := signText i plusSign spaceSign
    let radix := if base = 17 then 16 else base
    ∃ signed c k, putSign i b plusSign spaceSign = (signed, sign.length, (i.natAbs : Int)) ∧
      putNumeral digit radix i.natAbs sign.length signed = .ok (sign.length, c) ∧
      DigitLoops digit radix i.natAbs sign.length k signed c ∧ ∀ x < sign.length, c x = sign.getD x 0 := by
  intro sign radix
  have bounds : 2 ≤ radix ∧ radix ≤ 32 := radix_bounds (base_bounds known).1 (base_bounds known).2
  have early : sign.length ≤ 1 := signText_short i plusSign spaceSign
  have int : i.natAbs < 2147483648 := by omega
  have signed := putSign_ok low high b plusSign spaceSign
  obtain ⟨c, written, loops⟩ := digit_loops digit bounds.1 bounds.2 int early
    (blit b 0 sign.length (fun k => sign.getD k 0))
  refine ⟨_, c, digitCount radix i.natAbs, signed, written, loops, fun x inside => ?_⟩
  have kept := blit_inside b (fun k => sign.getD k 0) (a := 0) inside
  rw [Nat.zero_add] at kept
  rw [loops.outside x (.inl inside), kept]

/- -8 in base 8, with both flags, over a table and a buffer that hold what they like. -/
theorem int_str_digits_octal :
    ∃ signed c k, putSign (-8) (fun _ => 7) true true = (signed, 1, 8) ∧
      putNumeral (fun d => BitVec.ofNat 8 (d + 1)) 8 8 1 signed = .ok (1, c) ∧
      DigitLoops (fun d => BitVec.ofNat 8 (d + 1)) 8 8 1 k signed c ∧ ∀ x < 1, c x = [ch '-'].getD x 0 :=
  @int_str_digits (fun d => BitVec.ofNat 8 (d + 1)) (fun _ => 7) (-8) (by decide) (by decide) 8 (by decide) true true

theorem strlen_holds {size : Nat} {b : Nat → Byte} {cs : List Byte} (holds : Holds b cs) (short : cs.length < size) :
    strlen size b = .ok cs.length := by
  simp only [strlen, stringIn, readString_eq_some.mpr ⟨holds, short⟩, Except.map]

/-- A number that is at least as wide as the field comes out as it is. -/
theorem justified_wide {b : Nat → Byte} {cs : List Byte} (holds : Holds b cs) (short : cs.length < 256)
    {paddingNo : Int} (wide : paddingNo ≤ cs.length) (low : -2147483136 ≤ paddingNo) (justify zeroPad : Bool) :
    ∃ a, justified b paddingNo justify zeroPad = .ok a ∧ Holds a cs := by
  have length := strlen_holds holds short
  have padding : (int32 (paddingNo - cs.length)).toNat = 0 := by
    rw [int32_eq (by omega) (by omega)]
    omega
  have empty : strlen 256 zeros = .ok 0 := strlen_holds (show Holds zeros [] from rfl) (by decide)
  have fits : 0 + cs.length + 1 ≤ 256 := by omega
  simp only [justified, length, bind, Except.bind, padding, pad]
  split
  · exact ⟨b, rfl, holds⟩
  · simp only [strcat, empty, length, bind, Except.bind, if_pos fits]
    refine ⟨_, rfl, holds_congr ?_ holds⟩
    intro k inside
    have copied := blit_inside zeros b (a := 0) (Nat.lt_succ_of_le inside)
    rw [Nat.zero_add] at copied
    rw [strcpy]
    by_cases start : k < 5
    · have back := blit_inside b (blit zeros 0 (cs.length + 1) b) (a := 0) start
      rw [Nat.zero_add] at back
      rw [back, copied]
    · rw [blit_outside _ _ (.inr (by omega))]

end Icix.Libc
