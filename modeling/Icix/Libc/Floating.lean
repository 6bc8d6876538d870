import Icix.Libc.Room
import Icix.Libc.Text

/-! The conversions of doubles in vprintf, over any arithmetic of doubles. %e divides by ten while
ten is not above, and the places behind the point are printed as an int: the zeros in front of them
are lost. -/
namespace Icix.Libc
open Bytes

/-- What the compiler makes of doubles: their arithmetic, in the precision that it computes in, and
the conversions from and to an int. -/
structure Doubles where
  Value : Type
  ofWords (low high : Word) : Value
  ofInt (i : Word) : Value
  toInt (x : Value) : Word
  half : Value
  le (x y : Value) : Bool
  add (x y : Value) : Value
  sub (x y : Value) : Value
  mul (x y : Value) : Value
  div (x y : Value) : Value

def Doubles.ten (m : Doubles) : m.Value := m.ofInt 10

def Doubles.tenth (m : Doubles) (x : m.Value) : m.Value := m.div x m.ten

def emode (specifier : Byte) : Bool := decide (specifier = ch 'e' ∨ specifier = ch 'E')

/- The width that is left for what is in front of the point. -/
def form (d : Directive) (lengthSpec precSpec expo : Int) : Int :=
  let point := if precSpec ≠ 0 ∨ d.flags.altForm then 1 else 0
  max (int32 (lengthSpec - precSpec - expo - point - if emode d.specifier then 4 else 0)) 0

section Conversion

variable (m : Doubles)

/- while (emode && floating >= 10). -/
def scale : Nat → m.Value → Int → Except Stray (m.Value × Int)
  | 0, _, _ => .error .endless
  | fuel + 1, floating, expo =>
    if m.le m.ten floating then scale fuel (m.tenth floating) (int32 (expo + 1)) else .ok (floating, expo)

def scaled (fuel : Nat) (specifier : Byte) (floating : m.Value) : Except Stray (m.Value × Int) :=
  if emode specifier then scale m fuel floating 0 else .ok (floating, 0)

/- The places behind the point, as an int. -/
def decPlaces (precSpec : Int) (floating : m.Value) : Word :=
  let floating := m.sub floating (m.ofInt (m.toInt floating))
  let floating := (fun x => m.mul x m.ten)^[precSpec.toNat] floating
  m.toInt (m.add floating m.half)

/- Their text; intStrBuffer still holds what was in front of the point. -/
def placesText (i : Word) (precSpec : Int) (b : Nat → Byte) : Except Stray (List Byte × (Nat → Byte)) := do
  let b ← intStr i.toInt b 10 false false 0 false false
  let b ← if precSpec < 0 then .error .buffer else put b precSpec.toNat 0
  let cs ← stringIn 256 b
  .ok (cs, b)

def exponentText (specifier : Byte) (expo : Int) (b : Nat → Byte) : Except Stray (List Byte) := do
  let b ← intStr expo b 10 false false 2 false true
  let cs ← stringIn 256 b
  .ok ((if specifier = ch 'e' then bytes "e+" else bytes "E+") ++ cs)

/- The cases of %e, %E, %f, %F, %g and %G, and what follows the switch. -/
def doubleText (fuel : Nat) : Floats := fun d lengthSpec precSpec low high => do
  let (floating, expo) ← scaled m fuel d.specifier (m.ofWords low high)
  let b ← intStr (m.toInt floating).toInt zeros 10 d.flags.plusSign d.flags.spaceNoSign
    (form d lengthSpec precSpec expo) d.flags.leftJustify d.flags.zeroPad
  let whole ← stringIn 256 b
  let (fraction, b) ←
    if precSpec ≠ 0 then (placesText (decPlaces m precSpec floating) precSpec b).map fun r => (ch '.' :: r.1, r.2)
    else .ok (if d.flags.altForm then [ch '.'] else [], b)
  let exponent ← if emode d.specifier then exponentText d.specifier expo b else .ok []
  .ok (whole ++ fraction ++ exponent)

end Conversion

section Scale

variable {m : Doubles}

/-- The loop stops at the first of the tenths that is below ten, and counts them. -/
theorem scale_stops {x : m.Value} {n : Nat} (stop : m.le m.ten (m.tenth^[n] x) = false)
    (before : ∀ k < n, m.le m.ten (m.tenth^[k] x) = true) {fuel : Nat} (enough : n < fuel) (e : Int) :
    scale m fuel x (int32 e) = .ok (m.tenth^[n] x, int32 (e + n)) := by
  induction n generalizing x fuel e with
  | zero =>
    obtain ⟨fuel, rfl⟩ := Nat.exists_eq_succ_of_ne_zero (Nat.ne_zero_of_lt enough)
    have below : ¬ m.le m.ten x = true := by simpa using stop
    rw [scale, if_neg below, Nat.cast_zero, Int.add_zero]
    rfl
  | succ n ih =>
    obtain ⟨fuel, rfl⟩ := Nat.exists_eq_succ_of_ne_zero (Nat.ne_zero_of_lt enough)
    have above : m.le m.ten x = true := before 0 (Nat.succ_pos n)
    have rest := ih (x := m.tenth x) stop (fun k less => before (k + 1) (Nat.succ_lt_succ less))
      (Nat.lt_of_succ_lt_succ enough) (e + 1)
    have turn : int32 (int32 e + 1) = int32 (e + 1) := Int.bmod_add_bmod
    have count : e + 1 + n = e + ((n + 1 : Nat) : Int) := by omega
    rw [scale, if_pos above, turn, rest, count]
    rfl

/-- It does not end if ten is above none of them. -/
theorem scale_endless {x : m.Value} (above : ∀ n, m.le m.ten (m.tenth^[n] x) = true) (fuel : Nat) (e : Int) :
    scale m fuel x e = .error .endless := by
  induction fuel generalizing x e with
  | zero => rfl
  | succ fuel ih =>
    have first : m.le m.ten x = true := above 0
    rw [scale, if_pos first]
    exact ih (fun n => above (n + 1)) _

theorem scale_iff {x : m.Value} :
    (∃ fuel r, scale m fuel x 0 = .ok r) ↔ ∃ n, m.le m.ten (m.tenth^[n] x) = false := by
  constructor
  · rintro ⟨fuel, r, ran⟩
    by_contra none
    have above : ∀ n, m.le m.ten (m.tenth^[n] x) = true := fun n => by
      by_contra below
      exact none ⟨n, by simpa using below⟩
    cases (scale_endless above fuel 0).symm.trans ran
  · intro below
    have before : ∀ k < Nat.find below, m.le m.ten (m.tenth^[k] x) = true := fun k less => by
      simpa using Nat.find_min below less
    exact ⟨_, _, scale_stops (Nat.find_spec below) before (Nat.lt_succ_self _) 0⟩

end Scale

/- A NUL that is written into a string. -/
theorem holds_take {b : Nat → Byte} {cs : List Byte} (holds : Holds b cs) (k : Nat) :
    Holds (Function.update b k 0) (cs.take k) := by
  induction cs generalizing b k with
  | nil =>
    rw [List.take_nil]
    cases k with
    | zero => exact Function.update_self ..
    | succ k => exact (Function.update_of_ne (Nat.succ_ne_zero k).symm ..).trans holds
  | cons c cs ih =>
    cases k with
    | zero => exact Function.update_self ..
    | succ k =>
      have later : view (Function.update b (k + 1) 0) 1 = Function.update (view b 1) k 0 := by
        funext j
        simp only [view_apply, Function.update_apply]
        split <;> split <;> first | rfl | omega
      refine ⟨(Function.update_of_ne (Nat.succ_ne_zero k).symm ..).trans holds.1, holds.2.1, ?_⟩
      rw [later]
      exact ih holds.2.2 k

/- The exponent has two places at least. -/
def exponentPlaces (expo : Int) : List Byte :=
  List.replicate (2 - (cutDecimal expo).length) (ch '0') ++ cutDecimal expo

/-- Padding that does not make a number wider than four characters comes out in front of it. -/
theorem justified_narrow {b : Nat → Byte} {cs : List Byte} (holds : Holds b cs) {n : Nat} (narrow : cs.length + n ≤ 4)
    (zeroPad : Bool) : ∃ c, justified b (cs.length + n : Nat) false zeroPad = .ok c ∧
      Holds c (List.replicate n (padChar zeroPad) ++ cs) := by
  obtain ⟨a, padded, front, count⟩ := pad_zeros (show n < 256 by omega) zeroPad
  have length := strlen_holds holds (show cs.length < 256 by omega)
  have padding : (int32 (((cs.length + n : Nat) : Int) - cs.length)).toNat = n := by
    rw [int32_eq (by omega) (by omega)]
    omega
  have fits : n + cs.length + 1 ≤ 256 := by omega
  have start : pad (if zeroPad = true then ch '0' else ch ' ') n zeros = .ok a := padded
  have whole : Holds (blit a n (cs.length + 1) b) (List.replicate n (padChar zeroPad) ++ cs) := by
    refine holds_append front (fun k inside => blit_outside _ _ (.inl ?_)) ?_
    · rwa [List.length_replicate] at inside
    · rw [List.length_replicate]
      exact holds_congr (fun k inside => (blit_inside a b (Nat.lt_succ_of_le inside)).symm) holds
  refine ⟨strcpy b (blit a n (cs.length + 1) b), ?_, holds_congr (fun k inside => ?_) whole⟩
  · simp only [justified, length, Runs.ok_bind, padding, start, strcat, count, if_pos fits, Bool.false_eq_true, if_false]
  · rw [List.length_append, List.length_replicate] at inside
    have copied := blit_inside b (blit a n (cs.length + 1) b) (a := 0) (show k < 5 by omega)
    rw [Nat.zero_add] at copied
    exact copied.symm

section Buffer

variable (b : Nat → Byte) {i : Int} (low : -2147483648 < i) (high : i < 2147483648)
include low high

/-- What __int_str builds for %d does not depend on what the buffer held. -/
theorem intStr_decimal : ∃ c, Holds c (cutDecimal i) ∧ ∀ paddingNo zeroPad,
    intStr i b 10 false false paddingNo false zeroPad = justified c paddingNo false zeroPad :=
  ⟨_, spells_holds (numberBuffer_spells b decimalTable 10 (signText i false false) i.natAbs), fun paddingNo zeroPad =>
    intStr_unpadded b low high digitTable_ten (by decide) (by decide) false false paddingNo false zeroPad⟩

theorem placesText_eq {w : Word} (value : w.toInt = i) {precSpec : Int} (nonneg : 0 ≤ precSpec) (short : precSpec < 256) :
    ∃ c, placesText w precSpec b = .ok ((cutDecimal i).take precSpec.toNat, c) := by
  obtain ⟨a, holds, built⟩ := intStr_decimal b low high
  have fits := cutDecimal_short low high
  obtain ⟨c, same, held⟩ := justified_wide holds fits (Int.natCast_nonneg _) (by decide) false false
  have cut := holds_take held precSpec.toNat
  have read : stringIn 256 (Function.update c precSpec.toNat 0) = .ok ((cutDecimal i).take precSpec.toNat) :=
    stringIn_ok.mpr ⟨cut, Nat.lt_of_le_of_lt (List.length_take_le' ..) fits⟩
  refine ⟨Function.update c precSpec.toNat 0, ?_⟩
  rw [placesText, value, built, same, Runs.ok_bind, if_neg (by omega), put, if_pos (by omega), Runs.ok_bind]
  dsimp only
  rw [read]
  rfl

theorem exponentText_eq (specifier : Byte) : exponentText specifier i b =
    .ok ((if specifier = ch 'e' then bytes "e+" else bytes "E+") ++ exponentPlaces i) := by
  obtain ⟨a, holds, built⟩ := intStr_decimal b low high
  have fits := cutDecimal_short low high
  have text : ∃ c, justified a 2 false true = .ok c ∧ Holds c (exponentPlaces i) := by
    by_cases wide : 2 ≤ (cutDecimal i).length
    · rw [exponentPlaces, Nat.sub_eq_zero_of_le wide]
      exact justified_wide holds fits (by omega) (by decide) false true
    · have narrow := justified_narrow holds (n := 2 - (cutDecimal i).length) (by omega) true
      rwa [Nat.add_sub_cancel' (Nat.le_of_not_le wide)] at narrow
  obtain ⟨c, same, held⟩ := text
  have read : stringIn 256 c = .ok (exponentPlaces i) := by
    refine stringIn_ok.mpr ⟨held, ?_⟩
    rw [exponentPlaces, List.length_append, List.length_replicate]
    omega
  rw [exponentText, built, same, Runs.ok_bind, read]
  rfl

end Buffer

/-- What a conversion of a double prints when its precision is from 1 to 255: the int in front of
the point, no more places behind it than the precision, and for %e and %E the exponent. -/
theorem doubleText_eq (m : Doubles) {fuel : Nat} {d : Directive} {lengthSpec precSpec : Int} {low high : Word}
    {floating : m.Value} {expo : Int} {whole : List Byte}
    (stopped : scaled m fuel d.specifier (m.ofWords low high) = .ok (floating, expo))
    (front : number d.flags (form d lengthSpec precSpec expo) 10 (m.toInt floating).toInt = .ok whole)
    (positive : 0 < precSpec) (short : precSpec < 256) (places : -2147483648 < (decPlaces m precSpec floating).toInt)
    (least : -2147483648 < expo) (largest : expo < 2147483648) :
    doubleText m fuel d lengthSpec precSpec low high =
      .ok (whole ++ ch '.' :: (cutDecimal (decPlaces m precSpec floating).toInt).take precSpec.toNat ++
        if emode d.specifier then (if d.specifier = ch 'e' then bytes "e+" else bytes "E+") ++ exponentPlaces expo
        else []) := by
  obtain ⟨b, built, read⟩ := Runs.bind_ok.mp front
  obtain ⟨c, behind⟩ := placesText_eq b places BitVec.toInt_lt rfl (Int.le_of_lt positive) short
  rw [doubleText, stopped, Runs.ok_bind]
  dsimp only
  rw [built, Runs.ok_bind, read, Runs.ok_bind, if_pos (Int.ne_of_gt positive), behind, Except.map, Runs.ok_bind]
  dsimp only
  split
  · rw [exponentText_eq c least largest, Runs.ok_bind]
  · rfl

/-- %e never returns for a double whose tenths all stay at ten or above, as those of infinity do. -/
theorem vprintf_endless (m : Doubles) {low high : Word}
    (above : ∀ n, m.le m.ten (m.tenth^[n] (m.ofWords low high)) = true) (fuel : Nat) (args : List Word) (mem : Nat → Byte) :
    vprintf (doubleText m fuel) [ch '%', ch 'e'] (low :: high :: args) mem = .error .endless := by
  have text : doubleText m fuel (bare (ch 'e')) 0 6 low high = .error .endless := by
    rw [doubleText, scaled, if_pos (by decide), scale_endless above]
    rfl
  have emitted : emit (doubleText m fuel) (bare (ch 'e')) 0 6 mem (low :: high :: args) = .error .endless := by
    change emitFloating (doubleText m fuel) (bare (ch 'e')) 0 6 (low :: high :: args) = _
    rw [emitFloating, vaArg, Runs.ok_bind]
    dsimp only
    rw [vaArg, Runs.ok_bind]
    dsimp only
    rw [text]
    rfl
  have parsed : parseDirective [ch 'e', 0] = .ok (bare (ch 'e'), [0]) := rfl
  have two : [ch '%', ch 'e'].length < 2147483648 := show 2 < 2147483648 by decide
  rw [vprintf, if_pos two, List.cons_append, List.singleton_append,
    print_parsed _ _ _ parsed, convert_text (by decide) rfl rfl]
  dsimp only
  rw [emitted]
  rfl

/- Finite doubles without rounding. -/
def unrounded : Doubles where
  Value := ℚ
  ofWords low high :=
    let exponent := high.toNat / 1048576 % 2048
    let fraction := high.toNat % 1048576 * 4294967296 + low.toNat
    let significand : Int := if exponent = 0 then fraction else 4503599627370496 + fraction
    let sign := if high.toNat < 2147483648 then 1 else -1
    mkRat (sign * significand * 2 ^ max exponent 1) (2 ^ 1075)
  ofInt i := i.toInt
  toInt x := BitVec.ofInt 32 (x.num.tdiv x.den)
  half := mkRat 1 2
  le x y := decide (x ≤ y)
  add := (· + ·)
  sub := (· - ·)
  mul := (· * ·)
  div := (· / ·)

/- "%f" of 1.02, and "%e" of 1234. -/
example : (vprintf (doubleText unrounded 1) (bytes "%f") [0x851EB852, 0x3FF051EB] zeros).map Printing.out =
    .ok (bytes "1.20000") := by decide +kernel

example : (vprintf (doubleText unrounded 4) (bytes "%e") [0, 0x40934800] zeros).map Printing.out =
    .ok (bytes "1.234000e+03") := by decide +kernel

end Icix.Libc
