import Icix.Libc.Printf
import Mathlib.Data.List.TakeWhile
import Std.Data.String.ToInt

/-! The text that vprintf gives an int for %d. Only five bytes of the digits' table are
there: a numeral is cut before its first digit above 4. -/
namespace Icix.Libc
open Bytes

def percentD : List Byte := [ch '%', ch 'd']

/-- The decimal numeral of v. -/
def decimal (v : Int) : List Byte := v.repr.toList.map ch

/- The table of __int_str for base 10. -/
def decimalTable : Nat → Byte :=
  strcpy zeros (literal ['0', '1', '2', '3', '4', '5', '6', '7', '8', '9'])

theorem digitTable_ten : digitTable 10 = .ok decimalTable := rfl

theorem decimalTable_small : ∀ d ≤ 4, decimalTable d = ch (Nat.digitChar d) := by decide

theorem decimalTable_nonzero : ∀ d < 10, (decimalTable d ≠ 0 ↔ d ≤ 4) := by decide

theorem toDigits_places (n : Nat) : Nat.toDigits 10 n = (places 10 n).map Nat.digitChar := by
  induction n using Nat.strong_induction_on with
  | _ n ih =>
    by_cases less : n < 10
    · rw [places_single less, Nat.toDigits_of_lt_base less, List.map_singleton]
    · have le := Nat.le_of_not_lt less
      rw [places_last (by decide) le, Nat.toDigits_of_base_le (by decide) le, ih (n / 10) (by omega), List.map_append,
        List.map_singleton]

theorem decimal_eq (v : Int) :
    decimal v = signText v false false ++ (places 10 v.natAbs).map (fun d => ch (Nat.digitChar d)) := by
  have digits : ∀ n : Nat, n.repr.toList.map ch = (places 10 n).map (fun d => ch (Nat.digitChar d)) := by
    intro n
    rw [Nat.toList_repr, toDigits_places, List.map_map]
    rfl
  cases v with
  | ofNat n => exact digits n
  | negSucc n =>
    have sign : signText (Int.negSucc n) false false = [ch '-'] := if_pos (Int.negSucc_lt_zero n)
    rw [decimal, Int.repr, String.toList_append, List.map_append, digits, sign]
    rfl

/- The numeral as the table spells it, up to the first NUL. -/
def cutDecimal (v : Int) : List Byte :=
  (signText v false false ++ (places 10 v.natAbs).map decimalTable).takeWhile (· ≠ 0)

theorem signText_nonzero (i : Int) (plusSign spaceSign : Bool) : ∀ c ∈ signText i plusSign spaceSign, c ≠ 0 := by
  unfold signText
  repeat' split
  all_goals simp [ch]

theorem cutDecimal_eq_iff (v : Int) : cutDecimal v = decimal v ↔ ∀ d ∈ places 10 v.natAbs, d ≤ 4 := by
  constructor
  · intro same d mem
    have length : (cutDecimal v).length = (signText v false false ++ (places 10 v.natAbs).map decimalTable).length := by
      rw [same, decimal_eq]
      simp only [List.length_append, List.length_map]
    have whole := (List.takeWhile_prefix _).eq_of_length length
    have nonzero := List.takeWhile_eq_self_iff.mp whole (decimalTable d)
      (List.mem_append_right _ (List.mem_map_of_mem mem))
    exact (decimalTable_nonzero d (places_lt (by decide) mem)).mp (of_decide_eq_true nonzero)
  · intro small
    have entries : (places 10 v.natAbs).map decimalTable = (places 10 v.natAbs).map (fun d => ch (Nat.digitChar d)) :=
      List.map_congr_left (fun d mem => decimalTable_small d (small d mem))
    rw [decimal_eq, ← entries, cutDecimal, List.takeWhile_eq_self_iff]
    intro c mem
    apply decide_eq_true
    cases List.mem_append.mp mem with
    | inl sign => exact signText_nonzero v false false c sign
    | inr digit =>
      obtain ⟨d, place, rfl⟩ := List.mem_map.mp digit
      exact (decimalTable_nonzero d (places_lt (by decide) place)).mpr (small d place)

theorem cutDecimal_short {v : Int} (low : -2147483648 < v) (high : v < 2147483648) :
    (cutDecimal v).length < 256 := by
  have cut := (List.takeWhile_prefix (· ≠ 0)
    (l := signText v false false ++ (places 10 v.natAbs).map decimalTable)).length_le
  have sign := signText_short v false false
  have digits : Nat.log 10 v.natAbs < 32 := Nat.log_lt_of_lt_pow' (by decide) (by omega)
  have length : (places 10 v.natAbs).length = Nat.log 10 v.natAbs + 1 := by
    rw [places, List.length_map, List.length_range, digitCount]
  rw [List.length_append, List.length_map, length] at cut
  rw [cutDecimal]
  omega

/-- The text of a plain %d. -/
theorem number_decimal {v : Int} (low : -2147483648 < v) (high : v < 2147483648) :
    number noFlags 0 10 v = .ok (cutDecimal v) := by
  have holds := spells_holds (numberBuffer_spells zeros decimalTable 10 (signText v false false) v.natAbs)
  have short := cutDecimal_short low high
  obtain ⟨a, built, text⟩ := justified_wide holds short (Int.natCast_nonneg _) (by decide) false false
  have buffer := intStr_unpadded zeros low high digitTable_ten (by decide) (by decide) false false 0 false false
  simp only [number, noFlags, buffer, if_neg (show 10 ≠ 17 by decide), built, bind, Except.bind, stringIn,
    readString_eq_some.mpr ⟨text, short⟩]
  rfl

theorem emit_percentD (floats : Floats) (v : Word) (args : List Word) (mem : Nat → Byte) :
    emit floats (bare (ch 'd')) 0 6 mem (v :: args) =
      (number noFlags 0 10 v.toInt).map (fun cs => ([] ++ cs, args)) := emitInteger_some rfl

theorem vprintf_percentD (floats : Floats) (v : Word) (args : List Word) (mem : Nat → Byte) :
    vprintf floats percentD (v :: args) mem =
      (number noFlags 0 10 v.toInt).map (displayString ⟨[], 0, args, mem⟩) := by
  rw [percentD, vprintf_bare floats (by decide), emit_percentD]
  cases number noFlags 0 10 v.toInt <;> rfl

/-- vprintf prints v and returns the length of what it has printed. -/
def PrintsDecimal (floats : Floats) (args : List Word) (mem : Nat → Byte) (v : Word) : Prop :=
  ∃ s, vprintf floats percentD (v :: args) mem = .ok s ∧
    s.out = decimal v.toInt ∧ s.chars = (decimal v.toInt).length

theorem number_least : number noFlags 0 10 (-2147483648) = .error .digit := rfl

theorem printsDecimal_iff (floats : Floats) (args : List Word) (mem : Nat → Byte) (v : Word) :
    PrintsDecimal floats args mem v ↔ ∀ d ∈ Nat.digits 10 v.toInt.natAbs, d ≤ 4 := by
  have digits : (∀ d ∈ places 10 v.toInt.natAbs, d ≤ 4) ↔ ∀ d ∈ Nat.digits 10 v.toInt.natAbs, d ≤ 4 := by
    rw [places_digits (by decide)]
    split
    · rename_i zero
      simp [zero]
    · simp only [List.mem_reverse]
  rw [← digits, ← cutDecimal_eq_iff, PrintsDecimal, vprintf_percentD]
  by_cases least : v.toInt = -2147483648
  · -- the digit at the position -8 of the table
    rw [least, number_least]
    constructor
    · rintro ⟨s, none, -⟩
      cases none
    · intro same
      exact absurd same (mt (cutDecimal_eq_iff _).mp (by decide))
  · have range := v.toInt_lt
    have low : -2147483648 < v.toInt := by
      have least' := v.le_toInt
      omega
    rw [number_decimal low (by omega)]
    have short := cutDecimal_short low (by omega)
    have count : int32 (cutDecimal v.toInt).length = (cutDecimal v.toInt).length := int32_eq (by omega) (by omega)
    have start : (⟨[], 0, args, mem⟩ : Printing).chars = int32 0 := rfl
    simp only [Except.map, displayString_eq start, List.nil_append, Int.zero_add, count]
    constructor
    · rintro ⟨s, ok, text, -⟩
      have same := Except.ok.inj ok
      rw [← same] at text
      exact text
    · intro same
      exact ⟨_, rfl, same, by rw [← same]⟩

theorem repr_ascii (v : Int) : ∀ c ∈ v.repr.toList, Char.ofNat (ch c).toNat = c := by
  have small : ∀ d < 10, Char.ofNat (ch (Nat.digitChar d)).toNat = Nat.digitChar d := by decide
  have digits : ∀ n : Nat, ∀ c ∈ n.repr.toList, Char.ofNat (ch c).toNat = c := by
    intro n c mem
    rw [Nat.toList_repr, toDigits_places] at mem
    obtain ⟨d, place, rfl⟩ := List.mem_map.mp mem
    exact small d (places_lt (by decide) place)
  cases v with
  | ofNat n => exact digits n
  | negSucc n =>
    intro c mem
    rw [Int.repr, String.toList_append] at mem
    cases List.mem_append.mp mem with
    | inl sign =>
      cases List.mem_singleton.mp sign
      rfl
    | inr digit => exact digits _ c digit

theorem decimal_injective {v w : Int} (same : decimal v = decimal w) : v = w := by
  have back : ∀ v : Int, (decimal v).map (fun b => Char.ofNat b.toNat) = v.repr.toList := by
    intro v
    rw [decimal, List.map_map]
    exact (List.map_congr_left (g := id) (repr_ascii v)).trans (List.map_id _)
  apply Int.repr_injective
  rw [← String.toList_inj, ← back v, ← back w, same]

/-- vprintf prints an int with %d if and only if no digit of it is above 4. Two ints that
it prints so print differently. -/
theorem printf_decimal (floats : Floats) (args : List Word) (mem : Nat → Byte) :
    (∀ v : Word, PrintsDecimal floats args mem v ↔ ∀ d ∈ Nat.digits 10 v.toInt.natAbs, d ≤ 4) ∧
      ∀ v w : Word, (∀ d ∈ Nat.digits 10 v.toInt.natAbs, d ≤ 4) → (∀ d ∈ Nat.digits 10 w.toInt.natAbs, d ≤ 4) →
        v ≠ w → (vprintf floats percentD (v :: args) mem).map Printing.out ≠
          (vprintf floats percentD (w :: args) mem).map Printing.out := by
  refine ⟨printsDecimal_iff floats args mem, fun v w small small' different same => different ?_⟩
  obtain ⟨s, ran, text, -⟩ := (printsDecimal_iff floats args mem v).mpr small
  obtain ⟨t, ran', text', -⟩ := (printsDecimal_iff floats args mem w).mpr small'
  rw [ran, ran'] at same
  apply BitVec.eq_of_toInt_eq
  apply decimal_injective
  rw [← text, ← text']
  exact Except.ok.inj same

theorem printf_decimal_small :
    let floats : Floats := fun _ _ _ _ _ => .error .argument
    PrintsDecimal floats [] zeros 40 ∧
      (vprintf floats percentD [40] zeros).map Printing.out ≠ (vprintf floats percentD [-40] zeros).map Printing.out :=
  ⟨((printf_decimal _ [] zeros).1 40).mpr (by decide),
    (printf_decimal _ [] zeros).2 40 (-40) (by decide) (by decide) (by decide)⟩

/-- 4096 is printed as 40. -/
theorem printf_4096 :
    let floats : Floats := fun _ _ _ _ _ => .error .argument
    (vprintf floats percentD [4096] zeros).map Printing.out = .ok [ch '4', ch '0'] ∧
      ¬ PrintsDecimal floats [] zeros 4096 := by
  refine ⟨rfl, mt (printsDecimal_iff _ _ _ _).mp ?_⟩
  decide

end Icix.Libc
