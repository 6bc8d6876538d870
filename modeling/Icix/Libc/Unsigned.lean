import Icix.Libc.Padding
import Mathlib.Data.Nat.Digits.Lemmas

/-! The unsigned conversions without flags and width. A text denotes the number that its
digits have in the base. -/
namespace Icix.Libc
open Bytes

/- The value of a digit, in capital or small letters. -/
def digitValue (c : Byte) : Option Nat :=
  if 48 ≤ c.toNat ∧ c.toNat ≤ 57 then some (c.toNat - 48)
  else if 65 ≤ c.toNat ∧ c.toNat ≤ 70 then some (c.toNat - 55)
  else if 97 ≤ c.toNat ∧ c.toNat ≤ 102 then some (c.toNat - 87)
  else none

def IsDigit (base : Nat) (c : Byte) : Prop := ∃ d < base, digitValue c = some d

instance (base : Nat) (c : Byte) : Decidable (IsDigit base c) :=
  inferInstanceAs (Decidable (∃ d < base, digitValue c = some d))

def valueOf (c : Byte) : Nat := (digitValue c).getD 0

def readBack (base : Nat) (cs : List Byte) : Nat := Nat.ofDigits base (cs.map valueOf).reverse

/-- A text of digits that denotes the number. -/
structure Denotes (base : Nat) (cs : List Byte) (n : Nat) : Prop where
  nonempty : cs ≠ []
  unsigned : ∀ c ∈ cs, c ∉ [ch '-', ch '+', ch ' ']
  digits : ∀ c ∈ cs, IsDigit base c
  value : readBack base cs = n

theorem sign_value : ∀ c ∈ [ch '-', ch '+', ch ' '], digitValue c = none := by decide

theorem IsDigit.unsigned {base : Nat} {c : Byte} (digit : IsDigit base c) : c ∉ [ch '-', ch '+', ch ' '] := by
  intro sign
  obtain ⟨d, -, value⟩ := digit
  rw [sign_value c sign] at value
  cases value

theorem IsDigit.nonzero {base : Nat} {c : Byte} (digit : IsDigit base c) : c ≠ 0 := by
  rintro rfl
  obtain ⟨d, -, value⟩ := digit
  cases value

theorem IsDigit.valueOf_lt {base : Nat} {c : Byte} (digit : IsDigit base c) : valueOf c < base := by
  obtain ⟨d, inside, value⟩ := digit
  rw [valueOf, value]
  exact inside

/-- The digits 0 to 4 are in their place of the table; at the others is a NUL, or a digit with
another value. -/
structure LowDigits (base : Nat) (table : Nat → Byte) : Prop where
  low : ∀ d < base, d ≤ 4 → digitValue (table d) = some d
  high : ∀ d < base, 4 < d → table d = 0 ∨ IsDigit base (table d) ∧ valueOf (table d) ≠ d

theorem octal_digits : LowDigits 8 (tableOf 8) := ⟨by decide, by decide⟩

theorem decimal_digits : LowDigits 10 (tableOf 10) := ⟨by decide, by decide⟩

theorem capital_digits : LowDigits 16 (tableOf 16) := ⟨by decide, by decide⟩

theorem small_digits : LowDigits 16 (tableOf 17) := ⟨by decide, by decide⟩

section Text

variable {base : Nat} {table : Nat → Byte} (lows : LowDigits base table) {ds : List Nat} (inside : ∀ d ∈ ds, d < base)
include lows inside

theorem low_eq {d : Nat} (mem : d ∈ ds) (low : d ≤ 4) : IsDigit base (table d) ∧ valueOf (table d) = d := by
  have value := lows.low d (inside d mem) low
  refine ⟨⟨d, inside d mem, value⟩, ?_⟩
  rw [valueOf, value]
  rfl

/-- The text goes up to the first digit that has a NUL in the table. -/
theorem shown_digits : ∃ front, front <+: ds ∧ shown (ds.map table) = front.map table ∧
    (∀ d ∈ front, IsDigit base (table d)) ∧ ((∀ d ∈ ds, d ≤ 4) → front = ds) := by
  refine ⟨ds.takeWhile (fun d => table d ≠ 0), List.takeWhile_prefix _, ?_, ?_, ?_⟩
  · rw [shown, List.takeWhile_map]
    rfl
  · intro d mem
    have test := List.mem_takeWhile_imp mem
    have nonzero : table d ≠ 0 := by simpa using test
    have less := (List.takeWhile_prefix _).subset mem
    by_cases low : d ≤ 4
    · exact (low_eq lows inside less low).1
    · exact ((lows.high d (inside d less) (Nat.lt_of_not_le low)).resolve_left nonzero).1
  · intro low
    apply List.takeWhile_eq_self_iff.mpr
    intro d mem
    exact decide_eq_true (low_eq lows inside mem (low d mem)).1.nonzero

/-- Low digits are all printed, and denote what they denote. -/
theorem low_denotes (some : ds ≠ []) (low : ∀ d ∈ ds, d ≤ 4) :
    Denotes base (shown (ds.map table)) (Nat.ofDigits base ds.reverse) := by
  obtain ⟨front, -, text, digits, whole⟩ := shown_digits lows inside
  have values : (ds.map table).map valueOf = ds := by
    rw [List.map_map]
    exact (List.map_congr_left fun d mem => (low_eq lows inside mem (low d mem)).2).trans (List.map_id ds)
  rw [text, whole low]
  rw [whole low] at digits
  have each : ∀ c ∈ ds.map table, IsDigit base c := by
    intro c mem
    obtain ⟨d, here, rfl⟩ := List.mem_map.mp mem
    exact digits d here
  refine ⟨?_, fun c mem => (each c mem).unsigned, each, ?_⟩
  · exact fun none => some (List.map_eq_nil_iff.mp none)
  · rw [readBack, values]

end Text

/-- The numeral denotes its number if and only if all digits are in their place. -/
theorem denotes_iff {base : Nat} (two : 2 ≤ base) {table : Nat → Byte} (lows : LowDigits base table) (n : Nat) :
    Denotes base (shown ((places base n).map table)) n ↔ ∀ d ∈ Nat.digits base n, d ≤ 4 := by
  by_cases zero : n = 0
  · have single : places base n = [0] := by rw [places_digits two, if_pos zero]
    have denotes := @low_denotes base table lows [0] (by simpa using Nat.lt_of_lt_of_le (Nat.succ_pos 1) two)
      (List.cons_ne_nil _ _) (by simp)
    rw [single, zero, Nat.digits_zero]
    exact iff_of_true denotes fun d mem => absurd mem List.not_mem_nil
  · have places_eq : places base n = (Nat.digits base n).reverse := by rw [places_digits two, if_neg zero]
    have inside : ∀ d ∈ (Nat.digits base n).reverse, d < base :=
      fun d mem => Nat.digits_lt_base two (List.mem_reverse.mp mem)
    obtain ⟨front, start, text, digits, whole⟩ := shown_digits lows inside
    rw [places_eq, text]
    constructor
    · intro denotes
      have value : Nat.ofDigits base ((front.map table).map valueOf).reverse = n := denotes.value
      have less : ∀ e ∈ ((front.map table).map valueOf).reverse, e < base := by
        intro e mem
        rw [List.mem_reverse, List.map_map, List.mem_map] at mem
        obtain ⟨d, mem, rfl⟩ := mem
        exact (digits d mem).valueOf_lt
      -- a numeral that is cut has too few digits
      have bound := Nat.ofDigits_lt_base_pow_length two less
      rw [value, List.length_reverse, List.length_map, List.length_map, ← Nat.digits_length_le_iff two] at bound
      have full : front = (Nat.digits base n).reverse := start.eq_of_length_le (by rwa [List.length_reverse])
      subst full
      have same : ((Nat.digits base n).reverse.map fun d => valueOf (table d)).reverse = Nat.digits base n := by
        apply Nat.ofDigits_inj_of_len_eq two
        · simp
        · rwa [List.map_map] at less
        · exact fun d mem => Nat.digits_lt_base two mem
        · rw [List.map_map] at value
          exact value.trans (Nat.ofDigits_digits base n).symm
      have kept : (Nat.digits base n).reverse.map (fun d => valueOf (table d)) = (Nat.digits base n).reverse :=
        List.reverse_eq_iff.mp same
      intro d mem
      have here := List.mem_reverse.mpr mem
      have value := List.map_inj_left.mp (kept.trans (List.map_id _).symm) d here
      by_contra high
      rcases lows.high d (inside d here) (Nat.lt_of_not_le high) with nul | ⟨-, other⟩
      · exact (digits d here).nonzero nul
      · exact other value
    · intro low
      have some : (Nat.digits base n).reverse ≠ [] := fun none =>
        Nat.digits_ne_nil_iff_ne_zero.mpr zero (List.reverse_eq_nil_iff.mp none)
      have denotes := low_denotes lows inside some fun d mem => low d (List.mem_reverse.mp mem)
      rwa [List.reverse_reverse, Nat.ofDigits_digits, text] at denotes

inductive UnsignedConversion where
  | u | o | x | X | p
  deriving DecidableEq, Repr

namespace UnsignedConversion

def char : UnsignedConversion → Byte
  | .u => ch 'u'
  | .o => ch 'o'
  | .x => ch 'x'
  | .X => ch 'X'
  | .p => ch 'p'

def base : UnsignedConversion → Nat
  | .u => 10
  | .o => 8
  | .x | .X | .p => 16

/- The base as __int_str gets it. -/
def radixBase : UnsignedConversion → Nat
  | .x => 17
  | c => c.base

/-- A length modifier, and the conversion. -/
def format (c : UnsignedConversion) (length : Length) : List Byte := ch '%' :: (length.text ++ [c.char])

/-- v as a value of the argument's type; for a pointer the modifier says nothing. -/
def value (c : UnsignedConversion) (length : Length) (v : Word) : Nat :=
  if c = .p then v.toNat
  else match length with
    | .H => v.toNat % 256
    | .h => v.toNat % 65536
    | _ => v.toNat

end UnsignedConversion

/- The words of the argument; an unsigned long long has a second one. -/
def Length.pass (length : Length) (v : Word) : List Word :=
  match length with
  | .q => [v, 0]
  | _ => [v]

section Conversions

variable (c : UnsignedConversion) {length : Length} (v : Word) (more : List Word)

theorem parse_unsigned (rest : List Byte) :
    parseDirective (length.text ++ [c.char] ++ rest) =
      if length = .H then .ok (⟨noFlags, .value 0, .value 6, length, ch 'h'⟩, c.char :: rest)
      else .ok (⟨noFlags, .value 0, .value 6, length, c.char⟩, rest) := by
  cases length <;> cases c <;> rfl

theorem unsigned_digits : LowDigits c.base (tableOf c.radixBase) := by
  cases c with
  | u => exact decimal_digits
  | o => exact octal_digits
  | x => exact small_digits
  | X | p => exact capital_digits

theorem unsigned_base : (if c.radixBase = 17 then 16 else c.radixBase) = c.base ∧ 2 ≤ c.base ∧ 2 ≤ c.radixBase ∧
    c.radixBase ≤ 32 ∧ c.radixBase ∈ [8, 10, 16, 17] := by
  cases c <;> decide

theorem value_lt : c.value length v < 4294967296 := by
  have bound := v.isLt
  unfold UnsignedConversion.value
  split
  · exact bound
  · split <;> omega

theorem toInt_int32 : v.toInt = int32 v.toNat := BitVec.toInt_eq_toNat_bmod v

theorem value_word (other : c = .p ∨ length ≠ .H ∧ length ≠ .h) : c.value length v = v.toNat := by
  unfold UnsignedConversion.value
  split
  · rfl
  · rename_i plain
    cases length with
    | H => exact absurd rfl (other.resolve_left plain).1
    | h => exact absurd rfl (other.resolve_left plain).2
    | none | l | q | j | z | t | L => rfl

theorem value_short (plain : c ≠ .p) : int32 (c.value .h v) = (v.setWidth 16).toNat := by
  have value : c.value .h v = v.toNat % 65536 := if_neg plain
  have low : (v.setWidth 16).toNat = v.toNat % 65536 := BitVec.toNat_setWidth ..
  rw [value, low]
  exact int32_eq (by omega) (by omega)

/-- __int_str gets the value as an int32_t. -/
theorem unsignedArg (known : length ≠ .L) (single : length ≠ .H) : ∃ rest,
    integerArg false (if c.char = ch 'p' then .z else length) (length.pass v ++ more) =
      .ok (some (int32 (c.value length v)), rest) := by
  by_cases pointer : c = .p
  · have word := @value_word c length v (.inl pointer)
    rw [word, ← toInt_int32, pointer, if_pos (show UnsignedConversion.p.char = ch 'p' from rfl)]
    cases length with
    | q | none | H | h | l | j | z | t | L => exact ⟨_, rfl⟩
  · have other : c.char ≠ ch 'p' := by
      cases c with
      | p => exact absurd rfl pointer
      | u | o | x | X => decide
    rw [if_neg other]
    cases length with
    | L => exact absurd rfl known
    | H => exact absurd rfl single
    | h => exact ⟨more, congrArg (fun i => Except.ok (some i, more)) (value_short c v pointer).symm⟩
    | q | none | l | j | z | t =>
      rw [value_word c v (.inr ⟨by decide, by decide⟩), ← toInt_int32]
      exact ⟨_, rfl⟩

theorem vprintf_unsigned (floats : Floats) (mem : Nat → Byte) (known : length ≠ .L) (single : length ≠ .H) : ∃ rest,
    vprintf floats (c.format length) (length.pass v ++ more) mem =
      (number noFlags 0 c.radixBase (int32 (c.value length v))).map (displayString ⟨[], 0, rest, mem⟩) := by
  obtain ⟨rest, taken⟩ := @unsignedArg c length v more known single
  have parsed := @parse_unsigned c length [0]
  rw [if_neg single] at parsed
  have text : c.char ≠ ch 'n' := by cases c <;> decide
  have emitted : emit floats ⟨noFlags, .value 0, .value 6, length, c.char⟩ 0 6 mem (length.pass v ++ more) =
      (number noFlags 0 c.radixBase (int32 (c.value length v))).map fun t => ([] ++ t, rest) := by
    unfold emit
    cases c <;> exact emitInteger_some taken
  have index : (c.format length).length < 2147483648 := by cases c <;> cases length <;> decide
  refine ⟨rest, ?_⟩
  rw [vprintf, if_pos index, UnsignedConversion.format, List.cons_append, print_parsed floats _ _ parsed,
    convert_text text rfl rfl]
  dsimp only
  rw [emitted]
  cases number noFlags 0 c.radixBase (int32 (c.value length v)) with
  | error e => rfl
  | ok t => exact print_nul floats [] _

/-- With hh the conversion is printed as a character. -/
theorem vprintf_doubled (floats : Floats) (mem : Nat → Byte) :
    vprintf floats (c.format .H) (Length.pass .H v ++ more) mem =
      .ok ⟨[c.char], 1, Length.pass .H v ++ more, mem⟩ := by
  cases c <;> rfl

end Conversions

/-- The text has no sign, consists of digits of the base and denotes the value. -/
def PrintsUnsigned (floats : Floats) (c : UnsignedConversion) (length : Length) (v : Word) (more : List Word)
    (mem : Nat → Byte) : Prop :=
  ∃ s, vprintf floats (c.format length) (length.pass v ++ more) mem = .ok s ∧ Denotes c.base s.out (c.value length v)

theorem number_value (c : UnsignedConversion) {n : Nat} (small : n < 2147483648) :
    number noFlags 0 c.radixBase (int32 n) = .ok (shown ((places c.base n).map (tableOf c.radixBase))) := by
  obtain ⟨same, -, two, few, -⟩ := unsigned_base c
  have value : int32 n = n := int32_eq (by omega) (by omega)
  have sign : signText (n : Int) false false = [] := by
    rw [signText, if_neg (Int.not_lt.mpr (Int.natCast_nonneg n))]
    rfl
  have text : unpadded noFlags c.radixBase n = (places c.base n).map (tableOf c.radixBase) := by
    rw [unpadded, same, Int.natAbs_natCast]
    exact congrArg (· ++ _) sign
  rw [value, ← text]
  exact @number_plain noFlags c.radixBase two few n (by omega) (by omega)

/-- From 2^31 on the number is negative. -/
theorem number_negative (c : UnsignedConversion) {n : Nat} (large : 2147483648 ≤ n) (inside : n < 4294967296)
    {cs : List Byte} (ran : number noFlags 0 c.radixBase (int32 n) = .ok cs) : ch '-' ∈ cs := by
  obtain ⟨same, -, two, few, known⟩ := unsigned_base c
  have value : int32 n = n - 4294967296 := by
    rw [← int32_eq (x := (n : Int) - 4294967296) (by omega) (by omega)]
    exact (Int.sub_bmod_right (n : Int) 4294967296).symm
  rw [value] at ran
  by_cases least : n = 2147483648
  · have negated : (n : Int) - 4294967296 = -2147483648 := by omega
    rw [negated, number_negated noFlags 0 known] at ran
    cases ran
  · have sign : signText ((n : Int) - 4294967296) false false = [ch '-'] := if_pos (by omega)
    have text := @number_plain noFlags c.radixBase two few (n - 4294967296) (by omega) (by omega)
    have front : unpadded noFlags c.radixBase (n - 4294967296) = ch '-' ::
        (places (if c.radixBase = 17 then 16 else c.radixBase) ((n : Int) - 4294967296).natAbs).map (tableOf c.radixBase) :=
      congrArg (· ++ _) sign
    rw [text, front] at ran
    cases Except.ok.inj ran
    rw [shown, List.takeWhile_cons_of_pos (by decide)]
    exact List.mem_cons_self

/-- They do if and only if there is no hh, an int can hold the value, and all its digits are
at most 4. -/
theorem unsigned_denotes (floats : Floats) (c : UnsignedConversion) {length : Length} (known : length ≠ .L) (v : Word)
    (more : List Word) (mem : Nat → Byte) :
    PrintsUnsigned floats c length v more mem ↔
      length ≠ .H ∧ c.value length v < 2147483648 ∧ ∀ d ∈ Nat.digits c.base (c.value length v), d ≤ 4 := by
  by_cases doubled : length = .H
  · subst doubled
    refine iff_of_false ?_ fun both => both.1 rfl
    rintro ⟨s, ran, denotes⟩
    cases Except.ok.inj ((vprintf_doubled c v more floats mem).symm.trans ran)
    obtain ⟨d, -, value⟩ := denotes.digits c.char List.mem_cons_self
    have letter : digitValue c.char = none := by cases c <;> decide
    rw [letter] at value
    cases value
  · obtain ⟨rest, whole⟩ := vprintf_unsigned c v more floats mem known doubled
    rw [PrintsUnsigned, whole]
    by_cases small : c.value length v < 2147483648
    · have digits := denotes_iff (unsigned_base c).2.1 (unsigned_digits c) (c.value length v)
      rw [number_value c small, ← digits]
      constructor
      · rintro ⟨s, ran, denotes⟩
        cases Except.ok.inj ran
        rw [displayString_out, List.nil_append] at denotes
        exact ⟨doubled, small, denotes⟩
      · rintro ⟨-, -, denotes⟩
        refine ⟨_, rfl, ?_⟩
        rwa [displayString_out, List.nil_append]
    · refine iff_of_false ?_ fun both => small both.2.1
      rintro ⟨s, ran, denotes⟩
      obtain ⟨cs, printed, rfl⟩ := Runs.map_ok.mp ran
      rw [displayString_out, List.nil_append] at denotes
      have sign := number_negative c (Nat.le_of_not_lt small) (value_lt c v) printed
      exact denotes.unsigned _ sign List.mem_cons_self

/- %hx of 0x51234. -/
theorem unsigned_denotes_short :
    let floats : Floats := fun _ _ _ _ _ => .error .argument
    PrintsUnsigned floats .x .h 0x51234 [] zeros := by
  intro floats
  apply (unsigned_denotes floats .x (by decide : Length.h ≠ .L) 0x51234 [] zeros).mpr
  have value : UnsignedConversion.value .x .h 0x51234 = 0x1234 := rfl
  have digits : Nat.digits UnsignedConversion.x.base 0x1234 = [4, 3, 2, 1] := by norm_num [UnsignedConversion.base]
  rw [value, digits]
  decide

/-- %u of 5 and of 2^31 - 1 times two, %x of 5, %hhu of 1. -/
theorem unsigned_misread :
    let floats : Floats := fun _ _ _ _ _ => .error .argument
    ¬ PrintsUnsigned floats .u .none 5 [] zeros ∧ ¬ PrintsUnsigned floats .u .none 0xFFFFFFFE [] zeros ∧
      ¬ PrintsUnsigned floats .x .none 5 [] zeros ∧ ¬ PrintsUnsigned floats .u .H 1 [] zeros := by
  intro floats
  refine ⟨?_, ?_, ?_, ?_⟩
  · rintro ⟨s, ran, denotes⟩
    have empty : vprintf floats (UnsignedConversion.u.format .none) (Length.pass .none 5 ++ []) zeros =
        .ok ⟨[], 0, [], zeros⟩ := rfl
    cases Except.ok.inj (empty.symm.trans ran)
    exact denotes.nonempty rfl
  · rintro ⟨s, ran, denotes⟩
    have signed : vprintf floats (UnsignedConversion.u.format .none) (Length.pass .none 0xFFFFFFFE ++ []) zeros =
        .ok ⟨[ch '-', ch '2'], 2, [], zeros⟩ := rfl
    cases Except.ok.inj (signed.symm.trans ran)
    exact denotes.unsigned _ List.mem_cons_self List.mem_cons_self
  · rintro ⟨s, ran, denotes⟩
    have ten : vprintf floats (UnsignedConversion.x.format .none) (Length.pass .none 5 ++ []) zeros =
        .ok ⟨[ch 'a'], 1, [], zeros⟩ := rfl
    cases Except.ok.inj (ten.symm.trans ran)
    exact absurd denotes.value (by decide)
  · rintro ⟨s, ran, denotes⟩
    have echoed : vprintf floats (UnsignedConversion.u.format .H) (Length.pass .H 1 ++ []) zeros =
        .ok ⟨[ch 'u'], 1, [1], zeros⟩ := rfl
    cases Except.ok.inj (echoed.symm.trans ran)
    exact absurd denotes.value (by decide)

end Icix.Libc
