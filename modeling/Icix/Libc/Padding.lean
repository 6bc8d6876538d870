import Icix.Libc.Room
import Icix.Libc.Units

/-! %d with a width against %d without one: where the padding leaves the number as it is. -/
namespace Icix.Libc
open Bytes

theorem holds_iff {m : Nat → Byte} {cs : List Byte} (nonzero : ∀ c ∈ cs, c ≠ 0) :
    Holds m cs ↔ ∀ k ≤ cs.length, m k = cs.getD k 0 := by
  refine ⟨fun holds k inside => holds_getD holds inside, fun same => ?_⟩
  have whole : Holds (bytesOf cs) cs := by
    have read := bytesOf_holds cs
    rwa [shown, List.takeWhile_eq_self_iff.mpr fun c mem => decide_eq_true (nonzero c mem)] at read
  exact holds_congr (fun k inside => (same k inside).symm) whole

section Pad

variable {c : Byte} (nonzero : c ≠ 0) {n : Nat} {a b : Nat → Byte}
include nonzero

/-- A character in the place of the terminator makes the string longer. -/
theorem holds_longer {s t : List Byte} (start : Holds b s) (holds : Holds (Function.update b s.length c) t) :
    s.length < t.length := by
  by_contra short
  have nul := holds_nul holds
  rcases Nat.lt_or_eq_of_le (Nat.le_of_not_lt short) with less | same
  · rw [Function.update_of_ne (Nat.ne_of_lt less)] at nul
    exact holds_inside start less nul
  · rw [same, Function.update_self] at nul
    exact nonzero nul

/-- Each character of the padding makes the string longer by one or more. -/
theorem pad_string {t : List Byte} (padded : pad c n b = .ok a) (holds : Holds a t) :
    ∃ s, Holds b s ∧ s.length + n ≤ t.length := by
  induction n generalizing b with
  | zero =>
    cases Except.ok.inj padded
    exact ⟨t, holds, Nat.le_refl _⟩
  | succ n ih =>
    obtain ⟨s, start, _, rest⟩ := pad_succ.mp padded
    obtain ⟨s', holds', longer⟩ := ih rest
    have more := holds_longer nonzero start holds'
    exact ⟨s, start, by omega⟩

omit nonzero in
/-- What is not NUL stays as it is. -/
theorem pad_keeps {k : Nat} (padded : pad c n b = .ok a) (held : b k ≠ 0) : a k = b k := by
  induction n generalizing b with
  | zero =>
    cases Except.ok.inj padded
    rfl
  | succ n ih =>
    obtain ⟨s, start, _, rest⟩ := pad_succ.mp padded
    have other : k ≠ s.length := fun same => held (same ▸ holds_nul start)
    have same : Function.update b s.length c k = b k := Function.update_of_ne other ..
    rw [ih rest (same.symm ▸ held), same]

theorem pad_first {s : List Byte} (padded : pad c n b = .ok a) (start : Holds b s) (some : 0 < n) : a s.length = c := by
  obtain ⟨n, rfl⟩ := Nat.exists_eq_add_of_lt some
  rw [Nat.zero_add] at padded
  obtain ⟨s', start', _, rest⟩ := pad_succ.mp padded
  cases holds_unique start' start
  have first : Function.update b s.length c s.length = c := Function.update_self ..
  rw [pad_keeps rest (first.symm ▸ nonzero), first]

/-- The padding adds its characters and nothing else only where there are NULs for them and for
the terminator. -/
theorem pad_exact {s : List Byte} (padded : pad c n b = .ok a) (start : Holds b s)
    (holds : Holds a (s ++ List.replicate n c)) : ∀ j, s.length ≤ j → j ≤ s.length + n → b j = 0 := by
  induction n generalizing b s with
  | zero =>
    intro j low high
    have same : j = s.length := Nat.le_antisymm high low
    exact same ▸ holds_nul start
  | succ n ih =>
    obtain ⟨s', start', _, rest⟩ := pad_succ.mp padded
    cases holds_unique start' start
    obtain ⟨t, found, longer⟩ := pad_string nonzero rest holds
    have whole : s ++ List.replicate (n + 1) c = s ++ [c] ++ List.replicate n c := by
      rw [List.replicate_succ, List.append_assoc, List.singleton_append]
    have next : b (s.length + 1) = 0 := by
      by_contra more
      rw [List.length_append, List.length_replicate] at longer
      have nul := holds_nul found
      have greater := holds_longer nonzero start found
      have last : t.length = s.length + 1 := by omega
      rw [last, Function.update_of_ne (by omega)] at nul
      exact more nul
    have longerS : Holds (Function.update b s.length c) (s ++ [c]) := by
      refine holds_append start (fun k inside => Function.update_of_ne (by omega) ..) ⟨?_, nonzero, ?_⟩
      · exact Function.update_self ..
      · exact (Function.update_of_ne (by omega) ..).trans next
    rw [whole] at holds
    have later := ih rest longerS holds
    rw [List.length_append, List.length_singleton] at later
    intro j low high
    rcases Nat.eq_or_lt_of_le low with same | less
    · exact same ▸ holds_nul start
    · have zero := later j less (by omega)
      rwa [Function.update_of_ne (by omega)] at zero

end Pad

/- The sign that a text begins with. -/
def signOf (s : List Byte) : List Byte := s.takeWhile (· ∈ [ch '-', ch '+', ch ' '])

/-- s in a field of w characters: with spaces behind it for '-', with zeros between its sign
and its digits for '0', and with spaces before it otherwise. -/
def inField (flags : Flags) (w : Nat) (s : List Byte) : List Byte :=
  if flags.leftJustify then s ++ List.replicate (w - s.length) (ch ' ')
  else if flags.zeroPad then signOf s ++ List.replicate (w - s.length) (ch '0') ++ s.drop (signOf s).length
  else List.replicate (w - s.length) (ch ' ') ++ s

theorem inField_length (flags : Flags) (w : Nat) (s : List Byte) : (inField flags w s).length = max w s.length := by
  have sign : (signOf s).length ≤ s.length := (List.takeWhile_prefix _).length_le
  unfold inField
  split
  · rw [List.length_append, List.length_replicate]
    omega
  · split
    · rw [List.length_append, List.length_append, List.length_replicate, List.length_drop]
      omega
    · rw [List.length_append, List.length_replicate]
      omega

theorem inField_nonzero {s : List Byte} (nonzero : ∀ c ∈ s, c ≠ 0) (flags : Flags) (w : Nat) :
    ∀ c ∈ inField flags w s, c ≠ 0 := by
  have pads : ∀ d : Byte, d ≠ 0 → ∀ n, ∀ c ∈ List.replicate n d, c ≠ 0 :=
    fun d other n c mem => List.eq_of_mem_replicate mem ▸ other
  intro c mem
  unfold inField at mem
  split at mem
  · exact (List.mem_append.mp mem).elim (nonzero c) (pads _ (by decide) _ c)
  · split at mem
    · rcases List.mem_append.mp mem with mem | rest
      · rcases List.mem_append.mp mem with sign | zero
        · exact nonzero c ((List.takeWhile_prefix _).subset sign)
        · exact pads _ (by decide) _ c zero
      · exact nonzero c (List.mem_of_mem_drop rest)
    · exact (List.mem_append.mp mem).elim (pads _ (by decide) _ c) (nonzero c)

theorem inField_wide (flags : Flags) {w : Nat} {s : List Byte} (wide : w ≤ s.length) : inField flags w s = s := by
  have sign : signOf s ++ s.drop (signOf s).length = s := by
    have front := List.prefix_iff_eq_take.mp (List.takeWhile_prefix (· ∈ [ch '-', ch '+', ch ' ']) (l := s))
    exact (congrArg (· ++ _) front).trans (List.take_append_drop _ s)
  have none : w - s.length = 0 := by omega
  unfold inField
  split
  · rw [none, List.replicate_zero, List.append_nil]
  · split
    · rw [none, List.replicate_zero, List.append_nil, sign]
    · rw [none, List.replicate_zero, List.nil_append]

/-- Where the field of w characters for a number comes out right: with '-' only spaces, and only
NULs of the array in their place; without, no sign before the zeros, and from the sixth
byte on the number's bytes in the places where the field has them. -/
def FieldFits (flags : Flags) (w : Nat) (text : List Byte) : Prop :=
  w ≤ (shown text).length ∨
    if flags.leftJustify then flags.zeroPad = false ∧ ∀ j, (shown text).length ≤ j → j ≤ w → text.getD j 0 = 0
    else (flags.zeroPad = true → signOf (shown text) = []) ∧
      ∀ j, 5 ≤ j → j ≤ w → text.getD j 0 = (inField flags w (shown text)).getD j 0

theorem padChar_space {zeroPad : Bool} : padChar zeroPad = ch ' ' ↔ zeroPad = false := by
  cases zeroPad <;> decide

section Fields

variable {text : List Byte} (short : text.length ≤ 33) (flags : Flags) {w : Nat} (small : w ≤ 255)
include short small

theorem paddingFor_nat : paddingFor text w = w - (shown text).length := by
  have le := shown_short short
  have low : -2147483648 + ((shown text).length : Int) ≤ w := by omega
  have count := paddingFor_eq le (show -2147483648 ≤ (w : Int) by omega) (by omega)
  rw [if_pos low] at count
  omega

omit small in
theorem justified_congr {m n : Int} (same : paddingFor text m = paddingFor text n) (justify zeroPad : Bool) :
    justified (bytesOf text) m justify zeroPad = justified (bytesOf text) n justify zeroPad := by
  unfold paddingFor at same
  simp only [justified, strlen_text short, bind, Except.bind, same]

/-- With '-' the padding is done in the array that has the number. -/
theorem left_iff (left : flags.leftJustify = true) :
    justified (bytesOf text) w flags.leftJustify flags.zeroPad >>= stringIn 256 = .ok (inField flags w (shown text)) ↔
      FieldFits flags w text := by
  have le := shown_short short
  have holds := bytesOf_holds text
  have count := paddingFor_nat short small
  have length := inField_length flags w (shown text)
  rw [left, justified_left short, count, FieldFits, if_pos left]
  by_cases wide : w ≤ (shown text).length
  · have none : w - (shown text).length = 0 := by omega
    have read : stringIn 256 (bytesOf text) = .ok (shown text) := stringIn_ok.mpr ⟨holds, by omega⟩
    rw [inField_wide flags wide, none]
    exact iff_of_true read (.inl wide)
  · have spaces : inField flags w (shown text) = shown text ++ List.replicate (w - (shown text).length) (ch ' ') :=
      if_pos left
    have total : (shown text).length + (w - (shown text).length) = w := by omega
    rw [spaces]
    constructor
    · intro ran
      obtain ⟨a, padded, read⟩ := Runs.bind_ok.mp ran
      have built := (stringIn_ok.mp read).1
      have first : a (shown text).length = ch ' ' := by
        have length : (shown text ++ List.replicate (w - (shown text).length) (ch ' ')).length = w := by
          rw [List.length_append, List.length_replicate, total]
        rw [holds_getD built (by omega), List.getD_append_right _ _ _ _ (Nat.le_refl _), Nat.sub_self,
          List.getD_replicate _ (by omega)]
      have blank : padChar flags.zeroPad = ch ' ' :=
        (pad_first (padChar_nonzero flags.zeroPad) padded holds (by omega)).symm.trans first
      have clear := pad_exact (padChar_nonzero flags.zeroPad) padded holds (blank.symm ▸ built)
      refine .inr ⟨padChar_space.mp blank, fun j low high => clear j low (by omega)⟩
    · rintro (narrow | ⟨blank, clear⟩)
      · exact absurd narrow wide
      · have same : padChar flags.zeroPad = ch ' ' := padChar_space.mpr blank
        have nonzero := padChar_nonzero flags.zeroPad
        have padded := pad_clear nonzero holds (fun j low high => clear j low (total ▸ high)) (by omega)
        have built := pad_holds nonzero holds (clear _ (by omega) (Nat.le_of_eq total))
        refine Runs.bind_ok.mpr ⟨_, padded, stringIn_ok.mpr ⟨same ▸ built, ?_⟩⟩
        rw [List.length_append, List.length_replicate]
        omega

theorem field_inField (right : flags.leftJustify = false)
    (unsigned : flags.zeroPad = true → signOf (shown text) = []) :
    field text w flags.zeroPad = inField flags w (shown text) := by
  rw [field, paddingFor_nat short small, inField, if_neg (Bool.eq_false_iff.mp right), padChar]
  split
  · rename_i zero
    rw [unsigned zero]
    rfl
  · rfl

/-- A sign before the zeros is not where the padding begins. -/
theorem field_sign (right : flags.leftJustify = false) (zero : flags.zeroPad = true)
    (sign : signOf (shown text) ≠ []) (wide : (shown text).length < w) :
    (field text w flags.zeroPad).getD 0 0 ≠ (inField flags w (shown text)).getD 0 0 := by
  have first : (field text w flags.zeroPad).getD 0 0 = ch '0' := by
    obtain ⟨n, count⟩ := Nat.exists_eq_add_of_lt wide
    have more : paddingFor text w = n + 1 := by
      rw [paddingFor_nat short small]
      omega
    rw [field, more, List.replicate_succ, zero]
    rfl
  rw [first, inField, if_neg (Bool.eq_false_iff.mp right), if_pos zero]
  cases signed : signOf (shown text) with
  | nil => exact absurd signed sign
  | cons c rest =>
    have mem : c ∈ signOf (shown text) := signed ▸ List.mem_cons_self
    have char := List.mem_takeWhile_imp mem
    intro same
    have zero : ch '0' = c := same
    rw [← zero] at char
    exact absurd char (by decide)

/-- Without '-' only the first five bytes come from the array with the padding. -/
theorem right_iff (right : flags.leftJustify = false) :
    justified (bytesOf text) w flags.leftJustify flags.zeroPad >>= stringIn 256 = .ok (inField flags w (shown text)) ↔
      FieldFits flags w text := by
  have le := shown_short short
  have count := paddingFor_nat short small
  have length := inField_length flags w (shown text)
  have nonzero := inField_nonzero (fun c mem => shown_nonzero mem) flags (s := shown text) w
  obtain ⟨a, ran, holds⟩ := justified_right short (w : Int) flags.zeroPad (by omega)
  have total : (field text w flags.zeroPad).length = (inField flags w (shown text)).length := by
    rw [field, List.length_append, List.length_replicate, count, length]
    omega
  have read : justified (bytesOf text) w flags.leftJustify flags.zeroPad >>= stringIn 256 =
      stringIn 256 (strcpy (bytesOf text) a) := by
    rw [right, ran]
    rfl
  have front : ∀ k < 5, k ≤ (inField flags w (shown text)).length →
      strcpy (bytesOf text) a k = (field text w flags.zeroPad).getD k 0 := by
    intro k low inside
    rw [← holds_getD holds (by omega), strcpy, blit]
    exact if_pos ⟨Nat.zero_le k, low⟩
  have back : ∀ k, 5 ≤ k → strcpy (bytesOf text) a k = text.getD k 0 := fun k high => blit_outside _ _ (.inr high)
  rw [read, stringIn_ok, and_iff_left (by omega), holds_iff nonzero, FieldFits, if_neg (Bool.eq_false_iff.mp right)]
  constructor
  · intro same
    rcases Nat.lt_or_ge (shown text).length w with wide | narrow
    · refine .inr ⟨fun zero => ?_, fun j low high => ?_⟩
      · by_contra sign
        apply field_sign short flags small right zero sign wide
        rw [← front 0 (by decide) (Nat.zero_le _), same 0 (Nat.zero_le _)]
      · rw [← back j low, same j (by omega)]
    · exact .inl narrow
  · intro fits k inside
    rcases Nat.lt_or_ge (shown text).length w with wide | narrow
    · obtain ⟨unsigned, later⟩ := fits.resolve_left (Nat.not_le_of_lt wide)
      by_cases low : k < 5
      · rw [front k low inside, field_inField short flags small right unsigned]
      · rw [back k (by omega), later k (by omega) (by omega)]
    · have text_eq : field text w flags.zeroPad = shown text := by
        rw [field, count, Nat.sub_eq_zero_of_le narrow, List.replicate_zero, List.nil_append]
      rw [inField_wide flags narrow] at inside ⊢
      by_cases low : k < 5
      · rw [front k low (by omega), text_eq]
      · rw [back k (by omega), ← holds_getD (bytesOf_holds text) inside]
        rfl

theorem justified_field :
    justified (bytesOf text) w flags.leftJustify flags.zeroPad >>= stringIn 256 = .ok (inField flags w (shown text)) ↔
      FieldFits flags w text := by
  cases side : flags.leftJustify with
  | true => exact side ▸ left_iff short flags small side
  | false => exact side ▸ right_iff short flags small side

end Fields

section Numbers

variable (flags : Flags) {base : Nat} (two : 2 ≤ base) (few : base ≤ 32) {i : Int} (low : -2147483648 < i)
  (high : i < 2147483648)
include two few low high

/-- A number in a field. Below -2^31 and its length the padding wraps. -/
theorem number_field {w : Int} (lowest : -2147483648 ≤ w) (small : w ≤ 255) :
    number flags w base i = .ok (inField flags w.toNat (shown (unpadded flags base i))) ↔
      -2147483648 + (shown (unpadded flags base i)).length ≤ w ∧ FieldFits flags w.toNat (unpadded flags base i) := by
  have short := @unpadded_short flags base i two (by omega) (by omega)
  have le := shown_short short
  by_cases room : -2147483648 + (shown (unpadded flags base i)).length ≤ w
  · have count := paddingFor_eq le lowest (by omega)
    have count' := paddingFor_nat short (show w.toNat ≤ 255 by omega)
    rw [if_pos room] at count
    have same : justified (bytesOf (unpadded flags base i)) w flags.leftJustify flags.zeroPad =
        justified (bytesOf (unpadded flags base i)) w.toNat flags.leftJustify flags.zeroPad :=
      justified_congr short (by omega) ..
    rw [number_eq flags w two few low high, same, justified_field short flags (by omega)]
    exact ⟨fun fits => ⟨room, fits⟩, fun both => both.2⟩
  · refine iff_of_false (fun ran => ?_) (fun both => room both.1)
    exact room ((number_inside flags two few low high lowest (by omega)).mp ⟨_, ran⟩).1

/-- Without a width the number is what a string function sees of it. -/
theorem number_plain : number flags 0 base i = .ok (shown (unpadded flags base i)) := by
  have le := shown_short (@unpadded_short flags base i two (by omega) (by omega))
  have none : (0 : Int).toNat ≤ (shown (unpadded flags base i)).length := Nat.zero_le _
  have text := (number_field flags two few low high (w := 0) (by decide) (by decide)).mpr ⟨by omega, .inl none⟩
  rwa [inField_wide _ none] at text

end Numbers

/-- The width of a directive, in the format or passed as an argument. -/
inductive Width where
  | digits (ds : List (Fin 10)) (leading : ∀ d ∈ ds.head?, d.val ≠ 0)
  | star (w : Word)

namespace Width

def text : Width → List Byte
  | .digits ds _ => ds.map digitChar
  | .star _ => [ch '*']

def args : Width → List Word
  | .digits _ _ => []
  | .star w => [w]

def value : Width → Int
  | .digits ds _ => (ds.foldl (fun v digit => v * 10 + digit.val) 0 : Nat)
  | .star w => w.toInt

def field : Width → Field
  | .digits ds _ => .value (int32 (ds.foldl (fun v digit => v * 10 + digit.val) 0 : Nat))
  | .star _ => .star

end Width

def flagsOf (cs : List FlagChar) : Flags :=
  ⟨cs.contains .minus, cs.contains .zero, cs.contains .space, cs.contains .alt, cs.contains .plus⟩

/- %[flags][width]d. -/
def percentField (cs : List FlagChar) (width : Width) : List Byte :=
  ch '%' :: (cs.map FlagChar.char ++ (width.text ++ [ch 'd']))

/- The flags that are for the sign, and no width. -/
def signs (cs : List FlagChar) : List FlagChar := cs.filter (fun c => c = .plus ∨ c = .space)

def noWidth : Width := .digits [] (by decide)

theorem parse_field (cs : List FlagChar) (width : Width) (rest : List Byte) :
    parseDirective (cs.map FlagChar.char ++ (width.text ++ [ch 'd']) ++ rest) =
      .ok (⟨flagsOf cs, width.field, .value 6, .none, ch 'd'⟩, rest) := by
  cases width with
  | digits ds leading =>
    have nonzero : ds.head? ≠ some 0 := fun first => leading 0 first rfl
    exact parse_text ⟨cs, ds, nonzero, .none, by decide, .d⟩ rest
  | star w =>
    have star : ch '*' ∉ [ch '-', ch '+', ch '#', ch ' ', ch '0'] := by decide
    have flags := parseFlags_chars noFlags cs (fun flags => parseFlags_stop flags star (ch 'd' :: rest))
    have whole : cs.map FlagChar.char ++ ([ch '*'] ++ [ch 'd']) ++ rest =
        cs.map FlagChar.char ++ (ch '*' :: ch 'd' :: rest) := List.append_assoc _ _ _
    simp only [parseDirective, Width.text, whole, flags]
    rfl

theorem vprintf_field (floats : Floats) (cs : List FlagChar) {width : Width} (small : width.value ≤ 255) (v : Word)
    (more : List Word) (mem : Nat → Byte) (index : (percentField cs width).length < 2147483648) :
    vprintf floats (percentField cs width) (width.args ++ v :: more) mem =
      (number (flagsOf cs) width.value 10 v.toInt).map (displayString ⟨[], 0, more, mem⟩) := by
  have taken : fieldArg width.field (width.args ++ v :: more) = .ok (width.value, v :: more) := by
    cases width with
    | digits ds leading =>
      have same : int32 (Width.digits ds leading).value = (Width.digits ds leading).value :=
        int32_eq ((by decide : (-2147483648 : Int) ≤ 0).trans (Int.natCast_nonneg _)) (by omega)
      exact congrArg (fun n => Except.ok (n, v :: more)) same
    | star w => rfl
  have emitted : emit floats ⟨flagsOf cs, width.field, .value 6, .none, ch 'd'⟩ width.value 6 mem (v :: more) =
      (number (flagsOf cs) width.value 10 v.toInt).map
        (fun t => ((if (flagsOf cs).altForm then [] else []) ++ t, more)) := emitInteger_some rfl
  rw [ite_self] at emitted
  rw [vprintf, if_pos index, percentField, List.cons_append, print_parsed floats _ _ (parse_field cs width [0]),
    convert_text (show ch 'd' ≠ ch 'n' by decide) taken rfl]
  dsimp only
  rw [emitted]
  cases number (flagsOf cs) width.value 10 v.toInt with
  | error e => rfl
  | ok t => exact print_nul floats [] _

/-- The text of a %d with the flags for the sign, and in a field with all flags and the width. -/
def PadsNumber (floats : Floats) (cs : List FlagChar) (width : Width) (v : Word) (more : List Word)
    (mem : Nat → Byte) : Prop :=
  ∃ s t, vprintf floats (percentField (signs cs) noWidth) (v :: more) mem = .ok s ∧
    vprintf floats (percentField cs width) (width.args ++ v :: more) mem = .ok t ∧
    t.out.length = max width.value.toNat s.out.length ∧ t.out = inField (flagsOf cs) width.value.toNat s.out

theorem signs_flags (cs : List FlagChar) : (flagsOf (signs cs)).plusSign = (flagsOf cs).plusSign ∧
    (flagsOf (signs cs)).spaceNoSign = (flagsOf cs).spaceNoSign := by
  simp [flagsOf, signs]

theorem signs_shorter (cs : List FlagChar) (width : Width) :
    (percentField (signs cs) noWidth).length ≤ (percentField cs width).length := by
  have filtered : (signs cs).length ≤ cs.length := List.length_filter_le _ cs
  have none : noWidth.text = [] := rfl
  simp only [percentField, none, List.length_cons, List.length_append, List.length_map, List.length_nil]
  omega

theorem vprintf_index {floats : Floats} {format : List Byte} {args : List Word} {mem : Nat → Byte} {s : Printing}
    (ran : vprintf floats format args mem = .ok s) : format.length < 2147483648 := by
  rw [vprintf] at ran
  split at ran
  · assumption
  · cases ran

theorem width_lowest (width : Width) : -2147483648 ≤ width.value := by
  cases width with
  | digits ds leading => exact (by decide : (-2147483648 : Int) ≤ 0).trans (Int.natCast_nonneg _)
  | star w => exact BitVec.le_toInt w

section Directives

variable (floats : Floats) (cs : List FlagChar) {width : Width} (small : width.value ≤ 255) (v : Word)
  (more : List Word) (mem : Nat → Byte)

theorem plain_eq (index : (percentField (signs cs) noWidth).length < 2147483648) (least : v.toInt ≠ -2147483648) :
    vprintf floats (percentField (signs cs) noWidth) (v :: more) mem =
      .ok (displayString ⟨[], 0, more, mem⟩ (shown (unpadded (flagsOf cs) 10 v.toInt))) := by
  have low := v.le_toInt
  have high := v.toInt_lt
  have same : unpadded (flagsOf (signs cs)) 10 v.toInt = unpadded (flagsOf cs) 10 v.toInt := by
    rw [unpadded, unpadded, (signs_flags cs).1, (signs_flags cs).2]
  have text := @number_plain (flagsOf (signs cs)) 10 (by decide) (by decide) v.toInt (by omega) (by omega)
  have ran := @vprintf_field floats (signs cs) noWidth (by decide) v more mem index
  have zero : noWidth.value = 0 := rfl
  rw [zero, text, same] at ran
  exact ran

theorem plain_least (least : v.toInt = -2147483648) (s : Printing) :
    vprintf floats (percentField (signs cs) noWidth) (v :: more) mem ≠ .ok s := by
  intro ran
  have whole := @vprintf_field floats (signs cs) noWidth (by decide) v more mem (vprintf_index ran)
  rw [least, number_negated _ _ (by decide)] at whole
  cases whole.symm.trans ran

include small in
/-- The padding leaves the number as it is if and only if the number can be negated, the format
can be indexed, the width does not wrap, and the field fits. -/
theorem padding_keeps_number :
    PadsNumber floats cs width v more mem ↔
      v.toInt ≠ -2147483648 ∧ (percentField cs width).length < 2147483648 ∧
        -2147483648 + (shown (unpadded (flagsOf cs) 10 v.toInt)).length ≤ width.value ∧
        FieldFits (flagsOf cs) width.value.toNat (unpadded (flagsOf cs) 10 v.toInt) := by
  have lowest := v.le_toInt
  have highest := v.toInt_lt
  have field := fun low high => @number_field (flagsOf cs) 10 (by decide) (by decide) v.toInt low high width.value
    (width_lowest width) small
  constructor
  · rintro ⟨s, t, plain, padded, -, text⟩
    have index := vprintf_index padded
    have least : v.toInt ≠ -2147483648 := fun least => plain_least floats cs v more mem least s plain
    have shorter := Nat.lt_of_le_of_lt (signs_shorter cs width) index
    cases Except.ok.inj ((plain_eq floats cs v more mem shorter least).symm.trans plain)
    rw [vprintf_field floats cs small v more mem index] at padded
    obtain ⟨out, ran, rfl⟩ := Runs.map_ok.mp padded
    simp only [displayString_out, List.nil_append] at text
    rw [text] at ran
    exact ⟨least, index, (field (by omega) (by omega)).mp ran⟩
  · rintro ⟨least, index, fits⟩
    have shorter := Nat.lt_of_le_of_lt (signs_shorter cs width) index
    have padded := vprintf_field floats cs small v more mem index
    rw [(field (by omega) (by omega)).mpr fits] at padded
    refine ⟨_, _, plain_eq floats cs v more mem shorter least, padded, ?_, ?_⟩
    · simp only [displayString_out, List.nil_append, inField_length]
    · simp only [displayString_out, List.nil_append]

end Directives

/- %+-*d for 30. -/
theorem padding_keeps_number_star :
    let floats : Floats := fun _ _ _ _ _ => .error .argument
    PadsNumber floats [.plus, .minus] (.star 7) 30 [] zeros := by
  intro floats
  refine (@padding_keeps_number floats [.plus, .minus] (.star 7) (by decide) 30 [] zeros).mpr ?_
  refine ⟨by decide, by decide, by decide, .inr ⟨rfl, ?_⟩⟩
  intro j low _
  -- the text is three bytes long
  exact List.getD_eq_default _ _ low

/-- %6d prints 1 as five spaces, and %-05d prints zeros behind it. -/
theorem padding_loses_number :
    let floats : Floats := fun _ _ _ _ _ => .error .argument
    ¬ PadsNumber floats [] (.digits [6] (by decide)) 1 [] zeros ∧
      ¬ PadsNumber floats [.minus, .zero] (.digits [5] (by decide)) 1 [] zeros := by
  intro floats
  constructor
  · rintro ⟨s, t, plain, padded, length, -⟩
    have one : vprintf floats (percentField (signs []) noWidth) [1] zeros = .ok ⟨[ch '1'], 1, [], zeros⟩ := rfl
    have spaces : vprintf floats (percentField [] (.digits [6] (by decide))) [1] zeros =
        .ok ⟨List.replicate 5 (ch ' '), 5, [], zeros⟩ := rfl
    cases Except.ok.inj (one.symm.trans plain)
    cases Except.ok.inj (spaces.symm.trans padded)
    exact absurd length (by decide)
  · rintro ⟨s, t, plain, padded, -, text⟩
    have one : vprintf floats (percentField (signs [.minus, .zero]) noWidth) [1] zeros = .ok ⟨[ch '1'], 1, [], zeros⟩ := rfl
    have larger : vprintf floats (percentField [.minus, .zero] (.digits [5] (by decide))) [1] zeros =
        .ok ⟨ch '1' :: List.replicate 4 (ch '0'), 5, [], zeros⟩ := rfl
    cases Except.ok.inj (one.symm.trans plain)
    cases Except.ok.inj (larger.symm.trans padded)
    exact absurd text (by decide)

end Icix.Libc
