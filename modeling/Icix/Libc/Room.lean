import Icix.Libc.Printf
import Mathlib.Data.List.GetD
import Mathlib.Data.List.TakeWhile
import Mathlib.Data.Nat.Count

/-! What __int_str writes to its two arrays of 256 bytes when the conversions for integers
call it: a number that may have NULs among its digits, and the padding. -/
namespace Icix.Libc
open Bytes

/- The digits of a base. -/
def tableOf (base : Nat) : Nat → Byte := (digitTable base).toOption.getD zeros

theorem digitTable_ok (base : Nat) : digitTable base = .ok (tableOf base) := by
  unfold tableOf digitTable
  split
  · rfl
  · split
    · rfl
    · rfl

/-- The sign and the digits as the table has them; there are NULs among its digits. -/
def unpadded (flags : Flags) (base : Nat) (i : Int) : List Byte :=
  signText i flags.plusSign flags.spaceNoSign ++
    (places (if base = 17 then 16 else base) i.natAbs).map (tableOf base)

/- What a string function sees of it, and the other characters that are not NUL. -/
def shown (text : List Byte) : List Byte := text.takeWhile (· ≠ 0)

def hidden (text : List Byte) : Nat := (text.dropWhile (· ≠ 0)).countP (· ≠ 0)

/- An array that begins with the given bytes and has zeros behind them. -/
def bytesOf (text : List Byte) : Nat → Byte := fun k => text.getD k 0

theorem bytesOf_spells (text : List Byte) : Spells (bytesOf text) text := by
  induction text with
  | nil => rfl
  | cons c text ih =>
    refine ⟨rfl, spells_congr (fun k _ => ?_) ih⟩
    rw [view_apply, Nat.add_comm]
    rfl

theorem bytesOf_holds (text : List Byte) : Holds (bytesOf text) (shown text) := spells_holds (bytesOf_spells text)

theorem bytesOf_past {text : List Byte} {k : Nat} (past : text.length ≤ k) : bytesOf text k = 0 := by
  rw [bytesOf, List.getD_eq_default _ _ past]

theorem numberBuffer_eq (digit : Nat → Byte) (base : Nat) (sign : List Byte) (n : Nat) :
    numberBuffer zeros digit base sign n = bytesOf (sign ++ (places base n).map digit) := by
  funext k
  have length : (sign ++ (places base n).map digit).length = sign.length + digitCount base n := by
    rw [List.length_append, List.length_map, places, List.length_map, List.length_range]
  by_cases inside : k ≤ (sign ++ (places base n).map digit).length
  · exact spells_getD (numberBuffer_spells zeros digit base sign n) inside
  · rw [bytesOf_past (by omega), numberBuffer, blit_outside _ _ (by omega), Function.update_of_ne (by omega),
      blit_outside _ _ (by omega)]
    rfl

theorem shown_front (text : List Byte) : shown text <+: text := List.takeWhile_prefix _

theorem shown_nonzero {text : List Byte} {c : Byte} (mem : c ∈ shown text) : c ≠ 0 := by
  have test := List.mem_takeWhile_imp mem
  simpa using test

theorem countP_unpadded (text : List Byte) : text.countP (· ≠ 0) = (shown text).length + hidden text := by
  have all : (shown text).countP (· ≠ 0) = (shown text).length :=
    List.countP_eq_length.mpr fun c mem => decide_eq_true (shown_nonzero mem)
  have parts := List.takeWhile_append_dropWhile (p := fun c : Byte => decide (c ≠ 0)) (l := text)
  rw [← all, hidden, shown, ← List.countP_append, parts]

/- The bytes of an array of 256 that are NUL. -/
def nuls (b : Nat → Byte) : Nat := Nat.count (fun k => b k = 0) 256

theorem nuls_bytesOf {text : List Byte} (short : text.length ≤ 256) :
    nuls (bytesOf text) + ((shown text).length + hidden text) = 256 := by
  have bytes : (List.range 256).map (bytesOf text) = text ++ List.replicate (256 - text.length) 0 := by
    apply List.ext_getElem
    · simp only [List.length_map, List.length_range, List.length_append, List.length_replicate]
      omega
    · intro k _ _
      rw [List.getElem_map, List.getElem_range]
      by_cases inside : k < text.length
      · rw [List.getElem_append_left inside, bytesOf, List.getD_eq_getElem _ _ inside]
      · rw [List.getElem_append_right (Nat.le_of_not_lt inside), List.getElem_replicate,
          bytesOf_past (Nat.le_of_not_lt inside)]
  have count : nuls (bytesOf text) = text.countP (· = 0) + (256 - text.length) := by
    have mapped := congrArg (List.countP (· = (0 : Byte))) bytes
    rw [List.countP_map, List.countP_append, List.countP_replicate, if_pos (by decide)] at mapped
    exact mapped
  have split := List.length_eq_countP_add_countP (fun c : Byte => decide (c = 0)) (l := text)
  have rest : text.countP (fun c => ¬ decide (c = 0) = true) = text.countP (· ≠ 0) := by
    apply List.countP_congr
    intro c _
    simp
  rw [count, ← countP_unpadded, ← rest]
  omega

theorem nuls_zeros : nuls zeros = 256 := Nat.count_iff_forall.mpr fun _ _ => rfl

theorem readString_none {lim : Nat} {m : Nat → Byte} : readString lim m = none ↔ ∀ k < lim, m k ≠ 0 := by
  induction lim generalizing m with
  | zero => exact ⟨fun _ k inside => absurd inside (Nat.not_lt_zero k), fun _ => rfl⟩
  | succ lim ih =>
    rw [readString]
    split
    · rename_i nul
      exact iff_of_false (Option.some_ne_none _) fun all => all 0 (Nat.succ_pos lim) nul
    · rename_i more
      rw [Option.map_eq_none_iff, ih]
      constructor
      · intro all k inside
        cases k with
        | zero => exact more
        | succ k =>
          have later := all k (Nat.lt_of_succ_lt_succ inside)
          rwa [view_apply, Nat.add_comm] at later
      · intro all k inside
        exact all (1 + k) (by omega)

theorem nuls_pos {b : Nat → Byte} : 0 < nuls b ↔ ∃ cs, readString 256 b = some cs := by
  rw [Nat.pos_iff_ne_zero, nuls, Nat.count_ne_iff_exists, ← Option.ne_none_iff_exists', ne_eq, readString_none]
  constructor
  · rintro ⟨k, inside, nul⟩ all
    exact all k inside nul
  · intro some
    by_contra none
    exact some fun k inside nul => none ⟨k, inside, nul⟩

/-- A NUL that is overwritten is one less. -/
theorem nuls_update {b : Nat → Byte} {k : Nat} (nul : b k = 0) (inside : k < 256) {c : Byte} (nonzero : c ≠ 0) :
    nuls (Function.update b k c) + 1 = nuls b := by
  have erased : (Finset.range 256).filter (fun j => Function.update b k c j = 0) =
      ((Finset.range 256).filter (fun j => b j = 0)).erase k := by
    ext j
    rw [Finset.mem_erase, Finset.mem_filter, Finset.mem_filter]
    by_cases same : j = k
    · subst j
      rw [Function.update_self]
      exact iff_of_false (fun mem => nonzero mem.2) (fun mem => mem.1 rfl)
    · rw [Function.update_of_ne same]
      exact ⟨fun mem => ⟨same, mem⟩, fun mem => mem.2⟩
  have here : k ∈ (Finset.range 256).filter (fun j => b j = 0) :=
    Finset.mem_filter.mpr ⟨Finset.mem_range.mpr inside, nul⟩
  rw [nuls, nuls, Nat.count_eq_card_filter_range, Nat.count_eq_card_filter_range, erased]
  exact Finset.card_erase_add_one here

theorem stringIn_ok {size : Nat} {b : Nat → Byte} {cs : List Byte} :
    stringIn size b = .ok cs ↔ Holds b cs ∧ cs.length < size := by
  rw [← readString_eq_some, stringIn]
  cases readString size b with
  | none => exact iff_of_false (fun same => by cases same) (fun same => by cases same)
  | some ds => exact ⟨fun same => congrArg some (Except.ok.inj same), fun same => congrArg Except.ok (Option.some.inj same)⟩

/-- One turn of the padding loop, on the string that it finds. -/
theorem pad_succ {c : Byte} {n : Nat} {a b : Nat → Byte} :
    pad c (n + 1) b = .ok a ↔ ∃ s, Holds b s ∧ s.length < 256 ∧ pad c n (Function.update b s.length c) = .ok a := by
  constructor
  · intro padded
    obtain ⟨k, found, turn⟩ := Runs.bind_ok.mp padded
    obtain ⟨s, read, rfl⟩ := Runs.map_ok.mp found
    obtain ⟨holds, short⟩ := stringIn_ok.mp read
    rw [put, if_pos short] at turn
    exact ⟨s, holds, short, turn⟩
  · rintro ⟨s, holds, short, rest⟩
    simp only [pad, strlen_holds holds short, Runs.ok_bind, put, if_pos short]
    exact rest

/-- Padding goes through, and leaves a NUL, when there are more NULs than characters to add. -/
theorem pad_iff {c : Byte} (nonzero : c ≠ 0) (n : Nat) (b : Nat → Byte) :
    (∃ a, pad c n b = .ok a ∧ 0 < nuls a) ↔ n < nuls b := by
  induction n generalizing b with
  | zero =>
    constructor
    · rintro ⟨a, same, left⟩
      exact Except.ok.inj same ▸ left
    · exact fun left => ⟨b, rfl, left⟩
  | succ n ih =>
    constructor
    · rintro ⟨a, padded, left⟩
      obtain ⟨s, holds, short, rest⟩ := pad_succ.mp padded
      have less := nuls_update (holds_nul holds) short nonzero
      have later := (ih _).mp ⟨a, rest, left⟩
      omega
    · intro left
      obtain ⟨s, read⟩ := nuls_pos.mp (Nat.zero_lt_of_lt left)
      obtain ⟨holds, short⟩ := readString_eq_some.mp read
      have less := nuls_update (holds_nul holds) short nonzero
      obtain ⟨a, rest, more⟩ := (ih (Function.update b s.length c)).mpr (by omega)
      exact ⟨a, pad_succ.mpr ⟨s, holds, short, rest⟩, more⟩

theorem stringIn_iff {b : Nat → Byte} : (∃ cs, stringIn 256 b = .ok cs) ↔ 0 < nuls b := by
  rw [nuls_pos, stringIn]
  cases readString 256 b with
  | none => exact iff_of_false (by rintro ⟨cs, same⟩; cases same) (by rintro ⟨cs, same⟩; cases same)
  | some cs => exact iff_of_true ⟨cs, rfl⟩ ⟨cs, rfl⟩

/-- The padding of a string that has only NULs behind it. -/
theorem pad_clear {c : Byte} (nonzero : c ≠ 0) {n : Nat} {b : Nat → Byte} {s : List Byte} (holds : Holds b s)
    (clear : ∀ j, s.length ≤ j → j ≤ s.length + n → b j = 0) (room : s.length + n ≤ 256) :
    pad c n b = .ok (blit b s.length n fun _ => c) := by
  induction n generalizing b s with
  | zero =>
    rw [blit_zero]
    rfl
  | succ n ih =>
    have short : s.length < 256 := by omega
    have step : pad c (n + 1) b = pad c n (Function.update b s.length c) := by
      simp only [pad, strlen_holds holds short, bind, Except.bind, put, if_pos short]
    have length : (s ++ [c]).length = s.length + 1 := by rw [List.length_append, List.length_singleton]
    have later : ∀ j, s.length + 1 ≤ j → j ≤ s.length + 1 + n → Function.update b s.length c j = 0 := by
      intro j low high
      rw [Function.update_of_ne (by omega), clear j (by omega) (by omega)]
    have longer : Holds (Function.update b s.length c) (s ++ [c]) := by
      refine holds_append holds (fun k inside => Function.update_of_ne (by omega) ..) ⟨?_, nonzero, ?_⟩
      · exact Function.update_self ..
      · exact later (s.length + 1) (Nat.le_refl _) (by omega)
    have first : Function.update b s.length c = blit b s.length 1 fun _ => c := by
      rw [blit_succ, blit_zero]
      rfl
    have whole : blit (blit b s.length 1 fun _ => c) (s.length + 1) n (fun _ => c) = blit b s.length (n + 1) fun _ => c := by
      rw [Nat.add_comm n 1]
      exact blit_append b (fun _ => c) s.length 1 n
    rw [step, ih longer (by rw [length]; exact later) (by omega), length, first, whole]

theorem pad_holds {c : Byte} (nonzero : c ≠ 0) {n : Nat} {b : Nat → Byte} {s : List Byte} (holds : Holds b s)
    (nul : b (s.length + n) = 0) : Holds (blit b s.length n fun _ => c) (s ++ List.replicate n c) := by
  refine holds_append holds (fun k inside => blit_outside _ _ (.inl inside)) (holds_replicate nonzero ?_ ?_)
  · intro k inside
    exact blit_inside b _ inside
  · rw [view_apply, blit_outside _ _ (.inr (Nat.le_refl _)), nul]

/- while (padding--), from what strlen finds. -/
def paddingFor (text : List Byte) (paddingNo : Int) : Nat := (int32 (paddingNo - (shown text).length)).toNat

def padChar (zeroPad : Bool) : Byte := if zeroPad then ch '0' else ch ' '

theorem padChar_nonzero (zeroPad : Bool) : padChar zeroPad ≠ 0 := by cases zeroPad <;> decide

/- What strcat makes of the padding and the number. -/
def field (text : List Byte) (paddingNo : Int) (zeroPad : Bool) : List Byte :=
  List.replicate (paddingFor text paddingNo) (padChar zeroPad) ++ shown text

/-- The array a when the padding is in it. -/
theorem pad_zeros {n : Nat} (room : n < 256) (zeroPad : Bool) : ∃ a, pad (padChar zeroPad) n zeros = .ok a ∧
    Holds a (List.replicate n (padChar zeroPad)) ∧ strlen 256 a = .ok n := by
  have nonzero := padChar_nonzero zeroPad
  have empty : Holds zeros [] := rfl
  have padded := @pad_clear _ nonzero n _ _ empty (fun _ _ _ => rfl) (by rw [List.length_nil]; omega)
  have front := @pad_holds _ nonzero n _ _ empty rfl
  rw [List.nil_append] at front
  refine ⟨_, padded, front, ?_⟩
  have count : strlen 256 _ = .ok _ := strlen_holds front (by rw [List.length_replicate]; exact room)
  rwa [List.length_replicate] at count

section Justified

variable {text : List Byte} (short : text.length ≤ 33) (paddingNo : Int) (zeroPad : Bool)
include short

theorem shown_short : (shown text).length ≤ 33 := (shown_front text).length_le.trans short

theorem strlen_text : strlen 256 (bytesOf text) = .ok (shown text).length :=
  strlen_holds (bytesOf_holds text) (Nat.lt_of_le_of_lt (shown_short short) (by decide))

theorem justified_left : justified (bytesOf text) paddingNo true zeroPad =
    pad (padChar zeroPad) (paddingFor text paddingNo) (bytesOf text) := by
  simp only [justified, strlen_text short, bind, Except.bind, if_true]
  rfl

theorem justified_left_iff :
    (∃ cs, justified (bytesOf text) paddingNo true zeroPad >>= stringIn 256 = .ok cs) ↔
      paddingFor text paddingNo + (shown text).length + hidden text < 256 := by
  have total := nuls_bytesOf (Nat.le_trans short (by decide))
  have padded := pad_iff (padChar_nonzero zeroPad) (paddingFor text paddingNo) (bytesOf text)
  have ends : (∃ cs, justified (bytesOf text) paddingNo true zeroPad >>= stringIn 256 = .ok cs) ↔
      ∃ a, pad (padChar zeroPad) (paddingFor text paddingNo) (bytesOf text) = .ok a ∧ 0 < nuls a := by
    rw [justified_left short]
    constructor
    · rintro ⟨cs, ran⟩
      obtain ⟨a, ran, read⟩ := Runs.bind_ok.mp ran
      exact ⟨a, ran, stringIn_iff.mp ⟨cs, read⟩⟩
    · rintro ⟨a, ran, left⟩
      obtain ⟨cs, read⟩ := stringIn_iff.mpr left
      exact ⟨cs, Runs.bind_ok.mpr ⟨a, ran, read⟩⟩
  rw [ends, padded]
  omega

/-- Without '-' the number is copied behind the padding, and five bytes of that back. -/
theorem justified_right (room : paddingFor text paddingNo + (shown text).length < 256) :
    ∃ a, justified (bytesOf text) paddingNo false zeroPad = .ok (strcpy (bytesOf text) a) ∧
      Holds a (field text paddingNo zeroPad) := by
  obtain ⟨a, padded, front, count⟩ := pad_zeros (Nat.lt_of_le_of_lt (Nat.le_add_right _ _) room) zeroPad
  have fits : paddingFor text paddingNo + (shown text).length + 1 ≤ 256 := room
  refine ⟨blit a (paddingFor text paddingNo) ((shown text).length + 1) (bytesOf text), ?_, ?_⟩
  · have start : pad (if zeroPad = true then ch '0' else ch ' ') (int32 (paddingNo - (shown text).length)).toNat zeros =
      .ok a := padded
    simp only [justified, strlen_text short, bind, Except.bind, start, strcat, count, if_pos fits, Bool.false_eq_true,
      if_false]
  · refine holds_append front (fun k inside => blit_outside _ _ (.inl ?_)) ?_
    · rwa [List.length_replicate] at inside
    · rw [List.length_replicate]
      refine holds_congr (fun k inside => ?_) (bytesOf_holds text)
      exact (blit_inside a _ (Nat.lt_succ_of_le inside)).symm

theorem justified_right_iff :
    (∃ cs, justified (bytesOf text) paddingNo false zeroPad >>= stringIn 256 = .ok cs) ↔
      paddingFor text paddingNo + (shown text).length < 256 := by
  constructor
  · rintro ⟨cs, ran⟩
    obtain ⟨b, ran, -⟩ := Runs.bind_ok.mp ran
    simp only [justified, strlen_text short, Runs.ok_bind, Bool.false_eq_true, if_false] at ran
    obtain ⟨a, padded, ran⟩ := Runs.bind_ok.mp ran
    obtain ⟨a', appended, -⟩ := Runs.bind_ok.mp ran
    obtain ⟨d, counted, appended⟩ := Runs.bind_ok.mp appended
    rw [strlen_text short, Runs.ok_bind] at appended
    obtain ⟨ds, read, length⟩ := Runs.map_ok.mp counted
    have less := (pad_iff (padChar_nonzero zeroPad) (paddingFor text paddingNo) zeros).mp
      ⟨a, padded, stringIn_iff.mp ⟨ds, read⟩⟩
    rw [nuls_zeros] at less
    obtain ⟨a'', again, -, count⟩ := pad_zeros less zeroPad
    cases Except.ok.inj (again.symm.trans padded)
    cases Except.ok.inj (count.symm.trans counted)
    split at appended
    · assumption
    · cases appended
  · intro room
    obtain ⟨a, ran, -⟩ := justified_right short paddingNo zeroPad room
    have nul : strcpy (bytesOf text) a 33 = 0 := by
      rw [strcpy, blit_outside _ _ (by omega), bytesOf_past short]
    have left : 0 < nuls (strcpy (bytesOf text) a) :=
      Nat.pos_of_ne_zero (Nat.count_ne_iff_exists.mpr ⟨33, by decide, nul⟩)
    obtain ⟨cs, read⟩ := stringIn_iff.mpr left
    exact ⟨cs, Runs.bind_ok.mpr ⟨_, ran, read⟩⟩

end Justified

theorem unpadded_short {flags : Flags} {base : Nat} {i : Int} (two : 2 ≤ base) (low : -2147483648 ≤ i)
    (high : i ≤ 2147483648) : (unpadded flags base i).length ≤ 33 := by
  have sign := signText_short i flags.plusSign flags.spaceNoSign
  have two' : 2 ≤ if base = 17 then 16 else base := by split <;> omega
  have bits : i.natAbs < (if base = 17 then 16 else base) ^ 32 :=
    Nat.lt_of_lt_of_le (by omega : i.natAbs < 2 ^ 32) (Nat.pow_le_pow_left two' 32)
  have digits : Nat.log (if base = 17 then 16 else base) i.natAbs < 32 := Nat.log_lt_of_lt_pow' (by decide) bits
  rw [unpadded, List.length_append, List.length_map, places, List.length_map, List.length_range, digitCount]
  omega

theorem number_eq (flags : Flags) (lengthSpec : Int) {base : Nat} {i : Int} (two : 2 ≤ base) (small : base ≤ 32)
    (low : -2147483648 < i) (high : i < 2147483648) :
    number flags lengthSpec base i =
      justified (bytesOf (unpadded flags base i)) lengthSpec flags.leftJustify flags.zeroPad >>= stringIn 256 := by
  rw [number, intStr_unpadded zeros low high (digitTable_ok base) two small, numberBuffer_eq]
  rfl

/-- The width is not so low that the padding wraps, and leaves room for the terminator in the
array. With '-' the characters behind a NUL are filled around. -/
def Room (flags : Flags) (lengthSpec : Int) (text : List Byte) : Prop :=
  -2147483648 + (shown text).length ≤ lengthSpec ∧
    lengthSpec + (if flags.leftJustify then hidden text else 0 : Nat) ≤ 255

theorem paddingFor_eq {text : List Byte} {lengthSpec : Int} (short : (shown text).length ≤ 33)
    (low : -2147483648 ≤ lengthSpec) (high : lengthSpec < 2147483648) :
    (paddingFor text lengthSpec : Int) =
      if -2147483648 + (shown text).length ≤ lengthSpec then max 0 (lengthSpec - (shown text).length)
      else lengthSpec - (shown text).length + 4294967296 := by
  unfold paddingFor
  split
  · rw [int32_eq (by omega) (by omega)]
    omega
  · have wrapped : int32 (lengthSpec - (shown text).length) = lengthSpec - (shown text).length + 4294967296 := by
      rw [← int32_eq (x := lengthSpec - (shown text).length + 4294967296) (by omega) (by omega)]
      exact (Int.add_bmod_right _ 4294967296).symm
    rw [wrapped]
    omega

theorem number_inside (flags : Flags) {lengthSpec : Int} {base : Nat} {i : Int} (two : 2 ≤ base) (small : base ≤ 32)
    (low : -2147483648 < i) (high : i < 2147483648) (lowest : -2147483648 ≤ lengthSpec) (highest : lengthSpec < 2147483648) :
    (∃ cs, number flags lengthSpec base i = .ok cs) ↔ Room flags lengthSpec (unpadded flags base i) := by
  have short := @unpadded_short flags base i two (by omega) (by omega)
  have le := shown_short short
  have count := paddingFor_eq le lowest highest
  have parts : (shown (unpadded flags base i)).length + hidden (unpadded flags base i) ≤ 33 := by
    rw [← countP_unpadded]
    exact List.countP_le_length.trans short
  rw [number_eq flags lengthSpec two small low high, Room]
  cases flags.leftJustify with
  | true =>
    rw [justified_left_iff short, if_pos rfl]
    split at count <;> omega
  | false =>
    rw [justified_right_iff short, if_neg Bool.false_ne_true]
    split at count <;> omega

/-- The least int is negated to itself, and its last digit is looked up at a negative index. -/
theorem number_negated (flags : Flags) (lengthSpec : Int) {base : Nat} (known : base ∈ [8, 10, 16, 17]) :
    number flags lengthSpec base (-2147483648) = .error .digit := by
  simp only [List.mem_cons, List.not_mem_nil, or_false] at known
  rcases known with rfl | rfl | rfl | rfl <;> rfl

/- A call of __int_str with intStrBuffer, and what vprintf makes of its result. -/
structure IntStrCall where
  flags : Flags
  lengthSpec : Int
  base : Nat
  i : Int

/-- All accesses are inside the two arrays and the table, and the text ends in its array. -/
def IntStrCall.Inside (c : IntStrCall) : Prop := ∃ cs, number c.flags c.lengthSpec c.base c.i = .ok cs

/- The arguments of a directive for an integer: its width and its number. -/
def integerArgs (d : Directive) (r : Radix) (args : List Word) : Except Stray (Int × Option Int) := do
  let (lengthSpec, args) ← fieldArg d.lengthSpec args
  let (_, args) ← fieldArg d.precSpec args
  let (i, _) ← integerArg r.signed (if d.specifier = ch 'p' then .z else d.length) args
  .ok (lengthSpec, i)

def intStrCall (d : Directive) (args : List Word) : Option IntStrCall :=
  match radix d.specifier with
  | none => none
  | some r =>
    match integerArgs d r args with
    | .ok (lengthSpec, some i) => some ⟨d.flags, lengthSpec, r.base, i⟩
    | _ => none

/-- The calls that the integer conversions of vprintf's loop make. -/
def intStrCalls (floats : Floats) : Nat → List Byte → Printing → List IntStrCall
  | 0, _, _ => []
  | _ + 1, [], _ => []
  | fuel + 1, c :: format, s =>
    if c = 0 then []
    else if c = ch '%' then
      match parseDirective format with
      | .error _ => []
      | .ok (d, format) =>
        (intStrCall d s.args).toList ++
          match convert floats d s with
          | .error _ => []
          | .ok s => intStrCalls floats fuel format s
    else intStrCalls floats fuel format (displayCharacter s c)

/- A C int. -/
def IsInt (x : Int) : Prop := -2147483648 ≤ x ∧ x < 2147483648

theorem isInt_int32 (x : Int) : IsInt (int32 x) := by
  have low := Int.le_bmod (x := x) (m := 4294967296) (by decide)
  have high := Int.bmod_lt (x := x) (m := 4294967296) (by decide)
  unfold IsInt int32
  omega

theorem isInt_toInt (w : Word) : IsInt w.toInt := ⟨BitVec.le_toInt w, BitVec.toInt_lt⟩

theorem parseDigits_isInt {n : Int} (int : IsInt n) (format : List Byte) : IsInt (parseDigits n format).1 := by
  induction format generalizing n with
  | nil => exact int
  | cons c format ih =>
    rw [parseDigits]
    split
    · exact ih (isInt_int32 _)
    · exact int

/- A width or a precision is an int, however it is given. -/
theorem fieldArg_isInt {field : Field} (value : ∀ n, field = .value n → IsInt n) {args rest : List Word} {n : Int}
    (taken : fieldArg field args = .ok (n, rest)) : IsInt n := by
  cases field with
  | value m =>
    cases taken
    exact value n rfl
  | star =>
    cases args with
    | nil => cases taken
    | cons w args =>
      cases taken
      exact isInt_toInt w

theorem parseDirective_isInt {format rest : List Byte} {d : Directive} (parsed : parseDirective format = .ok (d, rest))
    (n : Int) (value : d.lengthSpec = .value n) : IsInt n := by
  obtain ⟨f₁, f₂, f₃, -, width, -, -⟩ := parseDirective_ok parsed
  have digits := @parseDigits_isInt 0 ⟨by decide, by decide⟩ f₁
  simp only [parseField] at width
  split at width
  · rw [value] at width
    cases width
  · rw [value] at width
    cases width
    exact digits

theorem integerArg_isInt {signed : Bool} {length : Length} {args rest : List Word} {i : Int}
    (taken : integerArg signed length args = .ok (some i, rest)) : IsInt i := by
  have bytes : ∀ w : Word, IsInt (if signed then (w.setWidth 8).toInt else ((w.setWidth 8).toNat : Int)) := by
    intro w
    have low := BitVec.le_toInt (w.setWidth 8)
    have high := BitVec.toInt_lt (x := w.setWidth 8)
    have bits := (w.setWidth 8).isLt
    unfold IsInt
    split <;> omega
  have shorts : ∀ w : Word, IsInt (if signed then (w.setWidth 16).toInt else ((w.setWidth 16).toNat : Int)) := by
    intro w
    have low := BitVec.le_toInt (w.setWidth 16)
    have high := BitVec.toInt_lt (x := w.setWidth 16)
    have bits := (w.setWidth 16).isLt
    unfold IsInt
    split <;> omega
  cases length with
  | L => cases taken
  | q =>
    cases args with
    | nil => cases taken
    | cons low args =>
      cases args with
      | nil => cases taken
      | cons high args =>
        cases taken
        exact isInt_toInt low
  | none | l | j | z | t =>
    cases args with
    | nil => cases taken
    | cons w args =>
      cases taken
      exact isInt_toInt w
  | H =>
    cases args with
    | nil => cases taken
    | cons w args =>
      cases taken
      exact bytes w
  | h =>
    cases args with
    | nil => cases taken
    | cons w args =>
      cases taken
      exact shorts w

theorem radix_base {specifier : Byte} {r : Radix} (integer : radix specifier = some r) : r.base ∈ [8, 10, 16, 17] := by
  unfold radix at integer
  split at integer
  · cases integer
    decide
  · split at integer
    · cases integer
      decide
    · split at integer
      · cases integer
        decide
      · split at integer
        · cases integer
          decide
        · split at integer
          · cases integer
            decide
          · split at integer
            · cases integer
              decide
            · cases integer

/-- The calls have ints, and one of the four bases. -/
structure IntStrCall.Typed (c : IntStrCall) : Prop where
  width : IsInt c.lengthSpec
  base : c.base ∈ [8, 10, 16, 17]
  value : IsInt c.i

/-- A call has its width and its number from the arguments, the rest from the directive. -/
theorem intStrCall_some {d : Directive} {args : List Word} {c : IntStrCall} (called : intStrCall d args = some c) :
    ∃ r args₁ q args₂ rest, radix d.specifier = some r ∧ fieldArg d.lengthSpec args = .ok (c.lengthSpec, args₁) ∧
      fieldArg d.precSpec args₁ = .ok (q, args₂) ∧
      integerArg r.signed (if d.specifier = ch 'p' then .z else d.length) args₂ = .ok (some c.i, rest) ∧
      c = ⟨d.flags, c.lengthSpec, r.base, c.i⟩ := by
  unfold intStrCall at called
  split at called
  · cases called
  · rename_i r integer
    split at called
    · rename_i taken
      cases Option.some.inj called
      obtain ⟨⟨w, args₁⟩, width, taken⟩ := Runs.bind_ok.mp taken
      obtain ⟨⟨q, args₂⟩, precision, taken⟩ := Runs.bind_ok.mp taken
      obtain ⟨⟨j, rest⟩, number, taken⟩ := Runs.bind_ok.mp taken
      cases Except.ok.inj taken
      exact ⟨r, args₁, q, args₂, rest, integer, width, precision, number, rfl⟩
    · cases called

theorem intStrCall_typed {format rest : List Byte} {d : Directive} (parsed : parseDirective format = .ok (d, rest))
    {args : List Word} {c : IntStrCall} (called : intStrCall d args = some c) : c.Typed := by
  obtain ⟨r, args₁, q, args₂, left, integer, width, -, number, same⟩ := intStrCall_some called
  have base : c.base = r.base := congrArg IntStrCall.base same
  exact ⟨fieldArg_isInt (parseDirective_isInt parsed) width, base ▸ radix_base integer, integerArg_isInt number⟩

theorem intStrCalls_typed {floats : Floats} {fuel : Nat} {format : List Byte} {s : Printing} {c : IntStrCall}
    (mem : c ∈ intStrCalls floats fuel format s) : c.Typed := by
  induction fuel generalizing format s with
  | zero => cases mem
  | succ fuel ih =>
    cases format with
    | nil => cases mem
    | cons b format =>
      rw [intStrCalls] at mem
      split at mem
      · cases mem
      · split at mem
        · split at mem
          · cases mem
          · rename_i d rest parsed
            cases List.mem_append.mp mem with
            | inl here => exact intStrCall_typed parsed (Option.mem_toList.mp here)
            | inr later =>
              split at later
              · cases later
              · exact ih later
        · exact ih mem

/-- Whatever vprintf prints, a call of __int_str stays inside its arrays and its table if and
only if the number can be negated and the width leaves room for the text. -/
theorem int_str_inside (floats : Floats) (format : List Byte) (args : List Word) (mem : Nat → Byte) :
    ∀ c ∈ intStrCalls floats (format.length + 2) (format ++ [0]) ⟨[], 0, args, mem⟩,
      c.Inside ↔ c.i ≠ -2147483648 ∧ Room c.flags c.lengthSpec (unpadded c.flags c.base c.i) := by
  intro c called
  obtain ⟨⟨lowest, highest⟩, known, low, high⟩ := intStrCalls_typed called
  by_cases least : c.i = -2147483648
  · rw [IntStrCall.Inside, least, number_negated c.flags c.lengthSpec known]
    exact iff_of_false (fun ⟨cs, ran⟩ => by cases ran) (fun both => both.1 rfl)
  · have bounds := base_bounds known
    have range : -2147483648 < c.i := by omega
    rw [IntStrCall.Inside, number_inside c.flags bounds.1 bounds.2 range high lowest highest]
    exact ⟨fun room => ⟨least, room⟩, fun both => both.2⟩

/-- The first directive of a format makes its call. -/
theorem intStrCalls_first (floats : Floats) {fuel : Nat} {format rest : List Byte} {d : Directive} {s : Printing}
    {c : IntStrCall} (parsed : parseDirective format = .ok (d, rest)) (called : intStrCall d s.args = some c) :
    c ∈ intStrCalls floats (fuel + 1) (ch '%' :: format) s := by
  rw [intStrCalls, if_neg (by decide), if_pos rfl, parsed]
  dsimp only
  rw [called]
  exact List.mem_append_left _ List.mem_cons_self

/- %-*d, five wide. -/
theorem int_str_inside_star :
    let floats : Floats := fun _ _ _ _ _ => .error .argument
    ∃ c ∈ intStrCalls floats 6 ([ch '%', ch '-', ch '*', ch 'd'] ++ [0]) ⟨[], 0, [5, 30], zeros⟩, c.Inside := by
  intro floats
  have called : (⟨{ noFlags with leftJustify := true }, 5, 10, 30⟩ : IntStrCall) ∈
      intStrCalls floats 6 ([ch '%', ch '-', ch '*', ch 'd'] ++ [0]) ⟨[], 0, [5, 30], zeros⟩ :=
    intStrCalls_first floats rfl rfl
  refine ⟨_, called, (int_str_inside floats [ch '%', ch '-', ch '*', ch 'd'] [5, 30] zeros _ called).mpr ?_⟩
  exact ⟨by decide, by decide, by decide⟩

/-- A width of 256, and the least int. -/
theorem int_str_overruns :
    let floats : Floats := fun _ _ _ _ _ => .error .argument
    (∃ c ∈ intStrCalls floats 7 ([ch '%', ch '2', ch '5', ch '6', ch 'd'] ++ [0]) ⟨[], 0, [1], zeros⟩, ¬ c.Inside) ∧
      ∃ c ∈ intStrCalls floats 4 ([ch '%', ch 'd'] ++ [0]) ⟨[], 0, [0x80000000], zeros⟩, ¬ c.Inside := by
  intro floats
  constructor
  · refine ⟨⟨noFlags, 256, 10, 1⟩, intStrCalls_first floats rfl rfl, fun inside => ?_⟩
    have room := (number_inside noFlags (by decide) (by decide) (by decide) (by decide) (by decide) (by decide)).mp inside
    exact absurd room.2 (by decide)
  · refine ⟨⟨noFlags, 0, 10, -2147483648⟩, intStrCalls_first floats rfl rfl, ?_⟩
    rintro ⟨cs, ran⟩
    cases (number_negated noFlags 0 (by decide)).symm.trans ran

end Icix.Libc
