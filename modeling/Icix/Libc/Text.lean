import Icix.Libc.Decimal

/-! What vprintf prints for formats of literal text with %d, %s and %c in it. -/
namespace Icix.Libc
open Bytes

/-- vprintf gets to the end of the format and has printed the text by then. -/
def Types (floats : Floats) (mem : Nat → Byte) (format : List Byte) (args : List Word) (text : List Byte) : Prop :=
  ∀ out chars, ∃ s, print floats format ⟨out, chars, args, mem⟩ = .ok s ∧ s.out = out ++ text

/- The bytes of a string literal. -/
def bytes (s : String) : List Byte := s.toList.map ch

section Types

variable {floats : Floats} {mem : Nat → Byte} {format text : List Byte} {args : List Word}

theorem types_nul (args : List Word) : Types floats mem [0] args [] :=
  fun out _ => ⟨_, print_nul floats [] _, (List.append_nil out).symm⟩

theorem types_plain (cs : List Byte) (plain : ∀ c ∈ cs, c ≠ 0 ∧ c ≠ ch '%') (rest : Types floats mem format args text) :
    Types floats mem (cs ++ format) args (cs ++ text) := by
  induction cs with
  | nil => exact rest
  | cons c cs ih =>
    intro out chars
    obtain ⟨nonzero, literal⟩ := plain c List.mem_cons_self
    have shorter := ih (fun d inside => plain d (List.mem_cons_of_mem c inside))
    simpa [print_char floats _ _ nonzero literal, displayCharacter] using shorter (out ++ [c]) (int32 (chars + 1))

theorem types_bare {c : Byte} (short : c ∈ [ch '%', ch 'c', ch 'd', ch 's']) {cs : List Byte} {more : List Word}
    (emitted : emit floats (bare c) 0 6 mem args = .ok (cs, more)) (rest : Types floats mem format more text) :
    Types floats mem (ch '%' :: c :: format) args (cs ++ text) := by
  intro out chars
  have shown : c ≠ ch 'n' := by
    rintro rfl
    exact absurd short (by decide)
  rw [print_parsed floats _ _ (parse_bare short format), convert_text shown rfl rfl]
  simp only [emitted, Except.map, Runs.ok_bind]
  rw [displayString_fields]
  simpa using rest (out ++ cs) _

theorem types_string {p : Word} {cs : List Byte} (holds : Holds (view mem p.toNat) cs) (short : cs.length < 2147483648)
    (rest : Types floats mem format args text) :
    Types floats mem (ch '%' :: ch 's' :: format) (p :: args) (cs ++ text) := by
  have emitted : emit floats (bare (ch 's')) 0 6 mem (p :: args) = .ok (cs, args) := by
    change emitString mem (p :: args) = _
    simp only [emitString, vaArg, Runs.ok_bind, readString_eq_some.mpr ⟨holds, short⟩]
  exact types_bare (by decide) emitted rest

theorem types_percentD {v : Word} (least : v.toInt ≠ -2147483648) (rest : Types floats mem format args text) :
    Types floats mem (ch '%' :: ch 'd' :: format) (v :: args) (cutDecimal v.toInt ++ text) := by
  have low := v.le_toInt
  have high := v.toInt_lt
  have emitted : emit floats (bare (ch 'd')) 0 6 mem (v :: args) = .ok (cutDecimal v.toInt, args) := by
    rw [emit_percentD, number_decimal (by omega) (by omega)]
    rfl
  exact types_bare (by decide) emitted rest

/-- Literal text, one %d and literal text. -/
theorem types_number (front back : List Byte) (plain : ∀ c ∈ front ++ back, c ≠ 0 ∧ c ≠ ch '%') {v : Word}
    (least : v.toInt ≠ -2147483648) :
    Types floats mem (front ++ ch '%' :: ch 'd' :: (back ++ [0])) [v] (front ++ (cutDecimal v.toInt ++ back)) := by
  have tail : Types floats mem (back ++ [0]) [] (back ++ []) :=
    types_plain back (fun c inside => plain c (List.mem_append_right _ inside)) (types_nul [])
  have number := types_percentD least tail
  have whole := types_plain front (fun c inside => plain c (List.mem_append_left _ inside)) number
  simpa using whole

theorem vprintf_types (short : format.length < 2147483648) (types : Types floats mem (format ++ [0]) args text) :
    ∃ s, vprintf floats format args mem = .ok s ∧ s.out = text := by
  simpa [vprintf, short] using types [] 0

end Types

end Icix.Libc
